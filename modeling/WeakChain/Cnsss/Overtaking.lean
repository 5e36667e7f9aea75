import WeakChain.Cnsss.ListenToOne
import WeakChain.Lib.Pipeline

/-!
# Requests handled at the same time

The servers call `handle_execute_for_primary` from several threads, and nothing in it is locked: the
primary executes the command, records it, and sends it to one sub after another, and between any two
of these steps other requests may take steps of theirs.

After a request has been executed, its steps are the stages of a pipeline: `0` is to record it, and
`k + 1` to send it to the sub number `k`.  The history and what each sub has executed are what the
pipeline's stages list, so they are all in the order in which the primary has executed the commands
as long as no request overtakes another at any of its steps (`Busy.sameOrder`).
-/

namespace WeakChain

namespace ListenToOne

open Pipeline

variable {X : Type*} (E : IForConsensusExecutable X)

/-- One step of a request that the primary has executed. -/
def Group.perform (g : Group X) (r : Runner Cmd) : Group X :=
  match r.stage with
  | 0 =>
    { g with
      primary.commandHistory :=
        if g.primary.remember then g.primary.commandHistory ++ [r.item]
        else g.primary.commandHistory }
  | k + 1 =>
    match g.primary.knownSubs[k]? with
    | none => g
    | some ep =>
      { g with subs := (send E g.primary.listenedEndpoint r.item g.subs ep .answered).1 }

theorem Group.perform_record {g : Group X} {r : Runner Cmd} (hstage : r.stage = 0) :
    g.perform E r =
      { g with
        primary.commandHistory :=
          if g.primary.remember then g.primary.commandHistory ++ [r.item]
          else g.primary.commandHistory } := by
  rw [perform, hstage]

theorem Group.perform_send {g : Group X} {r : Runner Cmd} {k : ℕ} {ep : Endpoint}
    (hstage : r.stage = k + 1) (hep : g.primary.knownSubs[k]? = some ep) :
    g.perform E r =
      { g with subs := (send E g.primary.listenedEndpoint r.item g.subs ep .answered).1 } := by
  rw [perform, hstage]
  simp only [hep]

section Alone

variable (primary : Endpoint) (data : Cmd)

theorem Group.isSome_send {subs : Endpoint → Option (Sub X)} {ep ep' : Endpoint} {f : Fate}
    (h : (subs ep').isSome) : ((send E primary data subs ep f).1 ep').isSome := by
  by_cases hep : ep' = ep
  · subst hep
    rw [send]
    split
    · exact h
    · split_ifs
      · exact h
      · simp
  · rw [send_of_ne _ _ _ hep]
    exact h

theorem Group.broadcast_answered {subs : Endpoint → Option (Sub X)} {l : List Endpoint}
    (h : ∀ ep ∈ l, (subs ep).isSome) :
    broadcast E primary data l [] subs =
      (l, l.foldl (fun subs ep => (send E primary data subs ep .answered).1) subs) := by
  induction l generalizing subs with
  | nil => rfl
  | cons ep l ih =>
    obtain ⟨s, hs⟩ := Option.isSome_iff_exists.1 (h ep List.mem_cons_self)
    have hanswer : (send E primary data subs ep .answered).2.isSome := by
      simp [send, hs, Fate.answer]
    rw [broadcast, List.headD_nil, List.tail_nil,
      ih fun ep' hep' => isSome_send E primary data (h ep' (List.mem_cons_of_mem _ hep'))]
    simp [hanswer]

/-- The sends to the first `n` subs. -/
theorem Group.perform_range (g : Group X) {n : ℕ} (hn : n ≤ g.primary.knownSubs.length) :
    (List.range n).foldl (fun g' k => g'.perform E ⟨data, k + 1⟩) g =
      { g with
        subs := (g.primary.knownSubs.take n).foldl
          (fun subs ep => (send E g.primary.listenedEndpoint data subs ep .answered).1)
          g.subs } := by
  induction n with
  | zero => rfl
  | succ n ih =>
    have hep : g.primary.knownSubs[n]? = some g.primary.knownSubs[n] :=
      List.getElem?_eq_getElem hn
    rw [List.range_succ, List.foldl_append, ih (Nat.le_of_succ_le hn), List.take_add_one, hep,
      List.foldl_append]
    exact perform_send E (r := ⟨data, n + 1⟩) rfl hep

/-- **A request that is handled alone** takes all its steps: this is the handler. -/
theorem Group.handleExecuteForPrimary_eq_perform {g : Group X}
    (h : ∀ ep ∈ g.primary.knownSubs, (g.subs ep).isSome) (endpoint : Endpoint) :
    (g.handleExecuteForPrimary E endpoint data []).1 =
      let r := E.execute g.primary.exe data
      (List.range (g.primary.knownSubs.length + 1)).foldl (fun g' k => g'.perform E ⟨r.cmd, k⟩)
        { g with primary.exe := r.state } := by
  rw [List.range_succ_eq_map, List.foldl_cons, List.foldl_map]
  have hrecord := perform_record E (r := ⟨(E.execute g.primary.exe data).cmd, 0⟩)
    (g := { g with primary.exe := (E.execute g.primary.exe data).state }) rfl
  rw [hrecord]
  refine Eq.trans ?_ (perform_range E _ _ (Nat.le_refl _)).symm
  rw [List.take_length, handleExecuteForPrimary, broadcast_answered E _ _ h]

end Alone

/-- A group whose primary handles requests. -/
structure Busy (X : Type*) where
  group : Group X
  /-- The requests, as the primary's executor left them, in the order it executed them. -/
  requests : List (Runner Cmd) := []
  /-- The commands the primary has executed. -/
  order : List Cmd := []

namespace Busy

/-- What can happen. -/
inductive Event
  /-- The primary executes a command. -/
  | execute (data : Cmd)
  /-- The request number `i` takes its next step. -/
  | step (i : ℕ)
  deriving DecidableEq

/-- The group after an event. -/
def act (s : Busy X) : Event → Busy X
  | .execute data =>
    let r := E.execute s.group.primary.exe data
    { group := { s.group with primary.exe := r.state }
      requests := s.requests ++ [⟨r.cmd, 0⟩]
      order := s.order ++ [r.cmd] }
  | .step i =>
    match s.requests[i]? with
    | none => s
    | some r => { s with group := s.group.perform E r, requests := advance s.requests i }

theorem act_step {s : Busy X} {i : ℕ} {r : Runner Cmd} (hr : s.requests[i]? = some r) :
    s.act E (.step i) =
      { s with group := s.group.perform E r, requests := advance s.requests i } := by
  simp only [act, hr]

/-- A request has steps to take until it has been sent to every sub. -/
def Enabled (s : Busy X) : Event → Prop
  | .execute _ => True
  | .step i => ∃ r ∈ s.requests[i]?, r.stage ≤ s.group.primary.knownSubs.length

instance (s : Busy X) : (l : Event) → Decidable (s.Enabled l)
  | .execute _ => isTrue trivial
  | .step i =>
    inferInstanceAs (Decidable (∃ r ∈ s.requests[i]?, r.stage ≤ s.group.primary.knownSubs.length))

/-- The runs of a group whose primary remembers the commands and knows some subs, all listening and
in step with it. -/
def sys : Sys (Busy X) Event where
  init s :=
    s.group.Replicated ∧ (∀ ep ∈ s.group.primary.knownSubs, (s.group.subs ep).isSome) ∧
      s.requests = [] ∧ s.order = s.group.primary.commandHistory
  enabled s l := s.Enabled l
  act s l := s.act E l

instance (s : Busy X) (l : Event) : Decidable ((sys E).enabled s l) :=
  inferInstanceAs (Decidable (s.Enabled l))

/-- A request takes a step only if all that were executed before it have taken that step. -/
def InTurn (s : Busy X) : Event → Prop
  | .execute _ => True
  | .step i => Next s.requests i

instance (s : Busy X) : (l : Event) → Decidable (s.InTurn l)
  | .execute _ => isTrue trivial
  | .step i => inferInstanceAs (Decidable (Next s.requests i))

/-- The primary, its history and every sub have the commands in the same order: what the others have
so far is a beginning of what the primary has executed, and all of it when no request is left. -/
structure SameOrder (s : Busy X) : Prop where
  history : s.group.primary.commandHistory <+: s.order
  executed : ∀ ep ∈ s.group.primary.knownSubs, ∃ sub, s.group.subs ep = some sub ∧
    sub.executed <+: s.order
  done : (∀ r ∈ s.requests, s.group.primary.knownSubs.length < r.stage) →
    s.group.primary.commandHistory = s.order ∧
      ∀ ep ∈ s.group.primary.knownSubs, ∃ sub, s.group.subs ep = some sub ∧ sub.executed = s.order

/-- Every list is what there was before, and what has passed its stage. -/
structure Staged (base : List Cmd) (s : Busy X) : Prop where
  remember : s.group.primary.remember = true
  nodup : s.group.primary.knownSubs.Nodup
  inOrder : InOrder s.requests
  order : s.order = base ++ s.requests.map Runner.item
  history : s.group.primary.commandHistory = base ++ passed 0 s.requests
  executed : ∀ k, ∀ ep ∈ s.group.primary.knownSubs[k]?, ∃ sub, s.group.subs ep = some sub ∧
    sub.executed = base ++ passed (k + 1) s.requests

namespace Staged

variable {E} {base : List Cmd} {s : Busy X}

theorem execute (h : s.Staged base) (data : Cmd) : (s.act E (.execute data)).Staged base where
  remember := h.remember
  nodup := h.nodup
  inOrder := h.inOrder.append _
  order := by
    simp [act, h.order]
  history := by
    simp [act, h.history, passed_append, passed_cons]
  executed k ep hep := by
    obtain ⟨sub, hsub, hexec⟩ := h.executed k ep hep
    exact ⟨sub, hsub, by simp [act, hexec, passed_append, passed_cons]⟩

theorem record (h : s.Staged base) {i : ℕ} {r : Runner Cmd} (hr : s.requests[i]? = some r)
    (hnext : Next s.requests i) (hstage : r.stage = 0) :
    (s.act E (.step i)).Staged base := by
  have hself := hstage ▸ passed_advance_self h.inOrder hr
  rw [act_step E hr, Group.perform_record E hstage, if_pos h.remember]
  refine ⟨h.remember, h.nodup, h.inOrder.advance hnext, ?_, ?_, ?_⟩
  · rw [h.order, map_item_advance]
  · rw [hself, h.history, List.append_assoc]
  · intro k ep hep
    obtain ⟨sub, hsub, hexec⟩ := h.executed k ep hep
    exact ⟨sub, hsub, by rw [hexec, passed_advance_of_ne hr (by omega)]⟩

theorem send (h : s.Staged base) {i k : ℕ} {r : Runner Cmd} {ep : Endpoint}
    (hr : s.requests[i]? = some r) (hnext : Next s.requests i) (hstage : r.stage = k + 1)
    (hep : s.group.primary.knownSubs[k]? = some ep) : (s.act E (.step i)).Staged base := by
  have hself := hstage ▸ passed_advance_self h.inOrder hr
  obtain ⟨sub, hsub, hexec⟩ := h.executed k ep hep
  rw [act_step E hr, Group.perform_send E hstage hep]
  refine ⟨h.remember, h.nodup, h.inOrder.advance hnext, ?_, ?_, ?_⟩
  · rw [h.order, map_item_advance]
  · rw [h.history, passed_advance_of_ne hr (by omega)]
  · intro j ep' hep'
    by_cases hj : j = k
    · subst hj
      obtain rfl : ep = ep' := Option.some.inj (hep.symm.trans hep')
      refine ⟨(sub.handleExecute E s.group.primary.listenedEndpoint r.item).1, ?_, ?_⟩
      · simp [Group.send, hsub]
      · rw [hself, Sub.handleExecute, hexec, List.append_assoc]
    · have hne : ep' ≠ ep := by
        rintro rfl
        obtain ⟨hlt, -⟩ := List.getElem?_eq_some_iff.1 hep
        exact hj ((List.getElem?_inj hlt h.nodup).1 (hep.trans hep'.symm)).symm
      obtain ⟨sub', hsub', hexec'⟩ := h.executed j ep' hep'
      refine ⟨sub', ?_, by rw [hexec', passed_advance_of_ne hr (by omega)]⟩
      exact (Group.send_of_ne _ _ _ hne).trans hsub'

theorem toSameOrder (h : s.Staged base) : s.SameOrder where
  history := by
    rw [h.history, h.order]
    exact (List.prefix_append_right_inj _).2 (passed_isPrefix h.inOrder)
  executed ep hep := by
    obtain ⟨k, hk⟩ := List.mem_iff_getElem?.1 hep
    obtain ⟨sub, hsub, hexec⟩ := h.executed k ep hk
    refine ⟨sub, hsub, ?_⟩
    rw [hexec, h.order]
    exact (List.prefix_append_right_inj _).2 (passed_isPrefix h.inOrder)
  done hdone := by
    refine ⟨?_, fun ep hep => ?_⟩
    · rw [h.history, h.order, passed_eq fun r hr => Nat.zero_lt_of_lt (hdone r hr)]
    · obtain ⟨k, hk⟩ := List.mem_iff_getElem?.1 hep
      obtain ⟨hlt, -⟩ := List.getElem?_eq_some_iff.1 hk
      obtain ⟨sub, hsub, hexec⟩ := h.executed k ep hk
      refine ⟨sub, hsub, ?_⟩
      rw [hexec, h.order, passed_eq fun r hr => Nat.lt_of_le_of_lt hlt (hdone r hr)]

end Staged

/-- **One order.**  If no request overtakes another, the primary, its history and every sub have the
commands in the same order. -/
theorem sameOrder {s : Busy X} (h : ((sys E).only InTurn).Reach s) : s.SameOrder := by
  suffices ∃ base, s.Staged base from this.choose_spec.toSameOrder
  refine h.invariant (I := fun s => ∃ base, s.Staged base) ?_ ?_
  · rintro s ⟨hrep, hlisten, hreq, horder⟩
    refine ⟨s.order, hrep.remember, hrep.nodup, hreq ▸ List.Pairwise.nil, by simp [hreq],
      by simp [hreq, horder], fun k ep hep => ?_⟩
    have hmem := List.mem_of_getElem? hep
    obtain ⟨sub, hsub⟩ := Option.isSome_iff_exists.1 (hlisten ep hmem)
    exact ⟨sub, hsub, by simp [hreq, horder, hrep.executed ep hmem sub hsub]⟩
  · rintro s l - ⟨base, hs⟩ ⟨henabled, hturn⟩
    refine ⟨base, ?_⟩
    cases l with
    | execute data => exact hs.execute data
    | step i =>
      obtain ⟨r, hr, hle⟩ := henabled
      cases hstage : r.stage with
      | zero => exact hs.record hr hturn hstage
      | succ k =>
        have hlt : k < s.group.primary.knownSubs.length := by omega
        exact hs.send hr hturn hstage (List.getElem?_eq_getElem hlt)

/-- `N1` is the primary of `N2` and `N3`. -/
def mockBusy : Busy Unit where
  group :=
    { primary := ⟨ascii "N1", (), true, [ascii "N2", ascii "N3"], []⟩
      subs := fun ep =>
        if ep ∈ [ascii "N2", ascii "N3"] then some ⟨ep, (), []⟩ else none }

theorem init_mockBusy : (sys mockExecutable).init mockBusy := by
  refine ⟨⟨rfl, by decide, fun ep hep s hs => ?_⟩, fun ep hep => ?_, rfl, rfl⟩
  · have hmem : ep ∈ [ascii "N2", ascii "N3"] := hep
    rw [mockBusy] at hs
    simp only [hmem, ↓reduceIte, Option.some.injEq] at hs
    rw [← hs]
    rfl
  · have hmem : ep ∈ [ascii "N2", ascii "N3"] := hep
    simp only [mockBusy, hmem, ↓reduceIte, Option.isSome_some]

/-- Two requests, the second at the heels of the first. -/
theorem sameOrder_two :
    ∃ s : Busy Unit, ((sys mockExecutable).only InTurn).Reach s ∧ s.order.length = 2 ∧
      (∀ r ∈ s.requests, s.group.primary.knownSubs.length < r.stage) ∧ s.SameOrder := by
  obtain ⟨s, hs, hlen, hdone⟩ := Sys.exists_reach_of_exec (A := (sys mockExecutable).only InTurn)
    (s := mockBusy)
    (P := fun s => s.order.length = 2 ∧
      ∀ r ∈ s.requests, s.group.primary.knownSubs.length < r.stage) init_mockBusy
    [.execute (ascii "a"), .execute (ascii "b"), .step 0, .step 0, .step 1, .step 0, .step 1,
      .step 1]
    (by decide +kernel)
  exact ⟨s, hs, hlen, hdone, sameOrder mockExecutable hs⟩

/-- Two requests that overtake each other: the primary has executed `a` and `b`, its history has
`b` first, `N2` has executed `a` first, and `N3` has executed `b` first. -/
theorem not_sameOrder : ¬∀ s : Busy Unit, (sys mockExecutable).Reach s → s.SameOrder := by
  intro hall
  obtain ⟨s, hs, hdone, horder, -, -, hhist⟩ := Sys.exists_reach_of_exec (A := sys mockExecutable)
    (s := mockBusy)
    (P := fun s => (∀ r ∈ s.requests, s.group.primary.knownSubs.length < r.stage) ∧
      s.order = [ascii "a", ascii "b"] ∧
      (s.group.subs (ascii "N2")).map Sub.executed = some [ascii "a", ascii "b"] ∧
      (s.group.subs (ascii "N3")).map Sub.executed = some [ascii "b", ascii "a"] ∧
      s.group.primary.commandHistory = [ascii "b", ascii "a"]) init_mockBusy
    [.execute (ascii "a"), .execute (ascii "b"), .step 1, .step 0, .step 0, .step 1, .step 1,
      .step 0]
    (by decide +kernel)
  have heq := ((hall s hs).done hdone).1
  rw [horder, hhist] at heq
  exact absurd heq (by decide)

end Busy

end ListenToOne

end WeakChain
