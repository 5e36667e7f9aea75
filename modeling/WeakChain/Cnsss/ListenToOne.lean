import WeakChain.Cnsss.Basic
import WeakChain.Core.Codec
import WeakChain.Lib.Run
import Mathlib.Data.List.Nodup

/-!
# Listening to one primary

`ListenToOneConsensus` has a fixed primary.  It executes every command, remembers it, and sends it
to the subs it knows one after another; a sub that does not answer is kicked off the group.  A node
that starts asks to be added, and gets a ticket with all the commands so far.

A sub's commands come from two sources, its ticket and the broadcasts after it.  They fit together
as long as the primary knows every sub once: `Group.executed_eq_commandHistory`.  Nothing sees to
that, since `handle_add_new_node` adds whoever asks: a node that restarts before a broadcast has
missed it is known twice, and executes every later command twice
(`Group.not_executed_eq_commandHistory`).
-/

namespace WeakChain

namespace ListenToOne

/-- `YouAreInTicket`: what a newcomer gets. -/
structure YouAreInTicket where
  msg : Bytes
  commandHistory : List Cmd

namespace YouAreInTicket

/-- `YouAreInTicket::toPb`. -/
def toPb (t : YouAreInTicket) : hiPb.YouAreInTicket := ⟨t.msg, t.commandHistory⟩

/-- `YouAreInTicket::fromPb`. -/
def fromPb (pb : hiPb.YouAreInTicket) : YouAreInTicket := ⟨pb.msg, pb.commandHistory⟩

variable [Pb hiPb.YouAreInTicket]

/-- `YouAreInTicket::toString`. -/
def toString (t : YouAreInTicket) : Bytes := serializeAsString t.toPb

/-- `YouAreInTicket::fromString`; nothing if it returns `false`. -/
def fromString (s : Bytes) : Option YouAreInTicket :=
  let r := parseFromString (M := hiPb.YouAreInTicket) s
  if r.1 then some (fromPb r.2) else none

theorem fromString_toString (hpb : Pb.ReadsBack hiPb.YouAreInTicket) (t : YouAreInTicket) :
    fromString t.toString = some t := by
  rw [fromString, toString, hpb]
  rfl

end YouAreInTicket

/-- The consensus of the primary. -/
structure Primary (X : Type*) where
  listenedEndpoint : Endpoint
  exe : X
  remember : Bool
  knownSubs : List Endpoint := []
  commandHistory : List Cmd := []

/-- The consensus of a sub that is listening. -/
structure Sub (X : Type*) where
  listenedEndpoint : Endpoint
  exe : X
  /-- The commands it has executed since it started. -/
  executed : List Cmd := []

/-- What becomes of a message and its answer. -/
inductive Fate
  /-- It arrives, and is answered. -/
  | answered
  /-- It does not arrive. -/
  | lost
  /-- It arrives, but the answer does not. -/
  | unanswered
  deriving DecidableEq

/-- The answer, as the sender sees it. -/
def Fate.answer (f : Fate) (r : Bytes) : Option Bytes :=
  match f with
  | .answered => some r
  | _ => none

/-- `pure::get_data_for_log`. -/
def getDataForLog (data : Bytes) : Bytes :=
  ascii "<--binary data of size " ++ decimal data.length ++ ascii ">"

section Handlers

variable {X : Type*} (E : IForConsensusExecutable X)

/-- `handle_add_new_node`. -/
def Primary.handleAddNewNode [Pb hiPb.YouAreInTicket] (p : Primary X) (endpoint _data : Bytes) :
    Primary X × Bytes :=
  let msg := ascii "Dear " ++ endpoint ++ ascii ", you're in. " ++ p.listenedEndpoint
  ({ p with knownSubs := p.knownSubs ++ [endpoint] },
    YouAreInTicket.toString ⟨msg, p.commandHistory⟩)

/-- What a newcomer asks the primary with. -/
def askForEntry (primary listenedEndpoint : Endpoint) : Bytes :=
  ascii "Hi primary \x1b[36m" ++ primary ++ ascii ";\x1b[0m" ++
    ascii "\tplease add me in the group;" ++ ascii "\tRegards " ++ listenedEndpoint

/-- What `ask_primary_for_entry` does with the answer: a node that gets no ticket, or cannot read
it, throws and never listens. -/
def Sub.enter [Pb hiPb.YouAreInTicket] (listenedEndpoint : Endpoint) (x : X) (r : Option Bytes) :
    Option (Sub X) :=
  (r.bind YouAreInTicket.fromString).map fun t =>
    ⟨listenedEndpoint, (E.executeAll x t.commandHistory).1, t.commandHistory⟩

/-- The branch of `handle_execute_for_sub` for what comes from the primary. -/
def Sub.handleExecute (s : Sub X) (primary : Endpoint) (data : Cmd) : Sub X × Bytes :=
  let r := E.execute s.exe data
  ({ s with exe := r.state, executed := s.executed ++ [data] },
    ascii "Dear boss " ++ primary ++ ascii ";\tMission[" ++ getDataForLog r.cmd ++
      ascii "] is accomplished;\tRegards\t" ++ s.listenedEndpoint)

end Handlers

/-- The primary, and the subs that are listening. -/
structure Group (X : Type*) where
  primary : Primary X
  subs : Endpoint → Option (Sub X)

namespace Group

/-- What can happen.  Requests are handled one at a time. -/
inductive Event (X : Type*)
  /-- A node starts, or starts again, at `ep`, with the executor `x`. -/
  | start (ep : Endpoint) (x : X) (f : Fate)
  /-- The node at `ep` goes down. -/
  | stop (ep : Endpoint)
  /-- The primary gets a command; the fates are those of what it sends, in order. -/
  | call (endpoint : Endpoint) (data : Cmd) (fates : List Fate)
  /-- The sub at `ep` gets a command from somebody else than the primary.  A call that ends in an
  exception takes the node down unless it is caught. -/
  | callSub (ep : Endpoint) (data : Cmd) (f : Fate) (fates : List Fate) (caught : Bool)
  deriving DecidableEq

section Steps

variable {X : Type*} (E : IForConsensusExecutable X)

/-- The primary sends a command to `ep`: the subs afterwards, and the answer. -/
def send (primary : Endpoint) (data : Cmd) (subs : Endpoint → Option (Sub X)) (ep : Endpoint)
    (f : Fate) : (Endpoint → Option (Sub X)) × Option Bytes :=
  match subs ep with
  | none => (subs, none)
  | some s =>
    if f = .lost then (subs, none)
    else
      let r := s.handleExecute E primary data
      (Function.update subs ep (some r.1), f.answer r.2)

/-- The loop over `known_subs`: the subs that remain known, and the subs afterwards.  A sub that is
kicked off is erased, and the iterator is then at the next one. -/
def broadcast (primary : Endpoint) (data : Cmd) :
    List Endpoint → List Fate → (Endpoint → Option (Sub X)) →
      List Endpoint × (Endpoint → Option (Sub X))
  | [], _, subs => ([], subs)
  | ep :: l, fates, subs =>
    let r := send E primary data subs ep (fates.headD .answered)
    let t := broadcast primary data l fates.tail r.1
    (if r.2.isSome then ep :: t.1 else t.1, t.2)

/-- `handle_execute_for_primary`. -/
def handleExecuteForPrimary (g : Group X) (_endpoint : Endpoint) (data : Cmd) (fates : List Fate) :
    Group X × Bytes :=
  let p := g.primary
  let r := E.execute p.exe data
  let b := broadcast E p.listenedEndpoint r.cmd p.knownSubs fates g.subs
  ({ primary :=
      { p with
        exe := r.state
        knownSubs := b.1
        commandHistory := if p.remember then p.commandHistory ++ [r.cmd] else p.commandHistory }
     subs := b.2 },
    ascii "Dear Client,your request has been carried out by our group.\tMembers: " ++
      List.intercalate (ascii ",") b.1 ++ ascii ";\tSincerely;\t" ++ p.listenedEndpoint ++
      ascii ",The primary;")

/-- The node at `ep` is down. -/
def stop (g : Group X) (ep : Endpoint) : Group X :=
  { g with subs := Function.update g.subs ep none }

/-- The constructor of a sub: it asks for entry, and listens if it gets a ticket. -/
def start [Pb hiPb.YouAreInTicket] (g : Group X) (ep : Endpoint) (x : X) (f : Fate) : Group X :=
  if f = .lost then g.stop ep
  else
    let r := g.primary.handleAddNewNode ep (askForEntry g.primary.listenedEndpoint ep)
    { primary := r.1, subs := Function.update g.subs ep (Sub.enter E ep x (f.answer r.2)) }

/-- The branch of `handle_execute_for_sub` that forwards the command to the primary. -/
def callSub (g : Group X) (ep : Endpoint) (data : Cmd) (f : Fate) (fates : List Fate)
    (caught : Bool) : Group X :=
  let g' := if f = .lost then g else (g.handleExecuteForPrimary E ep data fates).1
  -- Without an answer it throws; `handle_execute` is `noexcept`.
  if f = .answered ∨ caught then g' else g'.stop ep

/-- The group after an event. -/
def act [Pb hiPb.YouAreInTicket] (g : Group X) : Event X → Group X
  | .start ep x f => g.start E ep x f
  | .stop ep => g.stop ep
  | .call endpoint data fates => (g.handleExecuteForPrimary E endpoint data fates).1
  | .callSub ep data f fates caught => g.callSub E ep data f fates caught

end Steps

/-- The events that can happen: a sub has an endpoint of its own, and one that is down gets no
commands. -/
def Enabled {X : Type*} (g : Group X) : Event X → Prop
  | .start ep _ _ => ep ≠ g.primary.listenedEndpoint
  | .stop ep => ep ≠ g.primary.listenedEndpoint
  | .call _ _ _ => True
  | .callSub ep _ _ _ _ => (g.subs ep).isSome

instance {X : Type*} (g : Group X) : (l : Event X) → Decidable (g.Enabled l)
  | .start ep _ _ => inferInstanceAs (Decidable (ep ≠ g.primary.listenedEndpoint))
  | .stop ep => inferInstanceAs (Decidable (ep ≠ g.primary.listenedEndpoint))
  | .call _ _ _ => isTrue trivial
  | .callSub ep _ _ _ _ => inferInstanceAs (Decidable (g.subs ep).isSome)

section Broadcast

variable {X : Type*} (E : IForConsensusExecutable X) (primary : Endpoint) (data : Cmd)
  {subs : Endpoint → Option (Sub X)} {ep : Endpoint} {f : Fate}

theorem send_of_ne {ep' : Endpoint} (h : ep' ≠ ep) :
    (send E primary data subs ep f).1 ep' = subs ep' := by
  rw [send]
  split
  · rfl
  · split_ifs
    · rfl
    · exact Function.update_of_ne h ..

/-- A sub that answers has executed the command, once. -/
theorem send_self (h : (send E primary data subs ep f).2.isSome) :
    ∃ s, subs ep = some s ∧
      (send E primary data subs ep f).1 ep = some (s.handleExecute E primary data).1 := by
  rw [send] at h ⊢
  cases hs : subs ep with
  | none => simp [hs] at h
  | some s =>
    simp only [hs] at h ⊢
    split_ifs at h ⊢
    · simp at h
    · exact ⟨s, rfl, Function.update_self ..⟩

theorem broadcast_sublist (l : List Endpoint) (fates : List Fate)
    (subs : Endpoint → Option (Sub X)) : (broadcast E primary data l fates subs).1.Sublist l := by
  induction l generalizing fates subs with
  | nil => exact .refl _
  | cons ep l ih =>
    rw [broadcast]
    simp only
    split_ifs
    · exact (ih _ _).cons_cons ep
    · exact (ih _ _).cons ep

theorem broadcast_of_notMem {l : List Endpoint} (fates : List Fate) (h : ep ∉ l) :
    (broadcast E primary data l fates subs).2 ep = subs ep := by
  induction l generalizing fates subs with
  | nil => rfl
  | cons ep' l ih =>
    rw [List.mem_cons, not_or] at h
    rw [broadcast, ih _ h.2, send_of_ne _ _ _ h.1]

/-- **A sub that is known once and stays known has executed the command once.** -/
theorem broadcast_of_mem {l : List Endpoint} (fates : List Fate) (hl : l.Nodup)
    (h : ep ∈ (broadcast E primary data l fates subs).1) :
    ∃ s, subs ep = some s ∧
      (broadcast E primary data l fates subs).2 ep = some (s.handleExecute E primary data).1 := by
  induction l generalizing fates subs with
  | nil => simp [broadcast] at h
  | cons ep' l ih =>
    rw [List.nodup_cons] at hl
    have hsub := broadcast_sublist E primary data l fates.tail
      (send E primary data subs ep' (fates.headD .answered)).1
    rw [broadcast] at h ⊢
    simp only at h ⊢
    by_cases heq : ep = ep'
    · subst heq
      rw [broadcast_of_notMem _ _ _ _ hl.1]
      apply send_self
      by_contra hnone
      rw [if_neg hnone] at h
      exact hl.1 (hsub.subset h)
    · have hmem : ep ∈ (broadcast E primary data l fates.tail
          (send E primary data subs ep' (fates.headD .answered)).1).1 := by
        split_ifs at h with hsome
        · exact (List.mem_cons.1 h).resolve_left heq
        · exact h
      obtain ⟨s, hs, hs'⟩ := ih _ hl.2 hmem
      rw [send_of_ne _ _ _ heq] at hs
      exact ⟨s, hs, hs'⟩

end Broadcast

/-- Every sub is known once, and the listening ones have executed what the primary remembers. -/
structure Replicated {X : Type*} (g : Group X) : Prop where
  remember : g.primary.remember = true
  nodup : g.primary.knownSubs.Nodup
  executed : ∀ ep ∈ g.primary.knownSubs, ∀ s, g.subs ep = some s →
    s.executed = g.primary.commandHistory

namespace Replicated

variable {X : Type*} {E : IForConsensusExecutable X} {g : Group X}

theorem stop (h : g.Replicated) (ep : Endpoint) : (g.stop ep).Replicated where
  remember := h.remember
  nodup := h.nodup
  executed ep' hep' s hs := by
    have hne : ep' ≠ ep := by
      rintro rfl
      simp [Group.stop] at hs
    have hsubs : (g.stop ep).subs ep' = g.subs ep' := Function.update_of_ne hne ..
    exact h.executed ep' hep' s (hsubs ▸ hs)

theorem handleExecuteForPrimary (h : g.Replicated) (endpoint : Endpoint) (data : Cmd)
    (fates : List Fate) : (g.handleExecuteForPrimary E endpoint data fates).1.Replicated where
  remember := h.remember
  nodup := h.nodup.sublist (broadcast_sublist ..)
  executed ep hep s hs := by
    obtain ⟨s', hs', heq⟩ := broadcast_of_mem E _ _ fates h.nodup hep
    have hknown : ep ∈ g.primary.knownSubs := (broadcast_sublist ..).subset hep
    have hs'' : (s'.handleExecute E _ _).1 = s := Option.some.inj (heq.symm.trans hs)
    simp only [Group.handleExecuteForPrimary, h.remember, ↓reduceIte]
    rw [← hs'', Sub.handleExecute, h.executed ep hknown s' hs']

theorem start [Pb hiPb.YouAreInTicket] (hpb : Pb.ReadsBack hiPb.YouAreInTicket) (h : g.Replicated)
    {ep : Endpoint} (x : X) {f : Fate} (hf : f = .lost ∨ ep ∉ g.primary.knownSubs) :
    (g.start E ep x f).Replicated := by
  rw [Group.start]
  split_ifs with hlost
  · exact h.stop ep
  · have hep := hf.resolve_left hlost
    dsimp only [Primary.handleAddNewNode]
    refine ⟨h.remember, List.nodup_append.2 ⟨h.nodup, List.nodup_singleton _, ?_⟩, ?_⟩
    · rintro a ha b hb rfl
      exact hep (List.mem_singleton.1 hb ▸ ha)
    · intro ep' hep' s hs
      dsimp only at hep' hs ⊢
      by_cases heq : ep' = ep
      · subst heq
        rw [Function.update_self] at hs
        cases f with
        | answered =>
          simp only [Fate.answer, Sub.enter, Option.bind_some,
            YouAreInTicket.fromString_toString hpb, Option.map_some, Option.some.injEq] at hs
          rw [← hs]
        | lost => exact absurd rfl hlost
        | unanswered => simp [Fate.answer, Sub.enter] at hs
      · rw [Function.update_of_ne heq] at hs
        have hmem : ep' ∈ g.primary.knownSubs := by
          simpa [heq] using hep'
        exact h.executed ep' hmem s hs

theorem callSub (h : g.Replicated) (ep : Endpoint) (data : Cmd) (f : Fate) (fates : List Fate)
    (caught : Bool) : (g.callSub E ep data f fates caught).Replicated := by
  have h' := h.handleExecuteForPrimary (E := E) ep data fates
  rw [Group.callSub]
  split_ifs
  · exact h
  · exact h'
  · exact h.stop ep
  · exact h'.stop ep

end Replicated

section Sys

variable {X : Type*} (E : IForConsensusExecutable X) [Pb hiPb.YouAreInTicket]

/-- The runs of a group whose primary remembers the commands. -/
def sys : Sys (Group X) (Event X) where
  init g :=
    g.primary.remember = true ∧ g.primary.knownSubs = [] ∧ g.primary.commandHistory = [] ∧
      ∀ ep, g.subs ep = none
  enabled g l := g.Enabled l
  act g l := g.act E l

/-- The primary does not know a node that asks to be added. -/
def Unknown (g : Group X) : Event X → Prop
  | .start ep _ f => f = .lost ∨ ep ∉ g.primary.knownSubs
  | _ => True

instance (g : Group X) (l : Event X) : Decidable ((sys E).enabled g l) :=
  inferInstanceAs (Decidable (g.Enabled l))

instance (g : Group X) : (l : Event X) → Decidable (g.Unknown l)
  | .start ep _ f => inferInstanceAs (Decidable (f = .lost ∨ ep ∉ g.primary.knownSubs))
  | .stop _ | .call _ _ _ | .callSub _ _ _ _ _ => isTrue trivial

theorem replicated_of_reach (hpb : Pb.ReadsBack hiPb.YouAreInTicket) {g : Group X}
    (h : ((sys E).only Unknown).Reach g) : g.Replicated := by
  refine h.invariant (I := Replicated) ?_ ?_
  · rintro g ⟨hremember, hknown, -, -⟩
    exact ⟨hremember, hknown ▸ List.nodup_nil, by simp [hknown]⟩
  · rintro g l - hg ⟨-, hl⟩
    cases l with
    | start ep x f => exact hg.start hpb x hl
    | stop ep => exact hg.stop ep
    | call endpoint data fates => exact hg.handleExecuteForPrimary endpoint data fates
    | callSub ep data f fates caught => exact hg.callSub ..

/-- **Exactly once.**  If no node asks to be added while the primary still knows it, every listening
sub the primary knows has executed, since it started, what the primary remembers: every command
once, in the same order. -/
theorem executed_eq_commandHistory (hpb : Pb.ReadsBack hiPb.YouAreInTicket) {g : Group X}
    (h : ((sys E).only Unknown).Reach g) {ep : Endpoint} (hep : ep ∈ g.primary.knownSubs)
    {s : Sub X} (hs : g.subs ep = some s) : s.executed = g.primary.commandHistory :=
  (replicated_of_reach E hpb h).executed ep hep s hs

end Sys

/-- `N1` starts as the primary. -/
def mockGroup : Group Unit := ⟨⟨ascii "N1", (), true, [], []⟩, fun _ => none⟩

/-- `N2` joins after a command, forwards another one, goes down, misses a third, which kicks it off
the group, and joins again. -/
theorem executed_eq_commandHistory_rejoin :
    let _ : Pb hiPb.YouAreInTicket := Wire.pb hiPb.YouAreInTicket
    ∃ g : Group Unit, ((sys mockExecutable).only Unknown).Reach g ∧
      ascii "N2" ∈ g.primary.knownSubs ∧
      ∃ s, g.subs (ascii "N2") = some s ∧ s.executed.length = 3 ∧
        s.executed = g.primary.commandHistory := by
  intro _
  obtain ⟨g, hg, hknown, hlen⟩ := Sys.exists_reach_of_exec (A := (sys mockExecutable).only Unknown)
    (s := mockGroup)
    (P := fun g => ascii "N2" ∈ g.primary.knownSubs ∧
      (g.subs (ascii "N2")).any (fun s => s.executed.length = 3))
    ⟨rfl, rfl, rfl, fun _ => rfl⟩
    [.call (ascii "CLIENT") (ascii "a") [], .start (ascii "N2") () .answered,
      .callSub (ascii "N2") (ascii "b") .answered [] true, .stop (ascii "N2"),
      .call (ascii "CLIENT") (ascii "c") [], .start (ascii "N2") () .answered] (by decide +kernel)
  obtain ⟨s, hs, hlen⟩ := (Option.any_eq_true _ _).1 hlen
  exact ⟨g, hg, hknown, s, hs, of_decide_eq_true hlen,
    executed_eq_commandHistory mockExecutable (Wire.readsBack _) hg hknown hs⟩

/-- `N2` restarts and joins again before the primary has missed it: it is known twice, and executes
the next command twice. -/
theorem not_executed_eq_commandHistory :
    let _ : Pb hiPb.YouAreInTicket := Wire.pb hiPb.YouAreInTicket
    ¬∀ g : Group Unit, (sys mockExecutable).Reach g → ∀ ep ∈ g.primary.knownSubs, ∀ s,
      g.subs ep = some s → s.executed = g.primary.commandHistory := by
  intro _ hall
  obtain ⟨g, hg, hknown, htwice⟩ := Sys.exists_reach_of_exec (A := sys mockExecutable)
    (s := mockGroup)
    (P := fun g => ascii "N2" ∈ g.primary.knownSubs ∧
      (g.subs (ascii "N2")).any (fun s => s.executed ≠ g.primary.commandHistory))
    ⟨rfl, rfl, rfl, fun _ => rfl⟩
    [.start (ascii "N2") () .answered, .stop (ascii "N2"), .start (ascii "N2") () .answered,
      .call (ascii "CLIENT") (ascii "a") []] (by decide +kernel)
  obtain ⟨s, hs, hne⟩ := (Option.any_eq_true _ _).1 htwice
  exact of_decide_eq_true hne (hall g hg _ hknown s hs)

end Group

end ListenToOne

end WeakChain
