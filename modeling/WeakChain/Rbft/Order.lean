import WeakChain.Rbft.Once

/-!
# The order of execution

The datagrams carry no sequence numbers and the votes for different commands are counted
independently of each other, so two commands that are on their way together may be executed in
either order.  Two nodes agree on the order when the commands are taken one at a time: `Serial`
says that the primary takes a command only when every honest sub has caught up.

Then every honest sub is in lockstep with the primary (`Lockstep`): its calls are the orders of the
primary, or all of them but the last.  The histories follow, because an executor is a function of
its state and the command (`Ran`).
-/

namespace WeakChain

namespace Rbft

variable {X : Type*}

/-! ### The history of a node -/

namespace Node

variable {E : IForConsensusExecutable X} {n : Node X} {e : Endpoint} {c : Cmd}

/-- The handler of `n` that left `o` behind has run its executor on `o.executed`. -/
def Ran (E : IForConsensusExecutable X) (n : Node X) (o : Out X) : Prop :=
  o.node.exe = (E.executeAll n.exe o.executed).1 ∧
    o.node.commandHistory = n.commandHistory ++ (E.executeAll n.exe o.executed).2

theorem Ran.after {o : Out X} (h : n.Ran E o) (ps : List Packet) : n.Ran E (o.after ps) := h

theorem ran_addToToBeCommittedCommands : n.Ran E (n.addToToBeCommittedCommands E e c) := by
  unfold addToToBeCommittedCommands
  dsimp only
  split_ifs
  · exact ⟨rfl, rfl⟩
  · exact ⟨rfl, (List.append_nil _).symm⟩

theorem ran_addToToBeConfirmedCommands : n.Ran E (n.addToToBeConfirmedCommands E e c) := by
  unfold addToToBeConfirmedCommands
  dsimp only
  split_ifs
  · exact ran_addToToBeCommittedCommands (n := n.setConfirmed c (n.confirmVote e c).1)
  · exact ⟨rfl, (List.append_nil _).symm⟩

theorem ran_handleExecuteForSub1 (src : Endpoint) : n.Ran E (n.handleExecuteForSub1 E src c) := by
  unfold handleExecuteForSub1
  split_ifs
  · exact ⟨rfl, (List.append_nil _).symm⟩
  · exact ran_addToToBeConfirmedCommands.after _
  · exact ⟨rfl, (List.append_nil _).symm⟩

theorem ran_handleExecuteForPrimary1 (src : Endpoint) :
    n.Ran E (n.handleExecuteForPrimary1 E src c) := by
  unfold handleExecuteForPrimary1
  split_ifs
  · exact ⟨rfl, (List.append_nil _).symm⟩
  · exact ⟨rfl, (List.append_nil _).symm⟩
  · exact ⟨rfl, rfl⟩

theorem ran_handleExecute (src : Endpoint) : n.Ran E (n.handleExecute E src c) := by
  unfold handleExecute
  split_ifs
  · exact ran_handleExecuteForPrimary1 src
  · exact ran_handleExecuteForSub1 src

theorem ran_receive (src : Endpoint) (t : Target) : n.Ran E (n.receive E src t c) := by
  unfold receive
  split
  · exact ran_handleExecuteForPrimary1 src
  · exact ran_handleExecuteForSub1 src
  · unfold handleConfirmForSub
    split_ifs
    · exact ⟨rfl, (List.append_nil _).symm⟩
    · exact ran_addToToBeConfirmedCommands
  · unfold handleCommitForSub
    split_ifs
    · exact ⟨rfl, (List.append_nil _).symm⟩
    · exact ran_addToToBeCommittedCommands
  · exact ⟨rfl, (List.append_nil _).symm⟩

theorem executed_addToToBeCommittedCommands_cases :
    (n.addToToBeCommittedCommands E e c).executed = [] ∨
      (n.addToToBeCommittedCommands E e c).executed = [c] := by
  unfold addToToBeCommittedCommands
  dsimp only
  split_ifs
  · exact .inr rfl
  · exact .inl rfl

/-- A vote for a command executes nothing, or that command. -/
theorem executed_addToToBeConfirmedCommands_cases :
    (n.addToToBeConfirmedCommands E e c).executed = [] ∨
      (n.addToToBeConfirmedCommands E e c).executed = [c] := by
  unfold addToToBeConfirmedCommands
  dsimp only
  split_ifs
  · exact executed_addToToBeCommittedCommands_cases
  · exact .inl rfl

end Node

/-- The command of an event. -/
def Event.data : Event → Cmd
  | .client _ _ data => data
  | .deliver p => p.data
  | .inject p => p.data

/-- The calls of `finally_execute_it` at node `i`, in order. -/
def Cluster.calls (s : Cluster X) (i : Endpoint) : List Cmd :=
  (s.executed.filter fun p => p.1 = i).map Prod.snd

namespace View

variable (V : View X)

/-- Every node has run its executor on its calls. -/
def Ran (s : Cluster X) : Prop :=
  ∀ i, (s.node i).exe = (V.exe.executeAll (V.exe₀ i) (s.calls i)).1 ∧
    (s.node i).commandHistory = V.history₀ ++ (V.exe.executeAll (V.exe₀ i) (s.calls i)).2

variable {V}

theorem calls_mark (l : Event) (s : Cluster X) : (mark l s).calls = s.calls := by
  cases l <;> rfl

theorem calls_apply (s : Cluster X) (i : Endpoint) (o : Out X) :
    (View.apply s i o).calls i = s.calls i ++ o.executed := by
  have h : (o.executed.map fun c => (i, c)).filter (fun p => p.1 = i) =
      o.executed.map fun c => (i, c) := by
    rw [List.filter_eq_self]
    simp
  rw [Cluster.calls, View.apply, List.filter_append, h, List.map_append, List.map_map]
  congr 1
  exact List.map_id _

theorem calls_apply_of_ne {s : Cluster X} {i j : Endpoint} (o : Out X) (h : j ≠ i) :
    (View.apply s j o).calls i = s.calls i := by
  have hnil : (o.executed.map fun c => (j, c)).filter (fun p => p.1 = i) = [] := by
    rw [List.filter_eq_nil_iff]
    simp [h]
  rw [Cluster.calls, View.apply, List.filter_append, hnil, List.append_nil]
  rfl

theorem count_calls (s : Cluster X) (i : Endpoint) (c : Cmd) :
    (s.calls i).count c = s.executed.count (i, c) := by
  rw [Cluster.calls]
  induction s.executed with
  | nil => rfl
  | cons p l ih =>
    obtain ⟨j, d⟩ := p
    by_cases hj : j = i
    · subst hj
      simp [List.count_cons, ih]
    · simp [ih, hj]

theorem Ran.apply {s : Cluster X} {i : Endpoint} {o : Out X} (h : V.Ran s)
    (ho : (s.node i).Ran V.exe o) (l : Event) : V.Ran (mark l (View.apply s i o)) := by
  intro j
  rw [node_mark, calls_mark]
  by_cases hj : j = i
  · subst hj
    rw [node_apply, calls_apply, V.exe.executeAll_append, ← (h j).1]
    refine ⟨ho.1, ?_⟩
    rw [ho.2, (h j).2, List.append_assoc]
  · rw [calls_apply_of_ne o (Ne.symm hj)]
    simpa [View.apply, Function.update_of_ne hj] using h j

theorem ran_of_reach (hp : V.primary ∈ V.members) {s : Cluster X} (h : V.sys.Reach s) :
    V.Ran s := by
  refine h.invariant (I := V.Ran) ?_ ?_
  · intro s hs i
    rw [show s = V.init from hs]
    exact ⟨rfl, (List.append_nil _).symm⟩
  · intro s l hr hran hl
    have heff := effect_of_enabled hr hp hl
    change V.Ran (V.act s l)
    generalize V.act s l = s' at heff
    cases heff with
    | inject p hsrc => exact hran
    | idle l =>
      have := hran.apply (i := V.primary) (o := { node := s.node V.primary })
        ⟨rfl, (List.append_nil _).symm⟩ l
      rwa [apply_self] at this
    | forward l i c hi => exact hran.apply ⟨rfl, (List.append_nil _).symm⟩ l
    | execute l c _ _ => exact hran.apply ⟨rfl, rfl⟩ l
    | order i c hi hm => exact hran.apply (Node.ran_addToToBeConfirmedCommands.after _) _
    | confirm i e c hi hm => exact hran.apply Node.ran_addToToBeConfirmedCommands _
    | commit i e c hi hm => exact hran.apply Node.ran_addToToBeCommittedCommands _

/-! ### One command at a time -/

variable (V) in
/-- The primary takes a command only when every honest sub has executed as many as were ordered. -/
def Serial (s : Cluster X) (l : Event) : Prop :=
  V.ToPrimary l → ∀ i ∈ V.members, V.HonestSub i → (s.calls i).length = s.ordered.length

instance (s : Cluster X) (l : Event) : Decidable (V.Serial s l) :=
  inferInstanceAs (Decidable (_ → _))

variable (V) in
/-- The orderly events: no vote is replayed, and commands are taken one at a time. -/
def Orderly (s : Cluster X) (l : Event) : Prop := V.NoReplay l.data s l ∧ V.Serial s l

instance (s : Cluster X) (l : Event) : Decidable (V.Orderly s l) :=
  inferInstanceAs (Decidable (_ ∧ _))

theorem Orderly.noReplay {s : Cluster X} {l : Event} (h : V.Orderly s l) (c : Cmd) :
    V.NoReplay c s l := by
  cases l with
  | deliver p => exact fun _ => h.1 rfl
  | client => trivial
  | inject => trivial

variable (V) in
/-- The calls of every node follow the orders, and a sub is at most one behind. -/
structure Lockstep (s : Cluster X) : Prop where
  primary : s.calls V.primary = s.ordered
  sub : ∀ i, V.HonestSub i → s.calls i <+: s.ordered ∧ s.ordered.length ≤ (s.calls i).length + 1

/-- A list that is at most one element behind catches up with the element that is missing. -/
theorem append_eq_of_mem {l o : List Cmd} {c : Cmd} (h : l <+: o) (hlen : o.length ≤ l.length + 1)
    (hc : c ∈ o) (hl : c ∉ l) : l ++ [c] = o := by
  obtain ⟨t, rfl⟩ := h
  match t, List.mem_append.1 hc with
  | [], hc => simp [hl] at hc
  | [d], hc =>
    have hd : c = d := by simpa [hl] using hc
    rw [hd]
  | _ :: _ :: _, _ => simp at hlen

/-- A sub that votes keeps the lockstep: what it executes is the order it has not executed yet. -/
theorem Lockstep.apply {s : Cluster X} {l : Event} {i : Endpoint} {c : Cmd} {o : Out X}
    (h : V.Lockstep s) (hi : V.HonestSub i) (ho : o.ordered = [])
    (hex : o.executed = [] ∨ o.executed = [c])
    (hone : (mark l (View.apply s i o)).executed.count (i, c) ≤ 1)
    (hord : (i, c) ∈ (mark l (View.apply s i o)).executed →
      c ∈ (mark l (View.apply s i o)).ordered) :
    V.Lockstep (mark l (View.apply s i o)) := by
  have hordered : (mark l (View.apply s i o)).ordered = s.ordered := by
    rw [ordered_mark, View.apply, ho, List.append_nil]
  refine ⟨?_, ?_⟩
  · rw [calls_mark, calls_apply_of_ne o hi.2, hordered]
    exact h.primary
  · intro j hj
    rw [hordered, calls_mark]
    by_cases hji : i = j
    · subst hji
      obtain ⟨hpre, hlen⟩ := h.sub i hj
      rw [calls_apply]
      rcases hex with hex | hex
      · rw [hex, List.append_nil]
        exact ⟨hpre, hlen⟩
      · rw [executed_mark, count_executed_apply, hex, List.count_singleton_self,
          ← count_calls] at hone
        -- it has not been executed before, but it has been ordered
        have hnew : c ∉ s.calls i := List.count_eq_zero.1 (by omega)
        have hc : c ∈ s.ordered := by
          rw [hordered, executed_mark] at hord
          exact hord (by simp [View.apply, hex])
        rw [hex, append_eq_of_mem hpre hlen hc hnew]
        exact ⟨List.prefix_rfl, by omega⟩
    · rw [calls_apply_of_ne o hji]
      exact h.sub j hj

theorem ordered_addToToBeCommittedCommands {E : IForConsensusExecutable X} {n : Node X}
    {e : Endpoint} {c : Cmd} : (n.addToToBeCommittedCommands E e c).ordered = [] := by
  unfold Node.addToToBeCommittedCommands
  dsimp only
  split_ifs <;> rfl

theorem ordered_addToToBeConfirmedCommands {E : IForConsensusExecutable X} {n : Node X}
    {e : Endpoint} {c : Cmd} : (n.addToToBeConfirmedCommands E e c).ordered = [] := by
  unfold Node.addToToBeConfirmedCommands
  dsimp only
  split_ifs
  · exact ordered_addToToBeCommittedCommands
  · rfl

/-- **One orderly event** keeps the lockstep. -/
theorem lockstep_act (hN : 2 ≤ V.N) (hp : V.Honest V.primary) (hf : V.faulty.card ≤ V.f)
    {s : Cluster X} {l : Event} (hr : (V.sys.only V.Orderly).Reach s)
    (hl : (V.sys.only V.Orderly).enabled s l) (h : V.Lockstep s) : V.Lockstep (V.act s l) := by
  have hr' : (V.sys.only V.Orderly).Reach (V.act s l) := .act hr hl
  have hone : ∀ i c, V.HonestSub i → (V.act s l).executed.count (i, c) ≤ 1 := fun i c hi =>
    count_executed_le_one hN hp (hr'.only_mono fun s l h => h.noReplay c) hi
  have hord : ∀ i c, V.HonestSub i → (i, c) ∈ (V.act s l).executed → c ∈ (V.act s l).ordered :=
    fun i c hi => mem_ordered_of_executed hN hp hf hr'.of_only hi
  have hser := hl.2.2
  have heff := effect_of_enabled hr.of_only hp.1 hl.1
  clear hr' hl
  generalize V.act s l = s' at heff hone hord
  cases heff with
  | inject p hsrc => exact ⟨h.primary, h.sub⟩
  | idle l =>
    refine ⟨?_, ?_⟩
    · rw [calls_mark, ordered_mark]
      exact h.primary
    · intro i hi
      rw [calls_mark, ordered_mark]
      exact h.sub i hi
  | forward l i c hi => exact h.apply hi rfl (.inl rfl) (hone i c hi) (hord i c hi)
  | execute l c _ hl =>
    refine ⟨?_, ?_⟩
    · rw [calls_mark, ordered_mark, calls_apply, h.primary]
      rfl
    · intro i hi
      rw [calls_mark, ordered_mark, calls_apply_of_ne _ hi.2.symm]
      -- the subs have caught up, so after this order they are one behind
      have hlen := hser hl i hi.1.1 hi
      obtain ⟨hpre, -⟩ := h.sub i hi
      refine ⟨hpre.trans (List.prefix_append _ _), ?_⟩
      simp [View.apply, hlen]
  | order i c hi hm =>
    exact h.apply hi ordered_addToToBeConfirmedCommands
      Node.executed_addToToBeConfirmedCommands_cases (hone i c hi) (hord i c hi)
  | confirm i e c hi hm =>
    exact h.apply hi ordered_addToToBeConfirmedCommands
      Node.executed_addToToBeConfirmedCommands_cases (hone i c hi) (hord i c hi)
  | commit i e c hi hm =>
    exact h.apply hi ordered_addToToBeCommittedCommands
      Node.executed_addToToBeCommittedCommands_cases (hone i c hi) (hord i c hi)

theorem lockstep_of_reach (hN : 2 ≤ V.N) (hp : V.Honest V.primary) (hf : V.faulty.card ≤ V.f)
    {s : Cluster X} (h : (V.sys.only V.Orderly).Reach s) : V.Lockstep s := by
  refine h.invariant (I := V.Lockstep) ?_
    fun s l hr hlock hl => lockstep_act hN hp hf hr hl hlock
  intro s hs
  rw [show s = V.init from hs]
  exact ⟨rfl, fun i hi => ⟨List.prefix_rfl, Nat.le_succ _⟩⟩

/-- **Total order.**  In a view of any size `N ≥ 2` with an honest primary and at most `f` faulty
members, whose honest executors start in the same state: in every orderly run the histories of any
two honest nodes are prefixes of one another. -/
theorem commandHistory_prefix_or_prefix (hN : 2 ≤ V.N) (hp : V.Honest V.primary)
    (hf : V.faulty.card ≤ V.f) (hexe : ∀ i, V.Honest i → V.exe₀ i = V.exe₀ V.primary)
    {s : Cluster X} (h : (V.sys.only V.Orderly).Reach s) {i j : Endpoint} (hi : V.Honest i)
    (hj : V.Honest j) :
    (s.node i).commandHistory <+: (s.node j).commandHistory ∨
      (s.node j).commandHistory <+: (s.node i).commandHistory := by
  have hlock := lockstep_of_reach hN hp hf h
  have hran := ran_of_reach hp.1 h.of_only
  -- the calls of every honest node are a prefix of the orders
  have hpre : ∀ i, V.Honest i → s.calls i <+: s.ordered := by
    intro i hi
    by_cases hip : i = V.primary
    · rw [hip, hlock.primary]
    · exact (hlock.sub i ⟨hi, hip⟩).1
  rw [(hran i).2, (hran j).2, hexe i hi, hexe j hj, List.prefix_append_right_inj,
    List.prefix_append_right_inj]
  exact (List.prefix_or_prefix_of_prefix (hpre i hi) (hpre j hj)).imp
    (V.exe.executeAll_prefix _) (V.exe.executeAll_prefix _)

/-- Four nodes, one of them faulty: the primary takes a second command after both honest subs have
executed the first. -/
theorem commandHistory_prefix_or_prefix_four :
    let N0 := ascii "N0"
    let N1 := ascii "N1"
    let N2 := ascii "N2"
    let N3 := ascii "N3"
    let V := mockView [N0, N1, N2, N3] {N3} (by decide)
    ∃ s, (V.sys.only V.Orderly).Reach s ∧
      ((s.node N0).commandHistory = [ascii "c", ascii "d"] ∧
        (s.node N1).commandHistory = [ascii "c"]) ∧
      ((s.node N1).commandHistory <+: (s.node N0).commandHistory ∨
        (s.node N0).commandHistory <+: (s.node N1).commandHistory) := by
  intro N0 N1 N2 N3 V
  obtain ⟨s, hs, hc⟩ := Sys.exists_reach_of_exec (A := V.sys.only V.Orderly) (s := V.init)
    (P := fun s => (s.node N0).commandHistory = [ascii "c", ascii "d"] ∧
        (s.node N1).commandHistory = [ascii "c"]) rfl
    ([.client N0 (ascii "client") (ascii "c"),
      .deliver ⟨N0, N1, .pleaseExecuteThis, ascii "c"⟩,
      .deliver ⟨N0, N2, .pleaseExecuteThis, ascii "c"⟩,
      .deliver ⟨N1, N2, .pleaseConfirmThis, ascii "c"⟩,
      .deliver ⟨N2, N1, .pleaseConfirmThis, ascii "c"⟩,
      .deliver ⟨N1, N2, .pleaseCommitThis, ascii "c"⟩,
      .deliver ⟨N2, N1, .pleaseCommitThis, ascii "c"⟩,
      .client N0 (ascii "client") (ascii "d")]) (by decide +kernel)
  exact ⟨s, hs, hc, commandHistory_prefix_or_prefix (V := V) (by decide) (by decide) (by decide)
    (fun _ _ => rfl) hs (by decide) (by decide)⟩

/-! ### What happens without order -/

/-- Two commands are on their way together; the votes for the second arrive first. -/
def overtaking (N0 N1 N2 c d : Bytes) : List Event :=
  [.client N0 (ascii "client") c, .client N0 (ascii "client") d,
    .deliver ⟨N0, N1, .pleaseExecuteThis, c⟩, .deliver ⟨N0, N2, .pleaseExecuteThis, c⟩,
    .deliver ⟨N0, N1, .pleaseExecuteThis, d⟩, .deliver ⟨N0, N2, .pleaseExecuteThis, d⟩,
    .deliver ⟨N1, N2, .pleaseConfirmThis, d⟩, .deliver ⟨N2, N1, .pleaseConfirmThis, d⟩,
    .deliver ⟨N2, N1, .pleaseCommitThis, d⟩]

/-- The commands are taken one at a time, but the faulty `N3` repeats its votes for the first when
the second has been taken. -/
def lateVotes (N0 N1 N2 N3 c d : Bytes) : List Event :=
  [.client N0 (ascii "client") c,
    .inject ⟨N3, N1, .pleaseConfirmThis, c⟩, .inject ⟨N3, N1, .pleaseConfirmThis, c⟩,
    .inject ⟨N3, N1, .pleaseCommitThis, c⟩, .inject ⟨N3, N1, .pleaseCommitThis, c⟩,
    .inject ⟨N3, N2, .pleaseConfirmThis, c⟩, .inject ⟨N3, N2, .pleaseCommitThis, c⟩,
    .deliver ⟨N0, N1, .pleaseExecuteThis, c⟩, .deliver ⟨N3, N1, .pleaseConfirmThis, c⟩,
    .deliver ⟨N3, N1, .pleaseCommitThis, c⟩,
    .deliver ⟨N0, N2, .pleaseExecuteThis, c⟩, .deliver ⟨N3, N2, .pleaseConfirmThis, c⟩,
    .deliver ⟨N3, N2, .pleaseCommitThis, c⟩,
    .client N0 (ascii "client") d,
    .deliver ⟨N2, N1, .pleaseConfirmThis, c⟩, .deliver ⟨N3, N1, .pleaseConfirmThis, c⟩,
    .deliver ⟨N3, N1, .pleaseCommitThis, c⟩]

/-- **Two ways to lose the order**, both without duplication by the network: in a group of three
without faults, two commands that are on their way together; and in a group of four with one faulty
member, votes that are repeated while the next command is on its way. -/
theorem commandHistory_incomparable :
    let N0 := ascii "N0"
    let N1 := ascii "N1"
    let N2 := ascii "N2"
    let N3 := ascii "N3"
    let V := mockView [N0, N1, N2] ∅ (by simp)
    let W := mockView [N0, N1, N2, N3] {N3} (by decide)
    (∃ s, (V.sys.only NoDuplication).Reach s ∧
      ¬ (s.node N0).commandHistory <+: (s.node N1).commandHistory ∧
      ¬ (s.node N1).commandHistory <+: (s.node N0).commandHistory) ∧
    (∃ s, (W.sys.only fun s l => NoDuplication s l ∧ W.Serial s l).Reach s ∧
      ¬ (s.node N0).commandHistory <+: (s.node N1).commandHistory ∧
      ¬ (s.node N1).commandHistory <+: (s.node N0).commandHistory) := by
  intro N0 N1 N2 N3 V W
  refine ⟨?_, ?_⟩
  · exact Sys.exists_reach_of_exec rfl (overtaking N0 N1 N2 (ascii "c") (ascii "d"))
      (by decide +kernel)
  · exact Sys.exists_reach_of_exec rfl (lateVotes N0 N1 N2 N3 (ascii "c") (ascii "d"))
      (by decide +kernel)

end View

end Rbft

end WeakChain
