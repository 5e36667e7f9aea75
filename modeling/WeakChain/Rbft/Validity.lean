import WeakChain.Rbft.Cluster

/-!
# Validity: a sub executes only what the primary ordered

A sub executes a command when `N - 1 - f` members have committed to it, and commits when
`N - 1 - f` members have confirmed it.  With at most `f = (N - 1) / 3` faulty members each of these
sets has an honest voter (`lt_quorum`), so an execution leads back, through an honest commit and an
honest confirmation, to an order of the primary that an honest sub received.

The argument is carried by one invariant, `Valid`: every honest vote, counted or in flight, is for
a command that was ordered.  It does not depend on how often votes are counted or erased.
-/

namespace WeakChain

namespace Rbft

variable {X : Type*}

/-! ### One node -/

namespace Node

variable {E : IForConsensusExecutable X} {n : Node X} {P : Cmd → Prop} {faulty : Finset Endpoint}

/-- Every vote the node holds that is not from a faulty member is for a command with `P`. -/
structure Justified (P : Cmd → Prop) (faulty : Finset Endpoint) (n : Node X) : Prop where
  confirmed : ∀ c, ∀ e ∈ n.toBeConfirmedCommands c, e ∉ faulty → P c
  committed : ∀ c, ∀ e ∈ n.toBeCommittedCommands c, e ∉ faulty → P c

theorem Justified.mono {Q : Cmd → Prop} (h : n.Justified P faulty) (hPQ : ∀ c, P c → Q c) :
    n.Justified Q faulty :=
  ⟨fun c e he hf => hPQ c (h.confirmed c e he hf), fun c e he hf => hPQ c (h.committed c e he hf)⟩

/-- The votes of a tally after one more vote are justified. -/
theorem justified_update {votes : Cmd → Finset Endpoint} {x : ℕ} {e : Endpoint} {c : Cmd}
    (h : ∀ c, ∀ e ∈ votes c, e ∉ faulty → P c) (he : e ∉ faulty → P c) :
    ∀ d, ∀ a ∈ Function.update votes c (Tally.vote x (votes c) e).1 d, a ∉ faulty → P d := by
  intro d a ha hf
  by_cases hd : d = c
  · subst hd
    rw [Function.update_self] at ha
    rcases Finset.mem_insert.1 (Tally.vote_subset _ _ _ ha) with rfl | ha
    · exact he hf
    · exact h d a ha hf
  · rw [Function.update_of_ne hd] at ha
    exact h d a ha hf

/-- A tally of justified votes fires only for a command with `P`. -/
theorem of_fired {votes : Finset Endpoint} {x : ℕ} {e : Endpoint} {c : Cmd}
    (h : ∀ e ∈ votes, e ∉ faulty → P c) (he : e ∉ faulty → P c) (hx : faulty.card < x)
    (hfire : (Tally.vote x votes e).2 = true) : P c := by
  obtain ⟨v, hv, hvf⟩ := Tally.exists_honest hfire hx
  rcases Finset.mem_insert.1 hv with rfl | hv
  · exact he hvf
  · exact h v hv hvf

theorem justified_addToToBeCommittedCommands {e : Endpoint} {c : Cmd} (h : n.Justified P faulty)
    (he : e ∉ faulty → P c) (hx : faulty.card < n.quorum) :
    (n.addToToBeCommittedCommands E e c).node.Justified P faulty ∧
      ∀ d ∈ (n.addToToBeCommittedCommands E e c).executed, P d := by
  refine ⟨⟨?_, ?_⟩, ?_⟩
  · rw [confirmed_addToToBeCommittedCommands]
    exact h.confirmed
  · rw [committed_addToToBeCommittedCommands]
    exact justified_update h.committed he
  · intro d hd
    rw [executed_addToToBeCommittedCommands] at hd
    obtain ⟨hne, rfl⟩ := List.mem_replicate.1 hd
    have hfire : (n.commitVote e d).2 = true := by simpa using hne
    exact of_fired (h.committed d) he hx hfire

theorem justified_addToToBeConfirmedCommands {e : Endpoint} {c : Cmd} (h : n.Justified P faulty)
    (he : e ∉ faulty → P c) (hx : faulty.card < n.quorum) :
    (n.addToToBeConfirmedCommands E e c).node.Justified P faulty ∧
      (∀ d ∈ (n.addToToBeConfirmedCommands E e c).executed, P d) ∧
      ∀ p ∈ (n.addToToBeConfirmedCommands E e c).sent, P p.data := by
  have hn' : (n.setConfirmed c (n.confirmVote e c).1).Justified P faulty :=
    ⟨justified_update h.confirmed he, h.committed⟩
  cases hfire : (n.confirmVote e c).2 with
  | true =>
    -- the quorum has an honest voter, so the vote that is passed on is justified as well
    have hc : P c := of_fired (h.confirmed c) he hx hfire
    obtain ⟨h1, h2⟩ := justified_addToToBeCommittedCommands (E := E) (e := n.listenedEndpoint) hn'
      (fun _ => hc) hx
    rw [addToToBeConfirmedCommands_of_fired hfire]
    refine ⟨h1, h2, ?_⟩
    intro p hp
    rw [Out.after_sent, sent_addToToBeCommittedCommands, List.append_nil] at hp
    rw [(data_of_mem_boardcastToOtherSubs hp).2.2.1]
    exact hc
  | false =>
    rw [addToToBeConfirmedCommands_of_not_fired hfire]
    exact ⟨hn', by simp, by simp⟩

end Node

/-! ### The cluster -/

namespace View

variable (V : View X)

/-- The primary has sent the order for `c` to an honest sub. -/
def Ordered (s : Cluster X) (c : Cmd) : Prop :=
  ∃ j, V.HonestSub j ∧ ⟨V.primary, j, .pleaseExecuteThis, c⟩ ∈ s.sent

/-- The honest votes of a cluster are for commands with `P`: those counted and those in flight. -/
structure Valid (P : Cmd → Prop) (s : Cluster X) : Prop where
  node : ∀ i, (s.node i).Justified P V.faulty
  sent : ∀ p ∈ s.sent, p.target ≠ .pleaseExecuteThis → p.src ∉ V.faulty → P p.data

variable {V}

theorem Ordered.mono {s s' : Cluster X} {c : Cmd} (h : V.Ordered s c) (hs : s.sent ⊆ s'.sent) :
    V.Ordered s' c :=
  let ⟨j, hj, hm⟩ := h
  ⟨j, hj, hs hm⟩

theorem Valid.mono {P Q : Cmd → Prop} {s : Cluster X} (h : V.Valid P s) (hPQ : ∀ c, P c → Q c) :
    V.Valid Q s :=
  ⟨fun i => (h.node i).mono hPQ, fun p hp ht hf => hPQ _ (h.sent p hp ht hf)⟩

/-- **A quorum is larger than the set of faulty members.** -/
theorem lt_quorum (hN : 2 ≤ V.N) (hf : V.faulty.card ≤ V.f) : V.faulty.card < V.quorum := by
  unfold quorum
  unfold f at *
  omega

/-- Installing a handler's output keeps the votes valid, if the handler does. -/
theorem Valid.apply {P : Cmd → Prop} {s : Cluster X} {i : Endpoint} {o : Out X} (h : V.Valid P s)
    (hn : o.node.Justified P V.faulty)
    (hs : ∀ p ∈ o.sent, p.target ≠ .pleaseExecuteThis → p.src ∉ V.faulty → P p.data) (l : Event) :
    V.Valid P (mark l (View.apply s i o)) := by
  have key : V.Valid P (View.apply s i o) := by
    refine ⟨?_, ?_⟩
    · intro j
      change (Function.update s.node i o.node j).Justified P V.faulty
      by_cases hj : j = i
      · subst hj
        rwa [Function.update_self]
      · rw [Function.update_of_ne hj]
        exact h.node j
    · intro p hp
      rcases List.mem_append.1 hp with hp | hp
      · exact h.sent p hp
      · exact hs p hp
  cases l with
  | deliver p => exact ⟨key.node, key.sent⟩
  | client => exact key
  | inject => exact key

theorem executed_mark (l : Event) (s : Cluster X) : (mark l s).executed = s.executed := by
  cases l <;> rfl

/-- The datagrams sent so far are never forgotten. -/
theorem sent_subset_act (s : Cluster X) (l : Event) : s.sent ⊆ (V.act s l).sent := by
  cases l with
  | client => exact List.subset_append_left _ _
  | deliver => exact List.subset_append_left _ _
  | inject => exact List.subset_append_left _ _

/-- **One event**: if every honest vote is for a command the primary ordered, then the event keeps
it so, and what an honest sub executes in it had been ordered before. -/
theorem valid_act (hN : 2 ≤ V.N) (hf : V.faulty.card ≤ V.f) {s : Cluster X} {l : Event}
    (h : V.sys.Reach s) (hl : V.Enabled s l) (hv : V.Valid (V.Ordered s) s) :
    V.Valid (V.Ordered s) (V.act s l) ∧
      ∃ new, (V.act s l).executed = s.executed ++ new ∧
        ∀ ic ∈ new, ic.1 = V.primary ∨ V.Ordered s ic.2 := by
  have hx : ∀ i, V.faulty.card < (s.node i).quorum := by
    intro i
    rw [quorum_of_reach h]
    exact lt_quorum hN hf
  have heff := effect_of_enabled h (primary_mem (by omega)) hl
  generalize V.act s l = s' at heff
  cases heff with
  | inject p hp =>
    refine ⟨⟨hv.node, ?_⟩, [], by simp, by simp⟩
    intro q hq ht hq'
    rcases List.mem_append.1 hq with hq | hq
    · exact hv.sent q hq ht hq'
    · rw [List.mem_singleton.1 hq] at ht hq'
      -- only a faulty member can send a vote of its own making
      exact absurd hp (by simp [hq', ht])
  | idle l =>
    have := hv.apply (i := V.primary) (o := { node := s.node V.primary }) (hv.node _) (by simp) l
    rw [apply_self] at this
    exact ⟨this, [], by simp [executed_mark], by simp⟩
  | forward l i c hi =>
    refine ⟨hv.apply (hv.node i) (by simp) l, [], ?_, by simp⟩
    simp [executed_mark, View.apply]
  | execute l c hp hl =>
    refine ⟨hv.apply ⟨(hv.node _).confirmed, (hv.node _).committed⟩ ?_ l,
      [(V.primary, c)], by simp [executed_mark, View.apply], by simp⟩
    intro p hp ht
    exact absurd (Node.data_of_mem_boardcastToOthers hp).2.1 ht
  | order i c hi hm =>
    -- the order itself is on its way to an honest sub
    have hc : V.Ordered s c := ⟨i, hi, hm⟩
    obtain ⟨h1, h2, h3⟩ := Node.justified_addToToBeConfirmedCommands (E := V.exe) (e := i) (c := c)
      (hv.node i) (fun _ => hc) (hx i)
    refine ⟨hv.apply (o := ((s.node i).addToToBeConfirmedCommands V.exe i c).after
      ((s.node i).boardcastToOtherSubs .pleaseConfirmThis c)) h1 ?_ _, _,
      executed_mark _ _, ?_⟩
    · intro p hp _ _
      rcases List.mem_append.1 hp with hp | hp
      · rw [(Node.data_of_mem_boardcastToOtherSubs hp).2.2.1]
        exact hc
      · exact h3 p hp
    · simpa using fun d hd => Or.inr (h2 d hd)
  | confirm i e c hi hm =>
    obtain ⟨h1, h2, h3⟩ := Node.justified_addToToBeConfirmedCommands (E := V.exe) (e := e) (c := c)
      (hv.node i) (fun he => hv.sent _ hm (by simp) he) (hx i)
    refine ⟨hv.apply h1 (fun p hp _ _ => h3 p hp) _, _, executed_mark _ _, ?_⟩
    simpa using fun d hd => Or.inr (h2 d hd)
  | commit i e c hi hm =>
    obtain ⟨h1, h2⟩ := Node.justified_addToToBeCommittedCommands (E := V.exe) (e := e) (c := c)
      (hv.node i) (fun he => hv.sent _ hm (by simp) he) (hx i)
    refine ⟨hv.apply h1 ?_ _, _, executed_mark _ _, ?_⟩
    · intro p hp
      rw [Node.sent_addToToBeCommittedCommands] at hp
      exact absurd hp List.not_mem_nil
    · simpa using fun d hd => Or.inr (h2 d hd)

/-- Along every run, every honest vote is for a command the primary ordered. -/
theorem valid_of_reach (hN : 2 ≤ V.N) (hf : V.faulty.card ≤ V.f) {s : Cluster X}
    (h : V.sys.Reach s) : V.Valid (V.Ordered s) s := by
  refine h.invariant (I := fun s => V.Valid (V.Ordered s) s) ?_ ?_
  · intro s hs
    rw [hs]
    exact ⟨fun i => ⟨fun c e he => absurd he (Finset.notMem_empty e),
      fun c e he => absurd he (Finset.notMem_empty e)⟩, fun p hp => absurd hp List.not_mem_nil⟩
  · intro s l hr hv hl
    exact (valid_act hN hf hr hl hv).1.mono fun c hc => hc.mono (sent_subset_act s l)

/-- **Validity.**  In a view of a group of any size `N ≥ 2` with at most `f` faulty members (the
primary may be one of them), whatever the faulty members send and in whatever order the network
delivers: whenever an event makes an honest sub `i` execute `c`, the primary had sent the order for
`c` to an honest sub before. -/
theorem ordered_of_executed (hN : 2 ≤ V.N) (hf : V.faulty.card ≤ V.f) {s : Cluster X} {l : Event}
    (h : V.sys.Reach s) (hl : V.sys.enabled s l) {i : Endpoint} {c : Cmd}
    {new : List (Endpoint × Cmd)} (hi : V.HonestSub i)
    (hnew : (V.sys.act s l).executed = s.executed ++ new) (hc : (i, c) ∈ new) :
    ∃ j, V.HonestSub j ∧ ⟨V.primary, j, .pleaseExecuteThis, c⟩ ∈ s.sent := by
  obtain ⟨-, new', hnew', hord⟩ := valid_act hN hf h hl (valid_of_reach hN hf h)
  have heq : new = new' := List.append_cancel_left (hnew.symm.trans hnew')
  rw [heq] at hc
  exact (hord _ hc).resolve_left hi.2

/-- Four nodes, of which `N3` is faulty: it commits to the command of the primary at once, and with
its vote `N1` executes as soon as `N2` has confirmed. -/
theorem ordered_of_executed_four :
    let V := mockView [ascii "N0", ascii "N1", ascii "N2", ascii "N3"] {ascii "N3"} (by decide)
    let c := ascii "cmd1"
    let last : Event := .deliver ⟨ascii "N3", ascii "N1", .pleaseCommitThis, c⟩
    ∃ s, V.sys.Reach s ∧ V.sys.enabled s last ∧
      (V.sys.act s last).executed = s.executed ++ [(ascii "N1", c)] ∧
      ∃ j, V.HonestSub j ∧ ⟨V.primary, j, .pleaseExecuteThis, c⟩ ∈ s.sent := by
  intro V c last
  obtain ⟨s, hr, hl, hnew⟩ := Sys.exists_reach_of_exec (A := V.sys) (s := V.init)
    (P := fun s => V.sys.enabled s last ∧
      (V.sys.act s last).executed = s.executed ++ [(ascii "N1", c)]) rfl
    ([.client (ascii "N0") (ascii "client") c,
      .deliver ⟨ascii "N0", ascii "N1", .pleaseExecuteThis, c⟩,
      .deliver ⟨ascii "N0", ascii "N2", .pleaseExecuteThis, c⟩,
      .deliver ⟨ascii "N2", ascii "N1", .pleaseConfirmThis, c⟩,
      .inject ⟨ascii "N3", ascii "N1", .pleaseCommitThis, c⟩]) (by decide +kernel)
  exact ⟨s, hr, hl, hnew, ordered_of_executed (V := V) (by decide) (by decide) hr hl
    (i := ascii "N1") (by decide) hnew List.mem_cons_self⟩

end View

end Rbft

end WeakChain
