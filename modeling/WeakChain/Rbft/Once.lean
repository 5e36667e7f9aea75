import WeakChain.Rbft.Validity

/-!
# At most one execution for every order

The vote set of a command is cleared when it is large enough, so a vote that is counted again
afterwards starts a new set: the protocol has no memory of the commands a sub has executed, and a
replayed datagram can make it execute a command twice.  A vote that is repeated while the set with
the first one is still there is harmless.

`NoReplay c` excludes just the harmful repetitions.  Then both tallies of `c` at an honest sub keep
their books (`Tally.Ledger`): every firing uses up `N - 1 - f` of the at most `N - 1` voters, and
since `2 * (N - 1 - f) > N - 1` there is no second firing.
-/

namespace WeakChain

namespace Rbft

variable {X : Type*}

namespace View

variable (V : View X)

/-! ### The traffic of a view with an honest primary -/

/-- What is known about the datagrams of a view whose primary is honest. -/
structure Traffic (s : Cluster X) : Prop where
  /-- Only what was sent is delivered. -/
  delivered : ∀ p ∈ s.delivered, p ∈ s.sent
  /-- The votes come from the subs, and an honest sub does not send a vote to itself. -/
  vote : ∀ p ∈ s.sent, p.target ≠ .pleaseExecuteThis →
    p.src ∈ V.members ∧ p.src ≠ V.primary ∧ (p.src = p.dst → p.src ∈ V.faulty)
  /-- The orders of the primary are the commands it broadcast. -/
  order : ∀ p ∈ s.sent, p.src = V.primary → p.target = .pleaseExecuteThis → p.data ∈ s.ordered

variable {V}

@[simp] theorem node_mark (l : Event) (s : Cluster X) : (mark l s).node = s.node := by
  cases l <;> rfl

@[simp] theorem ordered_mark (l : Event) (s : Cluster X) : (mark l s).ordered = s.ordered := by
  cases l <;> rfl

/-- Installing what the handler of a sub left behind: it only sends votes to others and requests
in its own name. -/
theorem Traffic.apply {s : Cluster X} {i : Endpoint} {o : Out X} (h : V.Traffic s)
    (hi : V.HonestSub i) (ho : ∀ p ∈ o.sent, p.src = i ∧
      (p.target ≠ .pleaseExecuteThis → p.dst ≠ i)) :
    V.Traffic (View.apply s i o) := by
  refine ⟨fun p hp => List.mem_append_left _ (h.delivered p hp), ?_, ?_⟩
  · intro p hp ht
    rcases List.mem_append.1 hp with hp | hp
    · exact h.vote p hp ht
    · obtain ⟨rfl, hdst⟩ := ho p hp
      exact ⟨hi.1.1, hi.2, fun he => absurd he.symm (hdst ht)⟩
  · intro p hp hsrc ht
    rcases List.mem_append.1 hp with hp | hp
    · exact List.mem_append_left _ (h.order p hp hsrc ht)
    · exact absurd ((ho p hp).1.symm.trans hsrc) hi.2

theorem Traffic.mark {s : Cluster X} {l : Event} (h : V.Traffic s)
    (hl : ∀ p, l = .deliver p → p ∈ s.sent) : V.Traffic (View.mark l s) := by
  cases l with
  | deliver p =>
    refine ⟨?_, h.vote, h.order⟩
    intro q hq
    rcases List.mem_cons.1 hq with rfl | hq
    · exact hl q rfl
    · exact h.delivered q hq
  | client => exact h
  | inject => exact h

theorem traffic_act (hp : V.Honest V.primary) {s : Cluster X} {l : Event} (h : V.sys.Reach s)
    (hl : V.Enabled s l) (ht : V.Traffic s) : V.Traffic (V.act s l) := by
  have hself := listenedEndpoint_of_reach h
  have hsent : ∀ p, l = .deliver p → p ∈ s.sent := fun p hp => by subst hp; exact hl.1
  have heff := effect_of_enabled h hp.1 hl
  generalize V.act s l = s' at heff
  cases heff with
  | inject p hsrc =>
    refine ⟨fun q hq => List.mem_append_left _ (ht.delivered q hq), ?_, ?_⟩
    · intro q hq hq'
      rcases List.mem_append.1 hq with hq | hq
      · exact ht.vote q hq hq'
      · rw [List.mem_singleton.1 hq] at hq' ⊢
        -- outsiders can send requests only
        have hfaulty : p.src ∈ V.faulty := hsrc.resolve_right fun h => hq' h.2
        exact ⟨V.faulty_mem _ hfaulty, fun he => hp.2 (he ▸ hfaulty), fun _ => hfaulty⟩
    · intro q hq hprim hq'
      rcases List.mem_append.1 hq with hq | hq
      · exact ht.order q hq hprim hq'
      · rw [List.mem_singleton.1 hq] at hprim
        rw [hprim] at hsrc
        exact absurd hsrc (by simp [hp.1, hp.2])
  | idle l => exact ht.mark hsent
  | forward l i c hi =>
    refine (ht.apply hi ?_).mark fun p hp => List.mem_append_left _ (hsent p hp)
    simp
  | execute l c hp hl =>
    refine Traffic.mark ⟨fun p hp => List.mem_append_left _ (ht.delivered p hp),
      ?_, ?_⟩ fun p hp => List.mem_append_left _ (hsent p hp)
    · intro p hp hq
      rcases List.mem_append.1 hp with hp | hp
      · exact ht.vote p hp hq
      · exact absurd (Node.data_of_mem_boardcastToOthers hp).2.1 hq
    · intro p hp hsrc hq
      rcases List.mem_append.1 hp with hp | hp
      · exact List.mem_append_left _ (ht.order p hp hsrc hq)
      · rw [(Node.data_of_mem_boardcastToOthers hp).2.2]
        simp [View.apply]
  | order i c hi hm =>
    refine (ht.apply hi ?_).mark fun p hp => List.mem_append_left _ (hsent p hp)
    intro p hp
    rw [← hself i]
    rcases List.mem_append.1 hp with hp | hp
    · obtain ⟨h1, -, -, h4⟩ := Node.data_of_mem_boardcastToOtherSubs hp
      exact ⟨h1, fun _ => h4⟩
    · obtain ⟨h1, -, -, h4⟩ :=
        Node.data_of_mem_boardcastToOtherSubs (Node.sent_addToToBeConfirmedCommands hp)
      exact ⟨h1, fun _ => h4⟩
  | confirm i e c hi hm =>
    refine (ht.apply hi ?_).mark fun p hp => List.mem_append_left _ (hsent p hp)
    intro p hp
    obtain ⟨h1, -, -, h4⟩ :=
      Node.data_of_mem_boardcastToOtherSubs (Node.sent_addToToBeConfirmedCommands hp)
    rw [← hself i]
    exact ⟨h1, fun _ => h4⟩
  | commit i e c hi hm =>
    refine (ht.apply hi ?_).mark fun p hp => List.mem_append_left _ (hsent p hp)
    intro p hp
    rw [Node.sent_addToToBeCommittedCommands] at hp
    exact absurd hp List.not_mem_nil

theorem traffic_of_reach (hp : V.Honest V.primary) {s : Cluster X} (h : V.sys.Reach s) :
    V.Traffic s := by
  refine h.invariant (I := V.Traffic) ?_ fun s l hr ht hl => traffic_act hp hr hl ht
  intro s hs
  rw [hs]
  exact ⟨fun p hp => absurd hp List.not_mem_nil, fun p hp => absurd hp List.not_mem_nil,
    fun p hp => absurd hp List.not_mem_nil⟩

/-! ### The books of a command at a sub -/

theorem count_executed_apply (s : Cluster X) (i : Endpoint) (o : Out X) (c : Cmd) :
    (View.apply s i o).executed.count (i, c) =
      s.executed.count (i, c) + o.executed.count c := by
  rw [View.apply, List.count_append, List.count_map_of_injective _ _ (Prod.mk_right_injective i)]

theorem count_executed_apply_of_ne {s : Cluster X} {i j : Endpoint} (o : Out X) (c : Cmd)
    (h : j ≠ i) : (View.apply s j o).executed.count (i, c) = s.executed.count (i, c) := by
  have hnot : (i, c) ∉ o.executed.map fun d => (j, d) := by
    intro hm
    obtain ⟨d, -, hd⟩ := List.mem_map.1 hm
    exact h (congrArg Prod.fst hd)
  rw [View.apply, List.count_append, List.count_eq_zero_of_not_mem hnot, Nat.add_zero]

theorem delivered_subset_mark (l : Event) (s : Cluster X) :
    s.delivered ⊆ (mark l s).delivered := by
  cases l with
  | deliver p => exact List.subset_cons_self p _
  | client => exact List.Subset.refl _
  | inject => exact List.Subset.refl _

variable (V)

/-- The datagram that makes `i` count the confirmation of `e`; its own one it counts when the order
arrives. -/
def ballot (i e : Endpoint) (c : Cmd) : Packet :=
  if e = i then ⟨V.primary, i, .pleaseExecuteThis, c⟩ else ⟨e, i, .pleaseConfirmThis, c⟩

/-- The books of the command `c` at the sub `i`: the confirmations of `A` have made it commit `k`
times, and the commits of `B` have made it execute. -/
structure Spent (s : Cluster X) (i : Endpoint) (c : Cmd) (k : ℕ) (A B : Finset Endpoint) :
    Prop where
  confirms : Tally.Ledger V.quorum k ((s.node i).toBeConfirmedCommands c) A
  commits : Tally.Ledger V.quorum (s.executed.count (i, c)) ((s.node i).toBeCommittedCommands c) B
  confirmer : ∀ e ∈ A, V.ballot i e c ∈ s.delivered
  committer : ∀ e ∈ B, if e = i then 0 < k else ⟨e, i, .pleaseCommitThis, c⟩ ∈ s.delivered

/-- The vote in the datagram `p` is in the set its receiver is collecting now. -/
def Counted (s : Cluster X) : Packet → Prop
  | ⟨_, dst, .pleaseExecuteThis, c⟩ => dst ∈ (s.node dst).toBeConfirmedCommands c
  | ⟨src, dst, .pleaseConfirmThis, c⟩ => src ∈ (s.node dst).toBeConfirmedCommands c
  | ⟨src, dst, .pleaseCommitThis, c⟩ => src ∈ (s.node dst).toBeCommittedCommands c

instance (s : Cluster X) (p : Packet) : Decidable (Counted s p) :=
  match p with
  | ⟨_, _, .pleaseExecuteThis, _⟩ => inferInstanceAs (Decidable (_ ∈ _))
  | ⟨_, _, .pleaseConfirmThis, _⟩ => inferInstanceAs (Decidable (_ ∈ _))
  | ⟨_, _, .pleaseCommitThis, _⟩ => inferInstanceAs (Decidable (_ ∈ _))

/-- No vote for `c` is counted anew after the set with it has been cleared: a datagram with `c` is
handed to an honest sub a second time only while the vote in it still counts. -/
def NoReplay (c : Cmd) (s : Cluster X) : Event → Prop
  | .deliver p => p.data = c → V.HonestSub p.dst → p ∈ s.delivered → Counted s p
  | _ => True

instance (c : Cmd) (s : Cluster X) (l : Event) : Decidable (V.NoReplay c s l) :=
  match l with
  | .client _ _ _ => inferInstanceAs (Decidable True)
  | .deliver _ => inferInstanceAs (Decidable (_ → _ → _ → _))
  | .inject _ => inferInstanceAs (Decidable True)

variable {V}

/-- The commits of the books stay delivered. -/
theorem Spent.committer_mono {s : Cluster X} {i : Endpoint} {c : Cmd} {k : ℕ}
    {A B : Finset Endpoint} (h : V.Spent s i c k A B) {delivered : List Packet}
    (hsub : s.delivered ⊆ delivered) :
    ∀ e ∈ B, if e = i then 0 < k else ⟨e, i, .pleaseCommitThis, c⟩ ∈ delivered := by
  intro e he
  have := h.committer e he
  split_ifs at this ⊢
  · exact this
  · exact hsub this

/-- Nothing happens to the books where another node or another command is concerned. -/
theorem Spent.apply {s : Cluster X} {i j : Endpoint} {c : Cmd} {k : ℕ} {A B : Finset Endpoint}
    (h : V.Spent s i c k A B) (l : Event) {o : Out X}
    (ho : j = i → o.node.toBeConfirmedCommands c = (s.node i).toBeConfirmedCommands c ∧
      o.node.toBeCommittedCommands c = (s.node i).toBeCommittedCommands c ∧
      o.executed.count c = 0) :
    V.Spent (mark l (View.apply s j o)) i c k A B := by
  have hdel := delivered_subset_mark l (View.apply s j o)
  -- what another node executes does not count here
  have hcount : (View.apply s j o).executed.count (i, c) = s.executed.count (i, c) := by
    by_cases hj : j = i
    · subst hj
      rw [count_executed_apply, (ho rfl).2.2, Nat.add_zero]
    · exact count_executed_apply_of_ne o c hj
  have hnode : ((View.apply s j o).node i).toBeConfirmedCommands c =
      (s.node i).toBeConfirmedCommands c ∧ ((View.apply s j o).node i).toBeCommittedCommands c =
      (s.node i).toBeCommittedCommands c := by
    by_cases hj : j = i
    · subst hj
      simpa [View.apply] using ⟨(ho rfl).1, (ho rfl).2.1⟩
    · simp [View.apply, Function.update_of_ne (Ne.symm hj)]
  refine ⟨?_, ?_, fun e he => hdel (h.confirmer e he), h.committer_mono hdel⟩
  · rw [node_mark, hnode.1]
    exact h.confirms
  · rw [node_mark, executed_mark, hnode.2, hcount]
    exact h.commits

/-- The confirmations of a command come from at most `N - 1` voters. -/
theorem card_confirmers {s : Cluster X} {i : Endpoint} {c : Cmd} {A : Finset Endpoint}
    (ht : V.Traffic s) (hp : V.Honest V.primary) (hi : V.HonestSub i)
    (hA : ∀ e ∈ A, V.ballot i e c ∈ s.delivered) : A.card ≤ V.N - 1 := by
  refine (Finset.card_le_card ?_).trans (Tally.card_erase_toFinset_le hp.1)
  intro e he
  have hm := hA e he
  unfold ballot at hm
  split_ifs at hm with hei
  · subst hei
    simpa using ⟨hi.2, hi.1.1⟩
  · have := ht.vote _ (ht.delivered _ hm) (by simp)
    simpa using ⟨this.2.1, this.1⟩

/-- The commits of a command come from at most `N - 1` voters. -/
theorem Spent.card_committers {s : Cluster X} {i : Endpoint} {c : Cmd} {k : ℕ}
    {A B : Finset Endpoint} (h : V.Spent s i c k A B) (ht : V.Traffic s)
    (hp : V.Honest V.primary) (hi : V.HonestSub i) : B.card ≤ V.N - 1 := by
  refine (Finset.card_le_card ?_).trans (Tally.card_erase_toFinset_le hp.1)
  intro e he
  have hm := h.committer e he
  split_ifs at hm with hei
  · subst hei
    simpa using ⟨hi.2, hi.1.1⟩
  · have := ht.vote _ (ht.delivered _ hm) (by simp)
    simpa using ⟨this.2.1, this.1⟩

/-- Two quorums need more voters than there are. -/
theorem lt_two_quorum (hN : 2 ≤ V.N) : V.N - 1 < 2 * V.quorum := by
  unfold quorum f
  omega

section Votes

variable {s : Cluster X} {i e : Endpoint} {c : Cmd} {k : ℕ} {A B : Finset Endpoint}

theorem node_apply (s : Cluster X) (i : Endpoint) (o : Out X) :
    (View.apply s i o).node i = o.node := Function.update_self ..

/-- A commit that is new, or still counted, keeps the books. -/
theorem Spent.commit (h : V.Spent s i c k A B) (hr : V.sys.Reach s) (he : e ≠ i)
    (hno : V.NoReplay c s (.deliver ⟨e, i, .pleaseCommitThis, c⟩)) (hi : V.HonestSub i) :
    ∃ B', V.Spent (mark (.deliver ⟨e, i, .pleaseCommitThis, c⟩)
      (View.apply s i ((s.node i).addToToBeCommittedCommands V.exe e c))) i c k A B' := by
  have hq := quorum_of_reach hr i
  by_cases heB : e ∈ B
  · -- the vote is in the present set, so the tally does not change
    have hdel : (⟨e, i, .pleaseCommitThis, c⟩ : Packet) ∈ s.delivered := by
      simpa [he] using h.committer e heB
    have hcnt : e ∈ (s.node i).toBeCommittedCommands c := hno rfl hi hdel
    have hv : (s.node i).commitVote e c = ((s.node i).toBeCommittedCommands c, false) := by
      rw [Node.commitVote, hq]
      exact h.commits.vote_mem hcnt
    refine ⟨B, h.apply _ fun _ => ⟨?_, ?_, ?_⟩⟩
    · rw [Node.confirmed_addToToBeCommittedCommands]
    · rw [Node.committed_addToToBeCommittedCommands, hv, Function.update_self]
    · rw [Node.executed_addToToBeCommittedCommands, hv]
      rfl
  -- a new voter
  · refine ⟨insert e B, ?_, ?_, fun a ha => List.mem_cons_of_mem _ (h.confirmer a ha), ?_⟩
    · rw [node_mark, node_apply, Node.confirmed_addToToBeCommittedCommands]
      exact h.confirms
    · rw [node_mark, executed_mark, node_apply, count_executed_apply,
        Node.committed_addToToBeCommittedCommands, Node.executed_addToToBeCommittedCommands,
        Function.update_self, List.count_replicate_self, Node.commitVote, hq]
      exact h.commits.vote heB
    · intro a ha
      rcases Finset.mem_insert.1 ha with rfl | ha
      · rw [if_neg he]
        exact List.mem_cons_self
      · exact h.committer_mono (List.subset_cons_self _ _) a ha

/-- A confirmation that has been counted before still counts, so the tally does not change. -/
theorem Spent.confirm_again (h : V.Spent s i c k A B) (hr : V.sys.Reach s)
    (hno : V.NoReplay c s (.deliver (V.ballot i e c))) (hi : V.HonestSub i) (heA : e ∈ A)
    {o : Out X} (hnode : o.node = ((s.node i).addToToBeConfirmedCommands V.exe e c).node)
    (hexec : o.executed = ((s.node i).addToToBeConfirmedCommands V.exe e c).executed) :
    V.Spent (mark (.deliver (V.ballot i e c)) (View.apply s i o)) i c k A B := by
  have hcnt : e ∈ (s.node i).toBeConfirmedCommands c := by
    have hc := h.confirmer e heA
    unfold ballot at hno hc
    split_ifs at hno hc with hei
    · subst hei
      exact hno rfl hi hc
    · exact hno rfl hi hc
  have hv : (s.node i).confirmVote e c = ((s.node i).toBeConfirmedCommands c, false) := by
    rw [Node.confirmVote, quorum_of_reach hr i]
    exact h.confirms.vote_mem hcnt
  have hout := Node.addToToBeConfirmedCommands_of_not_fired (E := V.exe) (congrArg Prod.snd hv)
  refine h.apply _ fun _ => ⟨?_, ?_, ?_⟩
  · rw [hnode, Node.confirmed_addToToBeConfirmedCommands, hv, Function.update_self]
  · rw [hnode, hout]
    rfl
  · rw [hexec, hout]
    rfl

/-- A confirmation that is new, or still counted, keeps the books: it makes the sub commit at most
once, so the commit of the sub itself is new as well. -/
theorem Spent.confirm (h : V.Spent s i c k A B) (hN : 2 ≤ V.N) (hp : V.Honest V.primary)
    (hr : V.sys.Reach s) (hno : V.NoReplay c s (.deliver (V.ballot i e c))) (hi : V.HonestSub i)
    {o : Out X} (hnode : o.node = ((s.node i).addToToBeConfirmedCommands V.exe e c).node)
    (hexec : o.executed = ((s.node i).addToToBeConfirmedCommands V.exe e c).executed)
    (ht : V.Traffic (mark (.deliver (V.ballot i e c)) (View.apply s i o))) :
    ∃ k' A' B', V.Spent (mark (.deliver (V.ballot i e c)) (View.apply s i o)) i c k' A' B' := by
  have hq := quorum_of_reach hr i
  by_cases heA : e ∈ A
  · exact ⟨k, A, B, h.confirm_again hr hno hi heA hnode hexec⟩
  · have hA : ∀ a ∈ insert e A, V.ballot i a c ∈ (mark (.deliver (V.ballot i e c))
        (View.apply s i o)).delivered := by
      intro a ha
      rcases Finset.mem_insert.1 ha with rfl | ha
      · exact List.mem_cons_self
      · exact List.mem_cons_of_mem _ (h.confirmer a ha)
    have hled := h.confirms.vote heA
    have hconf : (o.node.toBeConfirmedCommands c) =
        (Tally.vote V.quorum ((s.node i).toBeConfirmedCommands c) e).1 := by
      rw [hnode, Node.confirmed_addToToBeConfirmedCommands, Function.update_self,
        Node.confirmVote, hq]
    have hB : ∀ a ∈ B, if a = i then 0 < k else (⟨a, i, .pleaseCommitThis, c⟩ : Packet) ∈
        (mark (.deliver (V.ballot i e c)) (View.apply s i o)).delivered :=
      h.committer_mono (List.subset_cons_self _ _)
    cases hfire : ((s.node i).confirmVote e c).2 with
    | false =>
      have hout := Node.addToToBeConfirmedCommands_of_not_fired (E := V.exe) hfire
      rw [Node.confirmVote, hq] at hfire
      rw [hfire] at hled
      refine ⟨k, insert e A, B, ?_, ?_, hA, hB⟩
      · rw [node_mark, node_apply, hconf]
        exact hled
      · rw [node_mark, executed_mark, node_apply, count_executed_apply, hnode, hexec, hout]
        exact h.commits
    | true =>
      have hout := Node.addToToBeConfirmedCommands_of_fired (E := V.exe) hfire
      rw [Node.confirmVote, hq] at hfire
      rw [hfire] at hled
      -- the voters suffice for one firing, so this is the first commit of the sub itself
      have hk : k = 0 := by
        have hone := hled.le_one ((card_confirmers ht hp hi hA).trans_lt (lt_two_quorum hN))
        simpa using hone
      have hiB : i ∉ B := by
        intro hiB
        have := h.committer i hiB
        simp [hk] at this
      refine ⟨k + 1, insert e A, insert i B, ?_, ?_, hA, ?_⟩
      · rw [node_mark, node_apply, hconf]
        exact hled
      · rw [node_mark, executed_mark, node_apply, count_executed_apply, hnode, hexec, hout,
          Out.after_node, Out.after_executed, Node.committed_addToToBeCommittedCommands,
          Node.executed_addToToBeCommittedCommands, Function.update_self,
          List.count_replicate_self, listenedEndpoint_of_reach hr]
        have hcv : ((s.node i).setConfirmed c ((s.node i).confirmVote e c).1).commitVote i c =
            Tally.vote V.quorum ((s.node i).toBeCommittedCommands c) i := by
          rw [← hq]
          rfl
        rw [hcv]
        exact h.commits.vote hiB
      · intro a ha
        by_cases hai : a = i
        · rw [if_pos hai]
          exact Nat.succ_pos k
        · have := hB a ((Finset.mem_insert.1 ha).resolve_left hai)
          rwa [if_neg hai] at this ⊢

end Votes

/-! ### Runs -/

/-- **One event** keeps the books of a command that is not replayed. -/
theorem spent_act (hN : 2 ≤ V.N) (hp : V.Honest V.primary) {s : Cluster X} {l : Event}
    {i : Endpoint} {c : Cmd} {k : ℕ} {A B : Finset Endpoint} (hr : V.sys.Reach s)
    (hl : V.Enabled s l) (hno : V.NoReplay c s l) (hi : V.HonestSub i)
    (h : V.Spent s i c k A B) : ∃ k A B, V.Spent (V.act s l) i c k A B := by
  have ht' := traffic_act hp hr hl (traffic_of_reach hp hr)
  have ht := traffic_of_reach hp hr
  have heff := effect_of_enabled hr hp.1 hl
  generalize V.act s l = s' at heff ht'
  cases heff with
  | inject p hsrc => exact ⟨k, A, B, h.confirms, h.commits, h.confirmer, h.committer⟩
  | idle l =>
    have := h.apply l (j := i) (o := { node := s.node i }) fun _ => ⟨rfl, rfl, rfl⟩
    rw [apply_self] at this
    exact ⟨k, A, B, this⟩
  | forward l j d hj =>
    exact ⟨k, A, B, h.apply l fun hji => by subst hji; exact ⟨rfl, rfl, rfl⟩⟩
  | execute l d => exact ⟨k, A, B, h.apply l fun hpi => absurd hpi.symm hi.2⟩
  | order j d hj hm =>
    by_cases hji : j = i ∧ d = c
    · obtain ⟨rfl, rfl⟩ := hji
      have hb : V.ballot j j d = ⟨V.primary, j, .pleaseExecuteThis, d⟩ := if_pos rfl
      rw [← hb] at hno ht' ⊢
      exact h.confirm hN hp hr hno hi rfl rfl ht'
    · refine ⟨k, A, B, h.apply _ ?_⟩
      intro hj'
      subst hj'
      have hd : c ≠ d := fun he => hji ⟨rfl, he.symm⟩
      exact ⟨by rw [Out.after_node, Node.confirmed_addToToBeConfirmedCommands,
          Function.update_of_ne hd], Node.committed_addToToBeConfirmedCommands_of_ne hd,
        Node.count_executed_addToToBeConfirmedCommands_of_ne hd⟩
  | confirm j e d hj hm =>
    by_cases hji : j = i ∧ d = c
    · obtain ⟨rfl, rfl⟩ := hji
      -- an honest sub does not send to itself
      have hej : e ≠ j := fun hej => hj.1.2 (hej ▸ (ht.vote _ hm (by simp)).2.2 hej)
      have hb : V.ballot j e d = ⟨e, j, .pleaseConfirmThis, d⟩ := if_neg hej
      rw [← hb] at hno ht' ⊢
      exact h.confirm hN hp hr hno hi rfl rfl ht'
    · refine ⟨k, A, B, h.apply _ ?_⟩
      intro hj'
      subst hj'
      have hd : c ≠ d := fun he => hji ⟨rfl, he.symm⟩
      exact ⟨by rw [Node.confirmed_addToToBeConfirmedCommands, Function.update_of_ne hd],
        Node.committed_addToToBeConfirmedCommands_of_ne hd,
        Node.count_executed_addToToBeConfirmedCommands_of_ne hd⟩
  | commit j e d hj hm =>
    by_cases hji : j = i ∧ d = c
    · obtain ⟨rfl, rfl⟩ := hji
      have hej : e ≠ j := fun hej => hj.1.2 (hej ▸ (ht.vote _ hm (by simp)).2.2 hej)
      obtain ⟨B', hB'⟩ := h.commit hr hej hno hi
      exact ⟨k, A, B', hB'⟩
    · refine ⟨k, A, B, h.apply _ ?_⟩
      intro hj'
      subst hj'
      have hd : c ≠ d := fun he => hji ⟨rfl, he.symm⟩
      exact ⟨by rw [Node.confirmed_addToToBeCommittedCommands],
        by rw [Node.committed_addToToBeCommittedCommands, Function.update_of_ne hd],
        Node.count_executed_addToToBeCommittedCommands_of_ne hd⟩

theorem spent_of_reach (hN : 2 ≤ V.N) (hp : V.Honest V.primary) {s : Cluster X} {i : Endpoint}
    {c : Cmd} (h : (V.sys.only (V.NoReplay c)).Reach s) (hi : V.HonestSub i) :
    ∃ k A B, V.Spent s i c k A B := by
  refine h.invariant (I := fun s => ∃ k A B, V.Spent s i c k A B) ?_
    fun s l hr ⟨k, A, B, hs⟩ hl => spent_act hN hp hr.of_only hl.1 hl.2 hi hs
  intro s hs
  have hq : 0 < V.quorum := by have := lt_two_quorum hN; omega
  rw [show s = V.init from hs]
  exact ⟨0, ∅, ∅, Tally.Ledger.empty hq, Tally.Ledger.empty hq, by simp, by simp⟩

/-- An honest sub executes a command that is not replayed at most once. -/
theorem count_executed_le_one (hN : 2 ≤ V.N) (hp : V.Honest V.primary) {s : Cluster X}
    {i : Endpoint} {c : Cmd} (h : (V.sys.only (V.NoReplay c)).Reach s) (hi : V.HonestSub i) :
    s.executed.count (i, c) ≤ 1 := by
  obtain ⟨k, A, B, hs⟩ := spent_of_reach hN hp h hi
  have hB := hs.card_committers (traffic_of_reach hp h.of_only) hp hi
  exact hs.commits.le_one (hB.trans_lt (lt_two_quorum hN))

theorem ordered_subset_act (s : Cluster X) (l : Event) : s.ordered ⊆ (V.act s l).ordered := by
  cases l with
  | client => exact List.subset_append_left _ _
  | deliver => exact List.subset_append_left _ _
  | inject => exact List.Subset.refl _

/-- What an honest sub has executed was broadcast by the honest primary. -/
theorem mem_ordered_of_executed (hN : 2 ≤ V.N) (hp : V.Honest V.primary)
    (hf : V.faulty.card ≤ V.f) {s : Cluster X} {i : Endpoint} {c : Cmd} (h : V.sys.Reach s)
    (hi : V.HonestSub i) (hc : (i, c) ∈ s.executed) : c ∈ s.ordered := by
  refine h.invariant (I := fun s => (i, c) ∈ s.executed → c ∈ s.ordered) ?_ ?_ hc
  · intro s hs hc
    rw [hs] at hc
    exact absurd hc List.not_mem_nil
  · intro s l hr ih hl hc
    obtain ⟨-, new, hnew, hord⟩ := valid_act hN hf hr hl (valid_of_reach hN hf hr)
    change (i, c) ∈ (V.act s l).executed at hc
    refine ordered_subset_act s l ?_
    rw [hnew, List.mem_append] at hc
    rcases hc with hc | hc
    · exact ih hc
    · obtain ⟨j, -, hj⟩ := (hord _ hc).resolve_left hi.2
      exact (traffic_of_reach hp hr).order _ hj rfl rfl

/-- **At most one execution for every order.**  In a view of any size `N ≥ 2` with an honest
primary and at most `f` faulty members, in every run in which no vote for `c` is counted anew after
the set with it has been cleared: every honest sub has executed `c` at most as often as the primary
has broadcast it. -/
theorem count_executed_le_count_ordered (hN : 2 ≤ V.N) (hp : V.Honest V.primary)
    (hf : V.faulty.card ≤ V.f) {s : Cluster X} {i : Endpoint} {c : Cmd}
    (h : (V.sys.only (V.NoReplay c)).Reach s) (hi : V.HonestSub i) :
    s.executed.count (i, c) ≤ s.ordered.count c := by
  by_cases hc : (i, c) ∈ s.executed
  -- one execution, and at least one order
  · have hord := mem_ordered_of_executed hN hp hf h.of_only hi hc
    exact (count_executed_le_one hN hp h hi).trans (List.one_le_count_iff.2 hord)
  · rw [List.count_eq_zero_of_not_mem hc]
    exact Nat.zero_le _

/-- Four nodes, one of them faulty: a run in which the network duplicates a vote before its set is
cleared, and in which `N1` executes. -/
theorem count_executed_le_count_ordered_four :
    let V := mockView [ascii "N0", ascii "N1", ascii "N2", ascii "N3"] {ascii "N3"} (by decide)
    let c := ascii "cmd1"
    ∃ s, (V.sys.only (V.NoReplay c)).Reach s ∧ (ascii "N1", c) ∈ s.executed ∧
      s.executed.count (ascii "N1", c) ≤ s.ordered.count c := by
  intro V c
  obtain ⟨s, hs, hc⟩ := Sys.exists_reach_of_exec (A := V.sys.only (V.NoReplay c)) (s := V.init)
    (P := fun s => (ascii "N1", c) ∈ s.executed) rfl
    ([.client (ascii "N0") (ascii "client") c,
      .deliver ⟨ascii "N0", ascii "N1", .pleaseExecuteThis, c⟩,
      .deliver ⟨ascii "N0", ascii "N1", .pleaseExecuteThis, c⟩,
      .inject ⟨ascii "N3", ascii "N1", .pleaseConfirmThis, c⟩,
      .deliver ⟨ascii "N3", ascii "N1", .pleaseConfirmThis, c⟩,
      .inject ⟨ascii "N3", ascii "N1", .pleaseCommitThis, c⟩,
      .deliver ⟨ascii "N3", ascii "N1", .pleaseCommitThis, c⟩]) (by decide +kernel)
  exact ⟨s, hs, hc, count_executed_le_count_ordered (V := V) (by decide) (by decide) (by decide)
    hs (by decide)⟩

/-! ### What a replay does -/

/-- The network delivers no datagram more often than it was sent. -/
def NoDuplication (s : Cluster X) : Event → Prop
  | .deliver p => s.delivered.count p < s.sent.count p
  | _ => True

instance (s : Cluster X) (l : Event) : Decidable (NoDuplication s l) :=
  match l with
  | .client _ _ _ => inferInstanceAs (Decidable True)
  | .deliver _ => inferInstanceAs (Decidable (_ < _))
  | .inject _ => inferInstanceAs (Decidable True)

/-- An order reaches the sub of a group of two twice. -/
def replayedOrder (c N0 N1 : Bytes) : List Event :=
  [.client N0 (ascii "client") c, .deliver ⟨N0, N1, .pleaseExecuteThis, c⟩,
    .deliver ⟨N0, N1, .pleaseExecuteThis, c⟩]

/-- The faulty `N3` votes twice in both rounds at `N1`, once together with `N1` and once with
`N2`. -/
def repeatedVotes (c N0 N1 N2 N3 : Bytes) : List Event :=
  [.client N0 (ascii "client") c,
    .inject ⟨N3, N1, .pleaseConfirmThis, c⟩, .inject ⟨N3, N1, .pleaseConfirmThis, c⟩,
    .inject ⟨N3, N1, .pleaseCommitThis, c⟩, .inject ⟨N3, N1, .pleaseCommitThis, c⟩,
    .deliver ⟨N0, N1, .pleaseExecuteThis, c⟩, .deliver ⟨N3, N1, .pleaseConfirmThis, c⟩,
    .deliver ⟨N3, N1, .pleaseCommitThis, c⟩,
    .deliver ⟨N0, N2, .pleaseExecuteThis, c⟩, .deliver ⟨N2, N1, .pleaseConfirmThis, c⟩,
    .deliver ⟨N3, N1, .pleaseConfirmThis, c⟩, .deliver ⟨N3, N1, .pleaseCommitThis, c⟩]

/-- The primary takes the command twice; the two votes of each of the three subs make up three
quorums of two at `N1`. -/
def repeatedOrder (c N0 N1 N2 N3 : Bytes) : List Event :=
  [.client N0 (ascii "client") c, .client N0 (ascii "client") c,
    .deliver ⟨N0, N1, .pleaseExecuteThis, c⟩, .deliver ⟨N0, N2, .pleaseExecuteThis, c⟩,
    .deliver ⟨N0, N3, .pleaseExecuteThis, c⟩, .deliver ⟨N0, N2, .pleaseExecuteThis, c⟩,
    .deliver ⟨N0, N3, .pleaseExecuteThis, c⟩,
    .deliver ⟨N2, N1, .pleaseConfirmThis, c⟩, .deliver ⟨N1, N2, .pleaseConfirmThis, c⟩,
    .deliver ⟨N2, N1, .pleaseCommitThis, c⟩,
    .deliver ⟨N3, N1, .pleaseConfirmThis, c⟩, .deliver ⟨N0, N1, .pleaseExecuteThis, c⟩,
    .deliver ⟨N3, N2, .pleaseConfirmThis, c⟩, .deliver ⟨N1, N2, .pleaseConfirmThis, c⟩,
    .deliver ⟨N2, N1, .pleaseCommitThis, c⟩,
    .deliver ⟨N2, N1, .pleaseConfirmThis, c⟩, .deliver ⟨N3, N1, .pleaseConfirmThis, c⟩,
    .deliver ⟨N1, N3, .pleaseConfirmThis, c⟩, .deliver ⟨N3, N1, .pleaseCommitThis, c⟩]

/-- **Three ways to execute too often**: in a group of two, an order that the network delivers
twice; in a group of four, without duplication by the network, a faulty member that repeats its
votes; and, with neither faults nor duplication, a command the primary takes twice. -/
theorem executed_too_often :
    let c := ascii "c"
    let N0 := ascii "N0"
    let N1 := ascii "N1"
    let N2 := ascii "N2"
    let N3 := ascii "N3"
    (∃ s, (mockView [N0, N1] ∅ (by simp)).sys.Reach s ∧
      s.executed.count (N1, c) = 2 ∧ s.ordered.count c = 1) ∧
    (∃ s, ((mockView [N0, N1, N2, N3] {N3} (by decide)).sys.only NoDuplication).Reach s ∧
      s.executed.count (N1, c) = 2 ∧ s.ordered.count c = 1) ∧
    (∃ s, ((mockView [N0, N1, N2, N3] ∅ (by simp)).sys.only NoDuplication).Reach s ∧
      s.executed.count (N1, c) = 3 ∧ s.ordered.count c = 2) := by
  intro c N0 N1 N2 N3
  refine ⟨?_, ?_, ?_⟩
  · exact Sys.exists_reach_of_exec rfl (replayedOrder c N0 N1) (by decide +kernel)
  · exact Sys.exists_reach_of_exec rfl (repeatedVotes c N0 N1 N2 N3) (by decide +kernel)
  · exact Sys.exists_reach_of_exec rfl (repeatedOrder c N0 N1 N2 N3) (by decide +kernel)

end View

end Rbft

end WeakChain
