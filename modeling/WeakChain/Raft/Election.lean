import WeakChain.Raft.Node
import Mathlib.Data.Finset.Card
import Mathlib.Tactic.Ring

/-!
# Election safety

A candidate makes itself the primary when it has *more than `others.size() / 2`* votes.  In a group
of odd size that is a majority, and in a group of two the candidate and the voter are the whole
group; but in a group of four two votes are enough, and two candidates may win one term.  The other
gap is in `complain`: a node that has voted in a later term than its own may start that very term
itself, and so vote in it twice.

`Fair` excludes the second gap.  The argument has two layers:

* `Inv` : a vote is given only to a candidate that has voted for itself, and two nodes never vote
  for each other in one term.  This is enough for a group of two.
* `Books` : a node votes once in a term, and a candidate has counted at most one vote for every
  voter.  Two majorities of one term then share a voter.
-/

namespace WeakChain

namespace Raft

/-- The node to which an event happens, and what. -/
def Event.input : Event → Endpoint × Input
  | .tick i rand => (i, .tick rand)
  | .startBeingPrimary i => (i, .startBeingPrimary)
  | .beat i => (i, .beat)
  | .deliver p rand => (p.dst, .receive p.src p.msg rand)

namespace Group

variable {G : Group}

/-! ### What an event does -/

/-- The network after the event has taken its message. -/
def taken (s : Cluster) : Event → Cluster
  | .deliver p _ => take s p
  | _ => s

/-- An event is an input to a node. -/
theorem act_eq (s : Cluster) (l : Event) :
    act s l = apply (taken s l) l.input.1 ((s.node l.input.1).handle l.input.2) := by
  cases l <;> rfl

theorem taken_node (s : Cluster) (l : Event) :
    (taken s l).node = s.node ∧ (taken s l).votes = s.votes := by
  cases l <;> exact ⟨rfl, rfl⟩

theorem node_apply_self (s : Cluster) (i : Endpoint) (o : Out) :
    (apply s i o).node i = o.node := Function.update_self ..

theorem node_apply_of_ne {s : Cluster} {i j : Endpoint} (o : Out) (h : j ≠ i) :
    (apply s i o).node j = s.node j := Function.update_of_ne h ..

/-- The part of a node that never changes. -/
theorem frame_of_reach {s : Cluster} (h : G.sys.Reach s) (i : Endpoint) :
    (s.node i).listenedEndpoint = i ∧
      (s.node i).others = G.members.filter fun other => other ≠ i := by
  refine h.invariant (I := fun s => ∀ i, (s.node i).listenedEndpoint = i ∧
    (s.node i).others = G.members.filter fun other => other ≠ i) ?_ ?_ i
  · rintro _ ⟨rand, rfl⟩ i
    exact ⟨rfl, rfl⟩
  · intro s l _ ih _ i
    change ((act s l).node i).listenedEndpoint = i ∧ ((act s l).node i).others = _
    rw [act_eq]
    by_cases hi : i = l.input.1
    · -- a handler changes neither the name of its node nor its peers
      obtain ⟨hself, hothers⟩ := ((s.node l.input.1).does_handle l.input.2).frame
      rw [hi, node_apply_self, hself, hothers]
      exact ih l.input.1
    · rw [node_apply_of_ne _ hi, (taken_node s l).1]
      exact ih i

/-- The handler of `n` that left `o` behind has done nothing that matters for the election, except
that it may have reset the votes. -/
structure Quiet (n : Node) (o : Out) : Prop where
  term : o.node.term = n.term
  votedTerm : o.node.votedTerm = n.votedTerm
  myVotes : o.node.myVotes = n.myVotes ∨ o.node.myVotes = 0
  sent : ∀ p ∈ o.sent, p.msg = .heartbeat
  votes : o.votes = []
  won : o.won = []

variable (G) in
/-- Everything an enabled event can do in a reachable state, guards included. -/
inductive Effect (s : Cluster) : Event → Cluster → Prop
  | quiet (l : Event) (i : Endpoint) (o : Out) (h : Quiet (s.node i) o) :
      Effect s l (apply (taken s l) i o)
  /-- A node starts a new term. -/
  | complain (i : Endpoint) (rand : ℕ) (hi : i ∈ G.members) (hp : (s.node i).primary ≠ i)
      (h0 : (s.node i).patience = 0) :
      Effect s (.tick i rand) (apply s i
        { (s.node i).complain with node := (s.node i).complain.node.comfort rand })
  /-- A node votes for another one. -/
  | vote (i e : Endpoint) (t : ℤ) (rand : ℕ) (hi : i ∈ G.members)
      (hp : ⟨e, i, .pleaseVoteMe t⟩ ∈ s.flying) (ht : (s.node i).term < t)
      (hv : (s.node i).votedTerm < t) :
      Effect s (.deliver ⟨e, i, .pleaseVoteMe t⟩ rand)
        (apply (take s ⟨e, i, .pleaseVoteMe t⟩) i
          { node := { s.node i with votedTerm := t }
            sent := [⟨(s.node i).listenedEndpoint, e, .voteForYou t⟩]
            votes := [(t, e)] })
  /-- A candidate counts a vote that is not enough. -/
  | count (i e : Endpoint) (rand : ℕ) (hp : ⟨e, i, .voteForYou (s.node i).term⟩ ∈ s.flying) :
      Effect s (.deliver ⟨e, i, .voteForYou (s.node i).term⟩ rand)
        (apply (take s ⟨e, i, .voteForYou (s.node i).term⟩) i
          { node := { s.node i with myVotes := int32 ((s.node i).myVotes + 1) } })
  /-- A candidate wins. -/
  | win (i e : Endpoint) (rand : ℕ) (node : Node) (hi : i ∈ G.members)
      (hp : ⟨e, i, .voteForYou (s.node i).term⟩ ∈ s.flying)
      (hwin : (s.node i).others.length / 2 < toSizeT (int32 ((s.node i).myVotes + 1)))
      (hnode : node =
        { s.node i with
          myVotes := int32 ((s.node i).myVotes + 1)
          primary := (s.node i).listenedEndpoint
          primaryThread := true }) :
      Effect s (.deliver ⟨e, i, .voteForYou (s.node i).term⟩ rand)
        (apply (take s ⟨e, i, .voteForYou (s.node i).term⟩) i
          { node := node
            sent := (s.node i).sendToOthers (.iAmThePrimary (s.node i).term)
            won := [(s.node i).term] })
  /-- A node follows a primary into its term. -/
  | welcome (i e : Endpoint) (t : ℤ) (rand : ℕ) (ht : (s.node i).term ≤ t) :
      Effect s (.deliver ⟨e, i, .iAmThePrimary t⟩ rand)
        (apply (take s ⟨e, i, .iAmThePrimary t⟩) i
          { node := ((s.node i).follow e t).comfort rand })

theorem quiet_patience (n : Node) (patience : ℤ) :
    Quiet n { node := { n with patience := patience } } :=
  ⟨rfl, rfl, .inl rfl, by simp, rfl, rfl⟩

/-- **What an event can do.** -/
theorem effect_of_enabled {s : Cluster} (h : G.sys.Reach s) {l : Event} (hl : G.Enabled s l) :
    G.Effect s l (act s l) := by
  rw [act_eq]
  have hdoes := (s.node l.input.1).does_handle l.input.2
  generalize (s.node l.input.1).handle l.input.2 = o at hdoes ⊢
  cases l with
  | tick i rand =>
    change (s.node i).Does (.tick rand) o at hdoes
    cases hdoes with
    | quiet _ patience => exact .quiet (.tick i rand) i _ (quiet_patience _ _)
    | complain _ hself hpatience =>
      rw [(frame_of_reach h i).1] at hself
      exact .complain i rand hl hself hpatience
  | startBeingPrimary i =>
    cases hdoes with
    | quiet _ patience => exact .quiet (.startBeingPrimary i) i _ (quiet_patience _ _)
    | reset =>
      exact .quiet (.startBeingPrimary i) i _
        ⟨rfl, rfl, .inr rfl, by simp [Node.startBeingPrimary], rfl, rfl⟩
  | beat i =>
    cases hdoes with
    | quiet _ patience => exact .quiet (.beat i) i _ (quiet_patience _ _)
    | beat hself =>
      exact .quiet (.beat i) i _ ⟨rfl, rfl, .inl rfl, by simp [Node.sendToOthers], rfl, rfl⟩
  | deliver p rand =>
    obtain ⟨e, i, msg⟩ := p
    change (s.node i).Does (.receive e msg rand) o at hdoes
    cases hdoes with
    | quiet _ patience => exact .quiet (.deliver ⟨e, i, msg⟩ rand) i _ (quiet_patience _ _)
    | vote _ t _ hterm hvoted => exact .vote i e t rand hl.2 hl.1 hterm hvoted
    | count _ _ hfew => exact .count i e rand hl.1
    | win _ _ hwin => exact .win i e rand _ hl.2 hl.1 hwin rfl
    | follow _ t _ hterm => exact .welcome i e t rand hterm

/-! ### Candidates and their voters -/

variable (G) in
/-- Votes are given on request only, and never to each other. -/
structure Inv (s : Cluster) : Prop where
  term_nonneg : ∀ i, 0 ≤ (s.node i).term
  /-- A request comes from a node that has voted for itself. -/
  request : ∀ p ∈ s.flying, ∀ t, p.msg = .pleaseVoteMe t →
    ⟨p.src, t, p.src⟩ ∈ s.votes ∧ p.src ≠ p.dst
  /-- An answer is a vote for another node. -/
  answer : ∀ p ∈ s.flying, ∀ t, p.msg = .voteForYou t →
    ⟨p.src, t, p.dst⟩ ∈ s.votes ∧ p.src ≠ p.dst
  /-- A candidate has voted for itself, when it started the term. -/
  self : ∀ v ∈ s.votes, ⟨v.candidate, v.term, v.candidate⟩ ∈ s.votes
  self_le : ∀ i t, ⟨i, t, i⟩ ∈ s.votes → t ≤ (s.node i).term
  asymm : ∀ i j t, i ≠ j → ⟨i, t, j⟩ ∈ s.votes → ⟨j, t, i⟩ ∉ s.votes
  voter_mem : ∀ v ∈ s.votes, v.voter ∈ G.members
  won : ∀ i t, (i, t) ∈ s.wins → i ∈ G.members ∧ ∃ v ≠ i, ⟨v, t, i⟩ ∈ s.votes

theorem mem_votes_apply {s : Cluster} {i : Endpoint} {o : Out} {v : Vote} :
    v ∈ (apply s i o).votes ↔ v ∈ s.votes ∨ v.voter = i ∧ (v.term, v.candidate) ∈ o.votes := by
  simp only [apply, List.mem_append, List.mem_map]
  refine or_congr_right ⟨?_, ?_⟩
  · rintro ⟨⟨t, c⟩, hm, rfl⟩
    exact ⟨rfl, hm⟩
  · rintro ⟨rfl, hm⟩
    exact ⟨_, hm, rfl⟩

/-- What a handler has to do to keep the invariant. -/
theorem Inv.apply {s : Cluster} {fl : List Packet} {i : Endpoint} {o : Out} (h : G.Inv s)
    (hfl : fl ⊆ s.flying) (hi : i ∈ G.members ∨ o.votes = [] ∧ o.won = [])
    (ht : (s.node i).term ≤ o.node.term)
    (hreq : ∀ p ∈ o.sent, ∀ t, p.msg = .pleaseVoteMe t →
      p.src = i ∧ p.dst ≠ i ∧ (t, i) ∈ o.votes)
    (hans : ∀ p ∈ o.sent, ∀ t, p.msg = .voteForYou t →
      p.src = i ∧ p.dst ≠ i ∧ (t, p.dst) ∈ o.votes)
    (hvotes : ∀ t c, (t, c) ∈ o.votes →
      c = i ∧ t ≤ o.node.term ∨ ⟨c, t, c⟩ ∈ s.votes ∧ (s.node i).term < t)
    (hwon : ∀ t ∈ o.won, ∃ v ≠ i, ⟨v, t, i⟩ ∈ s.votes) :
    G.Inv (Group.apply { s with flying := fl } i o) := by
  have hold : ∀ v, v ∈ s.votes → v ∈ (Group.apply { s with flying := fl } i o).votes :=
    fun v hv => mem_votes_apply.2 (.inl hv)
  -- terms only grow
  have hterm : ∀ j, (s.node j).term ≤
      ((Group.apply { s with flying := fl } i o).node j).term := by
    intro j
    by_cases hj : j = i
    · subst hj
      rw [node_apply_self]
      exact ht
    · rw [node_apply_of_ne o hj]
  refine ⟨fun j => (h.term_nonneg j).trans (hterm j), ?_, ?_,
    ?_, ?_, fun j k t hjk h1 h2 => ?_, ?_, ?_⟩
  · intro p hp t hm
    rcases List.mem_append.1 hp with hp | hp
    · exact ⟨hold _ (h.request p (hfl hp) t hm).1, (h.request p (hfl hp) t hm).2⟩
    · obtain ⟨h1, h2, h3⟩ := hreq p hp t hm
      refine ⟨mem_votes_apply.2 (.inr ⟨h1, ?_⟩), fun he => h2 (he ▸ h1)⟩
      rwa [h1]
  · intro p hp t hm
    rcases List.mem_append.1 hp with hp | hp
    · exact ⟨hold _ (h.answer p (hfl hp) t hm).1, (h.answer p (hfl hp) t hm).2⟩
    · obtain ⟨h1, h2, h3⟩ := hans p hp t hm
      exact ⟨mem_votes_apply.2 (.inr ⟨h1, h3⟩), fun he => h2 (he ▸ h1)⟩
  · intro v hv
    rcases mem_votes_apply.1 hv with hv | ⟨hvi, hv⟩
    · exact hold _ (h.self v hv)
    · rcases hvotes _ _ hv with ⟨hc, -⟩ | ⟨hc, -⟩
      · exact mem_votes_apply.2 (.inr ⟨hc, hv⟩)
      · exact hold _ hc
  · intro j t hj
    -- the term of a vote for oneself is one's own
    rcases mem_votes_apply.1 hj with hj | ⟨hji, hj⟩
    · exact (h.self_le j t hj).trans (hterm j)
    · rcases hvotes _ _ hj with ⟨hc, hle⟩ | ⟨hc, -⟩
      · rw [show j = i from hji, node_apply_self]
        exact hle
      · exact (h.self_le _ _ hc).trans (hterm _)
  · -- a new vote for another node is for a term its voter has not started
    have new : ∀ a b, a ≠ b → (t, b) ∈ o.votes → a = i → ⟨b, t, a⟩ ∉ s.votes := by
      rintro a b hab hb rfl hba
      rcases hvotes _ _ hb with ⟨hc, -⟩ | ⟨-, hlt⟩
      · exact hab hc.symm
      · exact absurd (h.self_le _ _ (h.self _ hba)) (not_le.2 hlt)
    rcases mem_votes_apply.1 h1 with h1 | ⟨hj, h1⟩ <;>
      rcases mem_votes_apply.1 h2 with h2 | ⟨hk, h2⟩
    · exact h.asymm j k t hjk h1 h2
    · exact new k j hjk.symm h2 hk h1
    · exact new j k hjk h1 hj h2
    · exact hjk (hj.trans hk.symm)
  · intro v hv
    rcases mem_votes_apply.1 hv with hv | ⟨hvi, hv⟩
    · exact h.voter_mem v hv
    · rcases hi with hi | ⟨hnil, -⟩
      · rwa [hvi]
      · rw [hnil] at hv
        exact absurd hv List.not_mem_nil
  · intro j t hj
    rcases List.mem_append.1 hj with hj | hj
    · obtain ⟨hm, v, hv, hvote⟩ := h.won j t hj
      exact ⟨hm, v, hv, hold _ hvote⟩
    · obtain ⟨t', ht', heq⟩ := List.mem_map.1 hj
      obtain ⟨rfl, rfl⟩ := Prod.mk.inj heq
      obtain ⟨v, hv, hvote⟩ := hwon t' ht'
      refine ⟨hi.resolve_right ?_, v, hv, hold _ hvote⟩
      intro hnil
      rw [hnil.2] at ht'
      exact absurd ht' List.not_mem_nil

variable (G) in
/-- A node complains only if it has not voted in a later term than its own (in a group of two it
may), and only while its term can be counted. -/
def Fair (s : Cluster) : Event → Prop
  | .tick i _ => (s.node i).primary ≠ i → (s.node i).patience = 0 →
    (s.node i).term + 1 < 2 ^ 31 ∧ (G.n = 2 ∨ (s.node i).votedTerm ≤ (s.node i).term)
  | _ => True

instance (s : Cluster) (l : Event) : Decidable (G.Fair s l) :=
  match l with
  | .tick _ _ => inferInstanceAs (Decidable (_ → _ → _))
  | .startBeingPrimary _ => inferInstanceAs (Decidable True)
  | .beat _ => inferInstanceAs (Decidable True)
  | .deliver _ _ => inferInstanceAs (Decidable True)

theorem mem_sendToOthers {s : Cluster} (h : G.sys.Reach s) {i : Endpoint} {msg : Msg} {p : Packet}
    (hp : p ∈ (s.node i).sendToOthers msg) : p.src = i ∧ p.dst ≠ i ∧ p.msg = msg := by
  obtain ⟨hself, hothers⟩ := frame_of_reach h i
  rw [Node.sendToOthers, hself, hothers] at hp
  obtain ⟨other, ho, rfl⟩ := List.mem_map.1 hp
  exact ⟨rfl, by simpa using (List.mem_filter.1 ho).2, rfl⟩

theorem flying_taken_subset (s : Cluster) (l : Event) : (taken s l).flying ⊆ s.flying := by
  cases l with
  | deliver p => exact List.erase_subset
  | tick => exact List.Subset.refl _
  | startBeingPrimary => exact List.Subset.refl _
  | beat => exact List.Subset.refl _

theorem taken_eq (s : Cluster) (l : Event) :
    taken s l = { s with flying := (taken s l).flying } := by
  cases l <;> rfl

/-- **One fair event** keeps the invariant. -/
theorem inv_act {s : Cluster} {l : Event} (hr : G.sys.Reach s) (hl : G.Enabled s l)
    (hfair : G.Fair s l) (h : G.Inv s) : G.Inv (act s l) := by
  have heff := effect_of_enabled hr hl
  generalize act s l = s' at heff
  cases heff with
  | quiet l i o hq =>
    rw [taken_eq]
    refine h.apply (flying_taken_subset s l) (.inr ⟨hq.votes, hq.won⟩) hq.term.ge
      ?_ ?_ (by simp [hq.votes]) (by simp [hq.won])
    · intro p hp t hm
      simp [hq.sent p hp] at hm
    · intro p hp t hm
      simp [hq.sent p hp] at hm
  | complain i rand hi hp h0 =>
    -- the term does not overflow in a fair run
    have hterm : int32 ((s.node i).term + 1) = (s.node i).term + 1 :=
      int32_of_lt (by have := h.term_nonneg i; omega) (hfair hp h0).1
    refine h.apply (List.Subset.refl _) (.inl hi) ?_ ?_ ?_
      (fun t c hc => .inl ?_) (by simp [Node.complain])
    · change _ ≤ int32 _
      omega
    · intro p hp t hm
      obtain ⟨h1, h2, h3⟩ := mem_sendToOthers hr hp
      rw [h3] at hm
      obtain rfl := Msg.pleaseVoteMe.inj hm
      exact ⟨h1, h2, by simp [Node.complain, (frame_of_reach hr i).1]⟩
    · intro p hp t hm
      rw [(mem_sendToOthers hr hp).2.2] at hm
      cases hm
    · simp only [Node.complain, List.mem_singleton, Prod.mk.injEq, (frame_of_reach hr i).1] at hc
      exact ⟨hc.2, hc.1.le⟩
  | vote i e t rand hi hp ht hv =>
    -- the candidate has voted for itself before it asked
    obtain ⟨hself, hne⟩ := h.request _ hp t rfl
    refine h.apply List.erase_subset (.inl hi) le_rfl (by simp) ?_
      (fun t' c hc => .inr ?_) (by simp)
    · intro p hp t' hm
      rw [List.mem_singleton.1 hp] at hm ⊢
      obtain rfl := Msg.voteForYou.inj hm
      exact ⟨(frame_of_reach hr i).1, hne, List.mem_singleton_self _⟩
    · obtain ⟨rfl, rfl⟩ := Prod.mk.inj (List.mem_singleton.1 hc)
      exact ⟨hself, ht⟩
  | count i e rand hp =>
    exact h.apply List.erase_subset (.inr ⟨rfl, rfl⟩) le_rfl (by simp) (by simp) (by simp) (by simp)
  | win i e rand node hi hp hwin hnode =>
    subst hnode
    refine h.apply List.erase_subset (.inl hi) le_rfl ?_ ?_
      (by simp) ?_
    · intro p hp t hm
      rw [(mem_sendToOthers hr hp).2.2] at hm
      cases hm
    · intro p hp t hm
      rw [(mem_sendToOthers hr hp).2.2] at hm
      cases hm
    · intro t ht
      rw [List.mem_singleton.1 ht]
      -- the answer that decides is a vote of another node
      exact ⟨e, (h.answer _ hp _ rfl).2, (h.answer _ hp _ rfl).1⟩
  | welcome i e t rand ht =>
    exact h.apply List.erase_subset (.inr ⟨rfl, rfl⟩) ht (by simp) (by simp) (by simp) (by simp)

theorem inv_of_reach {s : Cluster} (h : (G.sys.only G.Fair).Reach s) : G.Inv s := by
  refine h.invariant (I := G.Inv) ?_
    fun s l hr hi hl => inv_act hr.of_only hl.1 hl.2 hi
  intro s hs
  obtain ⟨rand, rfl⟩ := hs
  exact ⟨fun i => le_rfl, by simp, by simp, by simp, by simp, by simp, by simp, by simp⟩

/-! ### The books of a candidate -/

/-- The answers of term `t` on their way to `i`. -/
def inflight (fl : List Packet) (i : Endpoint) (t : ℤ) : ℕ :=
  fl.countP fun p => p.dst = i ∧ p.msg = .voteForYou t

variable (G) in
/-- Who has voted for `i` in term `t`. -/
def voters (s : Cluster) (i : Endpoint) (t : ℤ) : Finset Endpoint :=
  G.members.toFinset.filter fun v => ⟨v, t, i⟩ ∈ s.votes

variable (G) in
/-- Nobody votes twice in a term, and a candidate counts every voter at most once. -/
structure Books (s : Cluster) : Prop where
  voted_le : ∀ v ∈ s.votes, v.term ≤ (s.node v.voter).votedTerm
  unique : ∀ i t a b, ⟨i, t, a⟩ ∈ s.votes → ⟨i, t, b⟩ ∈ s.votes → a = b
  nonneg : ∀ i, 0 ≤ (s.node i).myVotes
  count : ∀ i, ⟨i, (s.node i).term, i⟩ ∈ s.votes →
    (s.node i).myVotes + inflight s.flying i (s.node i).term ≤
      (G.voters s i (s.node i).term).card
  won : ∀ i t, (i, t) ∈ s.wins → (G.n - 1) / 2 < (G.voters s i t).card

theorem inflight_append (fl fl' : List Packet) (i : Endpoint) (t : ℤ) :
    inflight (fl ++ fl') i t = inflight fl i t + inflight fl' i t :=
  List.countP_append

theorem inflight_eq_zero {l : List Packet} {i : Endpoint} {t : ℤ}
    (h : ∀ p ∈ l, p.dst = i → p.msg ≠ .voteForYou t) : inflight l i t = 0 := by
  rw [inflight, List.countP_eq_zero]
  intro p hp
  simpa using h p hp

theorem inflight_le_of_subperm {fl fl' : List Packet} (h : fl.Subperm fl') (i : Endpoint) (t : ℤ) :
    inflight fl i t ≤ inflight fl' i t :=
  h.countP_le _

theorem inflight_erase {fl : List Packet} {e i : Endpoint} {t : ℤ}
    (h : ⟨e, i, .voteForYou t⟩ ∈ fl) :
    inflight (fl.erase ⟨e, i, .voteForYou t⟩) i t + 1 = inflight fl i t := by
  rw [inflight, inflight, (List.perm_cons_erase h).countP_eq, List.countP_cons]
  simp

theorem taken_subperm (s : Cluster) (l : Event) : (taken s l).flying.Subperm s.flying := by
  cases l with
  | deliver p => exact List.erase_subperm _ _
  | tick => exact List.Subperm.refl _
  | startBeingPrimary => exact List.Subperm.refl _
  | beat => exact List.Subperm.refl _

theorem mem_voters {s : Cluster} {i v : Endpoint} {t : ℤ} :
    v ∈ G.voters s i t ↔ v ∈ G.members ∧ ⟨v, t, i⟩ ∈ s.votes := by
  simp [voters]

theorem card_voters_le (s : Cluster) (i : Endpoint) (t : ℤ) : (G.voters s i t).card ≤ G.n :=
  (Finset.card_filter_le _ _).trans (List.toFinset_card_le _)

theorem voters_subset_apply (s : Cluster) (i j : Endpoint) (t : ℤ) (o : Out) :
    G.voters s j t ⊆ G.voters (apply s i o) j t := by
  intro v hv
  rw [mem_voters] at hv ⊢
  exact ⟨hv.1, mem_votes_apply.2 (.inl hv.2)⟩

/-- What a handler has to do to keep the books. -/
theorem Books.apply {s : Cluster} {fl : List Packet} {i : Endpoint} {o : Out} (h : G.Books s)
    (hfl : fl.Subperm s.flying) (hv : (s.node i).votedTerm ≤ o.node.votedTerm)
    (hvotes : o.votes = [] ∨
      ∃ c, o.votes = [(o.node.votedTerm, c)] ∧ (s.node i).votedTerm < o.node.votedTerm)
    (hbal : ∀ j t, inflight o.sent j t + (G.voters s j t).card ≤
      (G.voters (Group.apply { s with flying := fl } i o) j t).card)
    (hnonneg : 0 ≤ o.node.myVotes)
    (hcount : ⟨i, o.node.term, i⟩ ∈ (Group.apply { s with flying := fl } i o).votes →
      o.node.myVotes + inflight (fl ++ o.sent) i o.node.term ≤
        (G.voters (Group.apply { s with flying := fl } i o) i o.node.term).card)
    (hwon : ∀ t ∈ o.won,
      (G.n - 1) / 2 < (G.voters (Group.apply { s with flying := fl } i o) i t).card) :
    G.Books (Group.apply { s with flying := fl } i o) := by
  refine ⟨?_, ?_, ?_, ?_, ?_⟩
  · intro v hm
    rcases mem_votes_apply.1 hm with hm | ⟨hvi, hm⟩
    · refine (h.voted_le v hm).trans ?_
      by_cases hj : v.voter = i
      · rw [hj, node_apply_self]
        exact hv
      · rw [node_apply_of_ne o hj]
    · rw [hvi, node_apply_self]
      rcases hvotes with hnil | ⟨c, hc, -⟩
      · rw [hnil] at hm
        exact absurd hm List.not_mem_nil
      · rw [hc, List.mem_singleton] at hm
        exact (Prod.mk.inj hm).1.le
  · intro j t a b ha hb
    -- the only vote that may be new is for a term after all terms its voter has voted in
    have old : ∀ x, ⟨j, t, x⟩ ∈ s.votes → ∀ y, j = i → (t, y) ∉ o.votes := by
      intro x hx y hji hy
      rcases hvotes with hnil | ⟨c, hc, hlt⟩
      · rw [hnil] at hy
        exact absurd hy List.not_mem_nil
      · rw [hc, List.mem_singleton] at hy
        have hle : t ≤ (s.node j).votedTerm := h.voted_le _ hx
        rw [(Prod.mk.inj hy).1, hji] at hle
        exact absurd hle (not_le.2 hlt)
    rcases mem_votes_apply.1 ha with ha | ⟨hj, ha⟩ <;>
      rcases mem_votes_apply.1 hb with hb | ⟨hj', hb⟩
    · exact h.unique j t a b ha hb
    · exact absurd hb (old a ha b hj')
    · exact absurd ha (old b hb a hj)
    · rcases hvotes with hnil | ⟨c, hc, -⟩
      · rw [hnil] at ha
        exact absurd ha List.not_mem_nil
      · rw [hc, List.mem_singleton] at ha hb
        exact (Prod.mk.inj ha).2.trans (Prod.mk.inj hb).2.symm
  · intro j
    by_cases hj : j = i
    · subst hj
      rwa [node_apply_self]
    · rw [node_apply_of_ne o hj]
      exact h.nonneg j
  · intro j hj
    by_cases hji : j = i
    · subst hji
      rw [node_apply_self] at hj ⊢
      exact hcount hj
    · rw [node_apply_of_ne o hji] at hj ⊢
      have hj' : ⟨j, (s.node j).term, j⟩ ∈ s.votes :=
        (mem_votes_apply.1 hj).resolve_right fun hnew => hji hnew.1
      have hold := h.count j hj'
      have hle := inflight_le_of_subperm hfl j (s.node j).term
      have hb := hbal j (s.node j).term
      change (s.node j).myVotes + (inflight (fl ++ o.sent) j (s.node j).term : ℤ) ≤ _
      rw [inflight_append]
      push_cast
      omega
  · intro j t hj
    rcases List.mem_append.1 hj with hj | hj
    · exact (h.won j t hj).trans_le (Finset.card_le_card (voters_subset_apply _ i j t o))
    · obtain ⟨t', ht', heq⟩ := List.mem_map.1 hj
      obtain ⟨rfl, rfl⟩ := Prod.mk.inj heq
      exact hwon t' ht'

/-- Where nobody votes, nothing has to be balanced. -/
theorem balance_of_no_answer {s : Cluster} {fl : List Packet} {i : Endpoint} {o : Out}
    (h : ∀ p ∈ o.sent, ∀ t, p.msg ≠ .voteForYou t) (j : Endpoint) (t : ℤ) :
    inflight o.sent j t + (G.voters s j t).card ≤
      (G.voters (apply { s with flying := fl } i o) j t).card := by
  rw [inflight_eq_zero fun p hp _ => h p hp t, Nat.zero_add]
  exact Finset.card_le_card (voters_subset_apply { s with flying := fl } i j t o)

/-- A candidate whose counter and answers on their way have not grown keeps its books. -/
theorem Books.count_of_le {s : Cluster} {fl : List Packet} {i : Endpoint} {o : Out}
    (h : G.Books s) (ht : o.node.term = (s.node i).term)
    (hvotes : (o.node.term, i) ∉ o.votes)
    (hle : o.node.myVotes + inflight (fl ++ o.sent) i (s.node i).term ≤
      (s.node i).myVotes + inflight s.flying i (s.node i).term)
    (hm : ⟨i, o.node.term, i⟩ ∈ (Group.apply { s with flying := fl } i o).votes) :
    o.node.myVotes + inflight (fl ++ o.sent) i o.node.term ≤
      (G.voters (Group.apply { s with flying := fl } i o) i o.node.term).card := by
  have hm' := (mem_votes_apply.1 hm).resolve_right fun hnew => hvotes hnew.2
  rw [ht] at hm' ⊢
  have hcard := Finset.card_le_card
    (voters_subset_apply { s with flying := fl } i i (s.node i).term o (G := G))
  have := h.count i hm'
  have hsame : G.voters { s with flying := fl } i (s.node i).term =
    G.voters s i (s.node i).term := rfl
  rw [hsame] at hcard
  omega

theorem length_others {s : Cluster} (h : G.sys.Reach s) {i : Endpoint} (hi : i ∈ G.members) :
    (s.node i).others.length = G.n - 1 := by
  have hne : (fun other => decide (other ≠ i)) = (fun other : Endpoint => other != i) := by
    funext other
    simp [bne, Bool.beq_eq_decide_eq]
  rw [(frame_of_reach h i).2, hne, ← G.nodup.erase_eq_filter, List.length_erase_of_mem hi]
  rfl

/-- A candidate that counts an answer has room for it in its books. -/
theorem Books.counted {s : Cluster} (h : G.Books s) (hn : G.n < 2 ^ 31) (hi : G.Inv s)
    {i e : Endpoint} (hp : ⟨e, i, .voteForYou (s.node i).term⟩ ∈ s.flying) :
    int32 ((s.node i).myVotes + 1) = (s.node i).myVotes + 1 ∧
      (s.node i).myVotes + 1 ≤ (G.voters s i (s.node i).term).card ∧
      int32 ((s.node i).myVotes + 1) + inflight (s.flying.erase
        ⟨e, i, .voteForYou (s.node i).term⟩) i (s.node i).term ≤
        (s.node i).myVotes + inflight s.flying i (s.node i).term := by
  have hcand := hi.self _ (hi.answer _ hp _ rfl).1
  have hcount := h.count i hcand
  have hone := inflight_erase hp
  have hcard := card_voters_le (G := G) s i (s.node i).term
  have hint : int32 ((s.node i).myVotes + 1) = (s.node i).myVotes + 1 :=
    int32_of_lt (by have := h.nonneg i; omega) (by omega)
  exact ⟨hint, by omega, by omega⟩

section BooksAct

variable {s : Cluster} {i e : Endpoint} {rand : ℕ}

theorem Books.quiet (h : G.Books s) (l : Event) {o : Out} (hq : Quiet (s.node i) o) :
    G.Books (Group.apply (taken s l) i o) := by
  rw [taken_eq]
  have hnone : ∀ p ∈ o.sent, ∀ t, p.msg ≠ .voteForYou t := by
    intro p hp t
    rw [hq.sent p hp]
    simp
  -- the counter stands or is reset, and no answer is sent
  have hm : o.node.myVotes ≤ (s.node i).myVotes := by
    rcases hq.myVotes with hm | hm
    · exact hm.le
    · rw [hm]
      exact h.nonneg i
  refine h.apply (taken_subperm s l) hq.votedTerm.ge (.inl hq.votes) (balance_of_no_answer hnone)
    ?_ (h.count_of_le hq.term (by simp [hq.votes]) ?_) (by simp [hq.won])
  · rcases hq.myVotes with hm | hm
    · rw [hm]
      exact h.nonneg i
    · exact hm.ge
  · have hle := inflight_le_of_subperm (taken_subperm s l) i (s.node i).term
    rw [inflight_append, inflight_eq_zero fun p hp _ => hnone p hp _]
    push_cast
    omega

/-- A node that starts a term later than every term in which it has voted keeps the books. -/
theorem Books.complain (h : G.Books s) (hr : G.sys.Reach s) (hi : G.Inv s) (hm : i ∈ G.members)
    (hlt : (s.node i).term + 1 < 2 ^ 31) (hle : (s.node i).votedTerm ≤ (s.node i).term) :
    G.Books (Group.apply s i
      { (s.node i).complain with node := (s.node i).complain.node.comfort rand }) := by
  have hterm : int32 ((s.node i).term + 1) = (s.node i).term + 1 :=
    int32_of_lt (by have := hi.term_nonneg i; omega) hlt
  have hnone : ∀ p ∈ (s.node i).complain.sent, ∀ t, p.msg ≠ .voteForYou t := by
    intro p hp t
    rw [(mem_sendToOthers hr hp).2.2]
    simp
  refine h.apply (List.Subperm.refl _) ?_ (.inr ⟨(s.node i).listenedEndpoint, rfl, ?_⟩)
    (balance_of_no_answer hnone) zero_le_one ?_ (by simp [Node.complain])
  · change _ ≤ int32 _
    omega
  · change _ < int32 _
    omega
  · intro hself
    -- nobody can have answered before the candidate asked
    have hzero : inflight (s.flying ++ (s.node i).complain.sent) i
        (int32 ((s.node i).term + 1)) = 0 := by
      rw [inflight_append, inflight_eq_zero fun p hp _ => hnone p hp _, Nat.add_zero]
      refine inflight_eq_zero ?_
      intro p hp hd hmsg
      have := hi.self_le _ _ (hi.self _ (hi.answer p hp _ hmsg).1)
      simp only [hd] at this
      omega
    change (1 : ℤ) + inflight (s.flying ++ (s.node i).complain.sent) i
      (int32 ((s.node i).term + 1)) ≤ _
    rw [hzero]
    have : 0 < (G.voters (Group.apply { s with flying := s.flying } i
        { (s.node i).complain with node := (s.node i).complain.node.comfort rand }) i
        (int32 ((s.node i).term + 1))).card := Finset.card_pos.2 ⟨i, mem_voters.2 ⟨hm, hself⟩⟩
    exact_mod_cast this

/-- A node that votes for another one keeps the books: the answer is paid for by a new voter. -/
theorem Books.vote (h : G.Books s) {t : ℤ} (hm : i ∈ G.members) (hne : e ≠ i)
    (hv : (s.node i).votedTerm < t) :
    G.Books (Group.apply (take s ⟨e, i, .pleaseVoteMe t⟩) i
      { node := { s.node i with votedTerm := t }
        sent := [⟨(s.node i).listenedEndpoint, e, .voteForYou t⟩]
        votes := [(t, e)] }) := by
  refine h.apply (List.erase_subperm _ _) hv.le (.inr ⟨e, rfl, hv⟩) ?_ (h.nonneg i)
    (h.count_of_le rfl ?_ ?_) (by simp)
  · intro j u
    by_cases hju : j = e ∧ u = t
    · obtain ⟨rfl, rfl⟩ := hju
      have hnew : i ∉ G.voters s j u := by
        intro hiv
        have hle : u ≤ (s.node i).votedTerm := h.voted_le _ (mem_voters.1 hiv).2
        omega
      have hone : inflight [⟨(s.node i).listenedEndpoint, j, .voteForYou u⟩] j u = 1 := by
        simp [inflight]
      rw [hone, Nat.add_comm, ← Finset.card_insert_of_notMem hnew]
      refine Finset.card_le_card (Finset.insert_subset ?_ (voters_subset_apply _ _ _ _ _))
      exact mem_voters.2 ⟨hm, mem_votes_apply.2 (.inr ⟨rfl, List.mem_singleton_self _⟩)⟩
    · rw [inflight_eq_zero, Nat.zero_add]
      · exact Finset.card_le_card (voters_subset_apply _ _ _ _ _)
      · intro p hp hd hmsg
        rw [List.mem_singleton.1 hp] at hd hmsg
        exact hju ⟨hd.symm, (Msg.voteForYou.inj hmsg).symm⟩
  · intro hc
    exact hne (Prod.mk.inj (List.mem_singleton.1 hc)).2.symm
  · have hle := inflight_le_of_subperm
      (List.erase_subperm (⟨e, i, .pleaseVoteMe t⟩ : Packet) s.flying) i (s.node i).term
    rw [inflight_append, inflight_eq_zero (l := [_]), Nat.add_zero]
    · dsimp only
      omega
    · intro p hp hd
      rw [List.mem_singleton.1 hp] at hd
      exact absurd hd hne

/-- A candidate that wins has more than half of the others as voters. -/
theorem Books.win (h : G.Books s) (hn : G.n < 2 ^ 31) (hr : G.sys.Reach s) (hi : G.Inv s)
    (hm : i ∈ G.members) (hp : ⟨e, i, .voteForYou (s.node i).term⟩ ∈ s.flying)
    (hwin : (s.node i).others.length / 2 < toSizeT (int32 ((s.node i).myVotes + 1))) :
    G.Books (Group.apply (take s ⟨e, i, .voteForYou (s.node i).term⟩) i
      { node := { s.node i with
          myVotes := int32 ((s.node i).myVotes + 1)
          primary := (s.node i).listenedEndpoint
          primaryThread := true }
        sent := (s.node i).sendToOthers (.iAmThePrimary (s.node i).term)
        won := [(s.node i).term] }) := by
  obtain ⟨hint, hcard, hle⟩ := h.counted hn hi hp
  have hnone : ∀ p ∈ (s.node i).sendToOthers (.iAmThePrimary (s.node i).term),
      ∀ t, p.msg ≠ .voteForYou t := by
    intro p hp t
    rw [(mem_sendToOthers hr hp).2.2]
    simp
  refine h.apply (List.erase_subperm _ _) le_rfl (.inl rfl) (balance_of_no_answer hnone) ?_
    (h.count_of_le rfl (by simp) ?_) ?_
  · dsimp only
    have := h.nonneg i
    omega
  · dsimp only
    rw [inflight_append, inflight_eq_zero (l := Node.sendToOthers _ _)
      fun p hp _ => hnone p hp _, Nat.add_zero]
    exact hle
  · intro t ht
    rw [List.mem_singleton.1 ht]
    refine lt_of_lt_of_le ?_ (Finset.card_le_card (voters_subset_apply _ i i _ _))
    change _ < (G.voters s i (s.node i).term).card
    -- no conversion of the comparison loses anything, since the voters are members
    have hmax := card_voters_le (G := G) s i (s.node i).term
    have hsize := toSizeT_of_lt (x := int32 ((s.node i).myVotes + 1))
      (by have := h.nonneg i; omega) (by omega)
    rw [length_others hr hm] at hwin
    omega

/-- A node that is taken into a later term has not been a candidate there. -/
theorem Books.welcome (h : G.Books s) (hi : G.Inv s) {t : ℤ} (ht : (s.node i).term ≤ t) :
    G.Books (Group.apply (take s ⟨e, i, .iAmThePrimary t⟩) i
      { node := ((s.node i).follow e t).comfort rand }) := by
  refine h.apply (List.erase_subperm _ _) le_rfl (.inl rfl) (balance_of_no_answer (by simp))
    (h.nonneg i) ?_ (by simp)
  intro hself
  have hself' : ⟨i, t, i⟩ ∈ s.votes :=
    (mem_votes_apply.1 hself).resolve_right fun hnew => absurd hnew.2 List.not_mem_nil
  have heq : t = (s.node i).term := le_antisymm (hi.self_le i t hself') ht
  have hle := inflight_le_of_subperm
    (List.erase_subperm (⟨e, i, .iAmThePrimary t⟩ : Packet) s.flying) i (s.node i).term
  refine h.count_of_le (by exact heq) List.not_mem_nil ?_ hself
  rw [List.append_nil]
  change (s.node i).myVotes + _ ≤ _
  omega

/-- **One fair event** keeps the books, in a group that is not a pair. -/
theorem books_act (h2 : G.n ≠ 2) (hn : G.n < 2 ^ 31) {l : Event} (hr : G.sys.Reach s)
    (hl : G.Enabled s l) (hfair : G.Fair s l) (hi : G.Inv s) (h : G.Books s) :
    G.Books (act s l) := by
  have heff := effect_of_enabled hr hl
  generalize act s l = s' at heff
  cases heff with
  | quiet l i o hq => exact h.quiet l hq
  | complain i rand hm hp h0 =>
    obtain ⟨hlt, hle⟩ := hfair hp h0
    exact h.complain hr hi hm hlt (hle.resolve_left h2)
  | vote i e t rand hm hp ht hv =>
    obtain ⟨-, hne⟩ := hi.request _ hp t rfl
    exact h.vote hm hne hv
  | count i e rand hp =>
    obtain ⟨hint, -, hle⟩ := h.counted hn hi hp
    refine h.apply (List.erase_subperm _ _) le_rfl (.inl rfl) (balance_of_no_answer (by simp)) ?_
      (h.count_of_le rfl (by simp) ?_) (by simp)
    · dsimp only
      have := h.nonneg i
      omega
    · dsimp only
      rw [List.append_nil]
      exact hle
  | win i e rand node hm hp hwin hnode =>
    subst hnode
    exact h.win hn hr hi hm hp hwin
  | welcome i e t rand ht => exact h.welcome hi ht

end BooksAct

theorem books_of_reach (h2 : G.n ≠ 2) (hn : G.n < 2 ^ 31) {s : Cluster}
    (h : (G.sys.only G.Fair).Reach s) : G.Books s := by
  refine h.invariant (I := G.Books) ?_ fun s l hr hb hl =>
    books_act h2 hn hr.of_only hl.1 hl.2 (inv_of_reach hr) hb
  intro s hs
  obtain ⟨rand, rfl⟩ := hs
  exact ⟨by simp, by simp, fun i => le_rfl, by simp, by simp⟩

/-- Two nodes that win the same term have no voter in common. -/
theorem Books.disjoint_voters {s : Cluster} (h : G.Books s) {i j : Endpoint} (hij : i ≠ j)
    (t : ℤ) : Disjoint (G.voters s i t) (G.voters s j t) := by
  rw [Finset.disjoint_left]
  intro v hi hj
  exact hij (h.unique v t i j (mem_voters.1 hi).2 (mem_voters.1 hj).2)

/-- In a group of two, the winner of a term has the vote of the other node. -/
theorem eq_of_pair (h2 : G.n = 2) {i j v : Endpoint} (hi : i ∈ G.members) (hj : j ∈ G.members)
    (hv : v ∈ G.members) (hij : i ≠ j) (hvi : v ≠ i) : v = j := by
  by_contra hvj
  have hnodup : [i, j, v].Nodup := by simp [hij, hvi.symm, Ne.symm hvj]
  have hsub : [i, j, v] ⊆ G.members := by simp [hi, hj, hv]
  have := (hnodup.subperm hsub).length_le
  rw [show G.members.length = 2 from h2] at this
  simp at this

/-- **Election safety.**  In a group of two or of any odd size, in every fair run, at most one node
has made itself the primary for each term. -/
theorem eq_of_wins (hodd : G.n = 2 ∨ G.n % 2 = 1) (hn : G.n < 2 ^ 31) {s : Cluster}
    (h : (G.sys.only G.Fair).Reach s) {i j : Endpoint} {t : ℤ} (hi : (i, t) ∈ s.wins)
    (hj : (j, t) ∈ s.wins) : i = j := by
  have hinv := inv_of_reach h
  by_contra hij
  by_cases h2 : G.n = 2
  · obtain ⟨hmi, v, hv, hvote⟩ := hinv.won i t hi
    obtain ⟨hmj, w, hw, hvote'⟩ := hinv.won j t hj
    have hvj : v = j := eq_of_pair h2 hmi hmj (hinv.voter_mem _ hvote) hij hv
    have hwi : w = i := eq_of_pair h2 hmj hmi (hinv.voter_mem _ hvote') (Ne.symm hij) hw
    rw [hvj] at hvote
    rw [hwi] at hvote'
    exact hinv.asymm i j t hij hvote' hvote
  · have hb := books_of_reach h2 hn h
    -- two disjoint sets of more than half of the members each
    have hdisj := Finset.card_union_of_disjoint (hb.disjoint_voters hij t)
    have hle : (G.voters s i t ∪ G.voters s j t).card ≤ G.n :=
      (Finset.card_le_card (Finset.union_subset (Finset.filter_subset _ _)
        (Finset.filter_subset _ _))).trans (List.toFinset_card_le _)
    have h1 := hb.won i t hi
    have h2 := hb.won j t hj
    omega

/-- A node whose patience is over complains. -/
def timeout (i : Endpoint) : List Event := List.replicate 6 (.tick i 0)

/-- Three nodes: `A` is elected with the vote of `B`, and is the only one. -/
theorem eq_of_wins_three :
    let A := ascii "A"
    let B := ascii "B"
    let G : Group := ⟨[A, B, ascii "C"], by decide⟩
    ∃ s, (G.sys.only G.Fair).Reach s ∧ (A, 1) ∈ s.wins ∧ ∀ j, (j, 1) ∈ s.wins → A = j := by
  intro A B G
  obtain ⟨s, hs, hw⟩ := Sys.exists_reach_of_exec (A := G.sys.only G.Fair)
    (s := ⟨G.start fun _ => 0, [], [], []⟩) (P := fun s => (A, 1) ∈ s.wins) ⟨_, rfl⟩
    (timeout A ++ [.deliver ⟨A, B, .pleaseVoteMe 1⟩ 0, .deliver ⟨B, A, .voteForYou 1⟩ 0])
    (by decide +kernel)
  exact ⟨s, hs, hw, fun j hj => eq_of_wins (G := G) (by decide) (by decide) hs hw hj⟩

/-! ### Two primaries in one term -/

/-- Two candidates, two voters. -/
def splitVote (A B C D : Endpoint) : List Event :=
  timeout A ++ timeout B ++
    [.deliver ⟨A, C, .pleaseVoteMe 1⟩ 0, .deliver ⟨B, D, .pleaseVoteMe 1⟩ 0,
      .deliver ⟨C, A, .voteForYou 1⟩ 0, .deliver ⟨D, B, .voteForYou 1⟩ 0]

/-- `B` votes for `A` and then, still in the term before, for itself. -/
def doubleVote (A B C : Endpoint) : List Event :=
  timeout A ++ [.deliver ⟨A, B, .pleaseVoteMe 1⟩ 0, .deliver ⟨B, A, .voteForYou 1⟩ 0] ++
    timeout B ++ [.deliver ⟨B, C, .pleaseVoteMe 1⟩ 0, .deliver ⟨C, B, .voteForYou 1⟩ 0]

/-- **Two primaries in one term**: in a group of four, where two votes are enough, in a run whose
complaints are all fair; and in a group of three, with a node that votes twice. -/
theorem two_wins_in_one_term :
    let A := ascii "A"
    let B := ascii "B"
    let C := ascii "C"
    let D := ascii "D"
    let G : Group := ⟨[A, B, C, D], by decide⟩
    let H : Group := ⟨[A, B, C], by decide⟩
    (∃ s, (G.sys.only G.Fair).Reach s ∧ (A, 1) ∈ s.wins ∧ (B, 1) ∈ s.wins ∧ A ≠ B) ∧
    (∃ s, H.sys.Reach s ∧ (A, 1) ∈ s.wins ∧ (B, 1) ∈ s.wins ∧ A ≠ B) := by
  intro A B C D G H
  refine ⟨?_, ?_⟩
  · exact Sys.exists_reach_of_exec (s := ⟨G.start fun _ => 0, [], [], []⟩) ⟨_, rfl⟩
      (splitVote A B C D) (by decide +kernel)
  · exact Sys.exists_reach_of_exec (s := ⟨H.start fun _ => 0, [], [], []⟩) ⟨_, rfl⟩
      (doubleVote A B C) (by decide +kernel)

end Group

end Raft

end WeakChain
