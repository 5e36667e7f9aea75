import WeakChain.Raft.Node
import Mathlib.Algebra.BigOperators.Group.List.Basic

/-!
# How often a candidate wins

A candidate counts the votes of its term in `my_votes`, and makes itself the primary with *every*
vote that finds the counter above `others.size() / 2`.  Winning does not leave the term, and the
only thing that stops it is the primary thread: it sets the counter to zero when it gets to run.  So
a vote that comes before the thread has run wins once more, and so do late votes if there are enough
of them.

`Node.won_le_one_iff` counts: the deliveries of the votes are cut at the starts of primary threads,
and every vote above the threshold of its part is a win.  The thread does not take the lock of the
handler, so it may also run between the increment and the comparison (`Ballot.across`); such a vote
is lost.
-/

namespace WeakChain

namespace Raft

/-- What happens while a node collects the votes of its term. -/
inductive Ballot
  /-- A vote of the term arrives. -/
  | vote (src : Endpoint)
  /-- A primary thread starts. -/
  | start
  /-- A vote of the term arrives, and a primary thread starts after it has been added and before it
  is compared. -/
  | across (src : Endpoint)
  deriving DecidableEq

/-- The votes before the first start of a primary thread, and those after each start. -/
def Ballot.parts : List Ballot → ℕ × List ℕ
  | [] => (0, [])
  | .vote _ :: l => ((parts l).1 + 1, (parts l).2)
  | .start :: l => (0, (parts l).1 :: (parts l).2)
  | .across _ :: l => (0, (parts l).1 :: (parts l).2)

/-- The votes that come after a counter with the value `c` has reached `q`, where it starts from
zero in every later part. -/
def Ballot.surplus (q c : ℕ) (l : List Ballot) : ℕ :=
  ((parts l).1 - (q - c)) + ((parts l).2.map (· - q)).sum

namespace Node

variable (n : Node)

/-- The first half of `handle_voteForYou`: a vote of the term is added. -/
def countVote : Node := { n with myVotes := int32 (n.myVotes + 1) }

/-- The second half: the votes are compared. -/
def compareVotes : Out :=
  if n.others.length / 2 < toSizeT n.myVotes then
    { node := { n with primary := n.listenedEndpoint, primaryThread := true }
      sent := n.sendToOthers (.iAmThePrimary n.term)
      won := [n.term] }
  else { node := n }

/-- What the node does. -/
def ballot : Ballot → Out
  | .vote src => n.handleVoteForYou src n.term
  | .start => n.startBeingPrimary
  | .across _ => n.countVote.startBeingPrimary.node.compareVotes

/-- The terms for which the node makes itself the primary. -/
def ballots (n : Node) : List Ballot → List ℤ
  | [] => []
  | b :: l => (n.ballot b).won ++ ballots (n.ballot b).node l

/-- More votes than this make a primary.  The counter is an `int`: after `2 ^ 31 - 1` votes it is
negative, and large as a `size_t`. -/
def threshold : ℕ := min (n.others.length / 2) (2 ^ 31 - 1)

variable {n}

theorem handleVoteForYou_eq (src : Endpoint) :
    n.handleVoteForYou src n.term = n.countVote.compareVotes := by
  rw [handleVoteForYou, if_pos rfl]
  rfl

theorem lt_toSizeT_iff {c : ℕ} (hsize : n.others.length < 2 ^ 64) (hc : c < 2 ^ 32) :
    n.others.length / 2 < toSizeT (int32 c) ↔ n.threshold < c := by
  unfold threshold
  by_cases hlt : c < 2 ^ 31
  · have hint : int32 (c : ℤ) = c := int32_of_lt (by omega) (by omega)
    have hcast := toSizeT_of_lt (x := (c : ℤ)) (by omega) (by omega)
    rw [hint]
    omega
  · -- the counter has become negative
    have hint : int32 (c : ℤ) = c - 2 ^ 32 := by
      unfold int32
      rw [Int.bmod_def]
      split_ifs <;> omega
    have hcast : toSizeT ((c : ℤ) - 2 ^ 32) = 2 ^ 64 - 2 ^ 32 + c := by
      unfold toSizeT
      omega
    rw [hint, hcast]
    omega

theorem int32_succ (c : ℕ) : int32 (int32 c + 1) = int32 (c + 1 : ℕ) := by
  unfold int32
  rw [Int.bmod_add_bmod]
  rfl

/-- The node after a vote: the counter is one higher, and the node wins if that is enough. -/
theorem ballot_vote {c : ℕ} (src : Endpoint) (hc : n.myVotes = int32 c)
    (hsize : n.others.length < 2 ^ 64) (hlt : c + 1 < 2 ^ 32) :
    (n.ballot (.vote src)).node.myVotes = int32 (c + 1 : ℕ) ∧
      (n.ballot (.vote src)).node.others = n.others ∧
      (n.ballot (.vote src)).won = if n.threshold < c + 1 then [n.term] else [] := by
  have hvotes : n.countVote.myVotes = int32 (c + 1 : ℕ) := by
    change int32 (n.myVotes + 1) = _
    rw [hc, int32_succ]
  have hiff : n.countVote.others.length / 2 < toSizeT n.countVote.myVotes ↔
      n.threshold < c + 1 := by
    rw [hvotes]
    exact lt_toSizeT_iff hsize hlt
  have hballot : n.ballot (.vote src) = n.countVote.compareVotes := handleVoteForYou_eq src
  rw [hballot, compareVotes]
  simp only [hiff]
  split_ifs with hwin
  · exact ⟨hvotes, rfl, rfl⟩
  · exact ⟨hvotes, rfl, rfl⟩

/-- The node after the start of a primary thread: the counter is zero. -/
theorem ballot_start {b : Ballot} (hb : ∀ src, b ≠ .vote src) :
    (n.ballot b).node.myVotes = int32 (0 : ℕ) ∧ (n.ballot b).node.others = n.others ∧
      (n.ballot b).won = [] := by
  cases b with
  | vote src => exact absurd rfl (hb src)
  | start => exact ⟨rfl, rfl, rfl⟩
  | across src =>
    -- zero is never enough
    have hnot : ¬n.countVote.startBeingPrimary.node.others.length / 2 <
        toSizeT n.countVote.startBeingPrimary.node.myVotes := Nat.not_lt_zero _
    change (compareVotes _).node.myVotes = _ ∧ _
    rw [compareVotes, if_neg hnot]
    exact ⟨rfl, rfl, rfl⟩

theorem threshold_congr {n' : Node} (h : n'.others = n.others) : n'.threshold = n.threshold := by
  rw [threshold, h, threshold]

end Node

namespace Ballot

theorem surplus_vote_of_lt {q c : ℕ} (h : q < c + 1) (src : Endpoint) (l : List Ballot) :
    surplus q c (.vote src :: l) = surplus q (c + 1) l + 1 := by
  simp only [surplus, parts]
  omega

theorem surplus_vote_of_le {q c : ℕ} (h : c + 1 ≤ q) (src : Endpoint) (l : List Ballot) :
    surplus q c (.vote src :: l) = surplus q (c + 1) l := by
  simp only [surplus, parts]
  omega

theorem surplus_start {b : Ballot} (hb : ∀ src, b ≠ .vote src) (q c : ℕ) (l : List Ballot) :
    surplus q c (b :: l) = surplus q 0 l := by
  cases b with
  | vote src => exact absurd rfl (hb src)
  | start => simp [surplus, parts]
  | across src => simp [surplus, parts]

end Ballot

/-! ### The number of wins -/

namespace Node

variable {n : Node}

/-- No vote above the threshold, no win. -/
theorem ballots_eq_nil_iff {c : ℕ} (l : List Ballot) (hc : n.myVotes = int32 c)
    (hsize : n.others.length < 2 ^ 64) (hlt : c + 1 < 2 ^ 32) :
    n.ballots l = [] ↔ Ballot.surplus n.threshold c l = 0 := by
  have hq : n.threshold ≤ 2 ^ 31 - 1 := min_le_right _ _
  induction l generalizing n c with
  | nil => simp [ballots, Ballot.surplus, Ballot.parts]
  | cons b l ih =>
    by_cases hb : ∃ src, b = .vote src
    · obtain ⟨src, rfl⟩ := hb
      obtain ⟨hvotes, hothers, hwon⟩ := ballot_vote src hc hsize hlt
      rw [ballots, hwon]
      split_ifs with hwin
      · rw [Ballot.surplus_vote_of_lt hwin]
        simp
      · have hle : c + 1 ≤ n.threshold := not_lt.1 hwin
        have hth := threshold_congr hothers
        rw [Ballot.surplus_vote_of_le hle, List.nil_append, ← hth]
        exact ih hvotes (hothers ▸ hsize) (by omega) (hth ▸ hq)
    · have hstart : ∀ src, b ≠ .vote src := fun src hsrc => hb ⟨src, hsrc⟩
      obtain ⟨hvotes, hothers, hwon⟩ := ballot_start (n := n) hstart
      have hth := threshold_congr hothers
      rw [ballots, hwon, Ballot.surplus_start hstart, List.nil_append, ← hth]
      exact ih hvotes (hothers ▸ hsize) (by omega) (hth ▸ hq)

/-- One vote above the threshold, one win.  After more than that the counter does not matter. -/
theorem length_ballots_le_one_iff {c : ℕ} (l : List Ballot) (hc : n.myVotes = int32 c)
    (hsize : n.others.length < 2 ^ 64) (hle : c ≤ n.threshold + 1) :
    (n.ballots l).length ≤ 1 ↔ Ballot.surplus n.threshold c l ≤ 1 := by
  have hq : n.threshold ≤ 2 ^ 31 - 1 := min_le_right _ _
  induction l generalizing n c with
  | nil => simp [ballots, Ballot.surplus, Ballot.parts]
  | cons b l ih =>
    by_cases hb : ∃ src, b = .vote src
    · obtain ⟨src, rfl⟩ := hb
      obtain ⟨hvotes, hothers, hwon⟩ := ballot_vote src hc hsize (by omega)
      have hth := threshold_congr hothers
      rw [ballots, hwon]
      split_ifs with hwin
      · -- a win: there must not be another one
        have hrest := ballots_eq_nil_iff l hvotes (hothers ▸ hsize) (by omega)
        rw [Ballot.surplus_vote_of_lt hwin, ← hth, List.length_append, List.length_singleton]
        rw [← List.length_eq_zero_iff] at hrest
        omega
      · rw [Ballot.surplus_vote_of_le (not_lt.1 hwin), List.nil_append, ← hth]
        exact ih hvotes (hothers ▸ hsize) (by omega) (hth ▸ hq)
    · have hstart : ∀ src, b ≠ .vote src := fun src hsrc => hb ⟨src, hsrc⟩
      obtain ⟨hvotes, hothers, hwon⟩ := ballot_start (n := n) hstart
      have hth := threshold_congr hothers
      rw [ballots, hwon, Ballot.surplus_start hstart, List.nil_append, ← hth]
      exact ih hvotes (hothers ▸ hsize) (by omega) (hth ▸ hq)

/-- The term does not change. -/
theorem term_ballot (b : Ballot) :
    (n.ballot b).node.term = n.term ∧ ∀ t ∈ (n.ballot b).won, t = n.term := by
  have hcompare : ∀ n : Node, n.compareVotes.node.term = n.term ∧
      ∀ t ∈ n.compareVotes.won, t = n.term := by
    intro n
    unfold compareVotes
    split_ifs with hwin
    · exact ⟨rfl, fun t ht => List.mem_singleton.1 ht⟩
    · exact ⟨rfl, nofun⟩
  cases b with
  | vote src =>
    have hballot : n.ballot (.vote src) = n.countVote.compareVotes := handleVoteForYou_eq src
    rw [hballot]
    exact hcompare n.countVote
  | start => exact ⟨rfl, nofun⟩
  | across src => exact hcompare n.countVote.startBeingPrimary.node

theorem eq_term_of_mem_ballots {l : List Ballot} {t : ℤ} (h : t ∈ n.ballots l) : t = n.term := by
  induction l generalizing n with
  | nil => exact absurd h List.not_mem_nil
  | cons b l ih =>
    obtain ⟨hterm, hwon⟩ := term_ballot (n := n) b
    rcases List.mem_append.1 h with h | h
    · exact hwon t h
    · exact (ih h).trans hterm

/-- **How often a candidate wins.**  For every number of other nodes, every order in which the votes
of the term arrive, and every interleaving with the starts of primary threads: after it has
complained the node makes itself the primary of its term at most once if and only if at most one
vote comes above the threshold.  In the part before the first start one vote less is needed, for the
node has voted for itself. -/
theorem won_le_one_iff (n : Node) (hsize : n.others.length < 2 ^ 64) (l : List Ballot) :
    (n.complain.node.ballots l).count n.complain.node.term ≤ 1 ↔
      ((Ballot.parts l).1 - (n.threshold - 1)) +
        ((Ballot.parts l).2.map (· - n.threshold)).sum ≤ 1 := by
  have hcount : (n.complain.node.ballots l).count n.complain.node.term =
      (n.complain.node.ballots l).length :=
    List.count_eq_length.2 fun t ht => (eq_term_of_mem_ballots ht).symm
  rw [hcount]
  have hone : n.complain.node.myVotes = int32 (1 : ℕ) := rfl
  exact length_ballots_le_one_iff (n := n.complain.node) l hone hsize (Nat.le_add_left _ _)

/-- With two others, the second vote does no harm if the primary thread has started before it. -/
theorem won_le_one_iff_three :
    let G : Group := ⟨[ascii "A", ascii "B", ascii "C"], by decide⟩
    let n := G.start (fun _ => 0) (ascii "B")
    n.others.length < 2 ^ 64 ∧
      (n.complain.node.ballots [.vote (ascii "A"), .start, .vote (ascii "C")]).count 1 ≤ 1 := by
  intro G n
  have hsize : n.others.length < 2 ^ 64 := by decide +kernel
  refine ⟨hsize, (won_le_one_iff n hsize _).2 ?_⟩
  decide +kernel

/-- With two others, both votes may come before the primary thread has started; with three others,
the votes after its start are enough for another win. -/
theorem not_won_le_one :
    let G₃ : Group := ⟨[ascii "A", ascii "B", ascii "C"], by decide⟩
    let G₄ : Group := ⟨[ascii "A", ascii "B", ascii "C", ascii "D"], by decide⟩
    let n (G : Group) := (G.start (fun _ => 0) (ascii "B")).complain.node
    ¬((n G₃).ballots [.vote (ascii "A"), .vote (ascii "C")]).count (n G₃).term ≤ 1 ∧
      ¬((n G₄).ballots [.vote (ascii "A"), .start, .vote (ascii "C"), .vote (ascii "D")]).count
        (n G₄).term ≤ 1 := by
  decide +kernel

end Node

end Raft

end WeakChain
