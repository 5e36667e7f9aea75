import WeakChain.Raft.Election
import Mathlib.Data.List.Nodup

/-!
# One vote in a term

A node votes for others in `handle_pleaseVoteMe` and for itself in `complain`.  The first looks at
both counters, `term` and `voted_term`; the second looks at neither.  A node may have voted in a
term ahead of its own, and a node that then complains starts a term in which it has voted already,
or goes back with `voted_term`.

`Voter.votes_unique` is about one node, whatever it receives from whomever: if it never complains
while it has voted ahead of its term (`Timely`), it votes once in a term.
-/

namespace WeakChain

namespace Raft

namespace Node

/-- The node complains only if it has not voted in a later term than its own, and only while its
term can be counted. -/
def Timely (n : Node) : Input → Prop
  | .tick _ => n.primary ≠ n.listenedEndpoint → n.patience = 0 →
    n.votedTerm ≤ n.term ∧ n.term + 1 < 2 ^ 31
  | _ => True

instance (n : Node) (i : Input) : Decidable (n.Timely i) :=
  match i with
  | .tick _ => inferInstanceAs (Decidable (_ → _ → _))
  | .receive _ _ _ => isTrue trivial
  | .startBeingPrimary => isTrue trivial
  | .beat => isTrue trivial

variable {n : Node}

/-- What an input can do to the counters: the node keeps its vote, or it votes in a newer term. -/
inductive Votes (n : Node) (o : Out) : Prop
  | keep (hvotes : o.votes = []) (hvoted : o.node.votedTerm = n.votedTerm)
      (hterm : n.term ≤ o.node.term)
  | cast (t : ℤ) (c : Endpoint) (hvotes : o.votes = [(t, c)]) (hvoted : o.node.votedTerm = t)
      (hlt : n.votedTerm < t) (hterm : n.term ≤ o.node.term)

/-- **What an input does to the vote of a node.** -/
theorem Does.votes {i : Input} {o : Out} (h : n.Does i o) (h₀ : 0 ≤ n.term) (hi : n.Timely i) :
    n.Votes o := by
  cases h with
  | complain rand hself hpatience =>
    obtain ⟨hvoted, hlt⟩ := hi hself hpatience
    have hterm : int32 (n.term + 1) = n.term + 1 := int32_of_lt (by omega) hlt
    refine .cast (n.term + 1) n.listenedEndpoint ?_ hterm (by omega) ?_
    · change [(int32 (n.term + 1), n.listenedEndpoint)] = _
      rw [hterm]
    · change n.term ≤ int32 (n.term + 1)
      omega
  | vote src term rand hterm hvoted => exact .cast term src rfl rfl hvoted le_rfl
  | follow src term rand hterm => exact .keep rfl rfl hterm
  | quiet i patience => exact .keep rfl rfl le_rfl
  | count src rand hfew => exact .keep rfl rfl le_rfl
  | win src rand hwin => exact .keep rfl rfl le_rfl
  | reset => exact .keep rfl rfl le_rfl
  | beat hself => exact .keep rfl rfl le_rfl

end Node

/-- A node with the history of its votes, latest first. -/
structure Voter where
  /-- The node. -/
  node : Node
  /-- The votes it has given: the term and the candidate. -/
  votes : List (ℤ × Endpoint)
  /-- The values `voted_term` has had. -/
  votedTerms : List ℤ

namespace Voter

/-- An input comes. -/
def act (s : Voter) (i : Input) : Voter :=
  let o := s.node.handle i
  ⟨o.node, o.votes ++ s.votes, o.node.votedTerm :: s.votedTerms⟩

/-- A primary thread starts only if one has been created.  Everything else may come at any time,
from anybody. -/
def Enabled (s : Voter) : Input → Prop
  | .startBeingPrimary => s.node.primaryThread = true
  | _ => True

instance (s : Voter) (i : Input) : Decidable (s.Enabled i) :=
  match i with
  | .startBeingPrimary => inferInstanceAs (Decidable (s.node.primaryThread = true))
  | .tick _ => isTrue trivial
  | .receive _ _ _ => isTrue trivial
  | .beat => isTrue trivial

/-- A node as a system. -/
def sys : Sys Voter Input where
  init s := ∃ i others rand, s = ⟨.start i others rand, [], [0]⟩
  enabled := Enabled
  act := act

instance (s : Voter) (i : Input) : Decidable (sys.enabled s i) :=
  inferInstanceAs (Decidable (s.Enabled i))

/-- The node has voted in newer and newer terms. -/
structure Books (s : Voter) : Prop where
  term_nonneg : 0 ≤ s.node.term
  vote_le : ∀ v ∈ s.votes, v.1 ≤ s.node.votedTerm
  votes_lt : (s.votes.map Prod.fst).Pairwise (· > ·)
  voted_le : ∀ t ∈ s.votedTerms, t ≤ s.node.votedTerm
  voted_ge : s.votedTerms.Pairwise (· ≥ ·)

/-- **One input** keeps this. -/
theorem Books.act {s : Voter} (h : s.Books) {i : Input} (hi : s.node.Timely i) :
    (s.act i).Books := by
  cases (s.node.does_handle i).votes h.term_nonneg hi with
  | keep hvotes hvoted hterm =>
    have hsame : (s.act i).votes = s.votes := by
      change (s.node.handle i).votes ++ s.votes = s.votes
      rw [hvotes, List.nil_append]
    have hle : ∀ t ∈ s.votedTerms, t ≤ (s.node.handle i).node.votedTerm := by
      rw [hvoted]
      exact h.voted_le
    refine ⟨h.term_nonneg.trans hterm, ?_, ?_, ?_, List.pairwise_cons.2 ⟨hle, h.voted_ge⟩⟩
    · rw [hsame]
      intro v hv
      exact (h.vote_le v hv).trans_eq hvoted.symm
    · rw [hsame]
      exact h.votes_lt
    · exact List.forall_mem_cons.2 ⟨le_rfl, hle⟩
  | cast t c hvotes hvoted hlt hterm =>
    have hnew : (s.act i).votes = (t, c) :: s.votes := by
      change (s.node.handle i).votes ++ s.votes = _
      rw [hvotes]
      rfl
    have hbelow : ∀ v ∈ s.votes, v.1 < t := fun v hv => (h.vote_le v hv).trans_lt hlt
    have hle : ∀ u ∈ s.votedTerms, u ≤ (s.node.handle i).node.votedTerm := by
      intro u hu
      rw [hvoted]
      exact (h.voted_le u hu).trans hlt.le
    refine ⟨h.term_nonneg.trans hterm, ?_, ?_, ?_, List.pairwise_cons.2 ⟨hle, h.voted_ge⟩⟩
    · rw [hnew]
      exact List.forall_mem_cons.2
        ⟨hvoted.ge, fun v hv => (hbelow v hv).le.trans hvoted.ge⟩
    · rw [hnew, List.map_cons, List.pairwise_cons]
      exact ⟨List.forall_mem_map.2 hbelow, h.votes_lt⟩
    · exact List.forall_mem_cons.2 ⟨le_rfl, hle⟩

theorem books_of_reach {s : Voter} (hs : (sys.only fun s i => s.node.Timely i).Reach s) :
    s.Books := by
  refine hs.invariant ?_ ?_
  · rintro _ ⟨i, others, rand, rfl⟩
    exact ⟨le_rfl, nofun, List.Pairwise.nil, by simp [Node.start], List.pairwise_singleton _ _⟩
  · intro s i _ h hi
    exact h.act hi.2

/-- **One vote in a term.**  In every run of a node in which it complains only while it has not
voted in a later term than its own, whatever it receives from whomever: the node gives its vote to
at most one candidate in each term, and `voted_term` never decreases. -/
theorem votes_unique {s : Voter} (hs : (sys.only fun s i => s.node.Timely i).Reach s) :
    (∀ v ∈ s.votes, ∀ w ∈ s.votes, v.1 = w.1 → v.2 = w.2) ∧
      s.votedTerms.Pairwise (· ≥ ·) := by
  have hbooks := books_of_reach hs
  refine ⟨?_, hbooks.voted_ge⟩
  have hnodup : (s.votes.map Prod.fst).Nodup :=
    hbooks.votes_lt.imp fun hgt => (ne_of_lt hgt).symm
  intro v hv w hw hterm
  rw [List.inj_on_of_nodup_map hnodup hv hw hterm]

/-- The node votes for `A`, follows it, and complains when it does not hear from it any more. -/
theorem votes_unique_three :
    ∃ s, (sys.only fun s i => s.node.Timely i).Reach s ∧
      s.votes = [(2, ascii "B"), (1, ascii "A")] ∧
      (∀ v ∈ s.votes, ∀ w ∈ s.votes, v.1 = w.1 → v.2 = w.2) ∧
      s.votedTerms.Pairwise (· ≥ ·) := by
  obtain ⟨s, hs, hvotes⟩ := Sys.exists_reach_of_exec
    (A := sys.only fun s i => s.node.Timely i)
    (s := ⟨.start (ascii "B") [ascii "A", ascii "C"] 0, [], [0]⟩)
    (P := fun s => s.votes = [(2, ascii "B"), (1, ascii "A")]) ⟨_, _, _, rfl⟩
    [.receive (ascii "A") (.pleaseVoteMe 1) 0, .receive (ascii "A") (.iAmThePrimary 1) 0,
      .tick 0, .tick 0, .tick 0, .tick 0, .tick 0, .tick 0] (by decide +kernel)
  exact ⟨s, hs, hvotes, votes_unique hs⟩

/-- The node votes for `A` in term 1 and does not hear from it: it complains, and votes for itself
in term 1.  If it has voted in term 5, `voted_term` goes back to 1. -/
theorem not_votes_unique :
    (¬∀ s, sys.Reach s → ∀ v ∈ s.votes, ∀ w ∈ s.votes, v.1 = w.1 → v.2 = w.2) ∧
      ¬∀ s, sys.Reach s → s.votedTerms.Pairwise (· ≥ ·) := by
  let B : Voter := ⟨.start (ascii "B") [ascii "A", ascii "C"] 0, [], [0]⟩
  let run (t : ℤ) : List Input := [.receive (ascii "A") (.pleaseVoteMe t) 0,
    .tick 0, .tick 0, .tick 0, .tick 0, .tick 0, .tick 0]
  refine ⟨?_, ?_⟩
  · intro hall
    obtain ⟨s, hs, hv, hw⟩ := Sys.exists_reach_of_exec (A := sys) (s := B)
      (P := fun s => (1, ascii "B") ∈ s.votes ∧ (1, ascii "A") ∈ s.votes) ⟨_, _, _, rfl⟩
      (run 1) (by decide +kernel)
    exact absurd (hall s hs _ hv _ hw rfl) (by decide)
  · intro hall
    obtain ⟨s, hs, hnot⟩ := Sys.exists_reach_of_exec (A := sys) (s := B)
      (P := fun s => ¬s.votedTerms.Pairwise (· ≥ ·)) ⟨_, _, _, rfl⟩ (run 5) (by decide +kernel)
    exact hnot (hall s hs)

end Voter

/-! ### The nodes of a group -/

namespace Group

variable {G : Group}

/-- **Every node of a group is a voter**: a run of the group is, for each of its nodes, a run of the
node alone, with the same votes. -/
theorem exists_voter {c : Cluster} (h : G.sys.Reach c) (i : Endpoint) :
    ∃ s, Voter.sys.Reach s ∧ s.node = c.node i ∧ ∀ v, v ∈ s.votes ↔ ⟨i, v.1, v.2⟩ ∈ c.votes := by
  induction h with
  | init hinit =>
    obtain ⟨rand, rfl⟩ := hinit
    refine ⟨⟨G.start rand i, [], [0]⟩, .init ?_, rfl, by simp⟩
    exact ⟨i, G.members.filter fun other => other ≠ i, rand i, rfl⟩
  | @act c l hr hl ih =>
    obtain ⟨s, hs, hnode, hvotes⟩ := ih
    obtain ⟨htaken, htakenVotes⟩ := taken_node c l
    change ∃ s, Voter.sys.Reach s ∧ s.node = (act c l).node i ∧
      ∀ v, v ∈ s.votes ↔ ⟨i, v.1, v.2⟩ ∈ (act c l).votes
    rw [act_eq]
    by_cases hi : i = l.input.1
    · -- the event is the node's own
      have henabled : s.Enabled l.input.2 := by
        cases l with
        | startBeingPrimary j =>
          obtain rfl : i = j := hi
          change s.node.primaryThread = true
          rw [hnode]
          exact hl.2
        | _ => trivial
      refine ⟨s.act l.input.2, .act hs henabled, ?_, ?_⟩
      · rw [hi, node_apply_self, ← hi, ← hnode]
        rfl
      · intro v
        rw [mem_votes_apply, htakenVotes, ← hvotes, or_comm, ← hi, ← hnode]
        simp only [true_and]
        exact List.mem_append
    · refine ⟨s, hs, ?_, ?_⟩
      · rw [node_apply_of_ne _ hi, htaken]
        exact hnode
      · intro v
        rw [mem_votes_apply, htakenVotes, ← hvotes]
        simp [hi]

end Group

end Raft

end WeakChain
