import WeakChain.Cnsss.Executor

/-!
# The sealer

`Sealer::check_and_seal_maybe` takes hashes from the pool, makes a block of them and posts it.  It
moves on to the next number and to the hash of the new block before it posts, and does not look at
what `postBlk` returns.  So a block that could not be posted leaves a gap: the blocks that are
posted form a chain exactly if none of them comes after one that could not be posted
(`Sealer.chain_iff`).
-/

namespace WeakChain

variable [Keccak]

/-- `BlkForConsensus::hash`. -/
def BlkForConsensus.hash (b : BlkForConsensus) : Hash256 :=
  b.txhs.foldl (fun h h₁ => keccak256 (h₁.bytes ++ h.bytes)) b.parentHash

/-- `Sealer`. -/
structure Sealer where
  nextBlkNumber : UInt64
  previousHash : Hash256

/-- A time the sealer looks at the pool: what is in the pool, and what `postBlk` returns if a block
is posted. -/
structure Round where
  mempool : Mempool
  posted : Bool

namespace Sealer

/-- `check_and_seal_maybe`, with the block it posts, if any. -/
def checkAndSealMaybe (s : Sealer) (p : Mempool) : Sealer × Option BlkForConsensus :=
  let txhs := p.getTxHashesForSeal
  if txhs = [] then (s, none)
  else
    let b : BlkForConsensus := ⟨s.nextBlkNumber, s.previousHash, txhs⟩
    (⟨s.nextBlkNumber + 1, b.hash⟩, some b)

/-- The blocks whose post succeeds, over a list of rounds. -/
def posted (s : Sealer) : List Round → List BlkForConsensus
  | [] => []
  | r :: rs =>
    let out := s.checkAndSealMaybe r.mempool
    (if r.posted then out.2.toList else []) ++ posted out.1 rs

/-- Consecutive numbers from `n` on, and each block has the hash of the one before it, the first has
`h`. -/
def Chain : UInt64 → Hash256 → List BlkForConsensus → Prop
  | _, _, [] => True
  | n, h, b :: bs => b.number = n ∧ b.parentHash = h ∧ Chain (n + 1) b.hash bs

/-- No post succeeds after one that has failed. -/
def NoGap (rs : List Round) : Prop :=
  (rs.filter fun r => r.mempool.getTxHashesForSeal ≠ []).Pairwise fun r r' =>
    r'.posted = true → r.posted = true

variable {s : Sealer} {r : Round} {rs : List Round}

theorem posted_cons_of_nil (h : r.mempool.getTxHashesForSeal = []) :
    s.posted (r :: rs) = s.posted rs := by
  simp [posted, checkAndSealMaybe, h]

theorem posted_cons_of_ne (h : r.mempool.getTxHashesForSeal ≠ []) :
    let b : BlkForConsensus := ⟨s.nextBlkNumber, s.previousHash, r.mempool.getTxHashesForSeal⟩
    s.posted (r :: rs) =
      (if r.posted then [b] else []) ++ posted ⟨s.nextBlkNumber + 1, b.hash⟩ rs := by
  simp [posted, checkAndSealMaybe, h]

theorem noGap_cons_of_nil (h : r.mempool.getTxHashesForSeal = []) :
    NoGap (r :: rs) ↔ NoGap rs := by
  simp [NoGap, h]

theorem noGap_cons_of_ne (h : r.mempool.getTxHashesForSeal ≠ []) :
    NoGap (r :: rs) ↔
      (∀ r' ∈ rs, r'.mempool.getTxHashesForSeal ≠ [] → r'.posted = true → r.posted = true) ∧
        NoGap rs := by
  simp [NoGap, h]

/-- Where every post fails, there is nothing. -/
theorem posted_eq_nil
    (h : ∀ r ∈ rs, r.mempool.getTxHashesForSeal ≠ [] → r.posted ≠ true) : s.posted rs = [] := by
  induction rs generalizing s with
  | nil => rfl
  | cons r rs ih =>
    have ih' := fun s => ih (s := s) fun r' hr' => h r' (List.mem_cons_of_mem _ hr')
    by_cases hr : r.mempool.getTxHashesForSeal = []
    · rw [posted_cons_of_nil hr, ih']
    · rw [posted_cons_of_ne hr, if_neg (h r List.mem_cons_self hr), List.nil_append, ih']

theorem chain_of_noGap (h : NoGap rs) : Chain s.nextBlkNumber s.previousHash (s.posted rs) := by
  induction rs generalizing s with
  | nil => trivial
  | cons r rs ih =>
    by_cases hr : r.mempool.getTxHashesForSeal = []
    · rw [posted_cons_of_nil hr]
      exact ih ((noGap_cons_of_nil hr).1 h)
    · obtain ⟨hafter, hrest⟩ := (noGap_cons_of_ne hr).1 h
      rw [posted_cons_of_ne hr]
      by_cases hp : r.posted = true
      · rw [if_pos hp]
        exact ⟨rfl, rfl, ih (s := ⟨_, _⟩) hrest⟩
      · rw [if_neg hp, List.nil_append,
          posted_eq_nil fun r' hr' hne hp' => hp (hafter r' hr' hne hp')]
        trivial

theorem not_posted_of_eq_nil (h : s.posted rs = []) :
    ∀ r ∈ rs, r.mempool.getTxHashesForSeal ≠ [] → r.posted ≠ true := by
  induction rs generalizing s with
  | nil => simp
  | cons r rs ih =>
    rintro r' hr' hne hp
    by_cases hr : r.mempool.getTxHashesForSeal = []
    · rw [posted_cons_of_nil hr] at h
      rcases List.mem_cons.1 hr' with rfl | hr'
      · exact hne hr
      · exact ih h r' hr' hne hp
    · rw [posted_cons_of_ne hr, List.append_eq_nil_iff] at h
      rcases List.mem_cons.1 hr' with rfl | hr'
      · simp [hp] at h
      · exact ih h.2 r' hr' hne hp

/-- Once numbers have been skipped, no block has the number `n` any more, unless all the numbers
there are have been skipped. -/
theorem posted_eq_nil_of_chain {n : UInt64} {h : Hash256} {k : ℕ}
    (hnext : s.nextBlkNumber = n + .ofNat k) (hk : 0 < k) (hlen : k + rs.length < 2 ^ 64)
    (hchain : Chain n h (s.posted rs)) : s.posted rs = [] := by
  induction rs generalizing s k with
  | nil => rfl
  | cons r rs ih =>
    rw [List.length_cons] at hlen
    by_cases hr : r.mempool.getTxHashesForSeal = []
    · rw [posted_cons_of_nil hr] at hchain ⊢
      exact ih hnext hk (by omega) hchain
    · rw [posted_cons_of_ne hr] at hchain ⊢
      by_cases hp : r.posted = true
      · rw [if_pos hp] at hchain
        have hzero : UInt64.ofNat k = 0 := by
          have hnum : n + UInt64.ofNat k = n := hnext.symm.trans hchain.1
          simpa using hnum
        have hmod : k % 2 ^ 64 = 0 := by simpa using congrArg UInt64.toNat hzero
        omega
      · rw [if_neg hp, List.nil_append] at hchain ⊢
        refine ih (k := k + 1) ?_ (by omega) (by omega) hchain
        rw [hnext, UInt64.add_assoc, UInt64.ofNat_add]
        rfl

theorem noGap_of_chain (hlen : rs.length < 2 ^ 64)
    (h : Chain s.nextBlkNumber s.previousHash (s.posted rs)) : NoGap rs := by
  induction rs generalizing s with
  | nil => exact List.Pairwise.nil
  | cons r rs ih =>
    rw [List.length_cons] at hlen
    by_cases hr : r.mempool.getTxHashesForSeal = []
    · rw [posted_cons_of_nil hr] at h
      exact (noGap_cons_of_nil hr).2 (ih (by omega) h)
    · rw [posted_cons_of_ne hr] at h
      by_cases hp : r.posted = true
      · rw [if_pos hp] at h
        exact (noGap_cons_of_ne hr).2 ⟨fun _ _ _ _ => hp, ih (s := ⟨_, _⟩) (by omega) h.2.2⟩
      · rw [if_neg hp, List.nil_append] at h
        have hnil := posted_eq_nil_of_chain (k := 1) rfl Nat.one_pos (by omega) h
        have hrest := ih (s := ⟨_, _⟩) (by omega) (by rw [hnil]; trivial)
        refine (noGap_cons_of_ne hr).2 ⟨fun r' hr' hne hp' => ?_, hrest⟩
        exact absurd hp' (not_posted_of_eq_nil hnil r' hr' hne)

/-- **The chain of the sealer.**  If no post succeeds after one that has failed, the blocks that are
posted have consecutive numbers from the first one on, and each has the hash of the one before it;
and over fewer rounds than there are numbers, only then. -/
theorem chain_iff (s : Sealer) (rs : List Round) :
    (NoGap rs → Chain s.nextBlkNumber s.previousHash (s.posted rs)) ∧
      (rs.length < 2 ^ 64 → Chain s.nextBlkNumber s.previousHash (s.posted rs) → NoGap rs) :=
  ⟨chain_of_noGap, noGap_of_chain⟩

omit [Keccak] in
/-- The first post fails, the second one succeeds: the first block that has been posted has the
number 1. -/
theorem not_chain :
    let _ : Keccak := Sponge.keccak
    ¬∀ (s : Sealer) (rs : List Round), Chain s.nextBlkNumber s.previousHash (s.posted rs) := by
  intro _ hall
  let p := ((Mempool.create ∅ 2).addTx (Tx.create (makeAddress 10) (makeAddress 20) [] 234 0)).1
  have hchain := hall ⟨0, .zero 32⟩ [⟨p, false⟩, ⟨p, true⟩]
  have hnumber :
      (posted ⟨0, .zero 32⟩ [⟨p, false⟩, ⟨p, true⟩]).map BlkForConsensus.number = [1] := by
    decide +kernel
  revert hchain hnumber
  cases posted ⟨0, .zero 32⟩ [⟨p, false⟩, ⟨p, true⟩] with
  | nil => simp
  | cons b bs =>
    rintro ⟨hzero, -⟩ hone
    rw [List.map_cons, hzero] at hone
    exact absurd (List.cons.inj hone).1 (by decide)

end Sealer

end WeakChain
