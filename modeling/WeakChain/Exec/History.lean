import WeakChain.Exec.Restore
import WeakChain.Lib.Writes
import Mathlib.Data.Stream.Init

/-!
# Committing a chain of blocks

What the chain database holds after a whole chain has been committed, on a storage that may refuse
any of its writes.  `commitBlk` gives up when the storage refuses a journal, the block or the number
of the latest block, but not when it refuses the place of a transaction: the value that it gets is
overwritten.  So a chain that has been committed can have transactions that nobody finds.

The database is the list of the writes that were made (`commitBlks_answering`), and everything that
is read from it later is read off that list.  `getRequiredThings_iff` says when a restart finds the
chain as it was committed.
-/

namespace WeakChain

/-- A storage that makes some writes and refuses the others, as the answers say. -/
def answering [Pb hiPb.Acn] : IWorldStorage (InRamWorldStorage × Stream' Bool) where
  getAcn w := StateDB.getAcn w.1.stateDB
  setInChainDB w k v :=
    ((if w.2.head then (w.1.setInChainDB k v).1 else w.1, w.2.tail), w.2.head)
  applyJournalStateDB w j :=
    ((if w.2.head then (w.1.applyJournalStateDB j).1 else w.1, w.2.tail), w.2.head)

namespace BlkExecutor

variable {W : Type*} [Keccak] [Pb hiPb.TxOnBlkInfo] [Pb hiPb.ExecBlk]

/-- Commit blocks in order, until one fails. -/
def commitBlks (e : BlkExecutor W) : W → List ExecBlk → W × Bool
  | w, [] => (w, true)
  | w, b :: bs =>
    match e.commitBlk w b with
    | (w, false) => (w, false)
    | (w, true) => commitBlks e w bs

theorem commitTxs_of_commitBlk {e : BlkExecutor W} {w : W} {b : ExecBlk}
    (h : (e.commitBlk w b).2 = true) :
    (e.commitTxs b.number 0 w (b.txs.zip b.stateChanges)).2 = true := by
  rw [commitBlk] at h
  split at h
  · cases h
  · next heq => rw [heq]

theorem commitBlk_of_commitBlks {e : BlkExecutor W} {w : W} {b : ExecBlk} {bs : List ExecBlk}
    (h : (e.commitBlks w (b :: bs)).2 = true) : (e.commitBlk w b).2 = true := by
  rw [commitBlks] at h
  split at h
  · cases h
  · next heq => rw [heq]

end BlkExecutor

namespace History

/-! ### The writes that were made -/

/-- The places of transactions that were written, from position `i` on.  There is an answer for each
place and one for each journal. -/
def blkPlaces (number : UInt64) : ℕ → Stream' Bool → List Tx → List (TxOnBlkInfo × Tx)
  | _, _, [] => []
  | i, answers, t :: txs =>
    (if answers.head then [(⟨number, .ofNat i⟩, t)] else []) ++
      blkPlaces number (i + 1) (answers.drop 2) txs

/-- The places that were written for a chain of blocks. -/
def places : Stream' Bool → List ExecBlk → List (TxOnBlkInfo × Tx)
  | _, [] => []
  | answers, b :: bs =>
    blkPlaces b.number 0 answers b.txs ++ places (answers.drop (2 * b.txs.length + 2)) bs

/-- The places that are written are those for which the answer is yes. -/
theorem mem_blkPlaces_iff {number : UInt64} {i : ℕ} {answers : Stream' Bool} {txs : List Tx}
    {p : TxOnBlkInfo × Tx} : p ∈ blkPlaces number i answers txs ↔
      ∃ k, txs[k]? = some p.2 ∧ p.1 = ⟨number, .ofNat (i + k)⟩ ∧ answers.get (2 * k) = true := by
  induction txs generalizing i answers with
  | nil => simp [blkPlaces]
  | cons t txs ih =>
    have hhead : p ∈ (if answers.head then [(⟨number, .ofNat i⟩, t)] else []) ↔
        t = p.2 ∧ p.1 = ⟨number, .ofNat i⟩ ∧ answers.head = true := by
      split_ifs with h
      · rw [List.mem_singleton, Prod.ext_iff]
        simp only [h, and_true, eq_comm (a := t)]
        exact and_comm
      · simp [h]
    rw [blkPlaces, List.mem_append, hhead, ih]
    constructor
    · rintro (⟨rfl, hplace, hanswer⟩ | ⟨k, hk, hplace, hanswer⟩)
      · exact ⟨0, rfl, hplace, hanswer⟩
      · refine ⟨k + 1, hk, ?_, ?_⟩
        · rw [hplace, Nat.add_right_comm, Nat.add_assoc]
        · rwa [Stream'.get_drop, Nat.add_comm] at hanswer
    · rintro ⟨k, hk, hplace, hanswer⟩
      cases k with
      | zero => exact .inl ⟨Option.some.inj hk, hplace, hanswer⟩
      | succ k =>
        refine .inr ⟨k, hk, ?_, ?_⟩
        · rw [hplace, Nat.add_right_comm, Nat.add_assoc]
        · rwa [Stream'.get_drop, Nat.add_comm]

/-- Only what is in a block has a place. -/
theorem mem_places {answers : Stream' Bool} {bs : List ExecBlk} {p : TxOnBlkInfo × Tx}
    (h : p ∈ places answers bs) :
    ∃ b ∈ bs, ∃ k, b.txs[k]? = some p.2 ∧ p.1 = ⟨b.number, .ofNat k⟩ := by
  induction bs generalizing answers with
  | nil => cases h
  | cons b bs ih =>
    rcases List.mem_append.1 h with hp | hp
    · obtain ⟨k, hk, hplace, -⟩ := mem_blkPlaces_iff.1 hp
      rw [Nat.zero_add] at hplace
      exact ⟨b, List.mem_cons_self, k, hk, hplace⟩
    · obtain ⟨c, hc, hk⟩ := ih hp
      exact ⟨c, List.mem_cons_of_mem _ hc, hk⟩

/-- A storage that makes all writes has the place of everything. -/
theorem mem_places_const {bs : List ExecBlk} {b : ExecBlk} (hb : b ∈ bs) {k : ℕ} {t : Tx}
    (h : b.txs[k]? = some t) : (⟨b.number, .ofNat k⟩, t) ∈ places (.const true) bs := by
  induction bs with
  | nil => cases hb
  | cons c bs ih =>
    rcases List.mem_cons.1 hb with rfl | hb
    · refine List.mem_append_left _ (mem_blkPlaces_iff.2 ⟨k, h, ?_, rfl⟩)
      rw [Nat.zero_add]
    · exact List.mem_append_right _ (ih hb)

variable [Keccak] [Pb hiPb.TxOnBlkInfo]

/-- The write of a place. -/
def placeWrite (p : TxOnBlkInfo × Tx) : Bytes × Bytes := (txKey p.2.hash, p.1.toString)

variable [Pb hiPb.ExecBlk]

/-- The writes to the chain database that were made for a chain of blocks. -/
def writes : Stream' Bool → List ExecBlk → List (Bytes × Bytes)
  | _, [] => []
  | answers, b :: bs =>
    (blkPlaces b.number 0 answers b.txs).map placeWrite ++
      [(blkKey b.number.toNat, b.toString), (blkNumberKey, decimal b.number.toNat)] ++
      writes (answers.drop (2 * b.txs.length + 2)) bs

omit [Keccak] [Pb hiPb.TxOnBlkInfo] [Pb hiPb.ExecBlk] in
theorem txKey_injective : Function.Injective txKey := by
  intro h h' he
  rw [← Option.some_inj, ← getHashFromKey_txKey, he, getHashFromKey_txKey]

/-- What is written for the hash of a transaction. -/
theorem txKey_mem_writes {answers : Stream' Bool} {bs : List ExecBlk} {h : Hash256} {v : Bytes} :
    (txKey h, v) ∈ writes answers bs ↔
      ∃ p ∈ places answers bs, p.2.hash = h ∧ p.1.toString = v := by
  induction bs generalizing answers with
  | nil => simp [writes, places]
  | cons b bs ih =>
    have hblk : (txKey h, v) ∉
        [(blkKey b.number.toNat, b.toString), (blkNumberKey, decimal b.number.toNat)] := by
      simp [txKey_ne_blkKey, txKey_ne_blkNumberKey]
    simp only [writes, places, List.mem_append, hblk, or_false, ih, List.mem_map, placeWrite,
      Prod.mk.injEq, txKey_injective.eq_iff, or_and_right, exists_or]

/-- What is written for the number of a block. -/
theorem blkKey_mem_writes {answers : Stream' Bool} {bs : List ExecBlk} {n : ℕ} {v : Bytes} :
    (blkKey n, v) ∈ writes answers bs ↔ ∃ b ∈ bs, b.number.toNat = n ∧ b.toString = v := by
  induction bs generalizing answers with
  | nil => simp [writes]
  | cons b bs ih =>
    have hplace : (blkKey n, v) ∉ (blkPlaces b.number 0 answers b.txs).map placeWrite := by
      rw [List.mem_map]
      rintro ⟨p, -, hp⟩
      exact txKey_ne_blkKey _ _ (congrArg Prod.fst hp)
    have hblk : (blkKey n, v) ∈
        [(blkKey b.number.toNat, b.toString), (blkNumberKey, decimal b.number.toNat)] ↔
        b.number.toNat = n ∧ b.toString = v := by
      simp only [List.mem_cons, List.not_mem_nil, or_false, Prod.mk.injEq, blkKey_injective.eq_iff,
        blkKey_ne_blkNumberKey, false_and]
      exact and_congr eq_comm eq_comm
    simp only [writes, List.mem_append, hplace, false_or, hblk, ih, List.mem_cons, or_and_right,
      exists_or, exists_eq_left]

/-- The number of the latest block is written last. -/
theorem writes_concat (answers : Stream' Bool) (bs : List ExecBlk) (b : ExecBlk) :
    ∃ ws, writes answers (bs ++ [b]) = ws ++ [(blkNumberKey, decimal b.number.toNat)] := by
  induction bs generalizing answers with
  | nil =>
    refine ⟨(blkPlaces b.number 0 answers b.txs).map placeWrite ++
      [(blkKey b.number.toNat, b.toString)], ?_⟩
    simp [writes]
  | cons c bs ih =>
    obtain ⟨ws, hws⟩ := ih (answers.drop (2 * c.txs.length + 2))
    exact ⟨_, by rw [List.cons_append, writes, hws, ← List.append_assoc]⟩

/-- The number of the latest block. -/
theorem lookup_blkNumberKey (answers : Stream' Bool) (bs : List ExecBlk) (b : ExecBlk) :
    (Writes.apply ∅ (writes answers (bs ++ [b]))).lookup blkNumberKey =
      some (decimal b.number.toNat) := by
  obtain ⟨ws, hws⟩ := writes_concat answers bs b
  rw [hws]
  exact Writes.lookup_concat _ _

omit [Keccak] [Pb hiPb.TxOnBlkInfo] [Pb hiPb.ExecBlk] in
/-- Blocks that are numbered from zero on end with the block `n`. -/
theorem exists_concat_of_numbers {bs : List ExecBlk} {n : ℕ}
    (h : (bs.map fun b => b.number.toNat) = List.range (n + 1)) :
    ∃ init last, bs = init ++ [last] ∧ last.number.toNat = n ∧ bs[n]? = some last := by
  rcases List.eq_nil_or_concat' bs with rfl | ⟨init, last, rfl⟩
  · rw [List.range_succ] at h
    simp at h
  · rw [List.map_append, List.range_succ] at h
    obtain ⟨hinit, hlast⟩ := List.append_inj' h rfl
    have hlen := congrArg List.length hinit
    rw [List.length_map, List.length_range] at hlen
    exact ⟨init, last, rfl, (List.cons.inj hlast).1, by simp [← hlen]⟩

/-! ### What the commits write -/

variable [Pb hiPb.Acn] {E : ITxExecutable} {v : Option (Tx → Bool)}

omit [Keccak] [Pb hiPb.TxOnBlkInfo] [Pb hiPb.ExecBlk] in
theorem answering_setInChainDB (w : InRamWorldStorage) (answers : Stream' Bool) (k v : Bytes) :
    answering.setInChainDB (w, answers) k v =
      ((⟨w.stateDB, Writes.apply w.chainDB (if answers.head then [(k, v)] else [])⟩,
        answers.tail), answers.head) := by
  cases hp : answers.head
  · simp [answering, hp]
  · simp [answering, hp, InRamWorldStorage.setInChainDB]

omit [Keccak] [Pb hiPb.TxOnBlkInfo] [Pb hiPb.ExecBlk] in
theorem answering_applyJournalStateDB (w : InRamWorldStorage) (answers : Stream' Bool)
    (j : Journal) :
    answering.applyJournalStateDB (w, answers) j =
      ((⟨if answers.head then StateDB.applyJournal w.stateDB j else w.stateDB, w.chainDB⟩,
        answers.tail), answers.head) := by
  cases hp : answers.head
  · simp [answering, hp]
  · simp [answering, hp, InRamWorldStorage.applyJournalStateDB]

omit [Pb hiPb.ExecBlk] in
/-- The loop of `commitBlk`, when it is not stopped: a journal that is refused stops it, a place
that is refused does not. -/
theorem commitTxs_answering {number : UInt64} {i : ℕ} {w : InRamWorldStorage}
    {answers : Stream' Bool} {tjs : List (Tx × Journal)}
    (h : ((⟨answering, E, v⟩ : BlkExecutor _).commitTxs number i (w, answers) tjs).2 = true) :
    (⟨answering, E, v⟩ : BlkExecutor _).commitTxs number i (w, answers) tjs =
      ((⟨(tjs.map Prod.snd).foldl StateDB.applyJournal w.stateDB, Writes.apply w.chainDB
        ((blkPlaces number i answers (tjs.map Prod.fst)).map placeWrite)⟩,
        answers.drop (2 * tjs.length)), true) := by
  induction tjs generalizing i w answers with
  | nil => rfl
  | cons tj tjs ih =>
    obtain ⟨t, j⟩ := tj
    rw [BlkExecutor.commitTxs] at h ⊢
    simp only [answering_setInChainDB, answering_applyJournalStateDB] at h ⊢
    cases hj : answers.tail.head with
    | false => simp [hj] at h
    | true =>
      simp only [hj] at h ⊢
      refine (ih h).trans ?_
      have hplace : (if answers.head then [(⟨number, .ofNat i⟩, t)] else []).map placeWrite =
          if answers.head then [(ascii "/tx/" ++ hashToString t.hash,
            TxOnBlkInfo.toString ⟨number, .ofNat i⟩)] else [] := by
        split <;> rfl
      rw [List.map_cons, List.map_cons, blkPlaces, List.map_append, Writes.apply_append, hplace]
      rfl

/-- The writes of one block. -/
theorem commitBlk_answering {w : InRamWorldStorage} {answers : Stream' Bool} {b : ExecBlk}
    (h : ((⟨answering, E, v⟩ : BlkExecutor _).commitBlk (w, answers) b).2 = true) :
    (⟨answering, E, v⟩ : BlkExecutor _).commitBlk (w, answers) b =
      ((⟨b.stateChanges.foldl StateDB.applyJournal w.stateDB, Writes.apply w.chainDB
        ((blkPlaces b.number 0 answers b.txs).map placeWrite ++
          [(blkKey b.number.toNat, b.toString), (blkNumberKey, decimal b.number.toNat)])⟩,
        answers.drop (2 * b.txs.length + 2)), true) := by
  have hst := commitTxs_answering (BlkExecutor.commitTxs_of_commitBlk h)
  rw [b.map_fst_zip_stateChanges, b.map_snd_zip_stateChanges, b.length_zip_stateChanges] at hst
  rw [BlkExecutor.commitBlk, hst] at h ⊢
  cases hblk : (answers.drop (2 * b.txs.length)).head with
  | false => simp [answering_setInChainDB, hblk] at h
  | true =>
    simp only [answering_setInChainDB, hblk, if_true] at h ⊢
    rw [h, if_pos rfl, Writes.apply_append, Stream'.tail_drop', Stream'.tail_drop']
    rfl

/-- The writes of a chain of blocks. -/
theorem commitBlks_answering {w : InRamWorldStorage} {answers : Stream' Bool} {bs : List ExecBlk}
    (h : ((⟨answering, E, v⟩ : BlkExecutor _).commitBlks (w, answers) bs).2 = true) :
    (((⟨answering, E, v⟩ : BlkExecutor _).commitBlks (w, answers) bs).1.1).chainDB =
      Writes.apply w.chainDB (writes answers bs) := by
  induction bs generalizing w answers with
  | nil => rfl
  | cons b bs ih =>
    have hst := commitBlk_answering (BlkExecutor.commitBlk_of_commitBlks h)
    rw [BlkExecutor.commitBlks, hst] at h ⊢
    exact (ih h).trans (Writes.apply_append _).symm

/-! ### What a restart finds -/

omit [Pb hiPb.Acn]

/-- What is written under a key of a transaction is the place of one. -/
theorem txKey_of_mem_writes {answers : Stream' Bool} {bs : List ExecBlk} {k v : Bytes}
    (h : (k, v) ∈ writes answers bs) (hk : (ascii "/tx/").isPrefixOf k = true) :
    ∃ p ∈ places answers bs, txKey p.2.hash = k := by
  induction bs generalizing answers with
  | nil => cases h
  | cons b bs ih =>
    rw [writes, List.mem_append, List.mem_append] at h
    rcases h with (h | h) | h
    · obtain ⟨p, hp, he⟩ := List.mem_map.1 h
      exact ⟨p, List.mem_append_left _ hp, congrArg Prod.fst he⟩
    · -- the other two keys do not start like that
      rcases List.mem_cons.1 h with h | h
      · rw [(Prod.mk.inj h).1] at hk
        cases hk
      · rw [(Prod.mk.inj (List.mem_singleton.1 h)).1] at hk
        cases hk
    · obtain ⟨p, hp, he⟩ := ih h
      exact ⟨p, List.mem_append_right _ hp, he⟩

/-- The keys of transactions are those of the places that were written. -/
theorem getKeysStartWith_writes (answers : Stream' Bool) (bs : List ExecBlk) :
    getKeysStartWith (Writes.apply ∅ (writes answers bs)) (ascii "/tx/") =
      ((places answers bs).map fun p => p.2.hash).toFinset.image txKey := by
  ext k
  simp only [getKeysStartWith, Finset.mem_filter, Finmap.mem_keys, Writes.mem_apply,
    Finset.mem_image, List.mem_toFinset, List.mem_map, exists_exists_and_eq_and]
  constructor
  · rintro ⟨hk | ⟨⟨_, v⟩, hw, rfl⟩, hpre⟩
    · exact absurd hk Finmap.notMem_empty
    · exact txKey_of_mem_writes hw hpre
  · rintro ⟨p, hp, rfl⟩
    exact ⟨.inr ⟨_, txKey_mem_writes.2 ⟨p, hp, rfl, rfl⟩, rfl⟩,
      List.isPrefixOf_iff_prefix.2 (List.prefix_append _ _)⟩

/-- A block is read back, with the senders that belong to the public keys. -/
theorem getBlkFromChain_writes (hpb : Pb.ReadsBack hiPb.ExecBlk) (answers : Stream' Bool)
    {bs : List ExecBlk} (hnodup : (bs.map fun b => b.number.toNat).Nodup) {b : ExecBlk}
    (hb : b ∈ bs) : getBlkFromChain (Writes.apply ∅ (writes answers bs)) b.number.toNat =
      .ok ⟨b.toBlk.derived, b.stateChanges, b.txReceipts⟩ := by
  have hlookup : (Writes.apply ∅ (writes answers bs)).lookup (blkKey b.number.toNat) =
      some b.toString := by
    refine Writes.lookup_of_unique (blkKey_mem_writes.2 ⟨b, hb, rfl, rfl⟩) ?_
    intro v hv
    obtain ⟨c, hc, hn, rfl⟩ := blkKey_mem_writes.1 hv
    rw [List.inj_on_of_nodup_map hnodup hc hb hn]
  rw [blkKey] at hlookup
  simp only [getBlkFromChain, getBlkOfDecimal, hlookup, ExecBlk.fromString_toString_derived hpb]

/-- What a restart finds in the writes of a chain. -/
theorem getRequiredThings_writes (hpb : Pb.ReadsBack hiPb.ExecBlk) (answers : Stream' Bool)
    {bs : List ExecBlk} (hnodup : (bs.map fun b => b.number.toNat).Nodup) {b : ExecBlk}
    (hb : b ∈ bs) (hn : b.number.toNat < 2 ^ 31) :
    getRequiredThings (Writes.apply ∅ (writes answers bs)) (decimal b.number.toNat) =
      some (b.number.toNat, b.toBlk.derived.hash,
        ((places answers bs).map fun p => p.2.hash).toFinset) := by
  have hparse : parsePositiveInt (decimal b.number.toNat) = .ok b.number.toNat := by
    rw [parsePositiveInt, lexicalCastInt_decimal (by omega)]
    simp
  have hhashes := hashesOfKeys_union ∅ ((places answers bs).map fun p => p.2.hash).toFinset
  rw [Finset.empty_union, ← getKeysStartWith_writes] at hhashes
  rw [getRequiredThings, hparse]
  simp only [Except.toOption, bind, Option.bind_some, getBlkFromChain_writes hpb answers hnodup hb,
    hhashes]
  simp [hashesOfKeys, pure]

omit [Pb hiPb.TxOnBlkInfo] [Pb hiPb.ExecBlk] in
/-- The hashes of all transactions of a chain. -/
def txHashes (bs : List ExecBlk) : Finset Hash256 :=
  (bs.flatMap fun b => b.txs.map Tx.hash).toFinset

omit [Pb hiPb.TxOnBlkInfo] [Pb hiPb.ExecBlk] in
/-- The places that were written are those of all transactions, as far as hashes go, if none is
missing. -/
theorem toFinset_places_eq_txHashes_iff (answers : Stream' Bool) (bs : List ExecBlk) :
    ((places answers bs).map fun p => p.2.hash).toFinset = txHashes bs ↔
      ∀ b ∈ bs, ∀ t ∈ b.txs, ∃ p ∈ places answers bs, p.2.hash = t.hash := by
  have hsubset : ((places answers bs).map fun p => p.2.hash).toFinset ⊆ txHashes bs := by
    intro h hh
    obtain ⟨p, hp, rfl⟩ := List.mem_map.1 (List.mem_toFinset.1 hh)
    obtain ⟨b, hb, k, hk, -⟩ := mem_places hp
    exact List.mem_toFinset.2 (List.mem_flatMap.2
      ⟨b, hb, List.mem_map_of_mem (List.mem_of_getElem? hk)⟩)
  rw [Finset.Subset.antisymm_iff, and_iff_right hsubset]
  simp only [Finset.subset_iff, txHashes, List.mem_toFinset, List.mem_flatMap, List.mem_map]
  constructor
  · intro h b hb t ht
    exact h ⟨b, hb, t, ht, rfl⟩
  · rintro h _ ⟨b, hb, t, ht, rfl⟩
    exact h b hb t ht

variable [Pb hiPb.Acn]

/-- **When a restart finds the chain.**  After the blocks `0` to `n` have been committed on a
storage that may refuse writes, a restart finds exactly the number, the hash of block `n` and the
hashes of all transactions if and only if for the hash of each transaction the storage has made the
write of a place, and the hash of block `n` stays the same when the senders are derived from the
public keys. -/
theorem getRequiredThings_iff (hpb : Pb.ReadsBack hiPb.ExecBlk) (E : ITxExecutable)
    (v : Option (Tx → Bool)) (st : StateDB) (answers : Stream' Bool) (n : ℕ) (hn : n < 2 ^ 31)
    (bs : List ExecBlk) (hnumbers : (bs.map fun b => b.number.toNat) = List.range (n + 1))
    (hok : ((⟨answering, E, v⟩ : BlkExecutor _).commitBlks (⟨st, ∅⟩, answers) bs).2 = true) :
    let db := ((⟨answering, E, v⟩ : BlkExecutor _).commitBlks (⟨st, ∅⟩, answers) bs).1.1.chainDB
    (∃ ns b, db.lookup blkNumberKey = some ns ∧ bs[n]? = some b ∧
        getRequiredThings db ns = some (n, b.hash, txHashes bs)) ↔
      (∀ b ∈ bs, ∀ t ∈ b.txs, ∃ p ∈ places answers bs, p.2.hash = t.hash) ∧
        ∀ b, bs[n]? = some b → b.derived.hash = b.hash := by
  intro db
  have hdb : db = Writes.apply ∅ (writes answers bs) := commitBlks_answering hok
  have hnodup : (bs.map fun b => b.number.toNat).Nodup := hnumbers ▸ List.nodup_range
  obtain ⟨init, last, rfl, rfl, hget⟩ := exists_concat_of_numbers hnumbers
  have hlookup : db.lookup blkNumberKey = some (decimal last.number.toNat) := by
    rw [hdb]
    exact lookup_blkNumberKey answers init last
  have hfound := getRequiredThings_writes hpb answers hnodup (b := last) (by simp) hn
  rw [← hdb] at hfound
  constructor
  · rintro ⟨ns, b, hns, hb, hrequired⟩
    obtain rfl := Option.some.inj (hget.symm.trans hb)
    obtain rfl := Option.some.inj (hlookup.symm.trans hns)
    have heq := Option.some.inj (hfound.symm.trans hrequired)
    simp only [Prod.mk.injEq, true_and] at heq
    refine ⟨(toFinset_places_eq_txHashes_iff _ _).1 heq.2, ?_⟩
    intro c hc
    obtain rfl := Option.some.inj (hget.symm.trans hc)
    exact heq.1
  · rintro ⟨hplaces, hhash⟩
    refine ⟨_, last, hlookup, hget, ?_⟩
    rw [hfound, hhash last hget, (toFinset_places_eq_txHashes_iff _ _).2 hplaces]

omit [Keccak] [Pb hiPb.TxOnBlkInfo] [Pb hiPb.ExecBlk] [Pb hiPb.Acn] in
/-- Two blocks, on a storage that makes all writes. -/
theorem getRequiredThings_iff_two :
    let _ : Keccak := Sponge.keccak
    let _ : HashOrder Bytes32 := .insertion Bytes32
    let _ : Pb hiPb.Acn := Wire.pb hiPb.Acn
    let _ : Pb hiPb.TxOnBlkInfo := Wire.pb hiPb.TxOnBlkInfo
    let _ : Pb hiPb.ExecBlk := Wire.pb hiPb.ExecBlk
    let tx (n : UInt64) := Tx.create (makeAddress 1) (makeAddress 2) [] n 0
    let b (n : UInt64) := (BlkExecutor.inRam BlkExecutor.counter).executeBlk ⟨∅, ∅⟩
      ⟨n, .zero 32, [tx n]⟩
    let r := (⟨answering, BlkExecutor.counter, none⟩ : BlkExecutor _).commitBlks
      (⟨∅, ∅⟩, .const true) [b 0, b 1]
    ∃ ns c, r.1.1.chainDB.lookup blkNumberKey = some ns ∧ [b 0, b 1][1]? = some c ∧
      getRequiredThings r.1.1.chainDB ns = some (1, c.hash, txHashes [b 0, b 1]) := by
  intro _ _ _ _ _ tx b r
  refine (getRequiredThings_iff (Wire.readsBack hiPb.ExecBlk) BlkExecutor.counter none ∅
    (.const true) 1 (by decide) [b 0, b 1] rfl rfl).2 ⟨?_, ?_⟩
  · intro c hc t ht
    obtain ⟨k, hk⟩ := List.getElem?_of_mem ht
    exact ⟨_, mem_places_const hc hk, rfl⟩
  · intro c hc
    obtain rfl := Option.some.inj hc
    -- there is no public key
    rfl

omit [Keccak] [Pb hiPb.TxOnBlkInfo] [Pb hiPb.ExecBlk] [Pb hiPb.Acn] in
/-- A block with one transaction, the place of which the storage refuses: the block is committed,
but a restart does not know the transaction. -/
theorem not_getRequiredThings :
    let _ : Keccak := Sponge.keccak
    let _ : HashOrder Bytes32 := .insertion Bytes32
    let _ : Pb hiPb.Acn := Wire.pb hiPb.Acn
    let _ : Pb hiPb.TxOnBlkInfo := Wire.pb hiPb.TxOnBlkInfo
    let _ : Pb hiPb.ExecBlk := Wire.pb hiPb.ExecBlk
    let tx := Tx.create (makeAddress 1) (makeAddress 2) [] 7 0
    let b := (BlkExecutor.inRam BlkExecutor.counter).executeBlk ⟨∅, ∅⟩ ⟨0, .zero 32, [tx]⟩
    let r := (⟨answering, BlkExecutor.counter, none⟩ : BlkExecutor _).commitBlks
      (⟨∅, ∅⟩, .cons false (.const true)) [b]
    r.2 = true ∧ ¬∃ ns c, r.1.1.chainDB.lookup blkNumberKey = some ns ∧ [b][0]? = some c ∧
      getRequiredThings r.1.1.chainDB ns = some (0, c.hash, txHashes [b]) := by
  intro _ _ _ _ _ tx b r
  refine ⟨rfl, ?_⟩
  rintro ⟨ns, c, hns, -, h⟩
  have hdb : r.1.1.chainDB = Writes.apply ∅ (writes (.cons false (.const true)) [b]) :=
    commitBlks_answering rfl
  have hlookup : r.1.1.chainDB.lookup blkNumberKey = some (decimal b.number.toNat) := by
    rw [hdb]
    exact lookup_blkNumberKey _ [] b
  have hnodup : ([b].map fun b => b.number.toNat).Nodup := List.nodup_singleton _
  have hfound := getRequiredThings_writes (Wire.readsBack hiPb.ExecBlk) (.cons false (.const true))
    hnodup (List.mem_singleton_self b) (by decide)
  obtain rfl := Option.some.inj (hlookup.symm.trans hns)
  rw [hdb, hfound] at h
  -- no place was written
  have hnone : (∅ : Finset Hash256) = txHashes [b] := congrArg (fun x => x.2.2) (Option.some.inj h)
  have hone : tx.hash ∈ txHashes [b] := List.mem_toFinset.2 (List.mem_singleton_self _)
  rw [← hnone] at hone
  exact Finset.notMem_empty _ hone

end History

end WeakChain
