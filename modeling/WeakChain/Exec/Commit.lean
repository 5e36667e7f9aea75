import WeakChain.Exec.History

/-!
# What a committed block leaves behind

`commitBlk` makes two writes for each transaction, its place and its journal, and two for the block.
`Stored` says that all of them are in the databases.  On a storage that may refuse any write, a
block for which `commitBlk` returns `true` has its journals, itself and its number stored; the
places are stored as far as the storage has made these writes, because nobody looks at what they
return (`Commit.stored_iff`).
-/

namespace WeakChain

namespace Commit

variable [Keccak] [Pb hiPb.TxOnBlkInfo] [Pb hiPb.ExecBlk]

/-- Everything that belongs to a block is in the databases. -/
structure Stored (b : ExecBlk) (w w' : InRamWorldStorage) : Prop where
  /-- Every transaction has its place. -/
  tx : ∀ i t, b.txs[i]? = some t →
    w'.chainDB.lookup (txKey t.hash) = some (TxOnBlkInfo.toString ⟨b.number, .ofNat i⟩)
  /-- All journals have been applied, in order. -/
  stateDB : w'.stateDB = b.stateChanges.foldl StateDB.applyJournal w.stateDB
  /-- The block is there. -/
  blk : w'.chainDB.lookup (blkKey b.number.toNat) = some b.toString
  /-- It is the latest one. -/
  blkNumber : w'.chainDB.lookup blkNumberKey = some (decimal b.number.toNat)

/-- The writes to the chain database that are made for a block. -/
def blkWrites (answers : Stream' Bool) (b : ExecBlk) : List (Bytes × Bytes) :=
  (History.blkPlaces b.number 0 answers b.txs).map History.placeWrite ++
    [(blkKey b.number.toNat, b.toString), (blkNumberKey, decimal b.number.toNat)]

/-- What is written for a transaction, if hashes are distinct. -/
theorem txKey_mem_blkWrites {answers : Stream' Bool} {b : ExecBlk}
    (hdistinct : (b.txs.map Tx.hash).Nodup) {i : ℕ} {t : Tx} (ht : b.txs[i]? = some t) {x : Bytes} :
    (txKey t.hash, x) ∈ blkWrites answers b ↔
      answers.get (2 * i) = true ∧ x = TxOnBlkInfo.toString ⟨b.number, .ofNat i⟩ := by
  have hblk : (txKey t.hash, x) ∉
      [(blkKey b.number.toNat, b.toString), (blkNumberKey, decimal b.number.toNat)] := by
    simp [txKey_ne_blkKey, txKey_ne_blkNumberKey]
  rw [blkWrites, List.mem_append, or_iff_left hblk, List.mem_map]
  constructor
  · rintro ⟨p, hp, hwrite⟩
    obtain ⟨k, hk, hplace, hanswer⟩ := History.mem_blkPlaces_iff.1 hp
    have hhash : p.2.hash = t.hash := History.txKey_injective (congrArg Prod.fst hwrite)
    -- only one transaction has the hash
    obtain rfl : k = i := by
      refine (List.getElem?_inj ?_ hdistinct).1 ?_
      · rw [List.length_map]
        exact (List.getElem?_eq_some_iff.1 hk).1
      · rw [List.getElem?_map, List.getElem?_map, hk, ht, Option.map_some, Option.map_some, hhash]
    refine ⟨hanswer, ?_⟩
    rw [Nat.zero_add] at hplace
    rw [← hplace]
    exact (congrArg Prod.snd hwrite).symm
  · rintro ⟨hanswer, rfl⟩
    refine ⟨(⟨b.number, .ofNat i⟩, t), History.mem_blkPlaces_iff.2 ⟨i, ht, ?_, hanswer⟩, rfl⟩
    rw [Nat.zero_add]

/-- The place of a transaction afterwards. -/
theorem lookup_txKey (db : StringMap) {answers : Stream' Bool} {b : ExecBlk}
    (hdistinct : (b.txs.map Tx.hash).Nodup) {i : ℕ} {t : Tx} (ht : b.txs[i]? = some t) :
    (Writes.apply db (blkWrites answers b)).lookup (txKey t.hash) =
      if answers.get (2 * i) then some (TxOnBlkInfo.toString ⟨b.number, .ofNat i⟩)
      else db.lookup (txKey t.hash) := by
  split_ifs with hanswer
  · refine Writes.lookup_of_unique
      ((txKey_mem_blkWrites hdistinct ht).2 ⟨hanswer, rfl⟩) fun x hx => ?_
    exact ((txKey_mem_blkWrites hdistinct ht).1 hx).2
  · refine Writes.lookup_of_notMem fun x hx => ?_
    exact hanswer ((txKey_mem_blkWrites hdistinct ht).1 hx).1

/-- The number of the block is written last, after the block. -/
theorem blkWrites_eq (answers : Stream' Bool) (b : ExecBlk) :
    blkWrites answers b =
      ((History.blkPlaces b.number 0 answers b.txs).map History.placeWrite ++
        [(blkKey b.number.toNat, b.toString)]) ++ [(blkNumberKey, decimal b.number.toNat)] := by
  rw [blkWrites, List.append_assoc, List.singleton_append]

/-- The block afterwards. -/
theorem lookup_blkKey (db : StringMap) (answers : Stream' Bool) (b : ExecBlk) :
    (Writes.apply db (blkWrites answers b)).lookup (blkKey b.number.toNat) = some b.toString := by
  rw [blkWrites_eq, Writes.apply_append, Writes.lookup_of_notMem, Writes.lookup_concat]
  intro x hx
  exact blkKey_ne_blkNumberKey _ (congrArg Prod.fst (List.mem_singleton.1 hx))

/-- The number of the block afterwards. -/
theorem lookup_blkNumberKey (db : StringMap) (answers : Stream' Bool) (b : ExecBlk) :
    (Writes.apply db (blkWrites answers b)).lookup blkNumberKey =
      some (decimal b.number.toNat) := by
  rw [blkWrites_eq]
  exact Writes.lookup_concat _ _

variable [Pb hiPb.Acn]

/-- **Everything is stored** when `commitBlk` returns `true`, if and only if the storage has made
the write of each place, or the place was there before. -/
theorem stored_iff (E : ITxExecutable) (v : Option (Tx → Bool)) (w : InRamWorldStorage)
    (answers : Stream' Bool) (b : ExecBlk) (hdistinct : (b.txs.map Tx.hash).Nodup)
    (hok : ((⟨answering, E, v⟩ : BlkExecutor _).commitBlk (w, answers) b).2 = true) :
    Stored b w ((⟨answering, E, v⟩ : BlkExecutor _).commitBlk (w, answers) b).1.1 ↔
      ∀ i t, b.txs[i]? = some t → answers.get (2 * i) = true ∨
        w.chainDB.lookup (txKey t.hash) = some (TxOnBlkInfo.toString ⟨b.number, .ofNat i⟩) := by
  rw [History.commitBlk_answering hok]
  change Stored b w ⟨_, Writes.apply w.chainDB (blkWrites answers b)⟩ ↔ _
  have hplace : ∀ i t, b.txs[i]? = some t →
      ((Writes.apply w.chainDB (blkWrites answers b)).lookup (txKey t.hash) =
          some (TxOnBlkInfo.toString ⟨b.number, .ofNat i⟩) ↔
        answers.get (2 * i) = true ∨
          w.chainDB.lookup (txKey t.hash) =
            some (TxOnBlkInfo.toString ⟨b.number, .ofNat i⟩)) := by
    intro i t ht
    rw [lookup_txKey w.chainDB hdistinct ht]
    split_ifs with hanswer
    · simp [hanswer]
    · simp [hanswer]
  constructor
  · intro h i t ht
    exact (hplace i t ht).1 (h.tx i t ht)
  · intro h
    exact ⟨fun i t ht => (hplace i t ht).2 (h i t ht), rfl, lookup_blkKey _ _ _,
      lookup_blkNumberKey _ _ _⟩

/-- A block with one transaction. -/
def oneTxBlk [HashOrder Bytes32] : ExecBlk :=
  (BlkExecutor.inRam BlkExecutor.counter).executeBlk ⟨∅, ∅⟩
    ⟨0, .zero 32, [.create (makeAddress 1) (makeAddress 2) [] 7 0]⟩

omit [Keccak] [Pb hiPb.TxOnBlkInfo] [Pb hiPb.ExecBlk] [Pb hiPb.Acn] in
/-- A storage that makes all writes. -/
theorem stored_iff_one :
    let _ : Keccak := Sponge.keccak
    let _ : HashOrder Bytes32 := .insertion Bytes32
    let _ : Pb hiPb.Acn := Wire.pb hiPb.Acn
    let _ : Pb hiPb.TxOnBlkInfo := Wire.pb hiPb.TxOnBlkInfo
    let _ : Pb hiPb.ExecBlk := Wire.pb hiPb.ExecBlk
    Stored oneTxBlk ⟨∅, ∅⟩
      ((⟨answering, BlkExecutor.counter, none⟩ : BlkExecutor _).commitBlk
        (⟨∅, ∅⟩, .const true) oneTxBlk).1.1 := by
  intro _ _ _ _ _
  exact (stored_iff BlkExecutor.counter none ⟨∅, ∅⟩ (.const true) oneTxBlk
    (List.nodup_singleton _) rfl).2 fun i t _ => .inl rfl

omit [Keccak] [Pb hiPb.TxOnBlkInfo] [Pb hiPb.ExecBlk] [Pb hiPb.Acn] in
/-- A storage that refuses the first write: `commitBlk` returns `true` without the place of the
transaction. -/
theorem not_stored :
    let _ : Keccak := Sponge.keccak
    let _ : HashOrder Bytes32 := .insertion Bytes32
    let _ : Pb hiPb.Acn := Wire.pb hiPb.Acn
    let _ : Pb hiPb.TxOnBlkInfo := Wire.pb hiPb.TxOnBlkInfo
    let _ : Pb hiPb.ExecBlk := Wire.pb hiPb.ExecBlk
    let r := (⟨answering, BlkExecutor.counter, none⟩ : BlkExecutor _).commitBlk
      (⟨∅, ∅⟩, .cons false (.const true)) oneTxBlk
    (oneTxBlk.txs.map Tx.hash).Nodup ∧ r.2 = true ∧ ¬Stored oneTxBlk ⟨∅, ∅⟩ r.1.1 := by
  intro _ _ _ _ _ r
  have hdistinct : (oneTxBlk.txs.map Tx.hash).Nodup := List.nodup_singleton _
  refine ⟨hdistinct, rfl, fun h => ?_⟩
  have hplace := h.tx 0 _ rfl
  have hdb : r.1.1.chainDB = Writes.apply ∅ (blkWrites (.cons false (.const true)) oneTxBlk) :=
    congrArg (fun x => x.1.1.chainDB) (History.commitBlk_answering (b := oneTxBlk) rfl)
  rw [hdb, lookup_txKey ∅ hdistinct (i := 0) rfl] at hplace
  cases hplace

end Commit

end WeakChain
