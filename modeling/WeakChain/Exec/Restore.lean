import WeakChain.Exec.BlkExecutor

/-!
# The chain database and the restart

`commitBlk` writes the place of every transaction at `/tx/<hash>`, the executed block at
`/blk/<number>`, and the number of the latest block at `/other/blk_number`.  A node that starts
again reads the number, takes the hash of that block, and collects the hashes of all transactions
from the keys (`get_required_things_from_ChainDB`).

A block of `k` transactions makes `2 * k + 2` writes, in two databases, and nothing undoes them if
the process stops in between.  `restore_afterWrites` says what a restart finds after any number of
them: the number and the hash of the latest block are old or new together, and the state is new as
far as the journals went.
-/

namespace WeakChain

/-! ### Keys -/

/-- The key of the place of a transaction. -/
def txKey (h : Hash256) : Bytes := ascii "/tx/" ++ hashToString h

/-- The key of a block. -/
def blkKey (n : ℕ) : Bytes := ascii "/blk/" ++ decimal n

/-- The key of the number of the latest block. -/
def blkNumberKey : Bytes := ascii "/other/blk_number"

theorem txKey_ne_blkKey (h : Hash256) (n : ℕ) : txKey h ≠ blkKey n := by
  intro he
  cases (List.cons.inj (List.cons.inj he).2).1

theorem txKey_ne_blkNumberKey (h : Hash256) : txKey h ≠ blkNumberKey := by
  intro he
  cases (List.cons.inj (List.cons.inj he).2).1

theorem blkKey_ne_blkNumberKey (n : ℕ) : blkKey n ≠ blkNumberKey := by
  intro he
  cases (List.cons.inj (List.cons.inj he).2).1

theorem blkKey_injective : Function.Injective blkKey := by
  intro m n h
  exact decimal_injective (List.append_cancel_left h)

/-! ### Reading the chain -/

/-- `Rpc::parse_positive_int`: the number, or the message. -/
def parsePositiveInt (n : Bytes) : Except Bytes ℕ :=
  match lexicalCastInt n with
  | none => .error (ascii "Failed to parse " ++ n ++ ascii " as integer")
  | some m =>
    if m < 0 then .error (ascii "Failed to parse " ++ n ++ ascii " as positive integer")
    else .ok m.toNat

variable [Keccak]

/-- What `Rpc::get_Blk_from_chain` does with a number in decimal. -/
def getBlkOfDecimal [Pb hiPb.ExecBlk] (db : StringMap) (bn : Bytes) : Except Bytes ExecBlk.Parsed :=
  match db.lookup (ascii "/blk/" ++ bn) with
  | none => .error (ascii "Data corruption Error: failed to get  /blk/" ++ bn ++
      ascii " on chainDB")
  | some v =>
    match ExecBlk.fromString v with
    | none => .error (ascii "Data corruption Error: /blk/" ++ bn ++
        ascii " on chainDB doesn't deserialize to Blk")
    | some b => .ok b

/-- `Rpc::get_Blk_from_chain`, for a number that is not negative. -/
def getBlkFromChain [Pb hiPb.ExecBlk] (db : StringMap) (bn : ℕ) : Except Bytes ExecBlk.Parsed :=
  getBlkOfDecimal db (decimal bn)

omit [Keccak] in
/-- `get_hash_from_key`; nothing if it throws. -/
def getHashFromKey (k : Bytes) : Option Hash256 :=
  if k.length ≠ 4 + 32 * 2 then none else fromHex 32 (k.drop 4)

omit [Keccak] in
/-- `getKeysStartWith`. -/
def getKeysStartWith (db : StringMap) (pre : Bytes) : Finset Bytes :=
  db.keys.filter fun k => pre.isPrefixOf k = true

omit [Keccak] in
/-- The hashes in a set of keys; nothing if one of the keys has none. -/
def hashesOfKeys (ks : Finset Bytes) : Option (Finset Hash256) :=
  if ∀ k ∈ ks, (getHashFromKey k).isSome = true then
    some (ks.image fun k => (getHashFromKey k).getD default)
  else none

/-- `get_required_things_from_ChainDB`: the number and the hash of the latest block, and the hashes
of all transactions; nothing if it throws. -/
def getRequiredThings [Pb hiPb.ExecBlk] (db : StringMap) (ns : Bytes) :
    Option (ℕ × Hash256 × Finset Hash256) := do
  let n ← (parsePositiveInt ns).toOption
  let b ← (getBlkFromChain db n).toOption
  let hs ← hashesOfKeys (getKeysStartWith db (ascii "/tx/"))
  return (n, b.hash, hs)

/-- What a node starts from. -/
structure Restored where
  /-- The state database. -/
  stateDB : StateDB
  /-- The number and the hash of the latest block, if there is one. -/
  latest : Option (ℕ × Hash256)
  /-- The hashes of the transactions that are known. -/
  txhs : Finset Hash256

/-- The restart, as `init` does it; nothing if it throws. -/
def restore [Pb hiPb.ExecBlk] (w : InRamWorldStorage) : Option Restored :=
  match w.chainDB.lookup blkNumberKey with
  -- a chain without a number counts as empty, whatever else is in it
  | none => some ⟨w.stateDB, none, ∅⟩
  | some ns => (getRequiredThings w.chainDB ns).map fun r => ⟨w.stateDB, some (r.1, r.2.1), r.2.2⟩

/-! ### Stopping in between -/

omit [Keccak] in
/-- A storage that does as many more writes as the counter says, and then none: the process has
stopped, or the disk is full. -/
def limited [Pb hiPb.Acn] : IWorldStorage (InRamWorldStorage × ℕ) where
  getAcn w := StateDB.getAcn w.1.stateDB
  setInChainDB w k v :=
    match w with
    | (w, 0) => ((w, 0), false)
    | (w, r + 1) => (((w.setInChainDB k v).1, r), true)
  applyJournalStateDB w j :=
    match w with
    | (w, 0) => ((w, 0), false)
    | (w, r + 1) => (((w.applyJournalStateDB j).1, r), true)

variable [Pb hiPb.TxOnBlkInfo]

/-- The chain database with the places of some transactions, from position `i` on. -/
def chainTxs (number : UInt64) : ℕ → StringMap → List Tx → StringMap
  | _, db, [] => db
  | i, db, t :: ts =>
    chainTxs number (i + 1)
      (db.insert (txKey t.hash) (TxOnBlkInfo.toString ⟨number, .ofNat i⟩)) ts

theorem lookup_chainTxs (number : UInt64) (i : ℕ) (db : StringMap) (txs : List Tx) {k : Bytes}
    (hk : ∀ h, txKey h ≠ k) : (chainTxs number i db txs).lookup k = db.lookup k := by
  induction txs generalizing i db with
  | nil => rfl
  | cons t txs ih =>
    rw [chainTxs, ih]
    exact Finmap.lookup_insert_of_ne _ (hk t.hash).symm

theorem mem_chainTxs (number : UInt64) (i : ℕ) (db : StringMap) (txs : List Tx) (k : Bytes) :
    k ∈ chainTxs number i db txs ↔ k ∈ db ∨ ∃ t ∈ txs, k = txKey t.hash := by
  induction txs generalizing i db with
  | nil => simp [chainTxs]
  | cons t txs ih =>
    rw [chainTxs, ih, Finmap.mem_insert]
    simp only [List.mem_cons, exists_eq_or_imp]
    tauto

section Limited

variable [Pb hiPb.Acn] {E : ITxExecutable} {v : Option (Tx → Bool)}

/-- What the loop of `commitBlk` has written when it stops after `r` writes. -/
theorem commitTxs_limited (number : UInt64) (i r : ℕ) (w : InRamWorldStorage)
    (tjs : List (Tx × Journal)) :
    (⟨limited, E, v⟩ : BlkExecutor _).commitTxs number i (w, r) tjs =
      ((⟨((tjs.map Prod.snd).take (r / 2)).foldl StateDB.applyJournal w.stateDB,
        chainTxs number i w.chainDB ((tjs.map Prod.fst).take ((r + 1) / 2))⟩, r - 2 * tjs.length),
        decide (2 * tjs.length ≤ r)) := by
  induction tjs generalizing i r w with
  | nil => simp [BlkExecutor.commitTxs, chainTxs]
  | cons tj tjs ih =>
    obtain ⟨t, j⟩ := tj
    rcases r with _ | _ | r
    · simp [BlkExecutor.commitTxs, limited, chainTxs]
    · have hrest : 1 - 2 * (tjs.length + 1) = 0 := by omega
      have hstop : ¬2 * (tjs.length + 1) ≤ 1 := by omega
      simp [BlkExecutor.commitTxs, limited, InRamWorldStorage.setInChainDB, chainTxs, txKey, hrest,
        hstop]
    · -- both writes of the first transaction are done
      have hhalf : (r + 2) / 2 = r / 2 + 1 := by omega
      have hhalf' : (r + 2 + 1) / 2 = (r + 1) / 2 + 1 := by omega
      have hrest : r + 2 - 2 * (tjs.length + 1) = r - 2 * tjs.length := by omega
      have hdone : 2 * (tjs.length + 1) ≤ r + 2 ↔ 2 * tjs.length ≤ r := by omega
      refine (ih (i + 1) r _).trans ?_
      simp only [List.map_cons, List.length_cons, hhalf, hhalf', hrest, hdone, List.take_succ_cons,
        List.foldl_cons, chainTxs]
      rfl

/-- The loop of `commitBlk`, if it is not stopped. -/
theorem commitTxs_inRam (number : UInt64) (i : ℕ) (w : InRamWorldStorage)
    (tjs : List (Tx × Journal)) :
    (⟨InRamWorldStorage.storage, E, v⟩ : BlkExecutor _).commitTxs number i w tjs =
      (⟨(tjs.map Prod.snd).foldl StateDB.applyJournal w.stateDB,
        chainTxs number i w.chainDB (tjs.map Prod.fst)⟩, true) := by
  induction tjs generalizing i w with
  | nil => rfl
  | cons tj tjs ih =>
    obtain ⟨t, j⟩ := tj
    exact ih (i + 1) _

variable [Pb hiPb.ExecBlk]

/-- The storage after the first `m` writes of `commitBlk`. -/
def afterWrites (E : ITxExecutable) (v : Option (Tx → Bool)) (m : ℕ) (w : InRamWorldStorage)
    (b : ExecBlk) : InRamWorldStorage :=
  ((⟨limited, E, v⟩ : BlkExecutor _).commitBlk (w, m) b).1.1

/-- The storage after `commitBlk`. -/
def afterCommit (E : ITxExecutable) (v : Option (Tx → Bool)) (w : InRamWorldStorage)
    (b : ExecBlk) : InRamWorldStorage :=
  ((⟨InRamWorldStorage.storage, E, v⟩ : BlkExecutor _).commitBlk w b).1

/-- What `commitBlk` writes. -/
theorem afterCommit_eq (w : InRamWorldStorage) (b : ExecBlk) :
    afterCommit E v w b = ⟨b.stateChanges.foldl StateDB.applyJournal w.stateDB,
      ((chainTxs b.number 0 w.chainDB b.txs).insert (blkKey b.number.toNat) b.toString).insert
        blkNumberKey (decimal b.number.toNat)⟩ := by
  rw [afterCommit, BlkExecutor.commitBlk, commitTxs_inRam, b.map_fst_zip_stateChanges,
    b.map_snd_zip_stateChanges]
  rfl

/-- What the first `m` writes of `commitBlk` are, and that it fails if they are not all. -/
theorem commitBlk_limited (m : ℕ) (w : InRamWorldStorage) (b : ExecBlk) :
    ∃ r, (⟨limited, E, v⟩ : BlkExecutor _).commitBlk (w, m) b =
      ((if 2 * b.txs.length + 2 ≤ m then afterCommit E v w b
        else
          ⟨(b.stateChanges.take (m / 2)).foldl StateDB.applyJournal w.stateDB,
            let db := chainTxs b.number 0 w.chainDB (b.txs.take ((m + 1) / 2))
            if 2 * b.txs.length < m then db.insert (blkKey b.number.toNat) b.toString else db⟩,
        r), decide (2 * b.txs.length + 2 ≤ m)) := by
  rw [BlkExecutor.commitBlk, commitTxs_limited, b.map_fst_zip_stateChanges,
    b.map_snd_zip_stateChanges, b.length_zip_stateChanges, afterCommit_eq]
  rcases Nat.lt_trichotomy m (2 * b.txs.length) with hm | hm | hm
  · refine ⟨m - 2 * b.txs.length, ?_⟩
    simp only [show ¬2 * b.txs.length ≤ m by omega, decide_false,
      show ¬2 * b.txs.length + 2 ≤ m by omega, if_false, show ¬2 * b.txs.length < m by omega]
  · refine ⟨0, ?_⟩
    simp [hm, limited]
  · have htxs : b.txs.take ((m + 1) / 2) = b.txs := List.take_of_length_le (by omega)
    have hchanges : b.stateChanges.take (m / 2) = b.stateChanges :=
      List.take_of_length_le (by have := b.length_stateChanges; omega)
    obtain ⟨r, hr⟩ : ∃ r, m - 2 * b.txs.length = r + 1 := ⟨m - 2 * b.txs.length - 1, by omega⟩
    rw [htxs, hchanges, hr]
    simp only [hm.le, decide_true, hm, if_true, limited, InRamWorldStorage.setInChainDB]
    rcases r with _ | r
    · refine ⟨0, ?_⟩
      simp [show ¬2 * b.txs.length + 2 ≤ m by omega, blkKey]
    · refine ⟨r, ?_⟩
      simp [show 2 * b.txs.length + 2 ≤ m by omega, blkKey, blkNumberKey]

end Limited

/-! ### What a restart finds -/

section Restore

omit [Keccak] [Pb hiPb.TxOnBlkInfo]

theorem getHashFromKey_txKey (h : Hash256) : getHashFromKey (txKey h) = some h := by
  have hlen : (txKey h).length = 4 + 32 * 2 := by
    rw [txKey, List.length_append, hashToString, length_hex, h.size]
    rfl
  rw [getHashFromKey, if_neg (not_not.2 hlen)]
  exact fromHex_hex h

/-- The hashes in the keys of transactions are read back. -/
theorem hashesOfKeys_union (ks : Finset Bytes) (hs : Finset Hash256) :
    hashesOfKeys (ks ∪ hs.image txKey) = (hashesOfKeys ks).map (· ∪ hs) := by
  have himage : (hs.image txKey).image (fun k => (getHashFromKey k).getD default) = hs := by
    rw [Finset.image_image]
    simp [Function.comp_def, getHashFromKey_txKey]
  have hall : (∀ k ∈ ks ∪ hs.image txKey, (getHashFromKey k).isSome = true) ↔
      ∀ k ∈ ks, (getHashFromKey k).isSome = true := by
    constructor
    · intro h k hk
      exact h k (Finset.mem_union_left _ hk)
    · intro h k hk
      rcases Finset.mem_union.1 hk with hk | hk
      · exact h k hk
      · obtain ⟨g, -, rfl⟩ := Finset.mem_image.1 hk
        rw [getHashFromKey_txKey]
        rfl
  unfold hashesOfKeys
  by_cases hks : ∀ k ∈ ks, (getHashFromKey k).isSome = true
  · rw [if_pos hks, if_pos (hall.2 hks), Finset.image_union, himage]
    rfl
  · rw [if_neg hks, if_neg (hall.not.2 hks)]
    rfl

theorem getKeysStartWith_insert {db : StringMap} {pre k v : Bytes}
    (h : pre.isPrefixOf k = false) : getKeysStartWith (db.insert k v) pre =
      getKeysStartWith db pre := by
  ext x
  simp only [getKeysStartWith, Finset.mem_filter, Finmap.mem_keys, Finmap.mem_insert]
  constructor
  · rintro ⟨rfl | hx, hpre⟩
    · rw [h] at hpre
      cases hpre
    · exact ⟨hx, hpre⟩
  · rintro ⟨hx, hpre⟩
    exact ⟨.inr hx, hpre⟩

end Restore

theorem getKeysStartWith_chainTxs (number : UInt64) (i : ℕ) (db : StringMap) (txs : List Tx) :
    getKeysStartWith (chainTxs number i db txs) (ascii "/tx/") =
      getKeysStartWith db (ascii "/tx/") ∪ (txs.map Tx.hash).toFinset.image txKey := by
  have hpre : ∀ h, (ascii "/tx/").isPrefixOf (txKey h) = true := by
    intro h
    exact List.isPrefixOf_iff_prefix.2 (List.prefix_append _ _)
  ext k
  simp only [getKeysStartWith, Finset.mem_filter, Finmap.mem_keys, mem_chainTxs, Finset.mem_union,
    Finset.mem_image, List.mem_toFinset, List.mem_map]
  constructor
  · rintro ⟨hk | ⟨t, ht, rfl⟩, hk'⟩
    · exact .inl ⟨hk, hk'⟩
    · exact .inr ⟨t.hash, ⟨t, ht, rfl⟩, rfl⟩
  · rintro (⟨hk, hk'⟩ | ⟨h, ⟨t, ht, rfl⟩, rfl⟩)
    · exact ⟨.inl hk, hk'⟩
    · exact ⟨.inr ⟨t, ht, rfl⟩, hpre _⟩

variable [Pb hiPb.ExecBlk]

omit [Pb hiPb.TxOnBlkInfo] in
/-- A restart from a chain database that has the same latest block and more transactions. -/
theorem restore_of_extends {st st' : StateDB} {db db' : StringMap} {hs : Finset Hash256}
    (hnumber : db'.lookup blkNumberKey = db.lookup blkNumberKey)
    (hblk : ∀ ns n, db.lookup blkNumberKey = some ns → parsePositiveInt ns = .ok n →
      getBlkFromChain db' n = getBlkFromChain db n)
    (hkeys : getKeysStartWith db' (ascii "/tx/") =
      getKeysStartWith db (ascii "/tx/") ∪ hs.image txKey) :
    restore ⟨st', db'⟩ = (restore ⟨st, db⟩).map fun R =>
      ⟨st', R.latest, if R.latest.isSome then R.txhs ∪ hs else ∅⟩ := by
  unfold restore
  dsimp only
  rw [hnumber]
  cases hns : db.lookup blkNumberKey with
  | none => rfl
  | some ns =>
    dsimp only
    rw [getRequiredThings, getRequiredThings, hkeys, hashesOfKeys_union]
    cases hn : parsePositiveInt ns with
    | error msg => rfl
    | ok n =>
      simp only [Except.toOption, bind, Option.bind_some, hblk ns n hns hn]
      cases getBlkFromChain db n with
      | error msg => rfl
      | ok b => cases hashesOfKeys (getKeysStartWith db (ascii "/tx/")) <;> rfl

omit [Pb hiPb.TxOnBlkInfo] in
/-- Other keys do not change a block. -/
theorem getBlkFromChain_congr {db db' : StringMap} {n : ℕ}
    (h : db'.lookup (blkKey n) = db.lookup (blkKey n)) :
    getBlkFromChain db' n = getBlkFromChain db n := by
  rw [blkKey] at h
  rw [getBlkFromChain, getBlkFromChain, getBlkOfDecimal, getBlkOfDecimal, h]

omit [Keccak] [Pb hiPb.TxOnBlkInfo] [Pb hiPb.ExecBlk] in
/-- A number that was parsed is parsed again from its decimal form. -/
theorem parsePositiveInt_decimal {ns : Bytes} {n : ℕ} (h : parsePositiveInt ns = .ok n) :
    parsePositiveInt (decimal n) = .ok n := by
  rw [parsePositiveInt] at h
  cases hm : lexicalCastInt ns with
  | none =>
    rw [hm] at h
    cases h
  | some m =>
    have hle := le_of_lexicalCastInt hm
    simp only [hm] at h
    split_ifs at h with hneg
    obtain rfl := Except.ok.inj h
    obtain ⟨k, rfl⟩ := Int.eq_ofNat_of_zero_le (not_lt.1 hneg)
    rw [parsePositiveInt, lexicalCastInt_decimal (by omega)]
    simp

omit [Pb hiPb.TxOnBlkInfo] in
/-- Writing the number of the latest block once more makes no difference. -/
theorem restore_insert_blkNumberKey {st : StateDB} {db : StringMap} {ns : Bytes} {n : ℕ}
    (hns : db.lookup blkNumberKey = some ns) (hn : parsePositiveInt ns = .ok n) :
    restore ⟨st, db.insert blkNumberKey (decimal n)⟩ = restore ⟨st, db⟩ := by
  have hblk : getBlkFromChain (db.insert blkNumberKey (decimal n)) n = getBlkFromChain db n :=
    getBlkFromChain_congr (Finmap.lookup_insert_of_ne _ (blkKey_ne_blkNumberKey n))
  have hkeys : getKeysStartWith (db.insert blkNumberKey (decimal n)) (ascii "/tx/") =
      getKeysStartWith db (ascii "/tx/") := getKeysStartWith_insert rfl
  simp only [restore, Finmap.lookup_insert, hns, getRequiredThings, hn, parsePositiveInt_decimal hn,
    Except.toOption, bind, Option.bind_some, hblk, hkeys]

variable [Pb hiPb.Acn]

/-- **What a restart finds after the first `m` writes of `commitBlk`**, for a block of `k`
transactions.  All writes together are `2 * k + 2`; with fewer `commitBlk` fails.  Then the restart
finds everything as it is after the block, or it finds the number and the hash of the latest block
as they were before, the state with the first `m / 2` journals applied, and the hashes of the first
`(m + 1) / 2` transactions added to those known before. -/
theorem restore_afterWrites (E : ITxExecutable) (v : Option (Tx → Bool)) (m : ℕ)
    (w : InRamWorldStorage) (b : ExecBlk) :
    ((⟨limited, E, v⟩ : BlkExecutor _).commitBlk (w, m) b).2 =
        decide (2 * b.txs.length + 2 ≤ m) ∧
      (2 * b.txs.length + 2 ≤ m → afterWrites E v m w b = afterCommit E v w b) ∧
      (restore (afterWrites E v m w b) = restore (afterCommit E v w b) ∨
        restore (afterWrites E v m w b) = (restore w).map fun R =>
          { stateDB := (b.stateChanges.take (m / 2)).foldl StateDB.applyJournal w.stateDB
            latest := R.latest
            txhs :=
              if R.latest.isSome then R.txhs ∪ ((b.txs.take ((m + 1) / 2)).map Tx.hash).toFinset
              else ∅ }) := by
  obtain ⟨r, hr⟩ := commitBlk_limited (E := E) (v := v) m w b
  have hcut : afterWrites E v m w b = _ := congrArg (fun x => x.1.1) hr
  refine ⟨congrArg Prod.snd hr, ?_, ?_⟩
  · intro hm
    rw [hcut]
    exact if_pos hm
  by_cases hm : 2 * b.txs.length + 2 ≤ m
  · left
    rw [hcut]
    exact congrArg restore (if_pos hm)
  rw [hcut]
  dsimp only
  rw [if_neg hm]
  have hnumber : (chainTxs b.number 0 w.chainDB (b.txs.take ((m + 1) / 2))).lookup blkNumberKey =
      w.chainDB.lookup blkNumberKey := lookup_chainTxs _ _ _ _ txKey_ne_blkNumberKey
  have hblk : ∀ n, (chainTxs b.number 0 w.chainDB (b.txs.take ((m + 1) / 2))).lookup (blkKey n) =
      w.chainDB.lookup (blkKey n) := fun n => lookup_chainTxs _ _ _ _ fun h => txKey_ne_blkKey h n
  have hkeys := getKeysStartWith_chainTxs b.number 0 w.chainDB (b.txs.take ((m + 1) / 2))
  by_cases hlast : 2 * b.txs.length < m
  · -- only the number of the latest block is missing
    rw [if_pos hlast]
    by_cases hsame : ∃ ns, w.chainDB.lookup blkNumberKey = some ns ∧
        parsePositiveInt ns = .ok b.number.toNat
    · left
      obtain ⟨ns, hns, hparse⟩ := hsame
      have htxs : b.txs.take ((m + 1) / 2) = b.txs := List.take_of_length_le (by omega)
      have hchanges : b.stateChanges.take (m / 2) = b.stateChanges :=
        List.take_of_length_le (by have := b.length_stateChanges; omega)
      rw [afterCommit_eq, hchanges]
      rw [htxs] at hnumber ⊢
      refine (restore_insert_blkNumberKey ?_ hparse).symm
      rw [Finmap.lookup_insert_of_ne _ (blkKey_ne_blkNumberKey _).symm, hnumber, hns]
    · right
      refine restore_of_extends ?_ ?_ ?_
      · rw [Finmap.lookup_insert_of_ne _ (blkKey_ne_blkNumberKey _).symm, hnumber]
      · intro ns n hns hparse
        apply getBlkFromChain_congr
        have hne : n ≠ b.number.toNat := by
          rintro rfl
          exact hsame ⟨ns, hns, hparse⟩
        rw [Finmap.lookup_insert_of_ne _ fun h => hne (blkKey_injective h), hblk]
      · rw [getKeysStartWith_insert rfl, hkeys]
  · right
    rw [if_neg hlast]
    exact restore_of_extends hnumber (fun _ n _ _ => getBlkFromChain_congr (hblk n)) hkeys

omit [Keccak] [Pb hiPb.TxOnBlkInfo] [Pb hiPb.ExecBlk] [Pb hiPb.Acn] in
/-- The first block, with one transaction, stopped after two of its four writes: the journal of the
transaction has been applied, but the restart finds a chain without a block.  This is neither what
it found before nor what it finds after the block. -/
theorem restore_afterWrites_between :
    let _ : Keccak := Sponge.keccak
    let _ : HashOrder Bytes32 := .insertion Bytes32
    let _ : Pb hiPb.Acn := Wire.pb hiPb.Acn
    let _ : Pb hiPb.TxOnBlkInfo := Wire.pb hiPb.TxOnBlkInfo
    let _ : Pb hiPb.ExecBlk := Wire.pb hiPb.ExecBlk
    let w : InRamWorldStorage := ⟨∅, ∅⟩
    let tx := Tx.create (makeAddress 1) (makeAddress 2) [] 0 0
    let b := (BlkExecutor.inRam BlkExecutor.counter).executeBlk w ⟨0, .zero 32, [tx]⟩
    let stopped := restore (afterWrites BlkExecutor.counter none 2 w b)
    stopped ≠ restore w ∧ stopped ≠ restore (afterCommit BlkExecutor.counter none w b) := by
  intro _ _ _ _ _ w tx b stopped
  constructor
  · intro h
    have hlookup := congrArg
      (Option.map fun R => R.stateDB.lookup (addressToString (makeAddress 2))) h
    revert hlookup
    decide +kernel
  · intro h
    have hlatest := congrArg (Option.map Restored.latest) h
    revert hlatest
    decide +kernel

end WeakChain
