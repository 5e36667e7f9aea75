import WeakChain.Core.Acn
import WeakChain.Core.Blk
import Mathlib.Data.Finmap

/-!
# The world storage

The state database maps the address of an account, in hexadecimal, to the serialized account; the
chain database has the blocks and the transactions.  `IWorldStorage` is what the block executor asks
of a storage, and `InRamWorldStorage` the storage that keeps both databases in a `map`.

A journal changes the accounts that it names and no others (`StateDB.getAcn_applyJournal`).

`WorldStorage` keeps both databases on the disk.  RocksDB is not part of the repository; where it is
the map that it is documented to be (`RocksDb.Lawful`), `WorldStorage` does what `InRamWorldStorage`
does.
-/

namespace WeakChain

/-- A `map<string, string>`. -/
abbrev StringMap := Finmap fun _ : Bytes => Bytes

/-- The state database. -/
abbrev StateDB := StringMap

/-- `IWorldChainStateSettable` and `IAcnGettable` of a storage with states `W`.  The truth values
say whether the write succeeded. -/
structure IWorldStorage (W : Type*) where
  /-- `getAcn`. -/
  getAcn : W → IAcnGettable
  /-- `setInChainDB`. -/
  setInChainDB : W → Bytes → Bytes → W × Bool
  /-- `applyJournalStateDB`. -/
  applyJournalStateDB : W → Journal → W × Bool

/-- The writes always succeed. -/
structure IWorldStorage.WritesSucceed {W : Type*} (S : IWorldStorage W) : Prop where
  setInChainDB : ∀ w k v, (S.setInChainDB w k v).2 = true
  applyJournalStateDB : ∀ w j, (S.applyJournalStateDB w j).2 = true

namespace StateDB

/-- Read an account. -/
def getAcn [Pb hiPb.Acn] (db : StateDB) : IAcnGettable := fun addr => do
  let v ← db.lookup (addressToString addr)
  Acn.fromString v

/-- Apply one change. -/
def applyChange (db : StateDB) (c : StateChange) : StateDB :=
  if c.del then db.erase c.k else db.insert c.k c.v

/-- Apply a journal, in order. -/
def applyJournal (db : StateDB) (j : Journal) : StateDB := j.foldl applyChange db

theorem lookup_applyJournal {db : StateDB} {j : Journal} {k : Bytes} (h : ∀ c ∈ j, c.k ≠ k) :
    (applyJournal db j).lookup k = db.lookup k := by
  induction j generalizing db with
  | nil => rfl
  | cons c j ih =>
    have hc : (applyChange db c).lookup k = db.lookup k := by
      have hne := (h c List.mem_cons_self).symm
      unfold applyChange
      split_ifs
      · exact Finmap.lookup_erase_ne hne
      · exact Finmap.lookup_insert_of_ne _ hne
    exact (ih fun c' hc' => h c' (List.mem_cons_of_mem _ hc')).trans hc

/-- A journal that has one value for a key, as often as it likes. -/
theorem lookup_applyJournal_of_mem {db : StateDB} {j : Journal} {k v : Bytes}
    (h : ∀ c ∈ j, c.k = k → c = ⟨false, k, v⟩) (hmem : ⟨false, k, v⟩ ∈ j) :
    (applyJournal db j).lookup k = some v := by
  induction j using List.reverseRecOn with
  | nil => cases hmem
  | append_singleton j c ih =>
    rw [applyJournal, List.foldl_append, List.foldl_cons, List.foldl_nil, ← applyJournal]
    by_cases hk : c.k = k
    · obtain rfl := h c (by simp) hk
      exact Finmap.lookup_insert _
    · have hmem : ⟨false, k, v⟩ ∈ j := by
        rcases List.mem_append.1 hmem with hj | hc
        · exact hj
        · exact absurd (congrArg StateChange.k (List.mem_singleton.1 hc)).symm hk
      have hrest := ih (fun c' hc' => h c' (List.mem_append_left _ hc')) hmem
      unfold applyChange
      split_ifs
      · rw [Finmap.lookup_erase_ne (Ne.symm hk), hrest]
      · rw [Finmap.lookup_insert_of_ne _ (Ne.symm hk), hrest]

/-- A journal that deletes a key, and does nothing else to it. -/
theorem lookup_applyJournal_of_del {db : StateDB} {j : Journal} {k : Bytes}
    (h : ∀ c ∈ j, c.k = k → c.del = true) (hmem : ∃ c ∈ j, c.k = k) :
    (applyJournal db j).lookup k = none := by
  induction j using List.reverseRecOn with
  | nil => simp at hmem
  | append_singleton j c ih =>
    rw [applyJournal, List.foldl_append, List.foldl_cons, List.foldl_nil, ← applyJournal]
    by_cases hk : c.k = k
    · rw [applyChange, if_pos (h c (by simp) hk), hk, Finmap.lookup_erase]
    · have hmem : ∃ c ∈ j, c.k = k := by simpa [hk] using hmem
      have hrest := ih (fun c' hc' => h c' (List.mem_append_left _ hc')) hmem
      unfold applyChange
      split_ifs
      · rw [Finmap.lookup_erase_ne (Ne.symm hk), hrest]
      · rw [Finmap.lookup_insert_of_ne _ (Ne.symm hk), hrest]

/-- A journal leaves the accounts alone that it does not name. -/
theorem getAcn_applyJournal [Pb hiPb.Acn] {db : StateDB} {j : Journal} {a : Address}
    (h : ∀ c ∈ j, c.k ≠ addressToString a) : getAcn (applyJournal db j) a = getAcn db a := by
  unfold getAcn
  rw [lookup_applyJournal h]

/-- An account that a journal writes, and to which it does nothing else, is in the database
afterwards. -/
theorem getAcn_applyJournal_of_mem [HashOrder Bytes32] [Pb hiPb.Acn]
    (hpb : Pb.ReadsBack hiPb.Acn) {db : StateDB} {j : Journal} {a : Address} {acn : Acn}
    (h : ∀ c ∈ j, c.k = addressToString a → c = ⟨false, addressToString a, acn.toString⟩)
    (hmem : ⟨false, addressToString a, acn.toString⟩ ∈ j) :
    ∃ acn', getAcn (applyJournal db j) a = some acn' ∧ acn'.Same acn := by
  rw [getAcn, lookup_applyJournal_of_mem h hmem]
  exact Acn.fromString_toString hpb acn

/-- Every account of the one database is an account of the other, and the same. -/
def Keeps [Pb hiPb.Acn] (db db' : StateDB) : Prop :=
  ∀ a acn, getAcn db a = some acn → ∃ acn', getAcn db' a = some acn' ∧ acn'.Same acn

theorem Keeps.refl [Pb hiPb.Acn] (db : StateDB) : db.Keeps db :=
  fun _ acn h => ⟨acn, h, .refl acn⟩

theorem Keeps.trans [Pb hiPb.Acn] {db db' db'' : StateDB} (h : db.Keeps db')
    (h' : db'.Keeps db'') : db.Keeps db'' := by
  intro a acn ha
  obtain ⟨acn', ha', hsame⟩ := h a acn ha
  obtain ⟨acn'', ha'', hsame'⟩ := h' a acn' ha'
  exact ⟨acn'', ha'', hsame'.trans hsame⟩

end StateDB

/-- `InRamWorldStorage`. -/
structure InRamWorldStorage where
  /-- The state database. -/
  stateDB : StateDB
  /-- The chain database. -/
  chainDB : StringMap

namespace InRamWorldStorage

/-- `setInChainDB`. -/
def setInChainDB (w : InRamWorldStorage) (k v : Bytes) : InRamWorldStorage × Bool :=
  ({ w with chainDB := w.chainDB.insert k v }, true)

/-- `applyJournalStateDB`. -/
def applyJournalStateDB (w : InRamWorldStorage) (j : Journal) : InRamWorldStorage × Bool :=
  ({ w with stateDB := StateDB.applyJournal w.stateDB j }, true)

/-- `InRamWorldStorage`, as a storage. -/
def storage [Pb hiPb.Acn] : IWorldStorage InRamWorldStorage where
  getAcn w := StateDB.getAcn w.stateDB
  setInChainDB := setInChainDB
  applyJournalStateDB := applyJournalStateDB

theorem writesSucceed [Pb hiPb.Acn] : storage.WritesSucceed := ⟨fun _ _ _ => rfl, fun _ _ => rfl⟩

end InRamWorldStorage

/-! ### On the disk -/

/-- `rocksdb::Status`, as far as it is looked at. -/
inductive RocksStatus
  | ok
  | notFound
  | error
  deriving DecidableEq

/-- An entry of a `rocksdb::WriteBatch`. -/
inductive BatchOp
  | put (k v : Bytes)
  | delete (k : Bytes)

/-- `rocksdb::DB`, with states `D`. -/
structure RocksDb (D : Type*) where
  /-- `Get`: the status, and the value. -/
  get : D → Bytes → RocksStatus × Bytes
  /-- `Write`. -/
  write : D → List BatchOp → D × RocksStatus

namespace RocksDb

variable {D : Type*} (R : RocksDb D)

/-- One entry of a batch, applied to a map. -/
def applyOp (m : StringMap) : BatchOp → StringMap
  | .put k v => m.insert k v
  | .delete k => m.erase k

/-- The database is a map, a batch is applied in order, and the disk does not fail. -/
structure Lawful (contents : D → StringMap) : Prop where
  get_some : ∀ db k v, (contents db).lookup k = some v → R.get db k = (.ok, v)
  get_none : ∀ db k, (contents db).lookup k = none → (R.get db k).1 = .notFound
  write_ok : ∀ db ops, (R.write db ops).2 = .ok
  write : ∀ db ops, contents (R.write db ops).1 = ops.foldl applyOp (contents db)

/-- `tryGetKvString`. -/
def tryGetKvString (db : D) (k : Bytes) : Option Bytes :=
  match R.get db k with
  | (.ok, v) => some v
  | (.notFound, _) => none
  | (.error, _) => none

variable {R} {contents : D → StringMap}

theorem Lawful.tryGetKvString_eq (hR : R.Lawful contents) (db : D) (k : Bytes) :
    R.tryGetKvString db k = (contents db).lookup k := by
  unfold tryGetKvString
  cases hk : (contents db).lookup k with
  | some v => rw [hR.get_some db k v hk]
  | none =>
    have hstatus := hR.get_none db k hk
    split
    · next heq =>
      rw [heq] at hstatus
      cases hstatus
    · rfl
    · rfl

end RocksDb

/-- `WorldStorage`. -/
structure WorldStorage (D : Type*) where
  /-- The state database. -/
  stateDB : D
  /-- The chain database. -/
  chainDB : D

namespace WorldStorage

variable {D : Type*} (R : RocksDb D) (w : WorldStorage D)

/-- `getAcn`. -/
def getAcn [Pb hiPb.Acn] : IAcnGettable := fun addr => do
  let v ← R.tryGetKvString w.stateDB (addressToString addr)
  Acn.fromString v

/-- The entry of the batch for a change. -/
def batchOp (c : StateChange) : BatchOp := if c.del then .delete c.k else .put c.k c.v

/-- `applyJournalStateDB`; nothing if `checkStatus` throws. -/
def applyJournalStateDB (j : Journal) : Option (WorldStorage D × Bool) :=
  match R.write w.stateDB (j.map batchOp) with
  | (db, .ok) => some ({ w with stateDB := db }, true)
  | (_, .notFound) => none
  | (_, .error) => none

variable {R} {contents : D → StringMap}

theorem getAcn_eq [Pb hiPb.Acn] (hR : R.Lawful contents) :
    w.getAcn R = StateDB.getAcn (contents w.stateDB) := by
  funext addr
  rw [getAcn, hR.tryGetKvString_eq]
  rfl

theorem applyOp_batchOp (m : StringMap) (c : StateChange) :
    RocksDb.applyOp m (batchOp c) = StateDB.applyChange m c := by
  rw [batchOp, StateDB.applyChange]
  split_ifs <;> rfl

/-- A journal does to the database on the disk what it does to one in memory. -/
theorem exists_applyJournalStateDB (hR : R.Lawful contents) (j : Journal) :
    ∃ w', w.applyJournalStateDB R j = some (w', true) ∧
      contents w'.stateDB = StateDB.applyJournal (contents w.stateDB) j := by
  refine ⟨⟨(R.write w.stateDB (j.map batchOp)).1, w.chainDB⟩, ?_, ?_⟩
  · have hok := hR.write_ok w.stateDB (j.map batchOp)
    unfold applyJournalStateDB
    split
    · next heq => rw [heq]
    · next heq =>
      rw [heq] at hok
      cases hok
    · next heq =>
      rw [heq] at hok
      cases hok
  · rw [hR.write, List.foldl_map]
    simp only [applyOp_batchOp]
    rfl

end WorldStorage

end WeakChain
