import WeakChain.Core.Tx

/-!
# Blocks

A block (`Blk`) with its codec, and a block whose transactions have been executed (`ExecBlk`).
`ExecBlk` carries the checks of its constructor as fields: there is a journal and a receipt for
every transaction.

`Blk.fromString_toString` is the round trip the replicas rely on, and `ExecBlk.fromString_toString`
the one a restart relies on.
-/

namespace WeakChain

/-- A block. -/
structure Blk where
  /-- Its number. -/
  number : UInt64
  /-- The hash of the block before. -/
  parentHash : Hash256
  /-- Its transactions. -/
  txs : List Tx
  deriving DecidableEq

/-- `ethash::hash256` in the messages of `fromByteString`, as `typeid` names it. -/
def hash256Name : Bytes := ascii "14ethash_hash256"

/-- The hash of a chain of hashes: one `keccak256` for each, over it and the hash so far. -/
def serialHash [Keccak] (parentHash : Hash256) (hs : List Hash256) : Hash256 :=
  hs.foldl (fun h h1 => keccak256 (h1.bytes ++ h.bytes)) parentHash

namespace Blk

variable [Keccak]

/-- `Blk::hash`. -/
def hash (b : Blk) : Hash256 := serialHash b.parentHash (b.txs.map Tx.hash)

omit [Keccak] in
/-- `Blk::toPb`. -/
def toPb (b : Blk) : hiPb.Blk where
  header := ⟨b.number, toByteString b.parentHash⟩
  txs := b.txs.map Tx.toPb

/-- `Blk::fromPb`, into a fresh `Blk`. -/
def fromPb (pb : hiPb.Blk) : Except Bytes Blk := do
  let parentHash ← fromByteString hash256Name 32 pb.header.parentHash
  let txs ← pb.txs.mapM Tx.fromPb
  return ⟨pb.header.number, parentHash, txs⟩

/-- `Blk::toString`. -/
def toString [Pb hiPb.Blk] (b : Blk) : Bytes := serializeAsString b.toPb

/-- `Blk::fromString`, into a fresh `Blk`; nothing if it returns `false`. -/
def fromString [Pb hiPb.Blk] (s : Bytes) : Option Blk :=
  let r := parseFromString (M := hiPb.Blk) s
  if r.1 then (fromPb r.2).toOption else none

/-- The block with the senders that belong to the public keys. -/
def derived (b : Blk) : Blk := { b with txs := b.txs.map Tx.derived }

theorem derived_eq_self {b : Blk} (h : ∀ t ∈ b.txs, t.FromPkPem) : b.derived = b := by
  rw [derived, Tx.map_derived h]

theorem fromPb_toPb_derived (b : Blk) : fromPb b.toPb = .ok b.derived := by
  rw [fromPb, toPb]
  simp only [fromByteString_toByteString, Tx.fromPb_map_toPb_derived]
  rfl

theorem fromPb_toPb {b : Blk} (h : ∀ t ∈ b.txs, t.FromPkPem) : fromPb b.toPb = .ok b := by
  rw [fromPb_toPb_derived, derived_eq_self h]

/-- **Round trip.** -/
theorem fromString_toString [Pb hiPb.Blk] (hpb : Pb.ReadsBack hiPb.Blk) {b : Blk}
    (h : ∀ t ∈ b.txs, t.FromPkPem) : fromString b.toString = some b := by
  rw [fromString, toString, hpb]
  simp [fromPb_toPb h, Except.toOption]

end Blk

/-! ### Executed blocks -/

/-- `StateChange`. -/
structure StateChange where
  /-- Delete the key. -/
  del : Bool
  /-- The key. -/
  k : Bytes
  /-- The new value. -/
  v : Bytes
  deriving DecidableEq

/-- `StateChange` in a message. -/
def StateChange.toPb (c : StateChange) : hiPb.StateChange := ⟨c.del, c.k, c.v⟩

/-- `StateChange` from a message. -/
def StateChange.fromPb (pb : hiPb.StateChange) : StateChange := ⟨pb.del, pb.k, pb.v⟩

/-- The journal of one transaction. -/
abbrev Journal := List StateChange

/-- `TxReceipt`. -/
structure TxReceipt where
  /-- The transaction was executed. -/
  ok : Bool
  /-- What it returned. -/
  result : Bytes
  /-- The type of the transaction. -/
  type : TxType
  deriving DecidableEq

namespace TxReceipt

/-- The receipt of a transaction that failed. -/
def failed (type : TxType) : TxReceipt := ⟨false, [], type⟩

/-- The receipt of a transaction that returned `result`. -/
def succeeded (result : Bytes) (type : TxType) : TxReceipt := ⟨true, result, type⟩

/-- `TxReceipt::toPb`. -/
def toPb (r : TxReceipt) : hiPb.TxReceipt := ⟨r.ok, r.result, r.type.toPb⟩

/-- `TxReceipt::fromPb`. -/
def fromPb (pb : hiPb.TxReceipt) : TxReceipt := ⟨pb.ok, pb.result, .fromPb pb.type⟩

@[simp] theorem fromPb_toPb (r : TxReceipt) : fromPb r.toPb = r := by
  simp [fromPb, toPb]

end TxReceipt

/-- `ExecBlk`: a block with a journal and a receipt for every transaction. -/
structure ExecBlk extends Blk where
  /-- The journals. -/
  stateChanges : List Journal
  /-- The receipts. -/
  txReceipts : List TxReceipt
  /-- The first check of the constructor. -/
  length_stateChanges : txs.length = stateChanges.length
  /-- The second one. -/
  length_txReceipts : stateChanges.length = txReceipts.length

namespace ExecBlk

theorem map_fst_zip_stateChanges (b : ExecBlk) : (b.txs.zip b.stateChanges).map Prod.fst = b.txs :=
  List.map_fst_zip (Nat.le_of_eq b.length_stateChanges)

theorem map_snd_zip_stateChanges (b : ExecBlk) :
    (b.txs.zip b.stateChanges).map Prod.snd = b.stateChanges :=
  List.map_snd_zip (Nat.le_of_eq b.length_stateChanges.symm)

theorem length_zip_stateChanges (b : ExecBlk) :
    (b.txs.zip b.stateChanges).length = b.txs.length := by
  rw [List.length_zip, ← b.length_stateChanges, Nat.min_self]

/-- `ExecBlk::toPb0`. -/
def toPb0 (b : ExecBlk) : hiPb.ExecBlk where
  blk := b.toBlk.toPb
  txReceipts := b.txReceipts.map TxReceipt.toPb
  stateChanges := b.stateChanges.map fun j => ⟨j.map StateChange.toPb⟩

/-- `ExecBlk::toString`. -/
def toString [Pb hiPb.ExecBlk] (b : ExecBlk) : Bytes := serializeAsString b.toPb0

/-- An `ExecBlk` as it is read: `fromPb0` fills in the fields of a fresh one, and the checks of the
constructor are not made. -/
structure Parsed extends Blk where
  /-- The journals. -/
  stateChanges : List Journal
  /-- The receipts. -/
  txReceipts : List TxReceipt
  deriving DecidableEq

variable [Keccak]

/-- `ExecBlk::fromPb0`, into a fresh `ExecBlk`. -/
def fromPb0 (pb : hiPb.ExecBlk) : Except Bytes Parsed := do
  let b ← Blk.fromPb pb.blk
  return ⟨b, pb.stateChanges.map fun j => j.changes.map StateChange.fromPb,
    pb.txReceipts.map TxReceipt.fromPb⟩

/-- `ExecBlk::fromString`, into a fresh `ExecBlk`; nothing if it returns `false`. -/
def fromString [Pb hiPb.ExecBlk] (s : Bytes) : Option Parsed :=
  let r := parseFromString (M := hiPb.ExecBlk) s
  if r.1 then (fromPb0 r.2).toOption else none

/-- What is read back of a message: the senders are derived again.  An empty journal stays where
it is. -/
theorem fromPb0_toPb0_derived (b : ExecBlk) :
    fromPb0 b.toPb0 = .ok ⟨b.toBlk.derived, b.stateChanges, b.txReceipts⟩ := by
  have hchange : StateChange.fromPb ∘ StateChange.toPb = id := rfl
  have hreceipt : TxReceipt.fromPb ∘ TxReceipt.toPb = id := funext TxReceipt.fromPb_toPb
  rw [fromPb0, toPb0, Blk.fromPb_toPb_derived]
  simp [bind, Except.bind, pure, Except.pure, hchange, hreceipt, Function.comp_def]

/-- What is read back of a stored block. -/
theorem fromString_toString_derived [Pb hiPb.ExecBlk] (hpb : Pb.ReadsBack hiPb.ExecBlk)
    (b : ExecBlk) :
    fromString b.toString = some ⟨b.toBlk.derived, b.stateChanges, b.txReceipts⟩ := by
  rw [fromString, toString, hpb]
  simp only [if_true, fromPb0_toPb0_derived]
  rfl

/-- **Round trip**: a stored block is read back. -/
theorem fromString_toString [Pb hiPb.ExecBlk] (hpb : Pb.ReadsBack hiPb.ExecBlk) {b : ExecBlk}
    (h : ∀ t ∈ b.txs, t.FromPkPem) :
    fromString b.toString = some ⟨b.toBlk, b.stateChanges, b.txReceipts⟩ := by
  rw [fromString_toString_derived hpb, Blk.derived_eq_self h]

end ExecBlk

/-- `TxOnBlkInfo`: where a transaction is. -/
structure TxOnBlkInfo where
  /-- The number of the block. -/
  blkNumber : UInt64
  /-- The position in it. -/
  onBlkId : UInt64
  deriving DecidableEq

/-- `TxOnBlkInfo::toString`. -/
def TxOnBlkInfo.toString [Pb hiPb.TxOnBlkInfo] (i : TxOnBlkInfo) : Bytes :=
  serializeAsString (⟨i.blkNumber, i.onBlkId⟩ : hiPb.TxOnBlkInfo)

end WeakChain
