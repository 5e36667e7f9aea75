import WeakChain.Core.External
import WeakChain.Lib.HashMap

/-!
# Accounts

`Acn` and its protobuf codec.  A world state maps addresses to serialized accounts; the executors
see it through `IAcnGettable`.
-/

namespace WeakChain

/-- An account. -/
structure Acn where
  /-- The nonce. -/
  nonce : UInt64 := 0
  /-- The code. -/
  code : Bytes := []
  /-- The storage. -/
  storage : HashMap Bytes32 Bytes32 := .empty
  /-- What the executors other than the EVM keep. -/
  diskStorage : List Bytes := []
  deriving DecidableEq

/-- `IAcnGettable`: the read-only world. -/
abbrev IAcnGettable := Address → Option Acn

/-- `bytes32FromString`: the first 32 bytes. -/
def bytes32FromString (s : Bytes) : Except Bytes Bytes32 :=
  if h : 32 ≤ s.length then .ok ⟨s.take 32, by simp [h]⟩
  else .error (ascii "Invalid size for bytes32, should be at least 32, but got " ++
    decimal s.length)

namespace Acn

/-- `codehash`. -/
def codehash [Keccak] (a : Acn) : Hash256 := keccak256 a.code

/-- `Acn::toPb`. -/
def toPb [HashOrder Bytes32] (a : Acn) : hiPb.Acn where
  nonce := a.nonce
  code := a.code
  storageKs := a.storage.toList.map fun e => e.1.bytes
  storageVs := a.storage.toList.map fun e => e.2.bytes
  diskStorage := a.diskStorage

/-- The loop of `fromPb` over the storage.  A key without a value would be read from beyond the end
of `storage_vs`; this is an error here. -/
def storageFromPb : List Bytes → List Bytes → HashMap Bytes32 Bytes32 →
    Except Bytes (HashMap Bytes32 Bytes32)
  | [], _, m => .ok m
  | _ :: _, [], _ => .error []
  | k :: ks, v :: vs, m => do
    let k ← bytes32FromString k
    let v ← bytes32FromString v
    storageFromPb ks vs (m.set k v)

/-- `Acn::fromPb`, into a fresh `Acn`. -/
def fromPb (pb : hiPb.Acn) : Except Bytes Acn := do
  let storage ← storageFromPb pb.storageKs pb.storageVs .empty
  return ⟨pb.nonce, pb.code, storage, pb.diskStorage⟩

/-- The accounts are the same; the order in which a loop visits their storage may differ. -/
structure Same (a b : Acn) : Prop where
  nonce : a.nonce = b.nonce
  code : a.code = b.code
  storage : ∀ k, a.storage.find? k = b.storage.find? k
  diskStorage : a.diskStorage = b.diskStorage

theorem Same.refl (a : Acn) : a.Same a := ⟨rfl, rfl, fun _ => rfl, rfl⟩

theorem Same.symm {a b : Acn} (h : a.Same b) : b.Same a :=
  ⟨h.nonce.symm, h.code.symm, fun k => (h.storage k).symm, h.diskStorage.symm⟩

theorem Same.trans {a b c : Acn} (h : a.Same b) (h' : b.Same c) : a.Same c :=
  ⟨h.nonce.trans h'.nonce, h.code.trans h'.code, fun k => (h.storage k).trans (h'.storage k),
    h.diskStorage.trans h'.diskStorage⟩

theorem bytes32FromString_bytes (b : Bytes32) : bytes32FromString b.bytes = .ok b := by
  rw [bytes32FromString, dif_pos (Nat.le_of_eq b.size.symm)]
  congr 1
  exact FixedBytes.ext (List.take_of_length_le (Nat.le_of_eq b.size))

theorem storageFromPb_map (es : List (Bytes32 × Bytes32)) (m : HashMap Bytes32 Bytes32) :
    storageFromPb (es.map fun e => e.1.bytes) (es.map fun e => e.2.bytes) m =
      .ok (m.setAll es) := by
  induction es generalizing m with
  | nil => rfl
  | cons e es ih =>
    rw [List.map_cons, List.map_cons, storageFromPb, bytes32FromString_bytes,
      bytes32FromString_bytes]
    exact ih (m.set e.1 e.2)

/-- An account is read back from its message. -/
theorem fromPb_toPb [HashOrder Bytes32] (a : Acn) : ∃ b, fromPb a.toPb = .ok b ∧ b.Same a := by
  have hstorage := storageFromPb_map a.storage.toList .empty
  refine ⟨⟨a.nonce, a.code, HashMap.empty.setAll a.storage.toList, a.diskStorage⟩, ?_,
    ⟨rfl, rfl, HashMap.find?_setAll_toList a.storage, rfl⟩⟩
  simp only [fromPb, toPb, hstorage]
  rfl

variable [Pb hiPb.Acn]

/-- `Acn::toString`. -/
def toString [HashOrder Bytes32] (a : Acn) : Bytes := serializeAsString a.toPb

/-- `Acn::fromString`, into a fresh `Acn`; nothing if it returns `false`. -/
def fromString (s : Bytes) : Option Acn :=
  let r := parseFromString (M := hiPb.Acn) s
  if r.1 then (fromPb r.2).toOption else none

/-- An account is read back. -/
theorem fromString_toString [HashOrder Bytes32] (hpb : Pb.ReadsBack hiPb.Acn) (a : Acn) :
    ∃ b, fromString a.toString = some b ∧ b.Same a := by
  obtain ⟨b, hb, hsame⟩ := fromPb_toPb a
  refine ⟨b, ?_, hsame⟩
  rw [fromString, toString, hpb]
  simp only [if_true, hb]
  rfl

end Acn

end WeakChain
