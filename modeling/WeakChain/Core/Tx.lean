import WeakChain.Core.External
import WeakChain.Lib.Traverse

/-!
# Transactions

`Tx` with its hash, its order in the pool and its protobuf codec.  The hash depends on the sender
and the nonce only, so two transactions with the same sender and nonce are the same transaction as
far as double spending is concerned.

`fromPb` derives the sender from the public key if there is one.  What it produces survives the
round trip through `toPb` (`Tx.fromPb_toPb`): a transaction whose sender does not belong
to its public key would not, but cannot be produced.
-/

namespace WeakChain

/-- `Tx::Type`. -/
inductive TxType
  | evm
  | data
  | python
  deriving DecidableEq, Repr

namespace TxType

/-- `Tx::typeToPb`. -/
def toPb : TxType → hiPb.TxType
  | .data => 1
  | .python => 2
  | .evm => 0

/-- `Tx::typeFromPb`: everything else is `evm`. -/
def fromPb (t : hiPb.TxType) : TxType := if t = 1 then .data else if t = 2 then .python else .evm

@[simp] theorem fromPb_toPb (t : TxType) : fromPb t.toPb = t := by
  cases t <;> decide

end TxType

/-- A transaction. -/
structure Tx where
  /-- The sender's public key, if the sender is derived from it. -/
  pkPem : Bytes
  /-- The signature. -/
  signature : Bytes
  /-- The certificate of the public key. -/
  pkCrt : Bytes
  /-- What executes it. -/
  type : TxType
  /-- The sender (`from`). -/
  fromAddr : Address
  /-- The receiver (`to`); zero for a deployment. -/
  toAddr : Address
  /-- The code or the input. -/
  data : Bytes
  /-- The nonce. -/
  nonce : UInt64
  /-- Milliseconds since the epoch (`std::time_t`). -/
  timestamp : Int64
  deriving DecidableEq

namespace Tx

/-- The constructor with sender, receiver, data and nonce, at the time `now`.  The type that it
takes as well is not used. -/
def create (fromAddr toAddr : Address) (data : Bytes) (nonce : UInt64) (now : Int64) : Tx where
  pkPem := []
  signature := []
  pkCrt := []
  type := .evm
  fromAddr := fromAddr
  toAddr := toAddr
  data := data
  nonce := nonce
  timestamp := now

section Hash

variable [Keccak]

/-- The hash of the sender and the nonce. -/
def hash (t : Tx) : Hash256 := keccak256 (t.fromAddr.bytes ++ be64 t.nonce)

/-- `getFromFromPkPem`: the last 20 bytes of the hash of the public key. -/
def getFromFromPkPem (pkPem : Bytes) : Address :=
  ⟨(keccak256 pkPem).bytes.drop 12, by simp [(keccak256 pkPem).size]⟩

end Hash

/-- `getContractDeployAddress`: the nonce and the flipped timestamp, cut down to an `int`. -/
def getContractDeployAddress (t : Tx) : Address :=
  makeAddress (t.nonce ^^^ (~~~t.timestamp).toUInt64).toUInt32.toInt32

/-- The part of the nonce and the timestamp that the address depends on. -/
def addressWord (t : Tx) : UInt32 := (t.nonce ^^^ t.timestamp.toUInt64).toUInt32

/-- Two contracts have the same address if and only if they have the same word: it makes no
difference that the timestamp is flipped. -/
theorem getContractDeployAddress_eq_iff {t u : Tx} :
    t.getContractDeployAddress = u.getContractDeployAddress ↔ t.addressWord = u.addressWord := by
  have hflip : ∀ t : Tx,
      (t.nonce ^^^ (~~~t.timestamp).toUInt64).toUInt32 = ~~~t.addressWord := by
    intro t
    simp [addressWord, UInt32.xor_not]
  rw [getContractDeployAddress, getContractDeployAddress, makeAddress_injective.eq_iff, hflip t,
    hflip u]
  constructor
  · intro h
    simpa using congrArg Int32.toUInt32 h
  · intro h
    rw [h]

/-! ### The order of the pool -/

/-- The comparison of two `bytes_view`s. -/
def bytesLt (a b : Bytes) : Bool := decide (a < b)

/-- `Tx::Index::operator<`. -/
def indexLt (t r : Tx) : Bool :=
  (t.fromAddr = r.fromAddr && t.nonce < r.nonce) || bytesLt t.fromAddr.bytes r.fromAddr.bytes

/-- `Tx::operator<`: by timestamp, then by sender and nonce. -/
def lt (t r : Tx) : Bool :=
  (t.timestamp = r.timestamp && indexLt t r) || t.timestamp < r.timestamp

/-- Neither comes before the other, so an ordered container takes them for the same. -/
def equivalent (t r : Tx) : Bool := !t.lt r && !r.lt t

/-! ### Protobuf -/

/-- `Tx::toPb`. -/
def toPb (t : Tx) : hiPb.Tx where
  type := t.type.toPb
  fromAddr := toByteStringAddress t.fromAddr
  toAddr := toByteStringAddress t.toAddr
  data := t.data
  timestamp := t.timestamp.toUInt64
  nonce := t.nonce
  pkPem := t.pkPem
  signature := t.signature
  pkCrt := t.pkCrt

variable [Keccak]

/-- The sender, derived from the public key or given in the message. -/
def senderFromPb (pb : hiPb.Tx) : Except Bytes Address :=
  if pb.pkPem ≠ [] then .ok (getFromFromPkPem pb.pkPem) else fromByteStringAddress pb.fromAddr

/-- `Tx::fromPb`, into a fresh `Tx`; it throws on addresses that are too long. -/
def fromPb (pb : hiPb.Tx) : Except Bytes Tx := do
  let fromAddr ← senderFromPb pb
  let toAddr ← fromByteStringAddress pb.toAddr
  return {
    pkPem := pb.pkPem
    signature := pb.signature
    pkCrt := pb.pkCrt
    type := .fromPb pb.type
    fromAddr := fromAddr
    toAddr := toAddr
    data := pb.data
    nonce := pb.nonce
    timestamp := pb.timestamp.toInt64 }

/-- The sender belongs to the public key, if there is one. -/
def FromPkPem (t : Tx) : Prop := t.pkPem ≠ [] → t.fromAddr = getFromFromPkPem t.pkPem

theorem fromPkPem_of_fromPb {pb : hiPb.Tx} {t : Tx} (h : fromPb pb = .ok t) : t.FromPkPem := by
  rw [fromPb] at h
  cases hfrom : senderFromPb pb with
  | error e =>
    rw [hfrom] at h
    cases h
  | ok a =>
    cases hto : fromByteStringAddress pb.toAddr with
    | error e =>
      rw [hfrom, hto] at h
      cases h
    | ok b =>
      rw [hfrom, hto] at h
      obtain rfl := Except.ok.inj h
      intro hne
      rw [senderFromPb, if_pos hne] at hfrom
      exact (Except.ok.inj hfrom).symm

/-- The transaction with the sender that belongs to its public key, if there is one. -/
def derived (t : Tx) : Tx :=
  if t.pkPem ≠ [] then { t with fromAddr := getFromFromPkPem t.pkPem } else t

theorem derived_eq_self_iff {t : Tx} : t.derived = t ↔ t.FromPkPem := by
  unfold derived FromPkPem
  split_ifs with hne
  · constructor
    · intro h _
      exact (congrArg Tx.fromAddr h).symm
    · intro h
      rw [← h hne]
  · exact iff_of_true rfl fun h => absurd h hne

/-- What is read back: the sender is derived again. -/
theorem fromPb_toPb_derived (t : Tx) : fromPb t.toPb = .ok t.derived := by
  -- without a key the sender is read from the message, with one it is derived again
  have hfrom : senderFromPb t.toPb = .ok t.derived.fromAddr := by
    by_cases hne : t.pkPem = []
    · simp [senderFromPb, toPb, derived, hne]
    · simp [senderFromPb, toPb, derived, hne]
  have hto : fromByteStringAddress t.toPb.toAddr = .ok t.toAddr := by simp [toPb]
  rw [fromPb, hfrom, hto]
  by_cases hne : t.pkPem = []
  · simp only [derived, hne, ne_eq, not_true, if_false]
    simp [toPb, bind, Except.bind, pure, Except.pure]
  · simp [toPb, derived, hne, bind, Except.bind, pure, Except.pure]

/-- **Round trip**: a transaction whose sender belongs to its public key is read back. -/
theorem fromPb_toPb {t : Tx} (h : t.FromPkPem) : fromPb t.toPb = .ok t := by
  rw [fromPb_toPb_derived, derived_eq_self_iff.2 h]

/-! ### Arrays of transactions -/

/-- `Tx::parse_to_array`.  What `ParseFromString` returns is not looked at. -/
def parseToArray [Pb hiPb.Txs] (arg : Bytes) : Except Bytes (List Tx) :=
  (parseFromString (M := hiPb.Txs) arg).2.txs.mapM fromPb

omit [Keccak] in
/-- `Tx::serialize_from_array`. -/
def serializeFromArray [Pb hiPb.Txs] (txs : List Tx) : Bytes :=
  serializeAsString (⟨txs.map toPb⟩ : hiPb.Txs)

theorem map_derived {txs : List Tx} (h : ∀ t ∈ txs, t.FromPkPem) : txs.map derived = txs :=
  (List.map_congr_left fun t ht => derived_eq_self_iff.2 (h t ht)).trans (List.map_id txs)

theorem fromPb_map_toPb_derived (txs : List Tx) :
    (txs.map toPb).mapM fromPb = .ok (txs.map derived) :=
  Traverse.mapM_map_eq_pure fromPb_toPb_derived txs

theorem fromPb_map_toPb {txs : List Tx} (h : ∀ t ∈ txs, t.FromPkPem) :
    (txs.map toPb).mapM fromPb = .ok txs := by
  rw [fromPb_map_toPb_derived, map_derived h]

theorem fromPkPem_of_mapM {pbs : List hiPb.Tx} {txs : List Tx}
    (h : pbs.mapM fromPb = .ok txs) : ∀ t ∈ txs, t.FromPkPem := by
  intro t ht
  obtain ⟨pb, -, hpb⟩ := (Traverse.mem_of_mapM_eq_ok h).1 ht
  exact fromPkPem_of_fromPb hpb

/-- What the parser produced is read back from its serialization, and so is any part of it. -/
theorem parseToArray_serializeFromArray [Pb hiPb.Txs] (hpb : Pb.ReadsBack hiPb.Txs) {txs : List Tx}
    (h : ∀ t ∈ txs, t.FromPkPem) : parseToArray (serializeFromArray txs) = .ok txs := by
  rw [parseToArray, serializeFromArray, hpb]
  exact fromPb_map_toPb h

end Tx

end WeakChain
