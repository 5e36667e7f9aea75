import WeakChain.Core.Bytes

/-!
# What the repository takes from elsewhere

The hash function (`ethash::keccak256`), the serializer generated by protobuf from the `.proto`
files, and the JSON parser (`boost::json`) are not part of the repository, so they are parameters of
the model.
Nothing is assumed about them unless a statement says so; the one assumption that is made is that
protobuf reads back what it serialized (`Pb.ReadsBack`).

The messages of `hi.proto`, `pure-rbft.proto` and `pure-listenToOne.proto` are records: an accessor
of a field that was not set returns the default value, so a field is always there.
-/

namespace WeakChain

/-- `ethash::keccak256`. -/
class Keccak where
  /-- The hash of a string. -/
  keccak256 : Bytes → Hash256

export Keccak (keccak256)

/-- The serializer of a message type. -/
class Pb (M : Type) where
  /-- `SerializeAsString()`. -/
  serializeAsString : M → Bytes
  /-- `ParseFromString(s)`: what it returns, and the message afterwards.  A parser that fails may
  have filled in a part of the message. -/
  parseFromString : Bytes → Bool × M

export Pb (serializeAsString parseFromString)

/-- Protobuf reads back what it serialized. -/
def Pb.ReadsBack (M : Type) [Pb M] : Prop :=
  ∀ m : M, parseFromString (serializeAsString m) = (true, m)

namespace hiPb

/-- `enum TxType`.  Enumerations are open: any `int32` may arrive. -/
abbrev TxType := Int32

/-- `message Acn`. -/
structure Acn where
  nonce : UInt64 := 0
  code : Bytes := []
  storageKs : List Bytes := []
  storageVs : List Bytes := []
  diskStorage : List Bytes := []
  deriving DecidableEq

/-- `message Tx`. -/
structure Tx where
  type : TxType := 0
  fromAddr : Bytes := []
  toAddr : Bytes := []
  data : Bytes := []
  timestamp : UInt64 := 0
  nonce : UInt64 := 0
  pkPem : Bytes := []
  signature : Bytes := []
  pkCrt : Bytes := []
  deriving DecidableEq

/-- `message Txs`. -/
structure Txs where
  txs : List Tx := []
  deriving DecidableEq

/-- `message BlkHeader`. -/
structure BlkHeader where
  number : UInt64 := 0
  parentHash : Bytes := []
  deriving DecidableEq

/-- `message Blk`. -/
structure Blk where
  header : BlkHeader := {}
  txs : List Tx := []
  deriving DecidableEq

/-- `message TxOnBlkInfo`. -/
structure TxOnBlkInfo where
  blkNumber : UInt64 := 0
  onBlkId : UInt64 := 0
  deriving DecidableEq

/-- `message StateChange`. -/
structure StateChange where
  del : Bool := false
  k : Bytes := []
  v : Bytes := []
  deriving DecidableEq

/-- `message StateChanges`. -/
structure StateChanges where
  changes : List StateChange := []
  deriving DecidableEq

/-- `message TxReceipt`. -/
structure TxReceipt where
  ok : Bool := false
  result : Bytes := []
  type : TxType := 0
  deriving DecidableEq

/-- `message ExecBlk`. -/
structure ExecBlk where
  blk : Blk := {}
  txReceipts : List TxReceipt := []
  stateChanges : List StateChanges := []
  deriving DecidableEq

/-- `message LaidDownMsg`. -/
structure LaidDownMsg where
  msg : Bytes := []
  epoch : Int32 := 0
  state : Bytes := []
  deriving DecidableEq

/-- `message NewViewCertificate`. -/
structure NewViewCertificate where
  msg : Bytes := []
  epoch : Int32 := 0
  newViewCertificate : List Bytes := []
  sigOfNodesToBeAdded : List Bytes := []
  cmds : List Bytes := []
  deriving DecidableEq

/-- `message AddTxReply`. -/
structure AddTxReply where
  hash : Bytes := []
  deployedAddr : Bytes := []
  deriving DecidableEq

/-- `message AddTxsReply`. -/
structure AddTxsReply where
  txs : List AddTxReply := []
  deriving DecidableEq

/-- `message YouAreInTicket`. -/
structure YouAreInTicket where
  msg : Bytes := []
  commandHistory : List Bytes := []
  deriving DecidableEq

end hiPb

/-- A JSON value.  The number types of `boost::json` are kept apart. -/
inductive Json
  | null
  | bool (b : Bool)
  | int64 (n : Int64)
  | uint64 (n : UInt64)
  | double (bits : UInt64)
  | string (s : Bytes)
  | array (vs : List Json)
  | object (kvs : List (Bytes × Json))

/-- `v.at(k)`. -/
def Json.at (v : Json) (k : Bytes) : Option Json :=
  match v with
  | .object kvs => (kvs.find? fun kv => kv.1 = k).map Prod.snd
  | _ => none

namespace Json

/-- `v.as_object()`. -/
def asObject : Json → Option (List (Bytes × Json))
  | .object o => some o
  | _ => none

/-- `v.as_array()`. -/
def asArray : Json → Option (List Json)
  | .array vs => some vs
  | _ => none

/-- `v.as_string()`. -/
def asString : Json → Option Bytes
  | .string s => some s
  | _ => none

/-- `o.contains(k)`. -/
def contains (o : List (Bytes × Json)) (k : Bytes) : Bool := o.any fun kv => kv.1 = k

/-- `o.emplace(k, v)`: a key that is there keeps its value. -/
def emplace (o : List (Bytes × Json)) (k : Bytes) (v : Json) : List (Bytes × Json) :=
  if contains o k then o else o ++ [(k, v)]

/-- `o[k] = v` for a key that is there. -/
def set (o : List (Bytes × Json)) (k : Bytes) (v : Json) : List (Bytes × Json) :=
  o.map fun kv => if kv.1 = k then (k, v) else kv

/-- `o[k] = v`. -/
def assign (o : List (Bytes × Json)) (k : Bytes) (v : Json) : List (Bytes × Json) :=
  set (emplace o k v) k v

/-- `o.erase(k)`: the last entry takes the place of the one that is erased. -/
def erase (o : List (Bytes × Json)) (k : Bytes) : List (Bytes × Json) :=
  match o.findIdx? fun kv => kv.1 = k, o.getLast? with
  | some i, some last => (o.set i last).dropLast
  | _, _ => o

end Json

/-- `boost::json`. -/
class BoostJson where
  /-- `json::parse(s, ec)`; nothing if it sets `ec`. -/
  parse : Bytes → Option Json
  /-- The value of a `double` as a `uint64_t`, if it is exactly one. -/
  uint64OfDouble : UInt64 → Option UInt64

/-- `json::serialize`. -/
class BoostJsonSerialize where
  /-- The text of a value. -/
  serialize : Json → Bytes

end WeakChain
