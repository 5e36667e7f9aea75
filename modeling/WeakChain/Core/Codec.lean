import WeakChain.Core.External
import WeakChain.Lib.Keccak
import WeakChain.Lib.Wire

/-!
# The parameters, instantiated

The messages of `hi.proto`, `pure-rbft.proto` and `pure-listenToOne.proto` in the proto3 wire
format, the text of a JSON value, and `keccak256`.  This is what the generated serializer and the
hash function do on the inputs of the concrete runs of this development; that the former reads back
what it wrote (`readsBack`) is the assumption the statements about replicas make.
-/

namespace WeakChain

namespace Wire

open Message

/-- A 32-bit integer as a varint: it is sign-extended. -/
def ofInt32 (x : Int32) : ℕ := x.toInt64.toUInt64.toNat

/-- A varint as a 32-bit integer. -/
def toInt32 (n : ℕ) : Int32 := (UInt64.ofNat n).toInt64.toInt32

@[simp] theorem toInt32_ofInt32 (x : Int32) : toInt32 (ofInt32 x) = x := by
  simp [toInt32, ofInt32]

/-- A truth value as a varint. -/
def ofBool (b : Bool) : ℕ := b.toNat

@[simp] theorem not_ofBool_eq_zero (b : Bool) : (!decide (ofBool b = 0)) = b := by
  cases b <;> decide

instance : Message hiPb.Acn where
  toFields m :=
    putVarint 1 m.nonce.toNat ++ putLen 2 m.code ++ putLens 3 m.storageKs ++
      putLens 4 m.storageVs ++ putLens 5 m.diskStorage
  ofFields fs :=
    (true,
      { nonce := .ofNat (getVarint 1 fs)
        code := getLen 2 fs
        storageKs := lens 3 fs
        storageVs := lens 4 fs
        diskStorage := lens 5 fs })
  ofFields_toFields m := by
    simp [getVarint, getLen]

instance : Message hiPb.Tx where
  toFields m :=
    putVarint 1 (ofInt32 m.type) ++ putLen 2 m.fromAddr ++ putLen 3 m.toAddr ++ putLen 4 m.data ++
      putVarint 5 m.timestamp.toNat ++ putVarint 6 m.nonce.toNat ++ putLen 7 m.pkPem ++
      putLen 8 m.signature ++ putLen 9 m.pkCrt
  ofFields fs :=
    (true,
      { type := toInt32 (getVarint 1 fs)
        fromAddr := getLen 2 fs
        toAddr := getLen 3 fs
        data := getLen 4 fs
        timestamp := .ofNat (getVarint 5 fs)
        nonce := .ofNat (getVarint 6 fs)
        pkPem := getLen 7 fs
        signature := getLen 8 fs
        pkCrt := getLen 9 fs })
  ofFields_toFields m := by
    simp [getVarint, getLen]

instance : Message hiPb.Txs where
  toFields m := putLens 1 (m.txs.map serialize)
  ofFields fs :=
    let r := parseAll (M := hiPb.Tx) (lens 1 fs)
    (r.1, ⟨r.2⟩)
  ofFields_toFields m := by
    simp [parseAll_map_serialize]

instance : Message hiPb.BlkHeader where
  toFields m := putVarint 1 m.number.toNat ++ putLen 2 m.parentHash
  ofFields fs := (true, ⟨.ofNat (getVarint 1 fs), getLen 2 fs⟩)
  ofFields_toFields m := by
    simp [getVarint, getLen]

/-- The header is always written, as `mutable_header()` sets it. -/
instance : Message hiPb.Blk where
  toFields m := putLens 1 [serialize m.header] ++ putLens 2 (m.txs.map serialize)
  ofFields fs :=
    let h := parse (M := hiPb.BlkHeader) (getLen 1 fs)
    let r := parseAll (M := hiPb.Tx) (lens 2 fs)
    (h.1 && r.1, ⟨h.2, r.2⟩)
  ofFields_toFields m := by
    simp [getLen, parseAll_map_serialize, parse_serialize]

instance : Message hiPb.TxOnBlkInfo where
  toFields m := putVarint 1 m.blkNumber.toNat ++ putVarint 2 m.onBlkId.toNat
  ofFields fs := (true, ⟨.ofNat (getVarint 1 fs), .ofNat (getVarint 2 fs)⟩)
  ofFields_toFields m := by
    simp [getVarint]

instance : Message hiPb.StateChange where
  toFields m := putVarint 1 (ofBool m.del) ++ putLen 2 m.k ++ putLen 3 m.v
  ofFields fs := (true, ⟨getVarint 1 fs ≠ 0, getLen 2 fs, getLen 3 fs⟩)
  ofFields_toFields m := by
    simp [getVarint, getLen]

instance : Message hiPb.StateChanges where
  toFields m := putLens 1 (m.changes.map serialize)
  ofFields fs :=
    let r := parseAll (M := hiPb.StateChange) (lens 1 fs)
    (r.1, ⟨r.2⟩)
  ofFields_toFields m := by
    simp [parseAll_map_serialize]

instance : Message hiPb.TxReceipt where
  toFields m := putVarint 1 (ofBool m.ok) ++ putLen 2 m.result ++ putVarint 3 (ofInt32 m.type)
  ofFields fs := (true, ⟨getVarint 1 fs ≠ 0, getLen 2 fs, toInt32 (getVarint 3 fs)⟩)
  ofFields_toFields m := by
    simp [getVarint, getLen]

instance : Message hiPb.ExecBlk where
  toFields m :=
    putLens 1 [serialize m.blk] ++ putLens 2 (m.txReceipts.map serialize) ++
      putLens 3 (m.stateChanges.map serialize)
  ofFields fs :=
    let b := parse (M := hiPb.Blk) (getLen 1 fs)
    let r := parseAll (M := hiPb.TxReceipt) (lens 2 fs)
    let c := parseAll (M := hiPb.StateChanges) (lens 3 fs)
    (b.1 && r.1 && c.1, ⟨b.2, r.2, c.2⟩)
  ofFields_toFields m := by
    simp [getLen, parseAll_map_serialize, parse_serialize]

/-- The field `state` is a `string`, and only UTF-8 is read back from one; here it is any bytes. -/
instance : Message hiPb.LaidDownMsg where
  toFields m := putLen 1 m.msg ++ putVarint 2 (ofInt32 m.epoch) ++ putLen 3 m.state
  ofFields fs := (true, ⟨getLen 1 fs, toInt32 (getVarint 2 fs), getLen 3 fs⟩)
  ofFields_toFields m := by
    simp [getVarint, getLen]

instance : Message hiPb.NewViewCertificate where
  toFields m :=
    putLen 1 m.msg ++ putVarint 2 (ofInt32 m.epoch) ++ putLens 3 m.newViewCertificate ++
      putLens 4 m.sigOfNodesToBeAdded ++ putLens 5 m.cmds
  ofFields fs :=
    (true,
      { msg := getLen 1 fs
        epoch := toInt32 (getVarint 2 fs)
        newViewCertificate := lens 3 fs
        sigOfNodesToBeAdded := lens 4 fs
        cmds := lens 5 fs })
  ofFields_toFields m := by
    simp [getVarint, getLen]

instance : Message hiPb.AddTxReply where
  toFields m := putLen 1 m.hash ++ putLen 2 m.deployedAddr
  ofFields fs := (true, ⟨getLen 1 fs, getLen 2 fs⟩)
  ofFields_toFields m := by
    simp [getLen]

instance : Message hiPb.AddTxsReply where
  toFields m := putLens 1 (m.txs.map serialize)
  ofFields fs :=
    let r := parseAll (M := hiPb.AddTxReply) (lens 1 fs)
    (r.1, ⟨r.2⟩)
  ofFields_toFields m := by
    simp [parseAll_map_serialize]

instance : Message hiPb.YouAreInTicket where
  toFields m := putLen 1 m.msg ++ putLens 2 m.commandHistory
  ofFields fs := (true, ⟨getLen 1 fs, lens 2 fs⟩)
  ofFields_toFields m := by
    simp [getLen]

/-- The serializer of a message type. -/
@[reducible] def pb (M : Type) [Message M] : Pb M := ⟨serialize, parse⟩

theorem readsBack (M : Type) [Message M] : @Pb.ReadsBack M (pb M) := fun m => parse_serialize m

end Wire

namespace JsonText

/-- A string without control characters. -/
def string (s : Bytes) : Bytes :=
  [34] ++ s.flatMap (fun c => if c = 34 ∨ c = 92 then [92, c] else [c]) ++ [34]

/-- A signed integer. -/
def int64 (n : Int64) : Bytes :=
  (if n < 0 then ascii "-" else []) ++ decimal n.toInt.natAbs

mutual

/-- A value that has no `double` in it. -/
def value : Json → Bytes
  | .null => ascii "null"
  | .bool b => ascii (if b then "true" else "false")
  | .int64 n => int64 n
  | .uint64 n => decimal n.toNat
  | .double _ => []
  | .string s => string s
  | .array vs => ascii "[" ++ (ascii ",").intercalate (values vs) ++ ascii "]"
  | .object kvs => ascii "\x7b" ++ (ascii ",").intercalate (fields kvs) ++ ascii "\x7d"

/-- The values of an array. -/
def values : List Json → List Bytes
  | [] => []
  | v :: vs => value v :: values vs

/-- The fields of an object. -/
def fields : List (Bytes × Json) → List Bytes
  | [] => []
  | kv :: kvs => field kv :: fields kvs

/-- A field of an object. -/
def field : Bytes × Json → Bytes
  | (k, v) => string k ++ ascii ":" ++ value v

end

/-- `json::serialize`. -/
@[reducible] def serialize : BoostJsonSerialize := ⟨value⟩

end JsonText

namespace Sponge

/-- The hash function. -/
@[reducible] def keccak : Keccak := ⟨fun bs => ⟨keccak256 bs, length_keccak256 bs⟩⟩

end Sponge

end WeakChain
