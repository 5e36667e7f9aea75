import WeakChain.Exec.History
import WeakChain.Rpc.AddTxs

/-!
# Looking up a transaction over RPC

`GET /get_tx` and `GET /get_receipt` take the hash of a transaction.  The chain database has its
place at `/tx/<hash>`, and the place leads to the block and the position in it.  Nothing checks that
the position is in the block, or that the receipt can be put into JSON.

`Rpc.found_iff` says when both find what was committed.
-/

namespace WeakChain

/-! ### Transactions and receipts in JSON -/

/-- `Tx::typeToString`. -/
def TxType.typeToString : TxType → Bytes
  | .evm => ascii "evm"
  | .data => ascii "data"
  | .python => ascii "python"

namespace Tx

/-- The data in JSON: hexadecimal for `evm`, and anything else as it is. -/
def dataToJson (t : Tx) : List (Bytes × Json) :=
  if t.type ≠ .evm then
    [(ascii "type", .string t.type.typeToString), (ascii "data", .string t.data)]
  else [(ascii "data", .string (hex t.data))]

/-- The fields that are left out if they are empty. -/
def optionalToJson (t : Tx) : List (Bytes × Json) :=
  (if t.pkPem ≠ [] then [(ascii "pk_pem", .string t.pkPem)] else []) ++
    (if t.signature ≠ [] then [(ascii "signature", .string (hex t.signature))] else []) ++
    (if t.pkCrt ≠ [] then [(ascii "pk_crt", .string (hex t.pkCrt))] else [])

variable [Keccak]

/-- `Tx::toJson`. -/
def toJson (t : Tx) : Json :=
  .object ([(ascii "from", .string (addressToString t.fromAddr)),
    (ascii "to", .string (addressToString t.toAddr)), (ascii "nonce", .uint64 t.nonce),
    (ascii "timestamp", .uint64 t.timestamp.toUInt64),
    (ascii "hash", .string (hashToString t.hash))] ++ t.dataToJson ++ t.optionalToJson)

/-- `Tx::toJsonString`. -/
def toJsonString [BoostJsonSerialize] (t : Tx) : Bytes := BoostJsonSerialize.serialize t.toJson

end Tx

namespace TxReceipt

/-- What every receipt has in JSON. -/
def resultToJson (r : TxReceipt) (result : Json) : List (Bytes × Json) :=
  [(ascii "ok", .bool r.ok), (ascii "result", result),
    (ascii "type", .string r.type.typeToString)]

/-- `TxReceipt::toJson`; nothing if it stops the process.  What python returned is parsed again, in
a function that is `noexcept`, and asserted to have a result and a log. -/
def toJson [BoostJson] (r : TxReceipt) : Option Json :=
  if r.type = .python ∧ r.result ≠ [] then do
    let o ← (← BoostJson.parse r.result).asObject
    let result ← (Json.object o).at (ascii "result")
    let log ← (Json.object o).at (ascii "log")
    return .object (r.resultToJson result ++ [(ascii "log", log)])
  else some (.object (r.resultToJson (.string (hex r.result))))

/-- `TxReceipt::toJsonString`; nothing if it stops the process. -/
def toJsonString [BoostJson] [BoostJsonSerialize] (r : TxReceipt) : Option Bytes :=
  r.toJson.map BoostJsonSerialize.serialize

end TxReceipt

/-- `TxOnBlkInfo::fromString`, into a fresh `TxOnBlkInfo`; nothing if it returns `false`. -/
def TxOnBlkInfo.fromString [Pb hiPb.TxOnBlkInfo] (s : Bytes) : Option TxOnBlkInfo :=
  let r := parseFromString (M := hiPb.TxOnBlkInfo) s
  if r.1 then some ⟨r.2.blkNumber, r.2.onBlkId⟩ else none

theorem TxOnBlkInfo.fromString_toString [Pb hiPb.TxOnBlkInfo]
    (hpb : Pb.ReadsBack hiPb.TxOnBlkInfo) (i : TxOnBlkInfo) : fromString i.toString = some i := by
  rw [fromString, toString, hpb]
  rfl

namespace Rpc

variable [Keccak] [Pb hiPb.ExecBlk]

/-- `Rpc::get_Blk_from_chain`. -/
def getBlkFromChain (db : StringMap) (bn : Int32) : Except Bytes ExecBlk.Parsed :=
  getBlkOfDecimal db (decimalInt bn)

variable [Pb hiPb.TxOnBlkInfo]

omit [Keccak] [Pb hiPb.ExecBlk] in
/-- `Rpc::get_txOnBlkInfo`. -/
def getTxOnBlkInfo (db : StringMap) (h : Bytes) : Except Bytes TxOnBlkInfo :=
  match fromHex 32 h with
  | none => .error (ascii "Error: `hash` " ++ h ++ ascii " is ill-formed")
  | some _ =>
    match db.lookup (ascii "/tx/" ++ h) with
    | none =>
      .error (ascii "Error: `hash` " ++ h ++ ascii (" does not (yet) exist on the chain.\n" ++
        " Maybe you should try again later, or check your hash."))
    | some o =>
      match TxOnBlkInfo.fromString o with
      | none => .error (ascii
          "Data corruption Error:: `TxOnBlkInfo` data corrupted on storage.")
      | some info => .ok info

/-- The block and the position of a transaction.  The number is cut down to an `int`. -/
def locate (db : StringMap) (h : Bytes) : Except Bytes (ExecBlk.Parsed × ℕ) := do
  let info ← getTxOnBlkInfo db h
  let b ← getBlkFromChain db info.blkNumber.toUInt32.toInt32
  return (b, info.onBlkId.toNat)

variable [BoostJsonSerialize]

/-- `Rpc::get_tx`: the truth value and the answer; nothing if the position is not in the block. -/
def getTx (db : StringMap) (h : Bytes) : Option (Bool × Bytes) :=
  match locate db h with
  | .error msg => some (false, msg)
  | .ok (b, i) => do
    let tx ← b.txs[i]?
    return (true, tx.toJsonString)

/-- `Rpc::get_receipt`: the truth value and the answer; nothing if the position is not in the block
or the receipt stops the process. -/
def getReceipt [BoostJson] (db : StringMap) (h : Bytes) : Option (Bool × Bytes) :=
  match locate db h with
  | .error msg => some (false, msg)
  | .ok (b, i) => do
    let tr ← b.txReceipts[i]?
    let s ← tr.toJsonString
    return (true, s)

/-! ### What is found in the writes of a chain -/

section Found

omit [Keccak] [Pb hiPb.ExecBlk] [Pb hiPb.TxOnBlkInfo] [BoostJsonSerialize]

theorem decimalInt_toInt32 {n : UInt64} (h : n.toNat < 2 ^ 31) :
    decimalInt n.toUInt32.toInt32 = decimal n.toNat := by
  have hcut : n.toUInt32.toNat = n.toNat := by
    rw [UInt64.toNat_toUInt32]
    omega
  have hint : n.toUInt32.toInt32.toInt = n.toNat := by
    refine (BitVec.toInt_eq_toNat_of_lt ?_).trans (congrArg Nat.cast hcut)
    change 2 * n.toUInt32.toNat < _
    omega
  have hneg : ¬n.toUInt32.toInt32 < 0 := by
    rw [Int32.lt_iff_toInt_lt, hint]
    exact not_lt.2 (Int.natCast_nonneg _)
  rw [decimalInt, if_neg hneg, hint, Int.natAbs_natCast]

/-- A number that fits an `int` is not changed. -/
theorem getBlkFromChain_toInt32 [Keccak] [Pb hiPb.ExecBlk] (db : StringMap) {n : UInt64}
    (h : n.toNat < 2 ^ 31) :
    getBlkFromChain db n.toUInt32.toInt32 = WeakChain.getBlkFromChain db n.toNat := by
  rw [getBlkFromChain, WeakChain.getBlkFromChain, decimalInt_toInt32 h]

/-- What is in pairwise different lists only once has one list and one position in it. -/
theorem getElem?_inj_of_nodup_flatMap {α β : Type*} {l : List α} {f : α → List β}
    (h : (l.flatMap f).Nodup) {a b : α} (ha : a ∈ l) (hb : b ∈ l) {i j : ℕ} {x : β}
    (hi : (f a)[i]? = some x) (hj : (f b)[j]? = some x) : a = b ∧ i = j := by
  obtain ⟨hnodup, hdisjoint⟩ := List.nodup_flatMap.1 h
  have hab : a = b := by
    by_contra hne
    have : Std.Symm (Function.onFun List.Disjoint f) := ⟨fun _ _ hd => List.Disjoint.symm hd⟩
    exact hdisjoint.forall ha hb hne (List.mem_of_getElem? hi) (List.mem_of_getElem? hj)
  subst hab
  exact ⟨rfl, (List.getElem?_inj (List.getElem?_eq_some_iff.1 hi).1 (hnodup a ha)).1
    (hi.trans hj.symm)⟩

variable [Keccak] [Pb hiPb.ExecBlk] [Pb hiPb.TxOnBlkInfo] {answers : Stream' Bool}
  {bs : List ExecBlk}

omit [Pb hiPb.ExecBlk] [Pb hiPb.TxOnBlkInfo] in
/-- A hash has one place. -/
theorem place_unique (hdistinct : (bs.flatMap fun b => b.txs.map Tx.hash).Nodup) {b : ExecBlk}
    (hb : b ∈ bs) {i : ℕ} {t : Tx} (ht : b.txs[i]? = some t) {p : TxOnBlkInfo × Tx}
    (hp : p ∈ History.places answers bs) (hash : p.2.hash = t.hash) :
    p = (⟨b.number, .ofNat i⟩, t) := by
  obtain ⟨c, hc, k, hk, hplace⟩ := History.mem_places hp
  obtain ⟨rfl, rfl⟩ := getElem?_inj_of_nodup_flatMap hdistinct (x := t.hash) hc hb
    (i := k) (j := i) (by rw [List.getElem?_map, hk, Option.map_some, hash])
    (by rw [List.getElem?_map, ht, Option.map_some])
  exact Prod.ext hplace (Option.some.inj (hk.symm.trans ht))

/-- The place of a transaction is found if it was written. -/
theorem getTxOnBlkInfo_of_mem (hinfo : Pb.ReadsBack hiPb.TxOnBlkInfo)
    (hdistinct : (bs.flatMap fun b => b.txs.map Tx.hash).Nodup) {b : ExecBlk} (hb : b ∈ bs)
    {i : ℕ} {t : Tx} (ht : b.txs[i]? = some t)
    (hp : (⟨b.number, .ofNat i⟩, t) ∈ History.places answers bs) :
    getTxOnBlkInfo (Writes.apply ∅ (History.writes answers bs)) (hashToString t.hash) =
      .ok ⟨b.number, .ofNat i⟩ := by
  have hlookup : (Writes.apply ∅ (History.writes answers bs)).lookup
      (ascii "/tx/" ++ hashToString t.hash) =
        some (TxOnBlkInfo.toString ⟨b.number, .ofNat i⟩) := by
    refine Writes.lookup_of_unique (History.txKey_mem_writes.2 ⟨_, hp, rfl, rfl⟩) ?_
    intro v hv
    obtain ⟨q, hq, hash, rfl⟩ := History.txKey_mem_writes.1 hv
    rw [place_unique hdistinct hb ht hq hash]
  have hhex : fromHex 32 (hashToString t.hash) = some t.hash := fromHex_hex t.hash
  simp only [getTxOnBlkInfo, hhex, hlookup, TxOnBlkInfo.fromString_toString hinfo]

/-- The place of a transaction is not found if it was not written. -/
theorem getTxOnBlkInfo_of_notMem
    (hdistinct : (bs.flatMap fun b => b.txs.map Tx.hash).Nodup) {b : ExecBlk} (hb : b ∈ bs)
    {i : ℕ} {t : Tx} (ht : b.txs[i]? = some t)
    (hp : (⟨b.number, .ofNat i⟩, t) ∉ History.places answers bs) :
    ∃ msg, getTxOnBlkInfo (Writes.apply ∅ (History.writes answers bs)) (hashToString t.hash) =
      .error msg := by
  have hlookup : (Writes.apply ∅ (History.writes answers bs)).lookup
      (ascii "/tx/" ++ hashToString t.hash) = none := by
    rw [Finmap.lookup_eq_none, Writes.mem_apply, not_or]
    refine ⟨Finmap.notMem_empty, ?_⟩
    intro hk
    obtain ⟨⟨k, v⟩, hw, he⟩ := List.mem_map.1 hk
    obtain rfl : k = txKey t.hash := he
    obtain ⟨q, hq, hash, -⟩ := History.txKey_mem_writes.1 hw
    rw [place_unique hdistinct hb ht hq hash] at hq
    exact hp hq
  have hhex : fromHex 32 (hashToString t.hash) = some t.hash := fromHex_hex t.hash
  simp only [getTxOnBlkInfo, hhex, hlookup]
  exact ⟨_, rfl⟩

/-- The place leads to the block, with the senders that belong to the public keys. -/
theorem locate_of_mem (hblk : Pb.ReadsBack hiPb.ExecBlk) (hinfo : Pb.ReadsBack hiPb.TxOnBlkInfo)
    (hnumbers : (bs.map fun b => b.number.toNat).Nodup)
    (hdistinct : (bs.flatMap fun b => b.txs.map Tx.hash).Nodup) {b : ExecBlk} (hb : b ∈ bs)
    (hlt : b.number.toNat < 2 ^ 31) {i : ℕ} (hi : i < 2 ^ 64) {t : Tx} (ht : b.txs[i]? = some t)
    (hp : (⟨b.number, .ofNat i⟩, t) ∈ History.places answers bs) :
    locate (Writes.apply ∅ (History.writes answers bs)) (hashToString t.hash) =
      .ok (⟨b.toBlk.derived, b.stateChanges, b.txReceipts⟩, i) := by
  have hposition : (UInt64.ofNat i).toNat = i := UInt64.toNat_ofNat_of_lt hi
  rw [locate, getTxOnBlkInfo_of_mem hinfo hdistinct hb ht hp]
  simp only [bind, Except.bind, getBlkFromChain_toInt32 _ hlt,
    History.getBlkFromChain_writes hblk answers hnumbers hb, hposition]
  rfl

/-- **When a committed transaction is found.**  Blocks with different numbers below `2 ^ 31` and
with transactions of different hashes have been committed on a storage that may refuse writes.
For the transaction `t` at position `i` of the block `b`, and its receipt `r`, `get_tx` and
`get_receipt` answer with the JSON of exactly `t` and `r` if and only if the storage has made the
write of the place of `t`, the JSON of `t` stays the same when the sender is derived from the
public key, and `r` has a JSON.  The index of a vector is below `2 ^ 64`. -/
theorem found_iff [BoostJson] [BoostJsonSerialize] [Pb hiPb.Acn]
    (hblk : Pb.ReadsBack hiPb.ExecBlk) (hinfo : Pb.ReadsBack hiPb.TxOnBlkInfo) (E : ITxExecutable)
    (v : Option (Tx → Bool)) (st : StateDB) (answers : Stream' Bool) (bs : List ExecBlk)
    (hnumbers : (bs.map fun b => b.number.toNat).Nodup) (hlt : ∀ b ∈ bs, b.number.toNat < 2 ^ 31)
    (hdistinct : (bs.flatMap fun b => b.txs.map Tx.hash).Nodup)
    (hok : ((⟨answering, E, v⟩ : BlkExecutor _).commitBlks (⟨st, ∅⟩, answers) bs).2 = true)
    (b : ExecBlk) (hb : b ∈ bs) (i : ℕ) (hi : i < 2 ^ 64) (t : Tx) (ht : b.txs[i]? = some t)
    (r : TxReceipt) (hr : b.txReceipts[i]? = some r) :
    let db := ((⟨answering, E, v⟩ : BlkExecutor _).commitBlks (⟨st, ∅⟩, answers) bs).1.1.chainDB
    (getTx db (hashToString t.hash) = some (true, t.toJsonString) ∧
        ∃ s, r.toJsonString = some s ∧ getReceipt db (hashToString t.hash) = some (true, s)) ↔
      (⟨b.number, .ofNat i⟩, t) ∈ History.places answers bs ∧
        t.derived.toJsonString = t.toJsonString ∧ r.toJsonString.isSome = true := by
  intro db
  have hdb : db = Writes.apply ∅ (History.writes answers bs) := History.commitBlks_answering hok
  rw [hdb]
  by_cases hp : (⟨b.number, .ofNat i⟩, t) ∈ History.places answers bs
  · have hlocate := locate_of_mem hblk hinfo hnumbers hdistinct hb (hlt b hb) hi ht hp
    have htx : b.toBlk.derived.txs[i]? = some t.derived := by
      rw [Blk.derived, List.getElem?_map, ht]
      rfl
    simp only [getTx, getReceipt, hlocate, htx, hr, hp, true_and]
    cases hs : r.toJsonString with
    | none => simp
    | some s => simp [hs]
  · obtain ⟨msg, hmsg⟩ := getTxOnBlkInfo_of_notMem hdistinct hb ht hp
    have hlocate : locate (Writes.apply ∅ (History.writes answers bs)) (hashToString t.hash) =
        .error msg := by
      rw [locate, hmsg]
      rfl
    simp [getTx, hlocate, hp]

omit [Keccak] [Pb hiPb.ExecBlk] [Pb hiPb.TxOnBlkInfo] in
/-- An empty block and one with a transaction, on a storage that makes all writes. -/
theorem found_iff_second :
    let _ : Keccak := Sponge.keccak
    let _ : HashOrder Bytes32 := .insertion Bytes32
    let _ : Pb hiPb.Acn := Wire.pb hiPb.Acn
    let _ : Pb hiPb.TxOnBlkInfo := Wire.pb hiPb.TxOnBlkInfo
    let _ : Pb hiPb.ExecBlk := Wire.pb hiPb.ExecBlk
    let _ : BoostJson := ⟨fun _ => none, fun _ => none⟩
    let _ : BoostJsonSerialize := JsonText.serialize
    let tx := Tx.create (makeAddress 1) (makeAddress 2) [] 7 0
    let b (n : UInt64) (txs : List Tx) :=
      (BlkExecutor.inRam BlkExecutor.counter).executeBlk ⟨∅, ∅⟩ ⟨n, .zero 32, txs⟩
    let db := ((⟨answering, BlkExecutor.counter, none⟩ : BlkExecutor _).commitBlks
      (⟨∅, ∅⟩, .const true) [b 0 [], b 1 [tx]]).1.1.chainDB
    let receipt := TxReceipt.succeeded (be64 0) .evm
    getTx db (hashToString tx.hash) = some (true, tx.toJsonString) ∧
      ∃ s, receipt.toJsonString = some s ∧
        getReceipt db (hashToString tx.hash) = some (true, s) := by
  intro _ _ _ _ _ _ _ tx b db receipt
  have hmem : b 1 [tx] ∈ [b 0 [], b 1 [tx]] := List.mem_cons_of_mem _ (List.mem_singleton_self _)
  have hdistinct : ([b 0 [], b 1 [tx]].flatMap fun b => b.txs.map Tx.hash).Nodup :=
    List.nodup_singleton _
  have hderived : tx.derived = tx := Tx.derived_eq_self_iff.2 fun h => absurd rfl h
  exact (found_iff (Wire.readsBack hiPb.ExecBlk) (Wire.readsBack hiPb.TxOnBlkInfo)
    BlkExecutor.counter none ∅ (.const true) [b 0 [], b 1 [tx]] (by decide) (by decide) hdistinct
    rfl (b 1 [tx]) hmem 0 (by decide) tx rfl receipt rfl).2
    ⟨History.mem_places_const hmem rfl, congrArg Tx.toJsonString hderived, rfl⟩

omit [Keccak] [Pb hiPb.ExecBlk] [Pb hiPb.TxOnBlkInfo] in
/-- A block with one transaction, the place of which the storage refuses: the block is committed,
but the transaction does not exist on the chain. -/
theorem not_found :
    let _ : Keccak := Sponge.keccak
    let _ : HashOrder Bytes32 := .insertion Bytes32
    let _ : Pb hiPb.Acn := Wire.pb hiPb.Acn
    let _ : Pb hiPb.TxOnBlkInfo := Wire.pb hiPb.TxOnBlkInfo
    let _ : Pb hiPb.ExecBlk := Wire.pb hiPb.ExecBlk
    let _ : BoostJsonSerialize := JsonText.serialize
    let tx := Tx.create (makeAddress 1) (makeAddress 2) [] 7 0
    let b := (BlkExecutor.inRam BlkExecutor.counter).executeBlk ⟨∅, ∅⟩ ⟨0, .zero 32, [tx]⟩
    let r := (⟨answering, BlkExecutor.counter, none⟩ : BlkExecutor _).commitBlks
      (⟨∅, ∅⟩, .cons false (.const true)) [b]
    r.2 = true ∧ getTx r.1.1.chainDB (hashToString tx.hash) ≠ some (true, tx.toJsonString) := by
  intro _ _ _ _ _ _ tx b r
  refine ⟨rfl, ?_⟩
  have hdb : r.1.1.chainDB =
      Writes.apply ∅ (History.writes (.cons false (.const true)) [b]) :=
    History.commitBlks_answering rfl
  have hplace : (⟨0, .ofNat 0⟩, tx) ∉ History.places (.cons false (.const true)) [b] :=
    List.not_mem_nil
  have hdistinct : ([b].flatMap fun b => b.txs.map Tx.hash).Nodup := List.nodup_singleton _
  obtain ⟨msg, hmsg⟩ :=
    getTxOnBlkInfo_of_notMem hdistinct (List.mem_singleton_self b) rfl hplace
  have hget : getTx r.1.1.chainDB (hashToString tx.hash) = some (false, msg) := by
    rw [hdb, getTx, locate, hmsg]
    rfl
  intro h
  have hfalse : some false = some true := congrArg (Option.map Prod.fst) (hget.symm.trans h)
  cases hfalse

end Found

end Rpc

end WeakChain
