import WeakChain.Cnsss.LightExecutor
import WeakChain.Cnsss.ListenToOne

/-!
# Adding transactions over RPC

`POST /add_txs` takes an array of transactions in JSON, `POST /add_txs_pb` the same in protobuf.
The handlers give every transaction the time, drop those the verifier refuses, and pass the others
on to the consensus as one `ADD_TXS` command.

By default a node runs the light executor at the optimization level 2, where nothing is washed
because that "has been done in the upper layer".  This is the upper layer, and it does not look at
hashes either: a transaction is executed as often as it is sent (`Rpc.Node.executed_eq`), so every
hash is executed at most once exactly if it is sent at most once (`Rpc.Node.nodup_executed_iff`).
-/

namespace WeakChain

variable [Keccak]

/-! ### Transactions in JSON -/

/-- `evmc::from_hex(s)`. -/
def fromHexBytes (s : Bytes) : Option Bytes := fromHexLoop 0 none s

namespace Tx

/-- `Tx::typeFromString`; nothing if it throws. -/
def typeFromString (s : Bytes) : Option TxType :=
  if s = [] ∨ s = ascii "evm" then some .evm
  else if s = ascii "data" then some .data
  else if s = ascii "python" then some .python
  else none

variable [BoostJson]

/-- A number in a JSON object. -/
def uint64FromJson (o : List (Bytes × Json)) (k : Bytes) : Option UInt64 := do
  valueToUInt64 (← (Json.object o).at k)

/-- An address in a JSON object. -/
def addressFromJson (o : List (Bytes × Json)) (k : Bytes) : Option Address := do
  fromHex 20 (← valueToString (← (Json.object o).at k))

/-- The sender in a JSON object: derived from `pk_pem` if that is there. -/
def senderFromJson (o : List (Bytes × Json)) : Option (Bytes × Address) :=
  if Json.contains o (ascii "pk_pem") then do
    let pkPem ← valueToString (← (Json.object o).at (ascii "pk_pem"))
    return (pkPem, getFromFromPkPem pkPem)
  else do
    let fromAddr ← addressFromJson o (ascii "from")
    return ([], fromAddr)

/-- A field in hexadecimal that may be missing. -/
def hexFromJson (o : List (Bytes × Json)) (k : Bytes) : Option Bytes :=
  if Json.contains o k then do
    fromHexBytes (← valueToString (← (Json.object o).at k))
  else some []

/-- The type in a JSON object, `evm` if it is missing. -/
def typeFromJson (o : List (Bytes × Json)) : Option TxType :=
  if Json.contains o (ascii "type") then do
    typeFromString (← valueToString (← (Json.object o).at (ascii "type")))
  else some .evm

/-- The data in a JSON object: hexadecimal for `evm`, and anything else is taken as it is. -/
def dataFromJson (o : List (Bytes × Json)) (type : TxType) : Option Bytes := do
  let s ← valueToString (← (Json.object o).at (ascii "data"))
  if type = .evm then fromHexBytes s else some s

/-- `Tx::fromJson0`, into a fresh `Tx`; nothing if it throws. -/
def fromJson0 (o : List (Bytes × Json)) : Option Tx := do
  let sender ← senderFromJson o
  let signature ← hexFromJson o (ascii "signature")
  let pkCrt ← hexFromJson o (ascii "pk_crt")
  let nonce ← uint64FromJson o (ascii "nonce")
  let timestamp ← uint64FromJson o (ascii "timestamp")
  let type ← typeFromJson o
  let data ← dataFromJson o type
  let toAddr ← addressFromJson o (ascii "to")
  return {
    pkPem := sender.1
    signature := signature
    pkCrt := pkCrt
    type := type
    fromAddr := sender.2
    toAddr := toAddr
    data := data
    nonce := nonce
    timestamp := timestamp.toInt64 }

omit [BoostJson] in
theorem fromPkPem_of_senderFromJson {o : List (Bytes × Json)} {r : Bytes × Address}
    (h : senderFromJson o = some r) : r.1 ≠ [] → r.2 = getFromFromPkPem r.1 := by
  rw [senderFromJson] at h
  split_ifs at h
  · simp only [Option.bind_eq_bind, Option.bind_eq_some_iff] at h
    obtain ⟨_, -, pkPem, -, hr⟩ := h
    obtain rfl := Option.some.inj hr
    exact fun _ => rfl
  · simp only [Option.bind_eq_bind, Option.bind_eq_some_iff] at h
    obtain ⟨fromAddr, -, hr⟩ := h
    obtain rfl := Option.some.inj hr
    exact fun hne => absurd rfl hne

theorem fromPkPem_of_fromJson0 {o : List (Bytes × Json)} {t : Tx} (h : fromJson0 o = some t) :
    t.FromPkPem := by
  simp only [fromJson0, Option.bind_eq_bind, Option.bind_eq_some_iff] at h
  obtain ⟨sender, hsender, _, -, _, -, _, -, _, -, _, -, _, -, _, -, ht⟩ := h
  obtain rfl := Option.some.inj ht
  exact fromPkPem_of_senderFromJson hsender

end Tx

namespace Rpc

/-! ### The requests -/

/-- What a handler gets from the machine it runs on. -/
structure Env where
  /-- `std::time(nullptr)`, for the transaction number `i` of the request. -/
  time : ℕ → Int64
  /-- The text of a file, if it exists. -/
  readAllText : Bytes → Option Bytes

/-- Whether a transaction passes the verifier, if there is one. -/
def passes (verifier : Option (Tx → Bool)) (t : Tx) : Bool := verifier.all (· t)

/-- A contract is deployed. -/
def deploys (t : Tx) : Prop := t.type ≠ .data ∧ t.toAddr = .zero 20

instance (t : Tx) : Decidable (deploys t) := inferInstanceAs (Decidable (_ ∧ _))

section Json

variable [BoostJson]

/-- What the loop of `parse_txs_json_for_rpc` does to the object number `i`: it gets the time, and
data that starts with `@` are read from a file. -/
def prepare (env : Env) (i : ℕ) (o : List (Bytes × Json)) : Option (List (Bytes × Json)) :=
  let o := Json.emplace o (ascii "timestamp") (.int64 (env.time i))
  match (Json.object o).at (ascii "data") with
  | some (.string (64 :: path)) =>
    (env.readAllText path).map fun text => Json.set o (ascii "data") (.string text)
  | _ => some o

/-- The loop of `parse_txs_json_for_rpc`: the transactions that pass, or nothing if one of the
objects is not a transaction. -/
def txsFromJson (verifier : Option (Tx → Bool)) (env : Env) : ℕ → List Json → Option (List Tx)
  | _, [] => some []
  | i, v :: vs => do
    let o ← prepare env i (← v.asObject)
    let t ← Tx.fromJson0 o
    let ts ← txsFromJson verifier env (i + 1) vs
    return if passes verifier t then t :: ts else ts

/-- What is answered for a transaction. -/
def jsonReply (t : Tx) : Json :=
  .object ((ascii "hash", .string (hashToString t.hash)) ::
    if deploys t then
      [(ascii "deployed_address", .string (addressToString t.getContractDeployAddress))]
    else [])

/-- `parse_txs_jsonString_for_rpc`. -/
def parseTxsJsonStringForRpc [BoostJsonSerialize] (verifier : Option (Tx → Bool)) (env : Env)
    (s : Bytes) : Option (Bytes × List Tx) := do
  let a ← (← BoostJson.parse s).asArray
  let txs ← txsFromJson verifier env 0 a
  return (BoostJsonSerialize.serialize (.array (txs.map jsonReply)), txs)

theorem of_txsFromJson {verifier : Option (Tx → Bool)} {env : Env} {i : ℕ} {vs : List Json}
    {txs : List Tx} (h : txsFromJson verifier env i vs = some txs) :
    ∀ t ∈ txs, t.FromPkPem ∧ passes verifier t := by
  induction vs generalizing i txs with
  | nil =>
    obtain rfl := Option.some.inj h
    simp
  | cons v vs ih =>
    simp only [txsFromJson, Option.bind_eq_bind, Option.bind_eq_some_iff] at h
    obtain ⟨_, -, _, -, t, ht, ts, hts, hsome⟩ := h
    obtain rfl := Option.some.inj hsome
    split_ifs with hpass
    · exact List.forall_mem_cons.2 ⟨⟨Tx.fromPkPem_of_fromJson0 ht, hpass⟩, ih hts⟩
    · exact ih hts

end Json

/-- The loop of `parse_txs_pb_for_rpc`. -/
def txsFromPb (verifier : Option (Tx → Bool)) (env : Env) : ℕ → List hiPb.Tx → Option (List Tx)
  | _, [] => some []
  | i, pb :: pbs => do
    let t ← (Tx.fromPb pb).toOption
    let t := { t with timestamp := env.time i }
    let ts ← txsFromPb verifier env (i + 1) pbs
    return if passes verifier t then t :: ts else ts

/-- What is answered for a transaction. -/
def pbReply (t : Tx) : hiPb.AddTxReply where
  hash := toByteString t.hash
  deployedAddr := if deploys t then toByteStringAddress t.getContractDeployAddress else []

/-- `parse_txs_pbString_for_rpc`. -/
def parseTxsPbStringForRpc [Pb hiPb.Txs] [Pb hiPb.AddTxsReply] (verifier : Option (Tx → Bool))
    (env : Env) (s : Bytes) : Option (Bytes × List Tx) :=
  let r := parseFromString (M := hiPb.Txs) s
  if r.1 then
    (txsFromPb verifier env 0 r.2.txs).map fun txs =>
      (serializeAsString (⟨txs.map pbReply⟩ : hiPb.AddTxsReply), txs)
  else none

theorem of_txsFromPb {verifier : Option (Tx → Bool)} {env : Env} {i : ℕ} {pbs : List hiPb.Tx}
    {txs : List Tx} (h : txsFromPb verifier env i pbs = some txs) :
    ∀ t ∈ txs, t.FromPkPem ∧ passes verifier t := by
  induction pbs generalizing i txs with
  | nil =>
    obtain rfl := Option.some.inj h
    simp
  | cons pb pbs ih =>
    simp only [txsFromPb, Option.bind_eq_bind, Option.bind_eq_some_iff] at h
    obtain ⟨t, ht, ts, hts, hsome⟩ := h
    obtain rfl := Option.some.inj hsome
    have hkey : Tx.FromPkPem { t with timestamp := env.time i } := by
      cases hpb : Tx.fromPb pb with
      | error e =>
        rw [hpb] at ht
        cases ht
      | ok t' =>
        rw [hpb] at ht
        obtain rfl := Option.some.inj ht
        have hkey := Tx.fromPkPem_of_fromPb hpb
        exact hkey
    split_ifs with hpass
    · exact List.forall_mem_cons.2 ⟨⟨hkey, hpass⟩, ih hts⟩
    · exact ih hts

/-- Where a request is posted. -/
inductive Target
  /-- `/add_txs`. -/
  | addTxs
  /-- `/add_txs_pb`. -/
  | addTxsPb
  deriving DecidableEq

/-- A request that arrives at a node. -/
structure Request where
  target : Target
  data : Bytes
  env : Env
  /-- What becomes of the messages the consensus sends. -/
  fates : List ListenToOne.Fate

section Handlers

variable [BoostJson] [BoostJsonSerialize] [Pb hiPb.Txs] [Pb hiPb.AddTxsReply]

/-- What a handler parses: the answer for the client, and the transactions. -/
def Request.parse (verifier : Option (Tx → Bool)) (r : Request) : Option (Bytes × List Tx) :=
  match r.target with
  | .addTxs => parseTxsJsonStringForRpc verifier r.env r.data
  | .addTxsPb => parseTxsPbStringForRpc verifier r.env r.data

/-- What is answered to a request that cannot be parsed. -/
def Target.invalid : Target → Bytes
  | .addTxs => ascii "Invalid input JSON format."
  | .addTxsPb => ascii "Invalid input Pb format."

/-- The transactions of a request that are passed on. -/
def Request.accepted (verifier : Option (Tx → Bool)) (r : Request) : List Tx :=
  ((r.parse verifier).map Prod.snd).getD []

theorem of_accepted {verifier : Option (Tx → Bool)} {r : Request} :
    ∀ t ∈ r.accepted verifier, t.FromPkPem ∧ passes verifier t := by
  rw [Request.accepted]
  cases h : r.parse verifier with
  | none => simp
  | some p =>
    rw [Request.parse] at h
    cases htarget : r.target with
    | addTxs =>
      simp only [htarget, parseTxsJsonStringForRpc, Option.bind_eq_bind,
        Option.bind_eq_some_iff] at h
      obtain ⟨_, -, _, -, txs, htxs, hp⟩ := h
      obtain rfl := Option.some.inj hp
      exact of_txsFromJson htxs
    | addTxsPb =>
      simp only [htarget, parseTxsPbStringForRpc, Option.ite_none_right_eq_some,
        Option.map_eq_some_iff] at h
      obtain ⟨-, txs, htxs, rfl⟩ := h
      exact of_txsFromPb htxs

end Handlers

/-! ### The node -/

/-- `LightExeAndPartners`: the light executor with its default optimization level. -/
def lightExeAndPartners {W : Type*} (w : W) (p : Mempool) (nextBlkNumber : UInt64)
    (previousHash : Hash256) : LightExecutorForCnsss W :=
  ⟨w, p, nextBlkNumber, previousHash, 2⟩

/-- A node with the consensus `ListenToOneConsensus`, of which it is the primary. -/
abbrev Node (W : Type*) := ListenToOne.Group (LightExecutorForCnsss W)

namespace Node

open ExecutorForCnsss

variable {W : Type*} (e : BlkExecutor W) [BoostJson] [BoostJsonSerialize] [Pb hiPb.Txs]
  [Pb hiPb.Blk] [Pb hiPb.AddTxsReply] [Pb hiPb.TxOnBlkInfo] [Pb hiPb.ExecBlk]

/-- The command that `CnsssBlkChainAsstn::addTxs` makes. -/
def addTxsCmd (txs : List Tx) : Cmd := cmdAddTxs :: Tx.serializeFromArray txs

/-- `CnsssBlkChainAsstn::addTxs`: whether the consensus has answered, and a primary always does. -/
def addTxs (n : Node W) (txs : List Tx) (fates : List ListenToOne.Fate) : Node W × Bool :=
  let r := n.handleExecuteForPrimary (LightExecutorForCnsss.executable e.blkExecutable)
    (ascii "CLIENT") (addTxsCmd txs) fates
  (r.1, true)

/-- `add_txs_and_return_this`. -/
def addTxsAndReturnThis (n : Node W) (s : Bytes) (txs : List Tx)
    (fates : List ListenToOne.Fate) : Node W × Bool × Bytes :=
  if txs = [] then (n, true, s)
  else
    let r := n.addTxs e txs fates
    if r.2 then (r.1, true, s)
    else (r.1, false, ascii "Sorry, we have encountered some error in our side." ++
      ascii "So your requests to add Txs is failed. Please try again latter.")

/-- `handle_add_txs` and `handle_add_txs_pb`. -/
def handle (n : Node W) (r : Request) : Node W × Bool × Bytes :=
  match r.parse e.txVerifier with
  | none => (n, false, r.target.invalid)
  | some (s, txs) => n.addTxsAndReturnThis e s txs r.fates

/-- The transactions that a request makes the node execute. -/
def executedBy (n : Node W) (r : Request) : List Tx :=
  let txs := r.accepted e.txVerifier
  if txs = [] then []
  else
    (n.primary.exe.handedBy (addTxsCmd txs)).toList.flatMap fun b =>
      (e.executeBlk n.primary.exe.blk b).txs

/-- The transactions that the node executes while it handles a list of requests. -/
def executed (n : Node W) : List Request → List Tx
  | [] => []
  | r :: rs => n.executedBy e r ++ executed (n.handle e r).1 rs

/-- A request runs the executor on the transactions it passes on, if there are any. -/
theorem exe_handle (n : Node W) (r : Request) :
    (n.handle e r).1.primary.exe =
      if r.accepted e.txVerifier = [] then n.primary.exe
      else
        (n.primary.exe.execute e.blkExecutable (addTxsCmd (r.accepted e.txVerifier))).state := by
  rw [handle, Request.accepted]
  cases r.parse e.txVerifier with
  | none => rfl
  | some p =>
    simp only [addTxsAndReturnThis, Option.map_some, Option.getD_some]
    split_ifs <;> rfl

variable {e}

theorem optimizationLevel_handle (n : Node W) (r : Request) :
    (n.handle e r).1.primary.exe.optimizationLevel = n.primary.exe.optimizationLevel := by
  rw [exe_handle]
  split_ifs
  · rfl
  · rcases LightExecutorForCnsss.execute_handed (E := e.blkExecutable) n.primary.exe
      (addTxsCmd (r.accepted e.txVerifier)) with ⟨-, hstate⟩ | ⟨txs, b, -, hb⟩
    · rw [hstate]
    · exact hb.optimizationLevel

omit [Keccak] [BoostJson] [BoostJsonSerialize] [Pb hiPb.Txs] [Pb hiPb.Blk] [Pb hiPb.AddTxsReply]
  [Pb hiPb.TxOnBlkInfo] [Pb hiPb.ExecBlk] in
theorem filterTxs_of_passes {txs : List Tx} (h : ∀ t ∈ txs, passes e.txVerifier t) :
    e.filterTxs txs = txs := by
  rw [BlkExecutor.filterTxs]
  cases hv : e.txVerifier with
  | none => rfl
  | some verify =>
    refine List.filter_eq_self.2 fun t ht => ?_
    simpa [passes, hv] using h t ht

omit [Pb hiPb.TxOnBlkInfo] [Pb hiPb.ExecBlk] in
/-- **Everything that is passed on is executed** at the optimization level 2. -/
theorem executedBy_eq (hpb : Pb.ReadsBack hiPb.Txs) {n : Node W}
    (hlevel : n.primary.exe.optimizationLevel = 2) (r : Request) :
    n.executedBy e r = r.accepted e.txVerifier := by
  have hacc : ∀ t ∈ r.accepted e.txVerifier, t.FromPkPem ∧ passes e.txVerifier t := of_accepted
  rw [executedBy]
  split_ifs with hnil
  · exact hnil.symm
  · have hparse := Tx.parseToArray_serializeFromArray hpb fun t ht => (hacc t ht).1
    have hseal : LightExecutorForCnsss.toSeal (Tx.serializeFromArray (r.accepted e.txVerifier)) =
        some (r.accepted e.txVerifier) := by
      simp [LightExecutorForCnsss.toSeal, hparse, Except.toOption, hnil]
    have hwash : (n.primary.exe.wash (r.accepted e.txVerifier)).2 = r.accepted e.txVerifier := by
      rw [LightExecutorForCnsss.wash, if_neg (by omega)]
    rw [LightExecutorForCnsss.handedBy, addTxsCmd, switchCmd_cmdAddTxs, List.drop_one,
      List.tail_cons, hseal]
    simp only [Option.map_some, Option.toList_some, List.flatMap_singleton, BlkExecutor.executeBlk,
      LightExecutorForCnsss.nextBlk, hwash]
    exact filterTxs_of_passes fun t ht => (hacc t ht).2

/-- **A transaction is executed as often as it is sent.** -/
theorem executed_eq (hpb : Pb.ReadsBack hiPb.Txs) {n : Node W}
    (hlevel : n.primary.exe.optimizationLevel = 2) (rs : List Request) :
    n.executed e rs = rs.flatMap fun r => r.accepted e.txVerifier := by
  induction rs generalizing n with
  | nil => rfl
  | cons r rs ih =>
    have hlevel' : (n.handle e r).1.primary.exe.optimizationLevel = 2 :=
      (optimizationLevel_handle n r).trans hlevel
    rw [executed, List.flatMap_cons, executedBy_eq hpb hlevel, ih hlevel']

/-- **Replays.**  Over every sequence of requests to a node as it is assembled by default, every
transaction hash is executed at most once exactly if no two of the transactions that pass the
verifier, in one request or in different ones, have the same hash. -/
theorem nodup_executed_iff (hpb : Pb.ReadsBack hiPb.Txs) {n : Node W} {w : W} {p : Mempool}
    {k : UInt64} {h : Hash256} (hexe : n.primary.exe = lightExeAndPartners w p k h)
    (rs : List Request) :
    ((n.executed e rs).map Tx.hash).Nodup ↔
      (rs.flatMap fun r => (r.accepted e.txVerifier).map Tx.hash).Nodup := by
  have hlevel : n.primary.exe.optimizationLevel = 2 := by rw [hexe, lightExeAndPartners]
  rw [executed_eq hpb hlevel, List.map_flatMap]

/-- A node that starts on an empty chain. -/
def fresh : Node InRamWorldStorage :=
  ⟨⟨ascii "N1", lightExeAndPartners ⟨∅, ∅⟩ (.create ∅ 2) 0 (.zero 32), true, [], []⟩, fun _ => none⟩

/-- `POST /add_txs_pb` of one transaction. -/
def postPb (nonce : UInt64) : Request where
  target := .addTxsPb
  data := Tx.serializeFromArray [.create (makeAddress 1) (makeAddress 2) [] nonce 0]
  env := ⟨fun _ => 1690859945, fun _ => none⟩
  fates := []

omit [Keccak] [BoostJson] [BoostJsonSerialize] [Pb hiPb.Txs] [Pb hiPb.Blk] [Pb hiPb.AddTxsReply]
  [Pb hiPb.TxOnBlkInfo] [Pb hiPb.ExecBlk] in
/-- Two transactions with different nonces. -/
theorem nodup_executed_iff_two :
    let _ : Keccak := Sponge.keccak
    let _ : HashOrder Bytes32 := .insertion Bytes32
    let _ : Pb hiPb.Acn := Wire.pb hiPb.Acn
    let _ : Pb hiPb.Txs := Wire.pb hiPb.Txs
    let _ : Pb hiPb.Blk := Wire.pb hiPb.Blk
    let _ : Pb hiPb.AddTxsReply := Wire.pb hiPb.AddTxsReply
    let _ : Pb hiPb.TxOnBlkInfo := Wire.pb hiPb.TxOnBlkInfo
    let _ : Pb hiPb.ExecBlk := Wire.pb hiPb.ExecBlk
    let _ : BoostJson := ⟨fun _ => none, fun _ => none⟩
    let _ : BoostJsonSerialize := JsonText.serialize
    let e := BlkExecutor.inRam BlkExecutor.counter
    (fresh.executed e [postPb 7, postPb 8]).length = 2 ∧
      ((fresh.executed e [postPb 7, postPb 8]).map Tx.hash).Nodup := by
  intro _ _ _ _ _ _ _ _ _ _ e
  have hpb : Pb.ReadsBack hiPb.Txs := Wire.readsBack hiPb.Txs
  let tx (nonce : UInt64) : Tx := .create (makeAddress 1) (makeAddress 2) [] nonce 1690859945
  have hne : (tx 7).hash ≠ (tx 8).hash := by decide +kernel
  refine ⟨?_, (nodup_executed_iff (n := fresh) hpb rfl _).2 ?_⟩
  · rw [executed_eq hpb rfl]
    rfl
  · change [(tx 7).hash, (tx 8).hash].Nodup
    simpa using hne

omit [Keccak] [BoostJson] [BoostJsonSerialize] [Pb hiPb.Txs] [Pb hiPb.Blk] [Pb hiPb.AddTxsReply]
  [Pb hiPb.TxOnBlkInfo] [Pb hiPb.ExecBlk] in
/-- The same request twice: the transaction is executed twice. -/
theorem not_nodup_executed :
    let _ : Keccak := Sponge.keccak
    let _ : HashOrder Bytes32 := .insertion Bytes32
    let _ : Pb hiPb.Acn := Wire.pb hiPb.Acn
    let _ : Pb hiPb.Txs := Wire.pb hiPb.Txs
    let _ : Pb hiPb.Blk := Wire.pb hiPb.Blk
    let _ : Pb hiPb.AddTxsReply := Wire.pb hiPb.AddTxsReply
    let _ : Pb hiPb.TxOnBlkInfo := Wire.pb hiPb.TxOnBlkInfo
    let _ : Pb hiPb.ExecBlk := Wire.pb hiPb.ExecBlk
    let _ : BoostJson := ⟨fun _ => none, fun _ => none⟩
    let _ : BoostJsonSerialize := JsonText.serialize
    ¬∀ rs : List Request,
      ((fresh.executed (BlkExecutor.inRam BlkExecutor.counter) rs).map Tx.hash).Nodup := by
  intro _ _ _ _ _ _ _ _ _ _ hall
  obtain ⟨t, ht⟩ : ∃ t, (postPb 7).accepted none = [t] := ⟨_, rfl⟩
  have hexecuted : fresh.executed (BlkExecutor.inRam BlkExecutor.counter) [postPb 7, postPb 7] =
      [t, t] := by
    rw [executed_eq (Wire.readsBack hiPb.Txs) rfl, List.flatMap_cons, List.flatMap_singleton]
    change (postPb 7).accepted none ++ (postPb 7).accepted none = _
    rw [ht]
    rfl
  have hnodup := hall [postPb 7, postPb 7]
  rw [hexecuted] at hnodup
  exact (List.nodup_cons.1 hnodup).1 List.mem_cons_self

end Node

end Rpc

end WeakChain
