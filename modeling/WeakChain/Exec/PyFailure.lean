import WeakChain.Evm.Counter
import WeakChain.Exec.BlkExecutor
import WeakChain.Exec.PyArgs

/-!
# Python transactions that fail

`Fails` follows every way in which a deployment or a call of a Python contract can fail.  A failure
goes through several functions before it reaches the block, and each has a sign of its own for it:
`quit` in an object, no account, an empty result.

`executePyTx` returns nothing, which is the sign of a transaction that failed, only if the object of
the call is malformed or there is no account.  The deployment of a contract that is refused writes
an empty account instead, and any other call that fails counts as one that changed nothing
(`executePyTx_of_fails`).  So `silent_iff` says which failures leave an empty journal and a receipt
that says so.
-/

namespace WeakChain

namespace PyTxExecutor

section Fails

variable [Keccak] [BoostJson] [BoostJsonSerialize]

/-- The object of a call, if the method is a string. -/
def invokeOf (t : Tx) : Option (List (Bytes × Json)) := do
  let invoke ← (BoostJson.parse t.data).bind Json.asObject
  if (((Json.object invoke).at (ascii "method")).bind Json.asString).isSome then some invoke
  else none

/-- What is on the disk of a contract, if it is a contract that has the method of the call: the
interface and the storage. -/
def contractOf (a : Acn) (invoke : List (Bytes × Json)) : Option (List (Bytes × Json) × Json) :=
  match a.diskStorage with
  | abi :: storage :: _ => do
    let abi ← (BoostJson.parse abi).bind Json.asObject
    let method ← ((Json.object invoke).at (ascii "method")).bind Json.asString
    if Json.contains abi method then (BoostJson.parse storage).map fun storage => (abi, storage)
    else none
  | _ => none

/-- A script cannot be started, exits with another code than zero (as one that takes too long does),
or leaves a result that is no object. -/
def RunFails : Except Bytes (Int32 × Bytes × Bytes) → Prop
  | .error _ => True
  | .ok (exitCode, _, result) => exitCode ≠ 0 ∨ (BoostJson.parse result).bind Json.asObject = none

/-- A method of a contract fails: the arguments are refused, or the script fails. -/
inductive MethodFails (py : PyVm) (invoke : List (Bytes × Json)) (pyCode : Bytes)
    (abi : List (Bytes × Json)) (t : Tx) (storage : Json) : Prop
  | args {s : Bytes} (hargs : checkAndPrepareArgs invoke abi = some (quit s))
  | run {method : Bytes} {args : List (Bytes × Json)}
      (hprepare : prepare invoke abi t storage = some (.ok (method, args)))
      (hrun : RunFails (py.exec (makePyTxCode pyCode py.invokeTemplate method)
        (BoostJsonSerialize.serialize (.object args))))

/-- A Python transaction fails. -/
inductive Fails (py : PyVm) (w : IAcnGettable) (t : Tx) : Prop
  /-- The verifier refuses the code. -/
  | rejected (hto : t.toAddr = .zero 20) (hverify : verifyPyContract py t.data = none)
  /-- The method `init` fails. -/
  | init (hto : t.toAddr = .zero 20) {text : Bytes} {abi : List (Bytes × Json)}
      (hverify : verifyPyContract py t.data = some text)
      (hparse : (BoostJson.parse text).bind Json.asObject = some abi)
      (hinit : Json.contains abi (ascii "init") = true)
      (hfails : MethodFails py [(ascii "method", .string (ascii "init"))] t.data abi t (.object []))
  /-- The object of the call is malformed. -/
  | malformed (hto : t.toAddr ≠ .zero 20) (hinvoke : invokeOf t = none)
  /-- There is no account. -/
  | noAccount (hto : t.toAddr ≠ .zero 20) (hacn : w t.toAddr = none)
  /-- The account is no contract that has the method. -/
  | noMethod (hto : t.toAddr ≠ .zero 20) {invoke : List (Bytes × Json)} {a : Acn}
      (hinvoke : invokeOf t = some invoke) (hacn : w t.toAddr = some a)
      (hcontract : contractOf a invoke = none)
  /-- The method fails. -/
  | method (hto : t.toAddr ≠ .zero 20) {invoke abi : List (Bytes × Json)} {a : Acn}
      {storage : Json} (hinvoke : invokeOf t = some invoke) (hacn : w t.toAddr = some a)
      (hcontract : contractOf a invoke = some (abi, storage))
      (hfails : MethodFails py invoke a.code abi t storage)

omit [Keccak] [BoostJsonSerialize] in
theorem readResult_of_runFails {py : PyVm} {storage : Json}
    {r : Except Bytes (Int32 × Bytes × Bytes)} (h : RunFails r) :
    ∃ s, readResult py storage r = quit s := by
  rcases r with what | ⟨exitCode, output, result⟩
  · exact ⟨what, rfl⟩
  · rw [readResult]
    by_cases hcode : exitCode ≠ 0
    · exact ⟨_, if_pos hcode⟩
    · -- nothing is read if the text cannot be parsed or is no object
      have hresult : ((BoostJson.parse result).getD .null).asObject = none := by
        have hnone := h.resolve_left hcode
        cases hparse : BoostJson.parse result with
        | none => rfl
        | some v => rwa [hparse] at hnone
      rw [if_neg hcode, hresult]
      exact ⟨_, rfl⟩

/-- What is returned for a method that fails. -/
theorem MethodFails.invokePyMethod_eq {py : PyVm} {invoke abi : List (Bytes × Json)}
    {pyCode : Bytes} {t : Tx} {storage : Json}
    (h : MethodFails py invoke pyCode abi t storage) :
    ∃ s, invokePyMethod py invoke pyCode abi t storage = some (quit s) := by
  rw [PyTxExecutor.invokePyMethod_eq]
  cases h with
  | args hargs =>
    rw [prepare, hargs]
    exact ⟨_, rfl⟩
  | run hprepare hrun =>
    rw [hprepare]
    obtain ⟨s, hs⟩ := readResult_of_runFails hrun
    exact ⟨s, congrArg some hs⟩

/-- What becomes of a deployment that fails: the account is empty. -/
theorem deployPyContract_of_fails {py : PyVm} {w : IAcnGettable} {t : Tx} (h : Fails py w t)
    (hto : t.toAddr = .zero 20) : deployPyContract py t = some ({}, []) := by
  cases h with
  | rejected _ hverify => rw [deployPyContract, hverify]
  | init _ hverify hparse hinit hfails =>
    obtain ⟨v, hv, hobject⟩ := Option.bind_eq_some_iff.1 hparse
    obtain ⟨s, hs⟩ := hfails.invokePyMethod_eq
    rw [deployPyContract, hverify]
    simp only [hv, Option.bind_eq_bind, Option.bind_some, hobject, if_pos hinit, hs]
    rfl
  | malformed hne | noAccount hne | noMethod hne | method hne => exact absurd hto hne

omit [Keccak] [BoostJsonSerialize] in
theorem exists_method_of_invokeOf {t : Tx} {invoke : List (Bytes × Json)}
    (h : invokeOf t = some invoke) :
    (BoostJson.parse t.data).bind Json.asObject = some invoke ∧
      ∃ v m, (Json.object invoke).at (ascii "method") = some v ∧ v.asString = some m := by
  obtain ⟨o, hparse, ho⟩ := Option.bind_eq_some_iff.1 h
  split_ifs at ho with hmethod
  obtain rfl := Option.some.inj ho
  obtain ⟨m, hm⟩ := Option.isSome_iff_exists.1 hmethod
  obtain ⟨v, hv, hstring⟩ := Option.bind_eq_some_iff.1 hm
  exact ⟨hparse, v, m, hv, hstring⟩

theorem invokePyContract_of_noMethod {py : PyVm} {a : Acn} {invoke : List (Bytes × Json)} {t : Tx}
    (hinvoke : invokeOf t = some invoke) (hcontract : contractOf a invoke = none) :
    invokePyContract py a invoke t = some (none, []) := by
  obtain ⟨-, v, m, hv, hm⟩ := exists_method_of_invokeOf hinvoke
  rw [invokePyContract]
  rcases hdisk : a.diskStorage with _ | ⟨abi, _ | ⟨storage, rest⟩⟩
  · rfl
  · rfl
  · simp only [contractOf, hdisk, hv, Option.bind_some, hm] at hcontract
    cases habi : (BoostJson.parse abi).bind Json.asObject with
    | none => simp only [habi]
    | some abi' =>
      simp only [habi, hv, hm, Option.bind_eq_bind, Option.bind_some] at hcontract ⊢
      by_cases hmethod : Json.contains abi' m = true
      · rw [if_pos hmethod] at hcontract
        simp only [hmethod, Option.map_eq_none_iff.1 hcontract]
        rfl
      · simp [hmethod]

/-- A call of a method that the contract has. -/
theorem invokePyContract_of_contract (py : PyVm) {a : Acn} {invoke abi : List (Bytes × Json)}
    {storage : Json} (t : Tx) (hcontract : contractOf a invoke = some (abi, storage)) :
    ∃ text rest, invokePyContract py a invoke t =
      (invokePyMethod py invoke a.code abi t storage).bind fun r =>
        match (Json.object r).at (ascii "quit"), (Json.object r).at (ascii "storage") with
        | some q, _ => q.asString.bind fun _ => some (none, [])
        | none, some storage =>
          some (some { a with
              diskStorage := text :: BoostJsonSerialize.serialize storage :: rest },
            BoostJsonSerialize.serialize (.object (Json.erase r (ascii "storage"))))
        | none, none => some (none, BoostJsonSerialize.serialize (.object r)) := by
  rcases hdisk : a.diskStorage with _ | ⟨text, _ | ⟨storageText, rest⟩⟩
  · simp [contractOf, hdisk] at hcontract
  · simp [contractOf, hdisk] at hcontract
  · simp only [contractOf, hdisk, Option.bind_eq_bind, Option.bind_eq_some_iff] at hcontract
    obtain ⟨abi', habi, m, ⟨v, hv, hm⟩, hcontract⟩ := hcontract
    split_ifs at hcontract with hmethod
    obtain ⟨storage', hstorage, heq⟩ := Option.map_eq_some_iff.1 hcontract
    cases heq
    have hparse : (BoostJson.parse text).bind Json.asObject = some abi :=
      Option.bind_eq_some_iff.2 habi
    refine ⟨text, rest, ?_⟩
    rw [invokePyContract]
    simp only [hdisk, hparse, hv, hm, Option.bind_eq_bind, Option.bind_some, hmethod, hstorage]
    rfl

theorem invokePyContract_of_method {py : PyVm} {a : Acn} {invoke abi : List (Bytes × Json)}
    {storage : Json} {t : Tx} (hcontract : contractOf a invoke = some (abi, storage))
    (hfails : MethodFails py invoke a.code abi t storage) :
    invokePyContract py a invoke t = some (none, []) := by
  obtain ⟨s, hs⟩ := hfails.invokePyMethod_eq
  obtain ⟨text, rest, hinvoke⟩ := invokePyContract_of_contract py t hcontract
  rw [hinvoke, hs]
  rfl

variable [HashOrder Bytes32] [Pb hiPb.Acn]

theorem executePyTx_of_malformed {py : PyVm} {w : IAcnGettable} {t : Tx}
    (hto : t.toAddr ≠ .zero 20) (hinvoke : invokeOf t = none) :
    executePyTx py w t = some none := by
  rw [executePyTx, if_neg hto]
  cases hparse : (BoostJson.parse t.data).bind Json.asObject with
  | none => rfl
  | some invoke =>
    simp only [invokeOf, hparse, Option.bind_eq_bind, Option.bind_some] at hinvoke
    split_ifs at hinvoke with hmethod
    exact if_pos (Option.not_isSome_iff_eq_none.1 hmethod)

theorem executePyTx_of_invokeOf {py : PyVm} {w : IAcnGettable} {t : Tx}
    (hto : t.toAddr ≠ .zero 20) {invoke : List (Bytes × Json)}
    (hinvoke : invokeOf t = some invoke) :
    executePyTx py w t =
      match w t.toAddr with
      | none => some none
      | some a => (invokePyContract py a invoke t).map fun r =>
        some ((r.1.map fun a => ⟨false, addressToString t.toAddr, a.toString⟩).toList, r.2) := by
  obtain ⟨hparse, v, m, hv, hm⟩ := exists_method_of_invokeOf hinvoke
  have hmethod : ((Json.object invoke).at (ascii "method")).bind Json.asString = some m := by
    rw [hv, Option.bind_some, hm]
  rw [executePyTx, if_neg hto, hparse]
  dsimp only
  rw [hmethod, if_neg (Option.some_ne_none m)]
  cases w t.toAddr with
  | none => rfl
  | some a =>
    dsimp only
    rcases invokePyContract py a invoke t with _ | ⟨_ | a', res⟩ <;> rfl

/-- What is returned for a transaction that fails. -/
theorem executePyTx_of_fails {py : PyVm} {w : IAcnGettable} {t : Tx} (h : Fails py w t) :
    executePyTx py w t = some (
      if t.toAddr = .zero 20 then
        some ([⟨false, addressToString t.getContractDeployAddress, ({} : Acn).toString⟩], [])
      else if invokeOf t = none ∨ w t.toAddr = none then none
      else some ([], [])) := by
  by_cases hto : t.toAddr = .zero 20
  · rw [executePyTx, if_pos hto, deployPyContract_of_fails h hto, if_pos hto]
    rfl
  · rw [if_neg hto]
    cases hinvoke : invokeOf t with
    | none => rw [executePyTx_of_malformed hto hinvoke, if_pos (.inl rfl)]
    | some invoke =>
      rw [executePyTx_of_invokeOf hto hinvoke]
      cases hacn : w t.toAddr with
      | none => rw [if_pos (.inr rfl)]
      | some a =>
        have hcall : invokePyContract py a invoke t = some (none, []) := by
          cases h with
          | rejected hto' | init hto' => exact absurd hto' hto
          | malformed _ hinvoke' =>
            rw [hinvoke'] at hinvoke
            cases hinvoke
          | noAccount _ hacn' =>
            rw [hacn'] at hacn
            cases hacn
          | noMethod _ hinvoke' hacn' hcontract =>
            obtain rfl := Option.some.inj (hinvoke'.symm.trans hinvoke)
            obtain rfl := Option.some.inj (hacn'.symm.trans hacn)
            exact invokePyContract_of_noMethod hinvoke hcontract
          | method _ hinvoke' hacn' hcontract hfails =>
            obtain rfl := Option.some.inj (hinvoke'.symm.trans hinvoke)
            obtain rfl := Option.some.inj (hacn'.symm.trans hacn)
            exact invokePyContract_of_method hcontract hfails
        simp only [hcall]
        rfl

end Fails

section Blk

variable [Keccak] [BoostJson] [BoostJsonSerialize] [HashOrder Address] [HashOrder Bytes32]
  [Pb hiPb.Acn] {W : Type*}

omit [BoostJson] [BoostJsonSerialize] [HashOrder Address] [HashOrder Bytes32] [Pb hiPb.Acn]
  [Keccak] in
/-- A transaction of a block changes nothing, and its receipt says that it failed. -/
structure Silent (b : ExecBlk) (i : ℕ) : Prop where
  stateChanges : b.stateChanges[i]? = some []
  txReceipts : b.txReceipts[i]?.map TxReceipt.ok = some false

omit [BoostJson] [BoostJsonSerialize] [HashOrder Address] [HashOrder Bytes32] [Pb hiPb.Acn]
  [Keccak] in
theorem silent_executeBlk_iff (e : BlkExecutor W) {w : W} {b : Blk} {i : ℕ} {t : Tx}
    (ht : (e.executeBlk w b).txs[i]? = some t) :
    Silent (e.executeBlk w b) i ↔ e.txExecutor.executeTx (e.world.getAcn w) t = none := by
  have hchanges : (e.executeBlk w b).stateChanges[i]? =
      some (journalOf (e.txExecutor.executeTx (e.world.getAcn w) t)) := by
    change ((e.executeBlk w b).txs.map _)[i]? = _
    rw [List.getElem?_map, ht]
    rfl
  have hreceipts := BlkExecutor.txReceipts_executeBlk ht
  constructor
  · intro h
    have hok := h.txReceipts
    rw [hreceipts] at hok
    cases hr : e.txExecutor.executeTx (e.world.getAcn w) t with
    | none => rfl
    | some r =>
      rw [hr] at hok
      cases hok
  · intro h
    rw [h] at hchanges hreceipts
    exact ⟨hchanges, by rw [hreceipts]; rfl⟩

/-- **A transaction that fails changes nothing and says so**: for every world, every block and every
Python transaction in it that fails, the journal is empty and the receipt says that it failed if and
only if it is a call, and the object of the call is malformed or there is no account. -/
theorem silent_iff (e : BlkExecutor W) (d : Div2Executor) {w : W} {b : Blk} {i : ℕ} {t : Tx}
    (ht : (e.executeBlk w b).txs[i]? = some t) (hpython : t.type = .python)
    (hexec : ∃ nonce nonce', d.executeTx (e.world.getAcn w) t nonce =
      some (nonce', e.txExecutor.executeTx (e.world.getAcn w) t))
    (hfails : Fails d.py (e.world.getAcn w) t) :
    Silent (e.executeBlk w b) i ↔
      t.toAddr ≠ .zero 20 ∧ (invokeOf t = none ∨ e.world.getAcn w t.toAddr = none) := by
  obtain ⟨nonce, nonce', hexec⟩ := hexec
  rw [Div2Executor.executeTx, hpython] at hexec
  dsimp only at hexec
  rw [executePyTx_of_fails hfails, Option.map_some] at hexec
  rw [silent_executeBlk_iff e ht, ← (Prod.mk.inj (Option.some.inj hexec)).2]
  by_cases hto : t.toAddr = .zero 20
  · rw [if_pos hto]
    exact iff_of_false (Option.some_ne_none _) fun h => h.1 hto
  · rw [if_neg hto]
    by_cases hrefused : invokeOf t = none ∨ e.world.getAcn w t.toAddr = none
    · exact iff_of_true (if_pos hrefused) ⟨hto, hrefused⟩
    · rw [if_neg hrefused]
      exact iff_of_false (Option.some_ne_none _) fun h => hrefused h.2

end Blk

/-! ### A verifier that refuses -/

/-- A machine that stops at once, and a verifier that refuses every code. -/
def refusing : Div2Executor where
  vm := Evm.stopVm
  stack := 1
  py := ⟨fun _ => (1, none), [], fun _ _ => .error [], fun _ _ => true, []⟩

/-- A parser that parses nothing. -/
@[reducible] def noJson : BoostJson := ⟨fun _ => none, fun _ => none⟩

/-- A Python transaction with the text `bad`. -/
def badTx (toAddr : Address) : Tx where
  pkPem := []
  signature := []
  pkCrt := []
  type := .python
  fromAddr := makeAddress 1
  toAddr := toAddr
  data := ascii "bad"
  nonce := 123
  timestamp := 0

/-- The executor, in a process that has deployed nothing. -/
def executorOf [Keccak] [BoostJson] [BoostJsonSerialize] [HashOrder Address] [HashOrder Bytes32]
    [Pb hiPb.Acn] (d : Div2Executor) : ITxExecutable :=
  ⟨fun w t => (d.executeTx w t 0).bind Prod.snd⟩

/-- A call with something else than an object: nothing is changed, and the receipt says so. -/
theorem silent_iff_bad :
    let _ : Keccak := Sponge.keccak
    let _ : HashOrder Address := .insertion Address
    let _ : HashOrder Bytes32 := .insertion Bytes32
    let _ : Pb hiPb.Acn := Wire.pb hiPb.Acn
    let _ : BoostJson := noJson
    let _ : BoostJsonSerialize := JsonText.serialize
    Silent ((BlkExecutor.inRam (executorOf refusing)).executeBlk ⟨∅, ∅⟩
      ⟨0, .zero 32, [badTx (makeAddress 2)]⟩) 0 := by
  intro _ _ _ _ _ _
  have hto : (badTx (makeAddress 2)).toAddr ≠ .zero 20 := by decide
  exact (silent_iff _ refusing rfl rfl ⟨0, 0, rfl⟩ (.malformed hto rfl)).2 ⟨hto, .inl rfl⟩

/-- A deployment that the verifier refuses: an account is written, and the receipt says that the
transaction was executed. -/
theorem not_silent :
    let _ : Keccak := Sponge.keccak
    let _ : HashOrder Address := .insertion Address
    let _ : HashOrder Bytes32 := .insertion Bytes32
    let _ : Pb hiPb.Acn := Wire.pb hiPb.Acn
    let _ : BoostJson := noJson
    let _ : BoostJsonSerialize := JsonText.serialize
    let w : InRamWorldStorage := ⟨∅, ∅⟩
    let e := BlkExecutor.inRam (executorOf refusing)
    let executed := e.executeBlk w ⟨0, .zero 32, [badTx (.zero 20)]⟩
    refusing.executeTx (e.world.getAcn w) (badTx (.zero 20)) 0 =
        some (0, e.txExecutor.executeTx (e.world.getAcn w) (badTx (.zero 20))) ∧
      Fails refusing.py (e.world.getAcn w) (badTx (.zero 20)) ∧ ¬Silent executed 0 := by
  intro _ _ _ _ _ _ w e executed
  refine ⟨rfl, .rejected rfl rfl, fun h => ?_⟩
  cases h.txReceipts

end PyTxExecutor

end WeakChain
