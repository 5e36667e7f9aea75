import WeakChain.Evm.Executor

/-!
# The executor of diverse transactions

`Div2Executor` gives every transaction to the executor of its type.  A data transaction does
nothing, and one for the EVM is executed by `EvmExecutor`.

`PyTxExecutor` deploys and calls contracts in Python.  Two processes are run for it, and they are
parameters: the verifier, which writes the interface (`abi`) of a contract, and the interpreter.  A
contract is an account with the interface and the storage on its disk.  `executePyTx` is `noexcept`,
so an exception that nobody catches ends the process (`none`).
-/

namespace WeakChain

/-- What the executor of Python transactions takes from elsewhere. -/
structure PyVm where
  /-- The exit code of the verifier on a code, and `verifier-result.json` if it is there. -/
  verifier : Bytes → Int32 × Option Bytes
  /-- `PY_INVOKE_TEMPLATE`. -/
  invokeTemplate : Bytes
  /-- What becomes of a script with an `args.json`: the exit code, the output and `result.json`, or
  the exception if the process cannot be started. -/
  exec : Bytes → Bytes → Except Bytes (Int32 × Bytes × Bytes)
  /-- `operator==` of `boost::json`. -/
  jsonEq : Json → Json → Bool
  /-- What the exception of `as_object()` says. -/
  notAnObject : Bytes

/-- `boost::replace_all`; the number is how much of the text is part of the last occurrence. -/
def replaceAll (old new : Bytes) : ℕ → Bytes → Bytes
  | _, [] => []
  | k + 1, _ :: s => replaceAll old new k s
  | 0, c :: s =>
    if old.isPrefixOf (c :: s) then new ++ replaceAll old new (old.length - 1) s
    else c :: replaceAll old new 0 s

namespace PyTxExecutor

/-- A string up to its first zero (`c_str()`). -/
def cString (s : Bytes) : Bytes := s.takeWhile (· ≠ 0)

/-- The object for a failure. -/
def quit (s : Bytes) : List (Bytes × Json) := [(ascii "quit", .string s)]

/-- `verifyPyContract`: the interface, if the verifier accepts the code. -/
def verifyPyContract (py : PyVm) (pyCode : Bytes) : Option Bytes :=
  match py.verifier pyCode with
  | (exitCode, result) => if exitCode ≠ 0 then none else result

/-- `makePyTxCode`. -/
def makePyTxCode (pyCode template method : Bytes) : Bytes :=
  pyCode ++ [10, 10] ++ replaceAll (ascii "METHOD") method 0 template

/-- `weak::contains`; nothing if it throws. -/
def containsString : List Json → Bytes → Option Bool
  | [], _ => some false
  | v :: vs, s => do if (← v.asString) = s then some true else containsString vs s

/-- The arguments that are left when the required ones are taken, or the one that is missing.  Those
that begin with `_` are not required. -/
def takeArgs : List Json → List (Bytes × Json) → Option (Except Bytes (List (Bytes × Json)))
  | [], unused => some (.ok unused)
  | a :: as, unused => do
    let a ← a.asString
    if a.head? = some 95 then takeArgs as unused
    else if Json.contains unused a then takeArgs as (Json.erase unused a)
    else some (.error a)

variable [Keccak] [BoostJson] [BoostJsonSerialize]

omit [Keccak] [BoostJson] in
/-- `checkAndPrepareArgs`; nothing if it throws. -/
def checkAndPrepareArgs (invoke abi : List (Bytes × Json)) : Option (List (Bytes × Json)) :=
  match (Json.object invoke).at (ascii "method") with
  | none =>
    some (quit (ascii "Malformed invoke json: `method` not found in the invoke object"))
  | some m => do
    let method := cString (← m.asString)
    match (Json.object abi).at method with
    | none => some (quit (ascii "Method not found in abi: " ++ method))
    | some required => do
      let requiredArgs ← required.asArray
      match (((Json.object invoke).at (ascii "args")).getD (.object [])).asObject with
      | none => some (quit (ascii "Malformed invoke json: `args` should be an object"))
      | some args =>
        match ← takeArgs requiredArgs args with
        | .error a => some (quit (ascii "Required argument not found: `" ++ a ++ ascii "`"))
        | .ok unused =>
          if unused ≠ [] then
            some (quit (ascii "Excess arguments provided: " ++
              BoostJsonSerialize.serialize (.object unused)))
          else some args

omit [BoostJson] [BoostJsonSerialize] in
/-- `addTxContextToArgsMaybe`; nothing if it throws. -/
def addTxContextToArgsMaybe (requiredArgs : List Json) (args : List (Bytes × Json)) (t : Tx) :
    Option (List (Bytes × Json)) := do
  if ← containsString requiredArgs (ascii "_tx_context") then
    some (Json.assign args (ascii "_tx_context") (.object [
      (ascii "to", .string (addressToString t.toAddr)),
      (ascii "from", .string (addressToString t.fromAddr)),
      (ascii "timestamp", .int64 t.timestamp),
      (ascii "hash", .string (hashToString t.hash))]))
  else some args

/-- What `invokePyMethod` makes of what the script leaves. -/
def readResult (py : PyVm) (storage : Json) :
    Except Bytes (Int32 × Bytes × Bytes) → List (Bytes × Json)
  | .error what => quit what
  | .ok (exitCode, output, resultJson) =>
    if exitCode ≠ 0 then
      quit (ascii "Python-vm exited with non-zero exit code: " ++ decimalInt exitCode ++
        ascii "Output: " ++ output)
    else
      -- a text that cannot be parsed is `null`, and that is no object either
      match ((BoostJson.parse resultJson).getD .null).asObject with
      | none => quit py.notAnObject
      | some result =>
        let changed := ((Json.object result).at (ascii "storage")).filter fun s =>
          !py.jsonEq s storage
        [(ascii "result", ((Json.object result).at (ascii "result")).getD .null)] ++
          (changed.map fun s => (ascii "storage", s)).toList ++
          [(ascii "log", .string output)]

/-- `invokePyMethod`; nothing if it throws. -/
def invokePyMethod (py : PyVm) (invoke : List (Bytes × Json)) (pyCode : Bytes)
    (abi : List (Bytes × Json)) (t : Tx) (storage : Json) : Option (List (Bytes × Json)) := do
  let args ← checkAndPrepareArgs invoke abi
  if Json.contains args (ascii "quit") then some args
  else
    -- what is read here again has been checked
    let method := cString (← (← (Json.object invoke).at (ascii "method")).asString)
    let requiredArgs ← (← (Json.object abi).at method).asArray
    let args ← addTxContextToArgsMaybe requiredArgs args t
    let args :=
      if ← containsString requiredArgs (ascii "_storage") then
        Json.assign args (ascii "_storage") storage
      else args
    some (readResult py storage (py.exec (makePyTxCode pyCode py.invokeTemplate method)
      (BoostJsonSerialize.serialize (.object args))))

/-- `deployPyContract`; nothing if it throws.  If the code is refused or `init` fails, the account
is empty. -/
def deployPyContract (py : PyVm) (t : Tx) : Option (Acn × Bytes) :=
  match verifyPyContract py t.data with
  | none => some ({}, [])
  | some abi => do
    let a : Acn := { nonce := t.nonce, code := t.data, diskStorage := [abi] }
    let abiJson ← (← BoostJson.parse abi).asObject
    let noStorage := ascii "\x7b\x7d"
    if Json.contains abiJson (ascii "init") then do
      let r ← invokePyMethod py [(ascii "method", .string (ascii "init"))] t.data abiJson t
        (.object [])
      if Json.contains r (ascii "quit") then some ({}, [])
      else
        match (Json.object r).at (ascii "storage") with
        | some storage =>
          some ({ a with diskStorage := [abi, BoostJsonSerialize.serialize storage] },
            BoostJsonSerialize.serialize (.object (Json.erase r (ascii "storage"))))
        | none =>
          some ({ a with diskStorage := [abi, noStorage] },
            BoostJsonSerialize.serialize (.object r))
    else some ({ a with diskStorage := [abi, noStorage] }, [])

/-- `invokePyContract`: the account, if it is modified, and the result; nothing if it throws. -/
def invokePyContract (py : PyVm) (a : Acn) (invoke : List (Bytes × Json)) (t : Tx) :
    Option (Option Acn × Bytes) :=
  match a.diskStorage with
  | abi :: storage :: rest =>
    match (BoostJson.parse abi).bind Json.asObject with
    | none => some (none, [])
    | some abi' => do
      let method ← (← (Json.object invoke).at (ascii "method")).asString
      if !Json.contains abi' method then some (none, [])
      else
        match BoostJson.parse storage with
        | none => some (none, [])
        | some storage => do
          let r ← invokePyMethod py invoke a.code abi' t storage
          match (Json.object r).at (ascii "quit"), (Json.object r).at (ascii "storage") with
          | some q, _ => do
            -- the reason goes into the log, and it has to be a string
            let _ ← q.asString
            some (none, [])
          | none, some storage =>
            some (some { a with
                diskStorage := abi :: BoostJsonSerialize.serialize storage :: rest },
              BoostJsonSerialize.serialize (.object (Json.erase r (ascii "storage"))))
          | none, none => some (none, BoostJsonSerialize.serialize (.object r))
  | _ => some (none, [])

/-- `executePyTx`: the journal and the result, or nothing if it fails; and nothing at all if the
process ends. -/
def executePyTx [HashOrder Bytes32] [Pb hiPb.Acn] (py : PyVm) (w : IAcnGettable) (t : Tx) :
    Option (Option (Journal × Bytes)) :=
  if t.toAddr = .zero 20 then do
    -- whether there is an account at this address is not looked at
    let (a, res) ← deployPyContract py t
    some (some ([⟨false, addressToString t.getContractDeployAddress, a.toString⟩], res))
  else
    match (BoostJson.parse t.data).bind Json.asObject with
    | none => some none
    | some invoke =>
      if ((Json.object invoke).at (ascii "method")).bind Json.asString = none then some none
      else
        match w t.toAddr with
        | none => some none
        | some a => do
          match ← invokePyContract py a invoke t with
          | (none, res) => some (some ([], res))
          | (some a, res) =>
            some (some ([⟨false, addressToString t.toAddr, a.toString⟩], res))

end PyTxExecutor

/-- `Div2Executor`, with what it takes from elsewhere. -/
structure Div2Executor where
  /-- The virtual machine. -/
  vm : Evm.Vm
  /-- How many calls within calls there is room for. -/
  stack : ℕ
  /-- What the Python transactions need. -/
  py : PyVm

namespace Div2Executor

/-- `executeDataTx`: just say yes and do nothing. -/
def executeDataTx (_w : IAcnGettable) (_t : Tx) : Option (Journal × Bytes) := some ([], [])

variable [Keccak] [BoostJson] [BoostJsonSerialize] [HashOrder Address] [HashOrder Bytes32]
  [Pb hiPb.Acn]

/-- `Div2Executor::executeTx` in a process with the given counter: the counter afterwards, and what
is returned.  Nothing if the process ends. -/
def executeTx (e : Div2Executor) (w : IAcnGettable) (t : Tx) (nonce : UInt64) :
    Option (UInt64 × Option (Journal × Bytes)) :=
  match t.type with
  | .data => some (nonce, executeDataTx w t)
  | .python => (PyTxExecutor.executePyTx e.py w t).map fun r => (nonce, r)
  | .evm => Evm.executeTx e.vm w e.stack t nonce

end Div2Executor

end WeakChain
