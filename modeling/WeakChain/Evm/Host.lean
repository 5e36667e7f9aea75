import WeakChain.Core.Acn
import WeakChain.Core.Tx

/-!
# The EVM and its host

The virtual machine is a parameter: on a code and a message it asks its host one question after the
other, and what it does next depends on the answers (`VmRun`).  `WeakEvmHost` is the host.  It keeps
the accounts that a transaction has touched, and reads the others from the world below.

A call that throws in a `noexcept` function ends the process; such a call has no answer (`none`).
-/

namespace WeakChain

namespace Evm

/-- `evmc_call_kind`. -/
inductive CallKind
  | call
  | delegatecall
  | callcode
  | create
  | create2
  deriving DecidableEq, Repr

/-- `kind >= EVMC_CREATE`. -/
def CallKind.isCreate : CallKind → Bool
  | .create | .create2 => true
  | _ => false

/-- `evmc_message`. -/
structure Message where
  kind : CallKind
  flags : UInt32 := 0
  depth : Int32 := 0
  gas : Int64
  recipient : Address
  sender : Address
  inputData : Bytes
  value : Bytes32 := .zero 32
  create2Salt : Bytes32 := .zero 32
  codeAddress : Address
  deriving DecidableEq

/-- `evmc_status_code`, an `enum` with many more values. -/
abbrev StatusCode := Int32

/-- `EVMC_SUCCESS`. -/
def statusSuccess : StatusCode := 0

/-- `EVMC_FAILURE`. -/
def statusFailure : StatusCode := 1

/-- `evmc::Result`. -/
structure Result where
  statusCode : StatusCode
  gasLeft : Int64
  gasRefund : Int64
  output : Bytes
  createAddress : Address := .zero 20
  deriving DecidableEq

/-- `evmc_storage_status`, as far as the host uses it. -/
inductive StorageStatus
  | deleted
  | modified
  deriving DecidableEq, Repr

/-- `evmc_access_status`. -/
inductive AccessStatus
  | cold
  | warm
  deriving DecidableEq, Repr

/-- `evmc_tx_context`. -/
structure TxContext where
  txGasPrice : Bytes32 := .zero 32
  txOrigin : Address := .zero 20
  blockCoinbase : Address := .zero 20
  blockNumber : Int64 := 0
  blockTimestamp : Int64 := 0
  blockGasLimit : Int64 := 0
  blockPrevRandao : Bytes32 := .zero 32
  chainId : Bytes32 := .zero 32
  blockBaseFee : Bytes32 := .zero 32
  deriving DecidableEq

/-- What a machine asks its host. -/
inductive HostCall
  | accountExists (a : Address)
  | getStorage (a : Address) (key : Bytes32)
  | setStorage (a : Address) (key value : Bytes32)
  | getBalance (a : Address)
  | getCodeSize (a : Address)
  | getCodeHash (a : Address)
  | copyCode (a : Address) (codeOffset bufferSize : ℕ)
  | selfdestruct (a beneficiary : Address)
  | call (msg : Message)
  | getTxContext
  | getBlockHash (number : Int64)
  | emitLog (a : Address) (data : Bytes) (topics : List Bytes32)
  | accessAccount (a : Address)
  | accessStorage (a : Address) (key : Bytes32)

/-- The type of the answer. -/
@[reducible] def HostCall.Answer : HostCall → Type
  | .accountExists _ => Bool
  | .getStorage _ _ => Bytes32
  | .setStorage _ _ _ => StorageStatus
  | .getBalance _ => Bytes32
  | .getCodeSize _ => ℕ
  | .getCodeHash _ => Bytes32
  | .copyCode _ _ _ => Bytes
  | .selfdestruct _ _ => Bool
  | .call _ => Result
  | .getTxContext => TxContext
  | .getBlockHash _ => Bytes32
  | .emitLog _ _ _ => Unit
  | .accessAccount _ => AccessStatus
  | .accessStorage _ _ => AccessStatus

/-- A run of the machine. -/
inductive VmRun
  | done (r : Result)
  | ask (q : HostCall) (k : q.Answer → VmRun)

/-- `evmc::VM`: what `execute` does with a code and a message. -/
structure Vm where
  /-- `execute`. -/
  execute : Bytes → Message → VmRun

/-! ### The host -/

/-- `std::set<address>::insert`. -/
def setInsert (a : Address) : List Address → List Address
  | [] => [a]
  | b :: bs =>
    if a = b then b :: bs
    else if Tx.bytesLt a.bytes b.bytes then a :: b :: bs
    else b :: setInsert a bs

/-- `WeakEvmHost`, without the world below it. -/
structure WeakEvmHost where
  /-- The accounts in memory. -/
  accounts : HashMap Address Acn
  /-- The accounts that called `selfdestruct`, in order. -/
  deadAcn : List Address
  /-- The accounts that `handleCreate` has made; for the statements only. -/
  created : List Address
  /-- They are in memory. -/
  created_mem : ∀ a ∈ created, accounts.contains a = true

namespace WeakEvmHost

@[ext] theorem ext {h h' : WeakEvmHost} (ha : h.accounts = h'.accounts)
    (hd : h.deadAcn = h'.deadAcn) (hc : h.created = h'.created) : h = h' := by
  cases h; cases h'; cases ha; cases hd; cases hc; rfl

/-- A host for a new transaction. -/
def init : WeakEvmHost := ⟨.empty, [], [], fun _ h => absurd h List.not_mem_nil⟩

variable (w : IAcnGettable) (h : WeakEvmHost)

/-- Put an account into the memory. -/
def setAcn (a : Address) (acn : Acn) : WeakEvmHost where
  accounts := h.accounts.set a acn
  deadAcn := h.deadAcn
  created := h.created
  created_mem := by
    intro b hb
    have := h.created_mem b hb
    rw [HashMap.contains, HashMap.find?_set]
    split_ifs
    · rfl
    · exact this

@[simp] theorem find?_setAcn {h : WeakEvmHost} {a : Address} {acn : Acn} :
    (h.setAcn a acn).accounts.find? a = some acn := by
  simp [setAcn, HashMap.find?_set]

/-- `account_exists`. -/
def accountExists (a : Address) : Bool :=
  !h.deadAcn.contains a && (h.accounts.contains a || (w a).isSome)

/-- An account, in memory or else in the world below. -/
def acn? (a : Address) : Option Acn :=
  match h.accounts.find? a with
  | some acn => some acn
  | none => w a

/-- `get_storage`. -/
def getStorage (a : Address) (key : Bytes32) : Bytes32 :=
  if h.accountExists w a then
    ((h.acn? w a).bind fun acn => acn.storage.find? key).getD (.zero 32)
  else .zero 32

/-- `set_storage`; an account that is nowhere is made. -/
def setStorage (a : Address) (key value : Bytes32) : WeakEvmHost :=
  let acn := (h.acn? w a).getD {}
  h.setAcn a { acn with storage := acn.storage.set key value }

/-- `copy_code`: the bytes that are copied.  The code is looked for in memory only. -/
def copyCode (a : Address) (codeOffset bufferSize : ℕ) : Option Bytes :=
  if h.accountExists w a then
    (h.accounts.find? a).map fun acn => (acn.code.drop codeOffset).take bufferSize
  else some []

/-- `get_code_size`. -/
def getCodeSize (a : Address) : ℕ := ((h.accounts.find? a).map fun acn => acn.code.length).getD 0

/-- `get_code_hash`. -/
def getCodeHash [Keccak] (a : Address) : Bytes32 :=
  ((h.accounts.find? a).map Acn.codehash).getD (.zero 32)

/-- `selfdestruct`. -/
def selfdestruct (a : Address) : WeakEvmHost := { h with deadAcn := setInsert a h.deadAcn }

/-- `tryAddAcnFromWorldState`; nothing if the account is not there. -/
def tryAddAcnFromWorldState (a : Address) : Option WeakEvmHost := (w a).map (h.setAcn a)

/-- A new contract, in place of whatever is in memory. -/
def deploy (a : Address) (nonce : UInt64) (code : Bytes) : WeakEvmHost where
  accounts := h.accounts.set a { nonce := nonce, code := code }
  deadAcn := h.deadAcn
  created := a :: h.created
  created_mem := by
    intro b hb
    rw [HashMap.contains, HashMap.find?_set]
    split_ifs with hba
    · rfl
    · exact h.created_mem b ((List.mem_cons.1 hb).resolve_left hba)

end WeakEvmHost

end Evm

end WeakChain
