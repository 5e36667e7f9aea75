import WeakChain.Evm.Analysis
import WeakChain.Evm.Host
import WeakChain.Evm.Intx
import WeakChain.Lib.Dialogue

/-!
# The state of an execution

What the instructions of the bundled machine work on: the stack, the memory, the gas, and the
questions to the host.  The source checks the stack, the memory and the code at some places and
relies on the check at others, and what it does there without one is undefined.  Here every access
is checked, and one that the source must not make ends the run with a `Fault`; so do the overflow of
a signed integer, and a difference between what an instruction does to the stack and what the table
says it does.
-/

namespace WeakChain

namespace Evm

/-! ### Status codes -/

/-- `EVMC_REVERT`. -/
def statusRevert : StatusCode := 2

/-- `EVMC_OUT_OF_GAS`. -/
def statusOutOfGas : StatusCode := 3

/-- `EVMC_INVALID_INSTRUCTION`. -/
def statusInvalidInstruction : StatusCode := 4

/-- `EVMC_UNDEFINED_INSTRUCTION`. -/
def statusUndefinedInstruction : StatusCode := 5

/-- `EVMC_STACK_OVERFLOW`. -/
def statusStackOverflow : StatusCode := 6

/-- `EVMC_STACK_UNDERFLOW`. -/
def statusStackUnderflow : StatusCode := 7

/-- `EVMC_BAD_JUMP_DESTINATION`. -/
def statusBadJumpDestination : StatusCode := 8

/-- `EVMC_INVALID_MEMORY_ACCESS`. -/
def statusInvalidMemoryAccess : StatusCode := 9

/-- `EVMC_STATIC_MODE_VIOLATION`. -/
def statusStaticModeViolation : StatusCode := 11

/-! ### The state -/

/-- What the source must not do. -/
inductive Fault
  /-- An access below the bottom of the stack or above its space. -/
  | stack
  /-- A stack height that is not the one of the table. -/
  | height
  /-- An access outside of the memory, or memory that does not grow. -/
  | memory
  /-- A read outside of the code. -/
  | code
  /-- An overflow of a signed integer. -/
  | overflow
  /-- An element of the header that is not there. -/
  | header
  /-- A return with no call. -/
  | callStack
  deriving DecidableEq, Repr

/-- `ExecutionState`, with the gas and the position of `dispatch`.  The top of the stack is the head
of the list. -/
structure ExecutionState where
  gasRefund : Int64 := 0
  memory : Bytes := []
  returnData : Bytes := []
  status : StatusCode := statusSuccess
  outputOffset : ℕ := 0
  outputSize : ℕ := 0
  /-- `m_tx`. -/
  tx : TxContext := {}
  callStack : List ℕ := []
  stack : List Word := []
  gasLeft : ℤ
  /-- `code_it`, from `executable_code.data()` on. -/
  codeIt : ℕ := 0
  deriving DecidableEq

/-- What an execution does not change. -/
structure Frame where
  msg : Message
  rev : Revision
  /-- `original_code`. -/
  originalCode : Bytes
  /-- `analysis.baseline`. -/
  analysis : CodeAnalysis

/-- `in_static_mode`. -/
def Frame.inStaticMode (fr : Frame) : Bool := fr.msg.flags &&& 1 != 0

/-- How an execution ends. -/
inductive Exit
  | halt (s : ExecutionState)
  | fault (f : Fault)

/-- A part of an execution. -/
abbrev Act (α : Type) := Dialogue HostCall HostCall.Answer Exit α

/-- End the execution. -/
def halt {α : Type} (status : StatusCode) (s : ExecutionState) : Act α :=
  .exit (.halt { s with status := status })

/-- What must not happen. -/
def fault {α : Type} (f : Fault) : Act α := .exit (.fault f)

/-- The value of a signed expression of 64 bits. -/
def int64 (x : ℤ) : Act ℤ := if -2 ^ 63 ≤ x ∧ x < 2 ^ 63 then .ret x else fault .overflow

/-- `if ((gas_left -= cost) < 0) return {EVMC_OUT_OF_GAS, gas_left};` -/
def charge (cost : ℕ) (s : ExecutionState) : Act ExecutionState := do
  let gas ← int64 (s.gasLeft - cost)
  if gas < 0 then halt statusOutOfGas { s with gasLeft := gas } else .ret { s with gasLeft := gas }

/-- `state.gas_refund += refund;` -/
def addRefund (refund : ℤ) (s : ExecutionState) : Act ExecutionState := do
  let gasRefund ← int64 (s.gasRefund.toInt + refund)
  .ret { s with gasRefund := Int64.ofInt gasRefund }

@[simp] theorem addRefund_zero (s : ExecutionState) : addRefund 0 s = .ret s := by
  have hle := s.gasRefund.le_toInt
  have hlt := s.gasRefund.toInt_lt
  rw [addRefund, add_zero, int64, if_pos ⟨hle, hlt⟩, Dialogue.ret_bind, Int64.ofInt_toInt]

/-! ### The stack -/

/-- `StackSpace::limit`. -/
def stackLimit : ℕ := 1024

/-- `StackTop::push`. -/
def push (x : Word) (s : ExecutionState) : Act ExecutionState :=
  if s.stack.length < stackLimit then .ret { s with stack := x :: s.stack } else fault .stack

/-! ### The memory -/

/-- `max_buffer_size`. -/
def maxBufferSize : ℕ := 2 ^ 32 - 1

/-- `num_words`. -/
def numWords (sizeInBytes : ℕ) : ℕ := (sizeInBytes + (32 - 1)) / 32

/-- The cost of a memory of some words. -/
def memoryCost (words : ℕ) : ℕ := 3 * words + words * words / 512

/-- `Memory::grow`; the new size must be larger than the current size and a multiple of 32. -/
def grow (newSize : ℕ) (s : ExecutionState) : Act ExecutionState :=
  if newSize % 32 = 0 ∧ s.memory.length < newSize then
    .ret { s with memory := s.memory ++ List.replicate (newSize - s.memory.length) 0 }
  else fault .memory

/-- `grow_memory`. -/
def growMemory (newSize : ℕ) (s : ExecutionState) : Act ExecutionState := do
  let newWords := numWords newSize
  let currentWords := s.memory.length / 32
  let cost : ℤ := memoryCost newWords - memoryCost currentWords
  let gas ← int64 (s.gasLeft - cost)
  if 0 ≤ gas then grow (newWords * 32) { s with gasLeft := gas } else .ret { s with gasLeft := gas }

/-- Is the word more than `max_buffer_size`? -/
def exceedsBuffer (x : Word) : Bool :=
  (Intx.limb x 3 ||| Intx.limb x 2 ||| Intx.limb x 1) != 0 ||
    decide (maxBufferSize < (Intx.limb x 0).toNat)

/-- `check_memory` for a size that is not a word, and what all its callers do if it fails. -/
def checkMemorySize (offset : Word) (size : ℕ) (s : ExecutionState) : Act ExecutionState :=
  if exceedsBuffer offset then halt statusOutOfGas s
  else do
    let newSize := Intx.toSize offset + size
    let s ← if s.memory.length < newSize then growMemory newSize s else .ret s
    if 0 ≤ s.gasLeft then .ret s else halt statusOutOfGas s

/-- `check_memory` for "copy" instructions. -/
def checkMemory (offset size : Word) (s : ExecutionState) : Act ExecutionState :=
  if size = 0 then .ret s
  else if exceedsBuffer size then halt statusOutOfGas s
  else checkMemorySize offset (Intx.toSize size) s

/-- Read from the memory. -/
def readMemory (offset size : ℕ) (s : ExecutionState) : Act Bytes :=
  if offset + size ≤ s.memory.length then .ret ((s.memory.drop offset).take size) else fault .memory

/-- Read from the memory, unless there is nothing to read: the offset may be garbage then. -/
def readMemory? (offset size : ℕ) (s : ExecutionState) : Act Bytes :=
  if 0 < size then readMemory offset size s else .ret []

/-- Some bytes in the place of others. -/
def overwrite (memory : Bytes) (offset : ℕ) (bs : Bytes) : Bytes :=
  memory.take offset ++ bs ++ memory.drop (offset + bs.length)

/-- Write to the memory. -/
def writeMemory (offset : ℕ) (bs : Bytes) (s : ExecutionState) : Act ExecutionState :=
  if offset + bs.length ≤ s.memory.length then
    .ret { s with memory := overwrite s.memory offset bs }
  else fault .memory

/-! ### The code -/

/-- Read from the code. -/
def readCode (fr : Frame) (offset size : ℕ) : Option Bytes :=
  if offset + size ≤ fr.analysis.executableCode.length then
    some ((fr.analysis.executableCode.drop offset).take size)
  else none

/-- What must be there. -/
def orFault {α : Type} (f : Fault) : Option α → Act α
  | some a => .ret a
  | none => fault f

/-! ### The host -/

/-- Ask the host. -/
def askHost (q : HostCall) : Act q.Answer := .ask q .ret

/-- `get_tx_context`: the host is asked until it gives a timestamp. -/
def getTxContext (s : ExecutionState) : Act (TxContext × ExecutionState) :=
  if s.tx.blockTimestamp = 0 then do
    let tx ← askHost .getTxContext
    .ret (tx, { s with tx := tx })
  else .ret (s.tx, s)

/-- From `EVMC_BERLIN` on a cold account costs more. -/
def accessAccount (fr : Frame) (a : Address) (cost : ℕ) (s : ExecutionState) :
    Act ExecutionState :=
  if .berlin ≤ fr.rev then do
    let access ← askHost (.accessAccount a)
    if access = .cold then charge cost s else .ret s
  else .ret s

end Evm

end WeakChain
