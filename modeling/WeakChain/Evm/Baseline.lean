import WeakChain.Evm.Calls
import WeakChain.Evm.Instructions

/-!
# The baseline interpreter

`dispatch` executes one instruction after another until one of them ends the execution.  Before each
instruction `check_requirements` sees to it that the instruction is defined, that the stack is deep
enough and not too deep, and that the base cost can be paid.

The source says that the loop terminates "because padded code ends with `STOP`".  Here `dispatch` is
given a number of turns.  That the number which `execute` gives it is not used up, and that the
execution of legacy code runs into no `Fault`, is proved apart; what the machine would do in the two
cases is a parameter of `baseline`.
-/

namespace WeakChain

namespace Evm

/-! ### One instruction -/

/-- `check_requirements<Op>`. -/
def checkRequirements (op : Opcode) : Instruction := fun fr s =>
  match Instr.baseCost fr.rev fr.analysis.eofHeader.version op with
  | none => halt statusUndefinedInstruction s
  | some gasCost =>
    if 0 < op.traits.stackHeightChange ∧ s.stack.length = stackLimit then
      halt statusStackOverflow s
    else if 0 < op.traits.stackHeightRequired ∧
        s.stack.length ≤ op.traits.stackHeightRequired - 1 then
      halt statusStackUnderflow s
    else charge gasCost s

/-- `invoke` for an instruction that works on the stack alone. -/
def invokeStack (f : StackFn) : Instruction := fun _ s => do
  let st ← orFault .stack (f s.stack)
  .ret { s with stack := st, codeIt := s.codeIt + 1 }

/-- `invoke` for an instruction after which the next one is executed. -/
def invokeNext (f : Instruction) : Instruction := fun fr s => do
  let s ← f fr s
  .ret { s with codeIt := s.codeIt + 1 }

section Dispatch

variable [Keccak]

/-- `instr::core::impl<Op>`, invoked.  Those that are neither `invokeStack` nor `invokeNext` set the
position themselves, or end the execution. -/
def impl : Opcode → Instruction
  | .stop => Instr.stopImpl statusSuccess
  | .add => invokeStack Instr.add
  | .mul => invokeStack Instr.mul
  | .sub => invokeStack Instr.sub
  | .div => invokeStack Instr.div
  | .sdiv => invokeStack Instr.sdiv
  | .mod => invokeStack Instr.mod
  | .smod => invokeStack Instr.smod
  | .addmod => invokeStack Instr.addmod
  | .mulmod => invokeStack Instr.mulmod
  | .exp => invokeNext Instr.exp
  | .signextend => invokeStack Instr.signextend
  | .lt => invokeStack Instr.lt
  | .gt => invokeStack Instr.gt
  | .slt => invokeStack Instr.slt
  | .sgt => invokeStack Instr.sgt
  | .eq => invokeStack Instr.eq
  | .iszero => invokeStack Instr.iszero
  | .and_ => invokeStack Instr.and_
  | .or_ => invokeStack Instr.or_
  | .xor_ => invokeStack Instr.xor_
  | .not_ => invokeStack Instr.not_
  | .byte => invokeStack Instr.byte
  | .shl => invokeStack Instr.shl
  | .shr => invokeStack Instr.shr
  | .sar => invokeStack Instr.sar
  | .keccak256 => invokeNext Instr.keccak256
  | .address => invokeNext Instr.address
  | .balance => invokeNext Instr.balance
  | .origin => invokeNext Instr.origin
  | .caller => invokeNext Instr.caller
  | .callvalue => invokeNext Instr.callvalue
  | .calldataload => invokeNext Instr.calldataload
  | .calldatasize => invokeNext Instr.calldatasize
  | .calldatacopy => invokeNext Instr.calldatacopy
  | .codesize => invokeNext Instr.codesize
  | .codecopy => invokeNext Instr.codecopy
  | .gasprice => invokeNext Instr.gasprice
  | .extcodesize => invokeNext Instr.extcodesize
  | .extcodecopy => invokeNext Instr.extcodecopy
  | .returndatasize => invokeNext Instr.returndatasize
  | .returndatacopy => invokeNext Instr.returndatacopy
  | .extcodehash => invokeNext Instr.extcodehash
  | .blockhash => invokeNext Instr.blockhash
  | .coinbase => invokeNext Instr.coinbase
  | .timestamp => invokeNext Instr.timestamp
  | .number => invokeNext Instr.number
  | .prevrandao => invokeNext Instr.prevrandao
  | .gaslimit => invokeNext Instr.gaslimit
  | .chainid => invokeNext Instr.chainid
  | .selfbalance => invokeNext Instr.selfbalance
  | .basefee => invokeNext Instr.basefee
  | .pop => invokeStack Instr.pop
  | .mload => invokeNext Instr.mload
  | .mstore => invokeNext Instr.mstore
  | .mstore8 => invokeNext Instr.mstore8
  | .sload => invokeNext Instr.sload
  | .sstore => invokeNext Instr.sstore
  | .jump => Instr.jump
  | .jumpi => Instr.jumpi
  | .pc => Instr.pc
  | .msize => invokeNext Instr.msize
  | .gas => invokeNext Instr.gas
  | .jumpdest => invokeStack Instr.noop
  | .rjump => Instr.rjump
  | .rjumpi => Instr.rjumpi
  | .rjumpv => Instr.rjumpv
  | .push0 => invokeStack Instr.push0
  | .push n => Instr.push (n + 1)
  | .dup n => invokeStack (Instr.dup n)
  | .swap n => invokeStack (Instr.swap n)
  | .log n => invokeNext (Instr.log n)
  | .callf => Instr.callf
  | .retf => Instr.retf
  | .dupn => Instr.dupn
  | .swapn => Instr.swapn
  | .create => invokeNext (Instr.createImpl false)
  | .call => invokeNext (Instr.callImpl .call)
  | .callcode => invokeNext (Instr.callImpl .callcode)
  | .return_ => Instr.returnImpl statusSuccess
  | .delegatecall => invokeNext (Instr.callImpl .delegatecall)
  | .create2 => invokeNext (Instr.createImpl true)
  | .staticcall => invokeNext (Instr.callImpl .staticcall)
  | .revert => Instr.returnImpl statusRevert
  | .invalid => Instr.stopImpl statusInvalidInstruction
  | .selfdestruct => Instr.selfdestruct

/-- `invoke<Op>`: the new top of the stack is computed from the table. -/
def invoke (op : Opcode) : Instruction := fun fr s => do
  let s₁ ← checkRequirements op fr s
  let s₂ ← impl op fr s₁
  if (s₂.stack.length : ℤ) = s.stack.length + op.traits.stackHeightChange then .ret s₂
  else fault .height

/-- A turn of the loop. -/
def turn : Instruction := fun fr s => do
  let b ← orFault .code fr.analysis.executableCode[s.codeIt]?
  match Opcode.ofByte b with
  | none => halt statusUndefinedInstruction s
  | some op => invoke op fr s

/-! ### The loop -/

/-- `dispatch`, for some turns. -/
def dispatch (fr : Frame) (turns : ℕ) : ExecutionState → Act ExecutionState :=
  Dialogue.iterate (turn fr) turns

/-- How many turns an execution of some executable code may take. -/
def turns (code : Bytes) (gas : ℤ) : ℕ := (gas.toNat + 1) * (code.length + 1)

/-- The state at the start. -/
def ExecutionState.start (msg : Message) : ExecutionState := { gasLeft := msg.gas.toInt }

/-- The end of `execute`: the result, unless an assertion fails or the output is not there.  Gas is
left if the execution succeeds or reverts, and is refunded if it succeeds. -/
def makeResult (s : ExecutionState) : Option Result :=
  if s.outputSize = 0 ∧ s.outputOffset ≠ 0 then none
  else if s.outputSize ≠ 0 ∧ s.memory.length < s.outputOffset + s.outputSize then none
  else
    some {
      statusCode := s.status
      gasLeft :=
        if s.status = statusSuccess ∨ s.status = statusRevert then Int64.ofInt s.gasLeft else 0
      gasRefund := if s.status = statusSuccess then s.gasRefund else 0
      output := (s.memory.drop s.outputOffset).take s.outputSize }

/-- `execute`, for a code that has been analyzed. -/
def executeFrame (fr : Frame) : Act ExecutionState :=
  dispatch fr (turns fr.analysis.executableCode fr.msg.gas.toInt) (.start fr.msg)

/-- The run of a machine whose execution may be undefined or go on for ever; it ends with `ub`
then. -/
def toVmRun (ub : Result) : Act ExecutionState → VmRun
  | .ret _ => .done ub
  | .exit (.fault _) => .done ub
  | .exit (.halt s) => .done ((makeResult s).getD ub)
  | .ask q k => .ask q fun x => toVmRun ub (k x)

/-- `execute`, as the machine of the host.  `ub` stands for what is undefined. -/
def baseline (rev : Revision) (ub : Result) : Vm where
  execute code msg :=
    match analyze rev code with
    | none => .done ub
    | some analysis => toVmRun ub (executeFrame ⟨msg, rev, code, analysis⟩)

end Dispatch

end Evm

end WeakChain
