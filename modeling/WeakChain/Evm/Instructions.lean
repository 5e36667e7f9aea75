import WeakChain.Evm.Execution

/-!
# The instructions

The core instructions of the bundled machine.  Those that work on the stack alone are functions of
the stack (`StackFn`); the others are parts of an execution.  The requirements on the stack have
been checked and the base cost has been charged when an instruction is executed.
-/

namespace WeakChain

namespace Evm

/-- `void (*)(StackTop)`; nothing if it goes below the bottom of the stack. -/
abbrev StackFn := List Word → Option (List Word)

/-- An instruction that may fail or end the execution. -/
abbrev Instruction := Frame → ExecutionState → Act ExecutionState

/-- A truth value as a word. -/
def ofBool (b : Bool) : Word := if b then 1 else 0

namespace Instr

/-! ### The stack alone -/

/-- An instruction with one operand. -/
def unary (f : Word → Word) : StackFn
  | x :: st => some (f x :: st)
  | _ => none

/-- An instruction with two operands, the top of the stack first. -/
def binary (f : Word → Word → Word) : StackFn
  | x :: y :: st => some (f x y :: st)
  | _ => none

/-- An instruction with three operands. -/
def ternary (f : Word → Word → Word → Word) : StackFn
  | x :: y :: m :: st => some (f x y m :: st)
  | _ => none

/-- `noop`, with the stack height change of the table. -/
def noop : StackFn := some

/-- `pop`. -/
def pop : StackFn
  | _ :: st => some st
  | _ => none

/-- `add`. -/
def add : StackFn := binary fun x y => y + x

/-- `mul`. -/
def mul : StackFn := binary fun x y => y * x

/-- `sub`. -/
def sub : StackFn := binary fun x y => x - y

/-- `div`. -/
def div : StackFn := binary fun x v =>
  if v ≠ 0 then BitVec.ofNat 256 (Intx.udivrem 4 4 x.toNat v.toNat).1 else 0

/-- `sdiv`. -/
def sdiv : StackFn := binary fun x v => if v ≠ 0 then (Intx.sdivrem x v).1 else 0

/-- `mod`. -/
def mod : StackFn := binary fun x v =>
  if v ≠ 0 then BitVec.ofNat 256 (Intx.udivrem 4 4 x.toNat v.toNat).2 else 0

/-- `smod`. -/
def smod : StackFn := binary fun x v => if v ≠ 0 then (Intx.sdivrem x v).2 else 0

/-- `addmod`. -/
def addmod : StackFn := ternary fun x y m => if m ≠ 0 then Intx.addmod x y m else 0

/-- `mulmod`. -/
def mulmod : StackFn := ternary fun x y m => if m ≠ 0 then Intx.mulmod x y m else 0

/-- `signextend`. -/
def signextend : StackFn := binary Intx.signextend

/-- `lt`. -/
def lt : StackFn := binary fun x y => ofBool (x.ult y)

/-- `gt`. -/
def gt : StackFn := binary fun x y => ofBool (y.ult x)

/-- `slt`. -/
def slt : StackFn := binary fun x y => ofBool (Intx.slt x y)

/-- `sgt`. -/
def sgt : StackFn := binary fun x y => ofBool (Intx.slt y x)

/-- `eq`. -/
def eq : StackFn := binary fun x y => ofBool (x == y)

/-- `iszero`. -/
def iszero : StackFn := unary fun x => ofBool (x == 0)

/-- `and_`. -/
def and_ : StackFn := binary fun x y => y &&& x

/-- `or_`. -/
def or_ : StackFn := binary fun x y => y ||| x

/-- `xor_`. -/
def xor_ : StackFn := binary fun x y => y ^^^ x

/-- `not_`. -/
def not_ : StackFn := unary fun x => ~~~x

/-- `byte`. -/
def byte : StackFn := binary Intx.byte

/-- `shl`. -/
def shl : StackFn := binary fun shift x => Intx.shl x shift

/-- `shr`. -/
def shr : StackFn := binary fun shift x => Intx.shr x shift

/-- `sar`. -/
def sar : StackFn := binary Intx.sar

/-- A push onto a stack with room. -/
def pushTo (x : Word) (st : List Word) : Option (List Word) :=
  if st.length < stackLimit then some (x :: st) else none

/-- `push0`. -/
def push0 : StackFn := pushTo 0

/-- `dup<N>`, with `n = N - 1`. -/
def dup (n : ℕ) : StackFn := fun st => st[n]?.bind fun x => pushTo x st

/-- `swap<N>`, with `n = N - 1`. -/
def swap (n : ℕ) : StackFn
  | t :: st => st[n]?.map fun a => a :: st.set n t
  | _ => none

/-! ### The environment -/

/-- `exp`. -/
def exp : Instruction := fun fr s =>
  match s.stack with
  | base :: exponent :: st => do
    let exponentCost := if .spuriousDragon ≤ fr.rev then 50 else 10
    let s ← charge (Intx.countSignificantBytes exponent * exponentCost) s
    .ret { s with stack := Intx.exp base exponent :: st }
  | _ => fault .stack

/-- `keccak256`. -/
def keccak256 [Keccak] : Instruction := fun _ s =>
  match s.stack with
  | index :: size :: st => do
    let s ← checkMemory index size s
    let n := Intx.toSize size
    let s ← charge (numWords n * 6) s
    let data ← readMemory? (Intx.toSize index) n s
    .ret { s with stack := Intx.load (WeakChain.keccak256 data).bytes :: st }
  | _ => fault .stack

/-- `address`. -/
def address : Instruction := fun fr => push (Intx.load fr.msg.recipient.bytes)

/-- `balance`. -/
def balance : Instruction := fun fr s =>
  match s.stack with
  | x :: st => do
    let addr := Intx.truncAddress x
    let s ← accessAccount fr addr additionalColdAccountAccessCost s
    let value ← askHost (.getBalance addr)
    .ret { s with stack := Intx.load value.bytes :: st }
  | _ => fault .stack

/-- Push something of the context of the transaction. -/
def pushTxContext (f : TxContext → Word) : Instruction := fun _ s => do
  let p ← getTxContext s
  push (f p.1) p.2

/-- `origin`. -/
def origin : Instruction := pushTxContext fun tx => Intx.load tx.txOrigin.bytes

/-- `caller`. -/
def caller : Instruction := fun fr => push (Intx.load fr.msg.sender.bytes)

/-- `callvalue`. -/
def callvalue : Instruction := fun fr => push (Intx.load fr.msg.value.bytes)

/-- Some bytes from an offset on, with zeros behind them. -/
def slice (data : Bytes) (offset size : ℕ) : Bytes :=
  let bs := (data.drop offset).take size
  bs ++ List.replicate (size - bs.length) 0

/-- `calldataload`. -/
def calldataload : Instruction := fun fr s =>
  match s.stack with
  | index :: st =>
    if fr.msg.inputData.length < index.toNat then .ret { s with stack := 0 :: st }
    else .ret { s with stack := Intx.load (slice fr.msg.inputData (Intx.toSize index) 32) :: st }
  | _ => fault .stack

/-- `calldatasize`. -/
def calldatasize : Instruction := fun fr => push (BitVec.ofNat 256 fr.msg.inputData.length)

/-- `calldatacopy` and `codecopy`, which differ in the data. -/
def copyFrom (data : Bytes) (s : ExecutionState) : Act ExecutionState :=
  match s.stack with
  | memIndex :: inputIndex :: size :: st => do
    let s ← checkMemory memIndex size s
    let src := if data.length < inputIndex.toNat then data.length else Intx.toSize inputIndex
    let n := Intx.toSize size
    let s ← charge (numWords n * 3) s
    let s ← if 0 < n then writeMemory (Intx.toSize memIndex) (slice data src n) s else .ret s
    .ret { s with stack := st }
  | _ => fault .stack

/-- `calldatacopy`. -/
def calldatacopy : Instruction := fun fr => copyFrom fr.msg.inputData

/-- `codesize`. -/
def codesize : Instruction := fun fr => push (BitVec.ofNat 256 fr.originalCode.length)

/-- `codecopy`. -/
def codecopy : Instruction := fun fr => copyFrom fr.originalCode

/-- `gasprice`. -/
def gasprice : Instruction := pushTxContext fun tx => Intx.load tx.txGasPrice.bytes

/-- `basefee`. -/
def basefee : Instruction := pushTxContext fun tx => Intx.load tx.blockBaseFee.bytes

/-- `extcodesize`. -/
def extcodesize : Instruction := fun fr s =>
  match s.stack with
  | x :: st => do
    let addr := Intx.truncAddress x
    let s ← accessAccount fr addr additionalColdAccountAccessCost s
    let size ← askHost (.getCodeSize addr)
    .ret { s with stack := BitVec.ofNat 256 size :: st }
  | _ => fault .stack

/-- `extcodecopy`. -/
def extcodecopy : Instruction := fun fr s =>
  match s.stack with
  | x :: memIndex :: inputIndex :: size :: st => do
    let addr := Intx.truncAddress x
    let s ← checkMemory memIndex size s
    let n := Intx.toSize size
    let s ← charge (numWords n * 3) s
    let s ← accessAccount fr addr additionalColdAccountAccessCost s
    if 0 < n then do
      let src :=
        if maxBufferSize < inputIndex.toNat then maxBufferSize else Intx.toSize inputIndex
      let bs ← askHost (.copyCode addr src n)
      let s ← writeMemory (Intx.toSize memIndex) (bs ++ List.replicate (n - bs.length) 0) s
      .ret { s with stack := st }
    else .ret { s with stack := st }
  | _ => fault .stack

/-- `returndatasize`. -/
def returndatasize : Instruction := fun _ s => push (BitVec.ofNat 256 s.returnData.length) s

/-- `returndatacopy`. -/
def returndatacopy : Instruction := fun _ s =>
  match s.stack with
  | memIndex :: inputIndex :: size :: st => do
    let s ← checkMemory memIndex size s
    let n := Intx.toSize size
    if s.returnData.length < inputIndex.toNat then halt statusInvalidMemoryAccess s
    else do
      let src := Intx.toSize inputIndex
      if s.returnData.length < src + n then halt statusInvalidMemoryAccess s
      else do
        let s ← charge (numWords n * 3) s
        let s ←
          if 0 < n then
            writeMemory (Intx.toSize memIndex) ((s.returnData.drop src).take n) s
          else .ret s
        .ret { s with stack := st }
  | _ => fault .stack

/-- `extcodehash`. -/
def extcodehash : Instruction := fun fr s =>
  match s.stack with
  | x :: st => do
    let addr := Intx.truncAddress x
    let s ← accessAccount fr addr additionalColdAccountAccessCost s
    let hash ← askHost (.getCodeHash addr)
    .ret { s with stack := Intx.load hash.bytes :: st }
  | _ => fault .stack

/-- A signed number as a word, by way of `uint64_t`. -/
def ofInt64 (x : ℤ) : Word := BitVec.ofNat 256 (toSizeT x)

/-- `blockhash`. -/
def blockhash : Instruction := fun _ s =>
  match s.stack with
  | number :: st => do
    let p ← getTxContext s
    let upperBound := p.1.blockNumber.toInt
    let lowerBound ← int64 (upperBound - 256)
    let n := Int64.ofInt (Intx.toSize number)
    let header ←
      if number < ofInt64 upperBound ∧ max lowerBound 0 ≤ n.toInt then askHost (.getBlockHash n)
      else .ret (.zero 32)
    .ret { p.2 with stack := Intx.load header.bytes :: st }
  | _ => fault .stack

/-- `coinbase`. -/
def coinbase : Instruction := pushTxContext fun tx => Intx.load tx.blockCoinbase.bytes

/-- `timestamp`. -/
def timestamp : Instruction := pushTxContext fun tx => ofInt64 tx.blockTimestamp.toInt

/-- `number`. -/
def number : Instruction := pushTxContext fun tx => ofInt64 tx.blockNumber.toInt

/-- `prevrandao`. -/
def prevrandao : Instruction := pushTxContext fun tx => Intx.load tx.blockPrevRandao.bytes

/-- `gaslimit`. -/
def gaslimit : Instruction := pushTxContext fun tx => ofInt64 tx.blockGasLimit.toInt

/-- `chainid`. -/
def chainid : Instruction := pushTxContext fun tx => Intx.load tx.chainId.bytes

/-- `selfbalance`. -/
def selfbalance : Instruction := fun fr s => do
  let value ← askHost (.getBalance fr.msg.recipient)
  push (Intx.load value.bytes) s

/-! ### Memory and storage -/

/-- `mload`. -/
def mload : Instruction := fun _ s =>
  match s.stack with
  | index :: st => do
    let s ← checkMemorySize index 32 s
    let bs ← readMemory (Intx.toSize index) 32 s
    .ret { s with stack := Intx.load bs :: st }
  | _ => fault .stack

/-- `mstore`. -/
def mstore : Instruction := fun _ s =>
  match s.stack with
  | index :: value :: st => do
    let s ← checkMemorySize index 32 s
    let s ← writeMemory (Intx.toSize index) (Intx.store value).bytes s
    .ret { s with stack := st }
  | _ => fault .stack

/-- `mstore8`. -/
def mstore8 : Instruction := fun _ s =>
  match s.stack with
  | index :: value :: st => do
    let s ← checkMemorySize index 1 s
    let s ← writeMemory (Intx.toSize index) [UInt8.ofNat value.toNat] s
    .ret { s with stack := st }
  | _ => fault .stack

/-- `sload`. -/
def sload : Instruction := fun fr s =>
  match s.stack with
  | x :: st => do
    let key := Intx.store x
    let s ←
      if .berlin ≤ fr.rev then do
        let access ← askHost (.accessStorage fr.msg.recipient key)
        if access = .cold then charge (coldSloadCost - warmStorageReadCost) s else .ret s
      else .ret s
    let value ← askHost (.getStorage fr.msg.recipient key)
    .ret { s with stack := Intx.load value.bytes :: st }
  | _ => fault .stack

/-- `StorageCostSpec`, as far as the costs below read it. -/
structure StorageCostSpec where
  /-- Storage modification cost. -/
  reset : ℕ := 0
  /-- Storage deletion refund. -/
  clear : ℕ := 0

/-- `storage_cost_spec`; there is no entry for the last revision. -/
def storageCostSpec : Revision → StorageCostSpec
  | .berlin => ⟨5000 - coldSloadCost, 15000⟩
  | .london | .paris | .shanghai | .cancun => ⟨5000 - coldSloadCost, 4800⟩
  | .prague => {}
  | _ => ⟨5000, 15000⟩

/-- `StorageStoreCost`. -/
structure StorageStoreCost where
  gasCost : ℕ
  gasRefund : ℕ

/-- `sstore_costs`. -/
def sstoreCosts (rev : Revision) : StorageStatus → StorageStoreCost
  | .deleted => ⟨(storageCostSpec rev).reset, (storageCostSpec rev).clear⟩
  | .modified => ⟨(storageCostSpec rev).reset, 0⟩

/-- `sstore`. -/
def sstore : Instruction := fun fr s =>
  if fr.inStaticMode then halt statusStaticModeViolation s
  else if .istanbul ≤ fr.rev ∧ s.gasLeft ≤ 2300 then halt statusOutOfGas s
  else
    match s.stack with
    | x :: y :: st => do
      let key := Intx.store x
      let value := Intx.store y
      let gasCostCold ←
        if .berlin ≤ fr.rev then do
          let access ← askHost (.accessStorage fr.msg.recipient key)
          .ret (if access = .cold then coldSloadCost else 0)
        else .ret 0
      let status ← askHost (.setStorage fr.msg.recipient key value)
      let cost := sstoreCosts fr.rev status
      let s ← charge (cost.gasCost + gasCostCold) s
      let s ← addRefund cost.gasRefund s
      .ret { s with stack := st }
    | _ => fault .stack

/-- `msize`. -/
def msize : Instruction := fun _ s => push (BitVec.ofNat 256 s.memory.length) s

/-- `gas`. -/
def gas : Instruction := fun _ s => push (ofInt64 s.gasLeft) s

/-! ### The position in the code -/

/-- Go to a position, which may lie before the code. -/
def goTo (pos : ℤ) (s : ExecutionState) : Act ExecutionState :=
  if pos < 0 then fault .code else .ret { s with codeIt := pos.toNat }

/-- `jump_impl`. -/
def jumpImpl (fr : Frame) (dst : Word) (s : ExecutionState) : Act ExecutionState :=
  if dst.toNat < fr.analysis.jumpdestMap.length ∧
      fr.analysis.jumpdestMap[Intx.toSize dst]? = some true then
    .ret { s with codeIt := Intx.toSize dst }
  else halt statusBadJumpDestination s

/-- `jump`. -/
def jump : Instruction := fun fr s =>
  match s.stack with
  | dst :: st => jumpImpl fr dst { s with stack := st }
  | _ => fault .stack

/-- `jumpi`. -/
def jumpi : Instruction := fun fr s =>
  match s.stack with
  | dst :: cond :: st =>
    if cond ≠ 0 then jumpImpl fr dst { s with stack := st }
    else .ret { s with stack := st, codeIt := s.codeIt + 1 }
  | _ => fault .stack

/-- `read_int16_be`. -/
def readInt16Be (fr : Frame) (pos : ℕ) : Act Int16 := do
  let x ← orFault .code (readUint16Be fr.analysis.executableCode pos)
  .ret x.toInt16

/-- `rjump`. -/
def rjump : Instruction := fun fr s => do
  let offset ← readInt16Be fr (s.codeIt + 1)
  goTo (s.codeIt + 3 + offset.toInt) s

/-- `rjumpi`. -/
def rjumpi : Instruction := fun fr s =>
  match s.stack with
  | cond :: st =>
    if cond ≠ 0 then rjump fr { s with stack := st }
    else .ret { s with stack := st, codeIt := s.codeIt + 3 }
  | _ => fault .stack

/-- `rjumpv`. -/
def rjumpv : Instruction := fun fr s =>
  match s.stack with
  | case :: st => do
    let count ← orFault .code fr.analysis.executableCode[s.codeIt + 1]?
    let pcPost := s.codeIt + 1 + 1 + count.toNat * 2
    if count.toNat ≤ case.toNat then .ret { s with stack := st, codeIt := pcPost }
    else do
      let relOffset ← readInt16Be fr (s.codeIt + 2 + case.toNat * 2)
      goTo (pcPost + relOffset.toInt) { s with stack := st }
  | _ => fault .stack

/-- `pc`. -/
def pc : Instruction := fun _ s => do
  let s ← push (BitVec.ofNat 256 s.codeIt) s
  .ret { s with codeIt := s.codeIt + 1 }

/-- `load_partial_push_data`: it loads up to three additional bytes. -/
def loadPartialPushData (fr : Frame) (pos len : ℕ) : Option ℕ :=
  if len ≤ 2 ∨ len = 4 then (readCode fr pos len).map Intx.beValue
  else if len = 3 then (readCode fr pos 4).map fun bs => Intx.beValue bs >>> 8
  else (readCode fr pos 8).map fun bs => Intx.beValue bs >>> (8 * (8 - len))

/-- The full words of the data of a `PUSH`, the highest first. -/
def loadFullWords (fr : Frame) : ℕ → ℕ → Option (List ℕ)
  | 0, _ => some []
  | n + 1, pos => do
    let bs ← readCode fr pos 8
    let words ← loadFullWords fr n (pos + 8)
    pure (Intx.beValue bs :: words)

/-- The word that `push<Len>` loads, 64 bits at a time. -/
def pushData (fr : Frame) (pos len : ℕ) : Option Word := do
  let numFullWords := len / 8
  let numPartialBytes := len % 8
  let top ← if numPartialBytes ≠ 0 then loadPartialPushData fr pos numPartialBytes else some 0
  let words ← loadFullWords fr numFullWords (pos + numPartialBytes)
  pure (Intx.ofLimbs fun i =>
    if i < numFullWords then BitVec.ofNat 64 (words.getD (numFullWords - 1 - i) 0)
    else if i = numFullWords then BitVec.ofNat 64 top
    else 0)

section PushData

variable {fr : Frame} {pos len : ℕ}

/-- Some bytes of the code. -/
def codeBytes (fr : Frame) (pos len : ℕ) : Bytes := (fr.analysis.executableCode.drop pos).take len

theorem length_codeBytes (h : pos + len ≤ fr.analysis.executableCode.length) :
    (codeBytes fr pos len).length = len := by
  simp only [codeBytes, List.length_take, List.length_drop]
  omega

theorem codeBytes_add (fr : Frame) (pos m n : ℕ) :
    codeBytes fr pos (m + n) = codeBytes fr pos m ++ codeBytes fr (pos + m) n := by
  rw [codeBytes, List.take_add, List.drop_drop]
  rfl

theorem readCode_eq (h : pos + len ≤ fr.analysis.executableCode.length) :
    readCode fr pos len = some (codeBytes fr pos len) := if_pos h

/-- The additional bytes make no difference. -/
theorem loadPartialPushData_eq (hlen : len < 8) (h : pos + 8 ≤ fr.analysis.executableCode.length) :
    loadPartialPushData fr pos len = some (Intx.beValue (codeBytes fr pos len)) := by
  have hshift : ∀ n, pos + len + n ≤ fr.analysis.executableCode.length →
      Intx.beValue (codeBytes fr pos (len + n)) >>> (8 * n) =
        Intx.beValue (codeBytes fr pos len) := by
    intro n hn
    have hrest : (codeBytes fr (pos + len) n).length = n := length_codeBytes hn
    have hlt := Intx.beValue_lt (codeBytes fr (pos + len) n)
    have hpow : 2 ^ (8 * n) = 256 ^ n := by
      rw [pow_mul]
      norm_num
    rw [hrest] at hlt
    rw [codeBytes_add, Intx.beValue_append, hrest, Nat.shiftRight_eq_div_pow, hpow, mul_comm,
      Nat.mul_add_div (by positivity), Nat.div_eq_of_lt hlt, Nat.add_zero]
  unfold loadPartialPushData
  split_ifs with hsmall hthree
  · rw [readCode_eq (by omega), Option.map_some]
  · subst hthree
    rw [readCode_eq (by omega), Option.map_some, hshift 1 (by omega)]
  · rw [readCode_eq (by omega), Option.map_some]
    have heq : len + (8 - len) = 8 := by omega
    rw [← hshift (8 - len) (by omega), heq]

theorem loadFullWords_eq {n : ℕ} (h : pos + 8 * n ≤ fr.analysis.executableCode.length) :
    loadFullWords fr n pos =
      some ((List.range n).map fun k => Intx.beValue (codeBytes fr (pos + 8 * k) 8)) := by
  induction n generalizing pos with
  | zero => rfl
  | succ n ih =>
    rw [loadFullWords, readCode_eq (by omega), ih (by omega), List.range_succ_eq_map]
    simp [Function.comp_def, Nat.mul_add, Nat.add_assoc, Nat.add_comm 8]

/-- **The data of a `PUSH`**, which is loaded by words of 64 bits and with up to three bytes too
many, is the number with the bytes behind the instruction. -/
theorem pushData_eq (hlen : len ≤ 32) (h : pos + 32 ≤ fr.analysis.executableCode.length) :
    pushData fr pos len = some (Intx.load (codeBytes fr pos len)) := by
  have htop : (if len % 8 ≠ 0 then loadPartialPushData fr pos (len % 8) else some 0) =
      some (Intx.beValue (codeBytes fr pos (len % 8))) := by
    split_ifs with hmod
    · exact loadPartialPushData_eq (Nat.mod_lt _ (by norm_num)) (by omega)
    · rw [not_not.1 hmod]
      rfl
  have hwords : loadFullWords fr (len / 8) (pos + len % 8) =
      some ((List.range (len / 8)).map fun k =>
        Intx.beValue (codeBytes fr (pos + len % 8 + 8 * k) 8)) := loadFullWords_eq (by omega)
  have hdo : pushData fr pos len =
      (if len % 8 ≠ 0 then loadPartialPushData fr pos (len % 8) else some 0).bind fun top =>
        (loadFullWords fr (len / 8) (pos + len % 8)).bind fun words =>
          some (Intx.ofLimbs fun i =>
            if i < len / 8 then BitVec.ofNat 64 (words.getD (len / 8 - 1 - i) 0)
            else if i = len / 8 then BitVec.ofNat 64 top
            else 0) := by
    unfold pushData
    dsimp only
    split_ifs <;> rfl
  rw [hdo, htop, Option.bind_some, hwords, Option.bind_some, Option.some_inj]
  refine (Intx.eq_ofLimbs fun i hi => ?_).symm
  have hbytes : (codeBytes fr pos len).length = len := length_codeBytes (by omega)
  rcases lt_trichotomy i (len / 8) with hlt | heq | hgt
  · -- a full word, between the bytes before it and those behind it
    rw [if_pos hlt]
    have hsplit : codeBytes fr pos len =
        codeBytes fr pos (len % 8 + 8 * (len / 8 - 1 - i)) ++
          codeBytes fr (pos + len % 8 + 8 * (len / 8 - 1 - i)) 8 ++
          codeBytes fr (pos + (len % 8 + 8 * (len / 8 - 1 - i) + 8)) (8 * i) := by
      rw [Nat.add_assoc pos (len % 8), ← codeBytes_add, ← codeBytes_add]
      congr 1
      omega
    rw [hsplit] at hbytes ⊢
    rw [Intx.limb_load (by omega) (length_codeBytes (by omega))
      (.inl (length_codeBytes (by omega)))]
    have hk : len / 8 - 1 - i < len / 8 := by omega
    simp [List.getD, hk]
  · -- the partial word
    rw [if_neg (by omega), if_pos heq]
    have hsplit : codeBytes fr pos len =
        [] ++ codeBytes fr pos (len % 8) ++ codeBytes fr (pos + len % 8) (8 * i) := by
      rw [List.nil_append, ← codeBytes_add]
      congr 1
      omega
    have hpartial : (codeBytes fr pos (len % 8)).length = len % 8 := length_codeBytes (by omega)
    rw [hsplit] at hbytes ⊢
    rw [Intx.limb_load (by omega) (length_codeBytes (by omega)) (.inr ⟨rfl, by omega⟩)]
  · rw [if_neg (by omega), if_neg (by omega)]
    exact Intx.limb_load_of_le (by omega) (by omega)

end PushData

/-- `push<Len>`. -/
def push (len : ℕ) : Instruction := fun fr s => do
  let x ← orFault .code (pushData fr (s.codeIt + 1) len)
  let s ← Evm.push x s
  .ret { s with codeIt := s.codeIt + (len + 1) }

/-- `dupn`. -/
def dupn : Instruction := fun fr s => do
  let b ← orFault .code fr.analysis.executableCode[s.codeIt + 1]?
  let n := b.toNat + 1
  if s.stack.length < n then halt statusStackUnderflow s
  else do
    let st ← orFault .stack (dup (n - 1) s.stack)
    .ret { s with stack := st, codeIt := s.codeIt + 2 }

/-- `swapn`. -/
def swapn : Instruction := fun fr s => do
  let b ← orFault .code fr.analysis.executableCode[s.codeIt + 1]?
  let n := b.toNat + 1
  if s.stack.length ≤ n then halt statusStackUnderflow s
  else do
    let st ← orFault .stack (swap (n - 1) s.stack)
    .ret { s with stack := st, codeIt := s.codeIt + 2 }

/-- `callf`. -/
def callf : Instruction := fun fr s => do
  let index ← orFault .code (readUint16Be fr.analysis.executableCode (s.codeIt + 1))
  let header := fr.analysis.eofHeader
  let type ← orFault .header header.types[index.toNat]?
  if stackLimit < s.stack.length + type.maxStackHeight.toNat then halt statusStackOverflow s
  else if stackLimit ≤ s.callStack.length then halt statusStackOverflow s
  else do
    let offset ← orFault .header header.codeOffsets[index.toNat]?
    let base ← orFault .header header.codeOffsets[0]?
    goTo ((offset.toNat : ℤ) - base.toNat) { s with callStack := (s.codeIt + 3) :: s.callStack }

/-- `retf`. -/
def retf : Instruction := fun _ s =>
  match s.callStack with
  | p :: callStack => .ret { s with codeIt := p, callStack := callStack }
  | [] => fault .callStack

/-! ### The ends of an execution -/

/-- `stop_impl`. -/
def stopImpl (status : StatusCode) : Instruction := fun _ => halt status

/-- `return_impl`. -/
def returnImpl (status : StatusCode) : Instruction := fun _ s =>
  match s.stack with
  | offset :: size :: _ => do
    let s ← checkMemory offset size s
    let outputSize := Intx.toSize size
    let outputOffset := if outputSize ≠ 0 then Intx.toSize offset else s.outputOffset
    halt status { s with outputSize := outputSize, outputOffset := outputOffset }
  | _ => fault .stack

/-- `selfdestruct`. -/
def selfdestruct : Instruction := fun fr s =>
  if fr.inStaticMode then halt statusStaticModeViolation s
  else
    match s.stack with
    | x :: _ => do
      let beneficiary := Intx.truncAddress x
      let s ← accessAccount fr beneficiary coldAccountAccessCost s
      let s ←
        if .tangerineWhistle ≤ fr.rev then do
          let pays ←
            if fr.rev = .tangerineWhistle then .ret true
            else do
              let value ← askHost (.getBalance fr.msg.recipient)
              .ret (decide (value ≠ .zero 32))
          if pays then do
            let isThere ← askHost (.accountExists beneficiary)
            if isThere then .ret s else charge 25000 s
          else .ret s
        else .ret s
      let first ← askHost (.selfdestruct fr.msg.recipient beneficiary)
      let s ← if first ∧ fr.rev < .london then addRefund 24000 s else .ret s
      halt statusSuccess s
    | _ => fault .stack

/-! ### Logs -/

/-- `log<NumTopics>`. -/
def log (numTopics : ℕ) : Instruction := fun fr s =>
  if fr.inStaticMode then halt statusStaticModeViolation s
  else
    match s.stack with
    | offset :: size :: st =>
      if st.length < numTopics then fault .stack
      else do
        let s ← checkMemory offset size s
        let n := Intx.toSize size
        let s ← charge (n * 8) s
        let data ← readMemory? (Intx.toSize offset) n s
        askHost (.emitLog fr.msg.recipient data ((st.take numTopics).map Intx.store))
        .ret { s with stack := st.drop numTopics }
    | _ => fault .stack

/-! ### Calls -/

/-- The instructions that `call_impl` is for. -/
inductive CallOp
  | call
  | callcode
  | delegatecall
  | staticcall
  deriving DecidableEq, Repr

/-- What the instructions take off the stack. -/
structure CallArgs where
  gas : Word
  dst : Address
  value : Word
  inputOffset : Word
  inputSize : Word
  outputOffset : Word
  outputSize : Word

/-- The operands; two of the instructions take no value. -/
def CallOp.pop (op : CallOp) (st : List Word) : Option (CallArgs × List Word) :=
  if op = .staticcall ∨ op = .delegatecall then
    match st with
    | gas :: dst :: inOffset :: inSize :: outOffset :: outSize :: st =>
      some (⟨gas, Intx.truncAddress dst, 0, inOffset, inSize, outOffset, outSize⟩, st)
    | _ => none
  else
    match st with
    | gas :: dst :: value :: inOffset :: inSize :: outOffset :: outSize :: st =>
      some (⟨gas, Intx.truncAddress dst, value, inOffset, inSize, outOffset, outSize⟩, st)
    | _ => none

/-- The message, without its gas. -/
def CallOp.message (op : CallOp) (fr : Frame) (args : CallArgs) (inputData : Bytes) : Message where
  kind :=
    match op with
    | .delegatecall => .delegatecall
    | .callcode => .callcode
    | _ => .call
  flags := if op = .staticcall then 1 else fr.msg.flags
  depth := fr.msg.depth + 1
  gas := 0
  recipient := if op = .call ∨ op = .staticcall then args.dst else fr.msg.recipient
  codeAddress := args.dst
  sender := if op = .delegatecall then fr.msg.sender else fr.msg.recipient
  value := if op = .delegatecall then fr.msg.value else Intx.store args.value
  inputData := inputData

/-- What a call costs, apart from the base cost, the memory and the gas that it is given. -/
def CallOp.cost (op : CallOp) (fr : Frame) (args : CallArgs) (s : ExecutionState) : Act ℕ := do
  let cost := if args.value ≠ 0 then 9000 else 0
  if op = .call then
    if args.value ≠ 0 ∧ fr.inStaticMode then halt statusStaticModeViolation s
    else if args.value ≠ 0 ∨ fr.rev < .spuriousDragon then do
      let isThere ← askHost (.accountExists args.dst)
      .ret (if isThere then cost else cost + 25000)
    else .ret cost
  else .ret cost

/-- The gas that a call is given, without the stipend. -/
def callGas (fr : Frame) (gas : Word) (s : ExecutionState) : Act ℤ :=
  let msgGas : ℤ := if gas.toNat < 2 ^ 63 - 1 then gas.toNat else 2 ^ 63 - 1
  if .tangerineWhistle ≤ fr.rev then .ret (min msgGas (s.gasLeft - s.gasLeft / 64))
  else if s.gasLeft < msgGas then halt statusOutOfGas s
  else .ret msgGas

/-- What is done with the result of a call: the output is copied, and the gas is paid. -/
def finishCall (args : CallArgs) (st : List Word) (msgGas : ℤ) (result : Result)
    (s : ExecutionState) : Act ExecutionState := do
  let copySize := min (Intx.toSize args.outputSize) result.output.length
  let s ←
    if 0 < copySize then
      writeMemory (Intx.toSize args.outputOffset) (result.output.take copySize) s
    else .ret s
  let gasUsed ← int64 (msgGas - result.gasLeft.toInt)
  let gasLeft ← int64 (s.gasLeft - gasUsed)
  let s ← addRefund result.gasRefund.toInt s
  .ret { s with
    returnData := result.output
    stack := ofBool (result.statusCode = statusSuccess) :: st
    gasLeft := gasLeft }

/-- The call itself, unless it is too deep or there is too little to send. -/
def makeCall (fr : Frame) (args : CallArgs) (st : List Word) (msg : Message) (msgGas : ℤ)
    (s : ExecutionState) : Act ExecutionState :=
  if 1024 ≤ fr.msg.depth then .ret s
  else do
    let tooLittle ←
      if args.value ≠ 0 then do
        let balance ← askHost (.getBalance fr.msg.recipient)
        .ret (decide (Intx.load balance.bytes < args.value))
      else .ret false
    if tooLittle then .ret s
    else do
      let result ← askHost (.call { msg with gas := Int64.ofInt msgGas })
      finishCall args st msgGas result s

/-- `call_impl`. -/
def callImpl (op : CallOp) : Instruction := fun fr s => do
  let p ← orFault .stack (op.pop s.stack)
  let args := p.1
  -- assume failure
  let s := { s with stack := 0 :: p.2, returnData := [] }
  let s ← accessAccount fr args.dst additionalColdAccountAccessCost s
  let s ← checkMemory args.inputOffset args.inputSize s
  let s ← checkMemory args.outputOffset args.outputSize s
  let inputData ← readMemory? (Intx.toSize args.inputOffset) (Intx.toSize args.inputSize) s
  let cost ← op.cost fr args s
  let s ← charge cost s
  let msgGas ← callGas fr args.gas s
  -- add the stipend
  let stipend := if args.value ≠ 0 then 2300 else 0
  let msgGas ← int64 (msgGas + stipend)
  let gasLeft ← int64 (s.gasLeft + stipend)
  makeCall fr args p.2 (op.message fr args inputData) msgGas { s with gasLeft := gasLeft }

/-! ### Creations -/

/-- What the instructions take off the stack. -/
structure CreateArgs where
  endowment : Word
  initCodeOffset : Word
  initCodeSize : Word
  salt : Word

/-- The operands; `CREATE2` takes a salt. -/
def popCreateArgs (salted : Bool) (st : List Word) : Option (CreateArgs × List Word) :=
  match salted, st with
  | true, endowment :: offset :: size :: salt :: st => some (⟨endowment, offset, size, salt⟩, st)
  | false, endowment :: offset :: size :: st => some (⟨endowment, offset, size, 0⟩, st)
  | _, _ => none

/-- The message of a creation: the recipient and the code address stay zero. -/
def createMessage (salted : Bool) (fr : Frame) (args : CreateArgs) (initCode : Bytes) (gas : ℤ) :
    Message where
  kind := if salted then .create2 else .create
  depth := fr.msg.depth + 1
  gas := Int64.ofInt gas
  recipient := .zero 20
  sender := fr.msg.recipient
  inputData := initCode
  value := Intx.store args.endowment
  create2Salt := Intx.store args.salt
  codeAddress := .zero 20

/-- What is done with the result of a creation. -/
def finishCreate (st : List Word) (msgGas : ℤ) (result : Result) (s : ExecutionState) :
    Act ExecutionState := do
  let gasUsed ← int64 (msgGas - result.gasLeft.toInt)
  let gasLeft ← int64 (s.gasLeft - gasUsed)
  let s ← addRefund result.gasRefund.toInt s
  .ret { s with
    gasLeft := gasLeft
    returnData := result.output
    stack := (if result.statusCode = statusSuccess then Intx.load result.createAddress.bytes
      else 0) :: st }

/-- The creation itself, unless it is too deep or there is too little to endow. -/
def makeCreate (salted : Bool) (fr : Frame) (args : CreateArgs) (st : List Word)
    (s : ExecutionState) : Act ExecutionState :=
  if 1024 ≤ fr.msg.depth then .ret s
  else do
    let tooLittle ←
      if args.endowment ≠ 0 then do
        let balance ← askHost (.getBalance fr.msg.recipient)
        .ret (decide (Intx.load balance.bytes < args.endowment))
      else .ret false
    if tooLittle then .ret s
    else do
      let msgGas :=
        if .tangerineWhistle ≤ fr.rev then s.gasLeft - s.gasLeft / 64 else s.gasLeft
      let initCode ←
        readMemory? (Intx.toSize args.initCodeOffset) (Intx.toSize args.initCodeSize) s
      let result ← askHost (.call (createMessage salted fr args initCode msgGas))
      finishCreate st msgGas result s

/-- `create_impl`. -/
def createImpl (salted : Bool) : Instruction := fun fr s =>
  if fr.inStaticMode then halt statusStaticModeViolation s
  else do
    let p ← orFault .stack (popCreateArgs salted s.stack)
    let args := p.1
    -- assume failure
    let s := { s with stack := 0 :: p.2, returnData := [] }
    let s ← checkMemory args.initCodeOffset args.initCodeSize s
    let initCodeSize := Intx.toSize args.initCodeSize
    if .shanghai ≤ fr.rev ∧ 0xC000 < initCodeSize then halt statusOutOfGas s
    else do
      let wordCost := (if salted then 6 else 0) + (if .shanghai ≤ fr.rev then 2 else 0)
      let s ← charge (numWords initCodeSize * wordCost) s
      makeCreate salted fr args p.2 s

end Instr

end Evm

end WeakChain
