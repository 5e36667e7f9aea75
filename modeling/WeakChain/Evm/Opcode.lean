import WeakChain.Core.Bytes

/-!
# Instructions, their costs and their stack

The instructions of the bundled machine, what they cost in each revision, and what they need of the
stack.  A cost that is not there (`none`) marks an instruction as undefined.

`execute` is always called with the last revision, `prague`.  The table for legacy code makes the
five instructions of the other code format undefined in `cancun` only, so in `prague` they are
instructions of legacy code as well (`baseCost_prague`).
-/

namespace WeakChain

namespace Evm

/-- `evmc_revision`. -/
inductive Revision
  | frontier
  | homestead
  | tangerineWhistle
  | spuriousDragon
  | byzantium
  | constantinople
  | petersburg
  | istanbul
  | berlin
  | london
  | paris
  | shanghai
  | cancun
  | prague
  deriving DecidableEq, Repr

namespace Revision

/-- The number of a revision. -/
def index : Revision → ℕ
  | frontier => 0
  | homestead => 1
  | tangerineWhistle => 2
  | spuriousDragon => 3
  | byzantium => 4
  | constantinople => 5
  | petersburg => 6
  | istanbul => 7
  | berlin => 8
  | london => 9
  | paris => 10
  | shanghai => 11
  | cancun => 12
  | prague => 13

instance : LE Revision := ⟨fun r s => r.index ≤ s.index⟩

instance : LT Revision := ⟨fun r s => r.index < s.index⟩

instance (r s : Revision) : Decidable (r ≤ s) := inferInstanceAs (Decidable (r.index ≤ s.index))

instance (r s : Revision) : Decidable (r < s) := inferInstanceAs (Decidable (r.index < s.index))

/-- All revisions. -/
def all : List Revision :=
  [frontier, homestead, tangerineWhistle, spuriousDragon, byzantium, constantinople, petersburg,
    istanbul, berlin, london, paris, shanghai, cancun, prague]

end Revision

/-- The defined opcodes.  `PUSH1` is `push 0`, and so on for `DUP1` and `SWAP1`; `LOG0` is
`log 0`. -/
inductive Opcode
  | stop | add | mul | sub | div | sdiv | mod | smod | addmod | mulmod | exp | signextend
  | lt | gt | slt | sgt | eq | iszero | and_ | or_ | xor_ | not_ | byte | shl | shr | sar
  | keccak256
  | address | balance | origin | caller | callvalue | calldataload | calldatasize | calldatacopy
  | codesize | codecopy | gasprice | extcodesize | extcodecopy | returndatasize | returndatacopy
  | extcodehash
  | blockhash | coinbase | timestamp | number | prevrandao | gaslimit | chainid | selfbalance
  | basefee
  | pop | mload | mstore | mstore8 | sload | sstore | jump | jumpi | pc | msize | gas | jumpdest
  | rjump | rjumpi | rjumpv
  | push0
  | push (n : Fin 32)
  | dup (n : Fin 16)
  | swap (n : Fin 16)
  | log (n : Fin 5)
  | callf | retf | dupn | swapn
  | create | call | callcode | return_ | delegatecall | create2 | staticcall | revert | invalid
  | selfdestruct
  deriving DecidableEq, Repr

namespace Opcode

/-- The opcode with a byte, if it is a defined one. -/
def ofByte (b : UInt8) : Option Opcode :=
  match b.toNat with
  | 0x00 => some stop
  | 0x01 => some add
  | 0x02 => some mul
  | 0x03 => some sub
  | 0x04 => some div
  | 0x05 => some sdiv
  | 0x06 => some mod
  | 0x07 => some smod
  | 0x08 => some addmod
  | 0x09 => some mulmod
  | 0x0a => some exp
  | 0x0b => some signextend
  | 0x10 => some lt
  | 0x11 => some gt
  | 0x12 => some slt
  | 0x13 => some sgt
  | 0x14 => some eq
  | 0x15 => some iszero
  | 0x16 => some and_
  | 0x17 => some or_
  | 0x18 => some xor_
  | 0x19 => some not_
  | 0x1a => some byte
  | 0x1b => some shl
  | 0x1c => some shr
  | 0x1d => some sar
  | 0x20 => some keccak256
  | 0x30 => some address
  | 0x31 => some balance
  | 0x32 => some origin
  | 0x33 => some caller
  | 0x34 => some callvalue
  | 0x35 => some calldataload
  | 0x36 => some calldatasize
  | 0x37 => some calldatacopy
  | 0x38 => some codesize
  | 0x39 => some codecopy
  | 0x3a => some gasprice
  | 0x3b => some extcodesize
  | 0x3c => some extcodecopy
  | 0x3d => some returndatasize
  | 0x3e => some returndatacopy
  | 0x3f => some extcodehash
  | 0x40 => some blockhash
  | 0x41 => some coinbase
  | 0x42 => some timestamp
  | 0x43 => some number
  | 0x44 => some prevrandao
  | 0x45 => some gaslimit
  | 0x46 => some chainid
  | 0x47 => some selfbalance
  | 0x48 => some basefee
  | 0x50 => some pop
  | 0x51 => some mload
  | 0x52 => some mstore
  | 0x53 => some mstore8
  | 0x54 => some sload
  | 0x55 => some sstore
  | 0x56 => some jump
  | 0x57 => some jumpi
  | 0x58 => some pc
  | 0x59 => some msize
  | 0x5a => some gas
  | 0x5b => some jumpdest
  | 0x5c => some rjump
  | 0x5d => some rjumpi
  | 0x5e => some rjumpv
  | 0x5f => some push0
  | 0xb0 => some callf
  | 0xb1 => some retf
  | 0xb5 => some dupn
  | 0xb6 => some swapn
  | 0xf0 => some create
  | 0xf1 => some call
  | 0xf2 => some callcode
  | 0xf3 => some return_
  | 0xf4 => some delegatecall
  | 0xf5 => some create2
  | 0xfa => some staticcall
  | 0xfd => some revert
  | 0xfe => some invalid
  | 0xff => some selfdestruct
  | n =>
    if 0x60 ≤ n ∧ n ≤ 0x7f then some (push (Fin.ofNat 32 (n - 0x60)))
    else if 0x80 ≤ n ∧ n ≤ 0x8f then some (dup (Fin.ofNat 16 (n - 0x80)))
    else if 0x90 ≤ n ∧ n ≤ 0x9f then some (swap (Fin.ofNat 16 (n - 0x90)))
    else if 0xa0 ≤ n ∧ n ≤ 0xa4 then some (log (Fin.ofNat 5 (n - 0xa0)))
    else none

end Opcode

/-! ### Costs -/

namespace Instr

/-- `cold_sload_cost`. -/
def coldSloadCost : ℕ := 2100

/-- `cold_account_access_cost`. -/
def coldAccountAccessCost : ℕ := 2600

/-- `warm_storage_read_cost`. -/
def warmStorageReadCost : ℕ := 100

/-- `additional_cold_account_access_cost`. -/
def additionalColdAccountAccessCost : ℕ := coldAccountAccessCost - warmStorageReadCost

/-- `gas_costs[EVMC_FRONTIER]`. -/
def frontierCosts : Opcode → Option ℕ
  | .stop => some 0
  | .add | .sub => some 3
  | .mul | .div | .sdiv | .mod | .smod => some 5
  | .addmod | .mulmod => some 8
  | .exp => some 10
  | .signextend => some 5
  | .lt | .gt | .slt | .sgt | .eq | .iszero | .and_ | .or_ | .xor_ | .not_ | .byte => some 3
  | .keccak256 => some 30
  | .address | .origin | .caller | .callvalue | .calldatasize | .codesize | .gasprice => some 2
  | .balance | .extcodesize | .extcodecopy | .blockhash => some 20
  | .calldataload | .calldatacopy | .codecopy => some 3
  | .coinbase | .timestamp | .number | .prevrandao | .gaslimit => some 2
  | .pop | .pc | .msize | .gas => some 2
  | .mload | .mstore | .mstore8 => some 3
  | .sload => some 50
  | .sstore => some 0
  | .jump => some 8
  | .jumpi => some 10
  | .jumpdest => some 1
  | .push _ | .dup _ | .swap _ => some 3
  | .log n => some ((n + 1) * 375)
  | .create => some 32000
  | .call | .callcode => some 40
  | .return_ | .invalid | .selfdestruct => some 0
  | _ => none

/-- What a revision changes in the costs of the one before. -/
def costChanges : ℕ → List (Opcode × ℕ)
  | 1 => [(.delegatecall, 40)]
  | 2 => [(.balance, 400), (.extcodesize, 700), (.extcodecopy, 700), (.sload, 200), (.call, 700),
    (.callcode, 700), (.delegatecall, 700), (.selfdestruct, 5000)]
  | 4 => [(.returndatasize, 2), (.returndatacopy, 3), (.staticcall, 700), (.revert, 0)]
  | 5 => [(.shl, 3), (.shr, 3), (.sar, 3), (.extcodehash, 400), (.create2, 32000)]
  | 7 => [(.balance, 700), (.chainid, 2), (.extcodehash, 700), (.selfbalance, 5), (.sload, 800)]
  | 8 => [(.extcodesize, warmStorageReadCost), (.extcodecopy, warmStorageReadCost),
    (.extcodehash, warmStorageReadCost), (.balance, warmStorageReadCost),
    (.call, warmStorageReadCost), (.callcode, warmStorageReadCost),
    (.delegatecall, warmStorageReadCost), (.staticcall, warmStorageReadCost),
    (.sload, warmStorageReadCost)]
  | 9 => [(.basefee, 2)]
  | 11 => [(.push0, 2)]
  | 12 => [(.dupn, 3), (.swapn, 3), (.rjump, 2), (.rjumpi, 4), (.rjumpv, 4), (.callf, 5),
    (.retf, 3)]
  | _ => []

/-- The costs in the revision with a number. -/
def gasCostsAt : ℕ → Opcode → Option ℕ
  | 0, op => frontierCosts op
  | n + 1, op => ((costChanges (n + 1)).lookup op).or (gasCostsAt n op)

/-- `gas_costs`. -/
def gasCosts (rev : Revision) (op : Opcode) : Option ℕ := gasCostsAt rev.index op

/-- `has_const_gas_cost`. -/
def hasConstGasCost (op : Opcode) : Bool :=
  Revision.all.all fun r => gasCosts r op == gasCosts .frontier op

/-- `legacy_cost_tables`. -/
def legacyCostTables (rev : Revision) (op : Opcode) : Option ℕ :=
  if rev = .cancun ∧ op ∈ [.rjump, .rjumpi, .rjumpv, .callf, .retf] then none else gasCosts rev op

/-- `eof_cost_tables`. -/
def eofCostTables (rev : Revision) (op : Opcode) : Option ℕ :=
  if rev = .cancun ∧ op ∈ [.jump, .jumpi, .pc, .callcode, .selfdestruct] then none
  else gasCosts rev op

/-- `get_baseline_cost_table`. -/
def getBaselineCostTable (rev : Revision) (eofVersion : UInt8) : Opcode → Option ℕ :=
  if eofVersion = 0 then legacyCostTables rev else eofCostTables rev

/-- The cost that `check_requirements` charges; the table is not looked at if the cost is the same
in all revisions. -/
def baseCost (rev : Revision) (eofVersion : UInt8) (op : Opcode) : Option ℕ :=
  if hasConstGasCost op then gasCosts .frontier op else getBaselineCostTable rev eofVersion op

/-- A cost is that of the first revision, or that of a later change. -/
theorem gasCosts_cases {P : ℕ → Prop} {rev : Revision} {op : Opcode} {c : ℕ}
    (hfrontier : ∀ c, frontierCosts op = some c → P c)
    (hchange : ∀ n, (op, c) ∈ costChanges n → P c) (h : gasCosts rev op = some c) : P c := by
  unfold gasCosts at h
  generalize rev.index = n at h
  induction n with
  | zero => exact hfrontier c h
  | succ n ih =>
    rw [gasCostsAt] at h
    cases hl : (costChanges (n + 1)).lookup op with
    | none =>
      rw [hl] at h
      exact ih h
    | some c' =>
      rw [hl] at h
      obtain ⟨l, l', heq, -⟩ := List.lookup_eq_some_iff.1 hl
      obtain rfl := Option.some.inj h
      exact hchange (n + 1) (by simp [heq])

/-- The instructions that cost nothing in themselves, in some revision at least. -/
def costless : List Opcode := [.stop, .sstore, .return_, .revert, .invalid, .selfdestruct]

theorem mem_costless_of_frontierCosts {op : Opcode} (h : frontierCosts op = some 0) :
    op ∈ costless := by
  cases op <;> first | decide | simp [frontierCosts] at h

theorem mem_costless_of_costChanges (n : ℕ) :
    ∀ p ∈ costChanges n, p.2 = 0 → p.1 ∈ costless := by
  unfold costChanges
  split <;> decide

/-- Only the costless instructions cost nothing. -/
theorem mem_costless_of_gasCosts {rev : Revision} {op : Opcode} (h : gasCosts rev op = some 0) :
    op ∈ costless :=
  gasCosts_cases (P := fun c => c = 0 → op ∈ costless)
    (fun _ h hzero => mem_costless_of_frontierCosts (hzero ▸ h))
    (fun n hmem => mem_costless_of_costChanges n _ hmem) h rfl

theorem le_of_frontierCosts {op : Opcode} {c : ℕ} (h : frontierCosts op = some c) : c ≤ 32000 := by
  have hall : (frontierCosts op).all (· ≤ 32000) = true := by
    cases op with
    | log n =>
      clear h
      revert n
      decide
    | _ => rfl
  rw [h] at hall
  exact of_decide_eq_true hall

theorem le_of_costChanges (n : ℕ) : ∀ p ∈ costChanges n, p.2 ≤ 32000 := by
  unfold costChanges
  split <;> decide

theorem le_of_gasCosts {rev : Revision} {op : Opcode} {c : ℕ} (h : gasCosts rev op = some c) :
    c ≤ 32000 :=
  gasCosts_cases (P := fun c => c ≤ 32000) (fun _ => le_of_frontierCosts)
    (fun n hmem => le_of_costChanges n _ hmem) h

/-- The instructions that have other messages executed. -/
def calling : List Opcode := [.call, .callcode, .delegatecall, .staticcall, .create, .create2]

theorem forty_le_of_frontierCosts {op : Opcode} (hop : op ∈ calling) {c : ℕ}
    (h : frontierCosts op = some c) : 40 ≤ c := by
  have hall : ∀ op ∈ calling, (frontierCosts op).all (40 ≤ ·) = true := by decide
  have hop := hall op hop
  rw [h] at hop
  exact of_decide_eq_true hop

theorem forty_le_of_costChanges (n : ℕ) : ∀ p ∈ costChanges n, p.1 ∈ calling → 40 ≤ p.2 := by
  unfold costChanges
  split <;> decide

/-- The cheapest call costs 40. -/
theorem forty_le_of_gasCosts {rev : Revision} {op : Opcode} {c : ℕ} (hop : op ∈ calling)
    (h : gasCosts rev op = some c) : 40 ≤ c :=
  gasCosts_cases (P := fun c => 40 ≤ c) (fun _ => forty_le_of_frontierCosts hop)
    (fun n hmem => forty_le_of_costChanges n _ hmem hop) h

theorem gasCosts_eq_of_hasConstGasCost {op : Opcode} (h : hasConstGasCost op = true)
    (rev : Revision) : gasCosts rev op = gasCosts .frontier op := by
  have hmem : rev ∈ Revision.all := by cases rev <;> decide
  exact beq_iff_eq.1 (List.all_eq_true.1 h rev hmem)

theorem gasCosts_of_baseCost {rev : Revision} {eofVersion : UInt8} {op : Opcode} {c : ℕ}
    (h : baseCost rev eofVersion op = some c) : gasCosts rev op = some c := by
  rw [baseCost] at h
  split_ifs at h with hconst
  · rw [gasCosts_eq_of_hasConstGasCost hconst, h]
  · rw [getBaselineCostTable] at h
    split_ifs at h
    · rw [legacyCostTables] at h
      split_ifs at h
      exact h
    · rw [eofCostTables] at h
      split_ifs at h
      exact h

/-- In the last revision the table for legacy code makes nothing undefined. -/
theorem baseCost_prague (op : Opcode) : baseCost .prague 0 op = gasCosts .prague op := by
  rw [baseCost]
  split_ifs with hconst
  · exact (gasCosts_eq_of_hasConstGasCost hconst _).symm
  · rfl

end Instr

/-! ### The stack -/

/-- `instr::Traits`, as far as the interpreter reads it. -/
structure Traits where
  /-- The number of stack items the instruction accesses during execution. -/
  stackHeightRequired : ℕ
  /-- The stack height change caused by the instruction execution. -/
  stackHeightChange : ℤ

/-- `instr::traits`. -/
def Opcode.traits : Opcode → Traits
  | .stop | .jumpdest | .rjump | .callf | .retf | .swapn | .invalid => ⟨0, 0⟩
  | .add | .mul | .sub | .div | .sdiv | .mod | .smod | .exp | .signextend => ⟨2, -1⟩
  | .addmod | .mulmod => ⟨3, -2⟩
  | .lt | .gt | .slt | .sgt | .eq | .and_ | .or_ | .xor_ | .byte | .shl | .shr | .sar => ⟨2, -1⟩
  | .iszero | .not_ => ⟨1, 0⟩
  | .keccak256 => ⟨2, -1⟩
  | .address | .origin | .caller | .callvalue | .calldatasize | .codesize | .gasprice
  | .returndatasize => ⟨0, 1⟩
  | .balance | .calldataload | .extcodesize | .extcodehash | .blockhash => ⟨1, 0⟩
  | .calldatacopy | .codecopy | .returndatacopy => ⟨3, -3⟩
  | .extcodecopy => ⟨4, -4⟩
  | .coinbase | .timestamp | .number | .prevrandao | .gaslimit | .chainid | .selfbalance
  | .basefee => ⟨0, 1⟩
  | .pop | .jump | .rjumpi | .rjumpv => ⟨1, -1⟩
  | .mload | .sload => ⟨1, 0⟩
  | .mstore | .mstore8 | .sstore | .jumpi => ⟨2, -2⟩
  | .pc | .msize | .gas | .push0 | .push _ | .dupn => ⟨0, 1⟩
  | .dup n => ⟨n + 1, 1⟩
  | .swap n => ⟨n + 2, 0⟩
  | .log n => ⟨n + 2, -(n + 2)⟩
  | .create => ⟨3, -2⟩
  | .call | .callcode => ⟨7, -6⟩
  | .return_ | .revert => ⟨2, -2⟩
  | .delegatecall | .staticcall => ⟨6, -5⟩
  | .create2 => ⟨4, -3⟩
  | .selfdestruct => ⟨1, -1⟩

end Evm

end WeakChain
