import Mathlib.Data.Nat.Digits.Lemmas
import WeakChain.Evm.Gas

/-!
# What the instructions mean

The interpreter analyzes the code before it executes it and pads it with zeros, loads the data of a
`PUSH` by words of 64 bits, and computes with words of 64 bits throughout.  `Semantics` says what
all this is for: a machine that reads the code as it is, and computes with numbers.

* `agree_step` : on legacy code a turn of the interpreter does what a step of this machine does.
* `execMsg_eq_machine` : a message is executed alike by the two, with all messages within it.
-/

namespace WeakChain

namespace Evm

namespace Semantics

/-- A number as a word. -/
def word (n : ℕ) : Word := BitVec.ofNat 256 n

/-- How many bytes a number takes. -/
def byteLength (n : ℕ) : ℕ := (Nat.digits 256 n).length

/-! ### Numbers -/

theorem eq_word_iff {x : Word} {n : ℕ} : x = word n ↔ x.toNat = n % 2 ^ 256 := by
  rw [← BitVec.toNat_inj, word, BitVec.toNat_ofNat]

theorem add_eq (x y : Word) : y + x = word (x.toNat + y.toNat) := by
  rw [eq_word_iff, BitVec.toNat_add, Nat.add_comm]

theorem mul_eq (x y : Word) : y * x = word (x.toNat * y.toNat) := by
  rw [eq_word_iff, BitVec.toNat_mul, Nat.mul_comm]

theorem sub_eq (x y : Word) : x - y = word (x.toNat + 2 ^ 256 - y.toNat) := by
  have := y.isLt
  rw [eq_word_iff, BitVec.toNat_sub]
  congr 1
  omega

theorem div_eq (x y : Word) :
    (if y ≠ 0 then BitVec.ofNat 256 (Intx.udivrem 4 4 x.toNat y.toNat).1 else 0) =
      word (x.toNat / y.toNat) := by
  split_ifs with h
  · rw [Intx.udivrem_eq x.isLt y.isLt (BitVec.toNat_pos_of_ne_zero h).ne']
    rfl
  · rw [not_not.1 h]
    simp [word]

theorem mod_eq (x y : Word) :
    (if y ≠ 0 then BitVec.ofNat 256 (Intx.udivrem 4 4 x.toNat y.toNat).2 else 0) =
      if y = 0 then 0 else word (x.toNat % y.toNat) := by
  rw [ite_not]
  refine ite_congr rfl (fun _ => rfl) fun h => ?_
  rw [Intx.udivrem_eq x.isLt y.isLt (BitVec.toNat_pos_of_ne_zero h).ne']
  rfl

theorem sdiv_eq (x y : Word) :
    (if y ≠ 0 then (Intx.sdivrem x y).1 else 0) = BitVec.ofInt 256 (x.toInt.tdiv y.toInt) := by
  have hsdiv : x.sdiv y = BitVec.ofInt 256 (x.toInt.tdiv y.toInt) := by
    refine BitVec.eq_of_toInt_eq ?_
    rw [BitVec.toInt_sdiv, BitVec.toInt_ofInt]
  split_ifs with h
  · rw [Intx.sdivrem_eq h, hsdiv]
  · rw [← hsdiv, not_not.1 h]
    simp

theorem smod_eq (x y : Word) :
    (if y ≠ 0 then (Intx.sdivrem x y).2 else 0) =
      if y = 0 then 0 else BitVec.ofInt 256 (x.toInt.tmod y.toInt) := by
  rw [ite_not]
  refine ite_congr rfl (fun _ => rfl) fun h => ?_
  rw [Intx.sdivrem_eq h, ← BitVec.toInt_srem, BitVec.ofInt_toInt]

theorem mod_toNat_lt {m : Word} (h : m ≠ 0) (n : ℕ) : n % m.toNat < 2 ^ 256 :=
  lt_trans (Nat.mod_lt _ (BitVec.toNat_pos_of_ne_zero h)) m.isLt

theorem addmod_eq (x y m : Word) : (if m ≠ 0 then Intx.addmod x y m else 0) =
    if m = 0 then 0 else word ((x.toNat + y.toNat) % m.toNat) := by
  rw [ite_not]
  refine ite_congr rfl (fun _ => rfl) fun h => ?_
  rw [eq_word_iff, Intx.toNat_addmod h, Nat.mod_eq_of_lt (mod_toNat_lt h _)]

theorem mulmod_eq (x y m : Word) : (if m ≠ 0 then Intx.mulmod x y m else 0) =
    if m = 0 then 0 else word (x.toNat * y.toNat % m.toNat) := by
  rw [ite_not]
  refine ite_congr rfl (fun _ => rfl) fun h => ?_
  rw [eq_word_iff, Intx.toNat_mulmod h, Nat.mod_eq_of_lt (mod_toNat_lt h _)]

theorem exp_eq (x y : Word) : Intx.exp x y = word (x.toNat ^ y.toNat) := by
  rw [eq_word_iff, Intx.toNat_exp]

theorem countSignificantBytes_eq (x : Word) :
    Intx.countSignificantBytes x = byteLength x.toNat := by
  have hle : ∀ n, Intx.countSignificantBytes x ≤ n ↔ byteLength x.toNat ≤ n := by
    intro n
    rw [Intx.countSignificantBytes_le_iff, byteLength, Nat.digits_length_le_iff (by norm_num),
      pow_mul]
    norm_num
  exact le_antisymm ((hle _).2 le_rfl) ((hle _).1 le_rfl)

theorem signextend_eq (ext x : Word) : Intx.signextend ext x =
    if ext.toNat < 31 then BitVec.ofInt 256 ((x.toNat : ℤ).bmod (2 ^ (8 * (ext.toNat + 1))))
    else x := by
  split_ifs with h
  · rw [Intx.signextend_eq h, BitVec.signExtend, BitVec.toInt_eq_toNat_bmod, BitVec.toNat_setWidth]
    congr 1
    rw [Int.natCast_mod, Int.emod_bmod]
  · rw [Intx.signextend, if_neg]
    rwa [BitVec.lt_def]

theorem byte_eq (n x : Word) : Intx.byte n x =
    if n.toNat < 32 then word (x.toNat / 256 ^ (31 - n.toNat) % 256) else 0 := by
  rw [Intx.byte_eq]
  refine ite_congr rfl (fun h => ?_) fun _ => rfl
  rw [eq_word_iff, BitVec.toNat_setWidth, Intx.byteAt, BitVec.extractLsb'_toNat,
    Nat.shiftRight_eq_div_pow, pow_mul]
  norm_num

theorem shl_eq (n x : Word) : Intx.shl x n = word (x.toNat * 2 ^ n.toNat) := by
  rw [Intx.shl_eq, eq_word_iff, BitVec.toNat_shiftLeft, Nat.shiftLeft_eq]

theorem shr_eq (n x : Word) : Intx.shr x n = word (x.toNat / 2 ^ n.toNat) := by
  rw [Intx.shr_eq, eq_word_iff, BitVec.toNat_ushiftRight, Nat.shiftRight_eq_div_pow,
    Nat.mod_eq_of_lt]
  exact lt_of_le_of_lt (Nat.div_le_self _ _) x.isLt

theorem sar_eq (n x : Word) : Intx.sar n x = BitVec.ofInt 256 (x.toInt / 2 ^ n.toNat) := by
  rw [Intx.sar_eq, BitVec.sshiftRight, Int.shiftRight_eq_div_pow]
  norm_num

theorem slt_eq (x y : Word) : Intx.slt x y = decide (x.toInt < y.toInt) := by
  rw [Intx.slt_eq, BitVec.slt_eq_decide]

/-! ### The instructions -/

/-- `EXP`, which costs more for an exponent with more bytes. -/
def exp : Instruction := fun fr s =>
  match s.stack with
  | base :: exponent :: st => do
    let exponentCost := if .spuriousDragon ≤ fr.rev then 50 else 10
    let s ← charge (byteLength exponent.toNat * exponentCost) s
    .ret { s with stack := word (base.toNat ^ exponent.toNat) :: st }
  | _ => fault .stack

/-- A jump goes to an instruction of the code that is a `JUMPDEST`. -/
def CanJump (code : Bytes) (dst : ℕ) : Prop := InstrStart code dst ∧ code[dst]? = some 0x5b

open Classical in
/-- Jump to a destination. -/
noncomputable def jumpTo (fr : Frame) (dst : ℕ) (s : ExecutionState) : Act ExecutionState :=
  if CanJump fr.originalCode dst then .ret { s with codeIt := dst }
  else halt statusBadJumpDestination s

/-- `JUMP`. -/
noncomputable def jump : Instruction := fun fr s =>
  match s.stack with
  | dst :: st => jumpTo fr dst.toNat { s with stack := st }
  | _ => fault .stack

/-- `JUMPI`. -/
noncomputable def jumpi : Instruction := fun fr s =>
  match s.stack with
  | dst :: cond :: st =>
    if cond ≠ 0 then jumpTo fr dst.toNat { s with stack := st }
    else .ret { s with stack := st, codeIt := s.codeIt + 1 }
  | _ => fault .stack

/-- `PUSH1` to `PUSH32`: the bytes behind the instruction, and zeros behind the code. -/
def push (len : ℕ) : Instruction := fun fr s => do
  let s ← Evm.push (Intx.load (Instr.slice fr.originalCode (s.codeIt + 1) len)) s
  .ret { s with codeIt := s.codeIt + (len + 1) }

variable [Keccak]

/-- What an instruction does.  Those that are not mentioned are as they are. -/
noncomputable def impl : Opcode → Instruction
  | .add => invokeStack (Instr.binary fun x y => word (x.toNat + y.toNat))
  | .mul => invokeStack (Instr.binary fun x y => word (x.toNat * y.toNat))
  | .sub => invokeStack (Instr.binary fun x y => word (x.toNat + 2 ^ 256 - y.toNat))
  | .div => invokeStack (Instr.binary fun x y => word (x.toNat / y.toNat))
  | .mod => invokeStack (Instr.binary fun x y => if y = 0 then 0 else word (x.toNat % y.toNat))
  | .sdiv => invokeStack (Instr.binary fun x y => BitVec.ofInt 256 (x.toInt.tdiv y.toInt))
  | .smod => invokeStack (Instr.binary fun x y =>
      if y = 0 then 0 else BitVec.ofInt 256 (x.toInt.tmod y.toInt))
  | .addmod => invokeStack (Instr.ternary fun x y m =>
      if m = 0 then 0 else word ((x.toNat + y.toNat) % m.toNat))
  | .mulmod => invokeStack (Instr.ternary fun x y m =>
      if m = 0 then 0 else word (x.toNat * y.toNat % m.toNat))
  | .exp => invokeNext exp
  | .signextend => invokeStack (Instr.binary fun ext x =>
      if ext.toNat < 31 then BitVec.ofInt 256 ((x.toNat : ℤ).bmod (2 ^ (8 * (ext.toNat + 1))))
      else x)
  | .slt => invokeStack (Instr.binary fun x y => ofBool (x.toInt < y.toInt))
  | .sgt => invokeStack (Instr.binary fun x y => ofBool (y.toInt < x.toInt))
  | .byte => invokeStack (Instr.binary fun n x =>
      if n.toNat < 32 then word (x.toNat / 256 ^ (31 - n.toNat) % 256) else 0)
  | .shl => invokeStack (Instr.binary fun n x => word (x.toNat * 2 ^ n.toNat))
  | .shr => invokeStack (Instr.binary fun n x => word (x.toNat / 2 ^ n.toNat))
  | .sar => invokeStack (Instr.binary fun n x => BitVec.ofInt 256 (x.toInt / 2 ^ n.toNat))
  | .jump => jump
  | .jumpi => jumpi
  | .push n => push (n + 1)
  | op => Evm.impl op

/-- An instruction of the code, or the `STOP` that stands behind it everywhere. -/
noncomputable def step : Instruction := fun fr s =>
  match Opcode.ofByte (fr.originalCode[s.codeIt]?.getD 0) with
  | none => halt statusUndefinedInstruction s
  | some op => do
    let s ← checkRequirements op fr s
    impl op fr s

/-- The frame of an execution, without an analysis of the code. -/
def frame (msg : Message) (rev : Revision) (code : Bytes) : Frame := ⟨msg, rev, code, ⟨[], [], {}⟩⟩

/-- The machine. -/
noncomputable def machine (rev : Revision) (ub : Result) : Vm where
  execute code msg :=
    toVmRun ub (Dialogue.iterate (step (frame msg rev code))
      (turns (padCode code) msg.gas.toInt) (.start msg))

/-! ### The interpreter does this -/

section Agree

variable {msg : Message} {rev : Revision} {code : Bytes} {s : ExecutionState} {op : Opcode}

/-- The frame of the interpreter. -/
abbrev legacyFrame (msg : Message) (rev : Revision) (code : Bytes) : Frame :=
  ⟨msg, rev, code, analyzeLegacy code⟩

omit [Keccak] in
theorem exp_instr_eq : Instr.exp (legacyFrame msg rev code) s = exp (frame msg rev code) s := by
  unfold Instr.exp exp
  rcases s.stack with _ | ⟨x, _ | ⟨y, st⟩⟩
  · rfl
  · rfl
  · simp only [countSignificantBytes_eq, exp_eq]
    rfl

omit [Keccak] in
theorem jumpImpl_eq (hlen : code.length < 2 ^ 64) (dst : Word) (s : ExecutionState) :
    Instr.jumpImpl (legacyFrame msg rev code) dst s = jumpTo (frame msg rev code) dst.toNat s := by
  have hcan : (dst.toNat < (analyzeJumpdests code).length ∧
      (analyzeJumpdests code)[Intx.toSize dst]? = some true) ↔ CanJump code dst.toNat := by
    rw [length_analyzeJumpdests]
    constructor
    · rintro ⟨hlt, hmap⟩
      rwa [Intx.toSize_of_lt (hlt.trans hlen), getElem?_analyzeJumpdests] at hmap
    · intro h
      have hlt : dst.toNat < code.length := (List.getElem?_eq_some_iff.1 h.2).1
      exact ⟨hlt, by rwa [Intx.toSize_of_lt (hlt.trans hlen), getElem?_analyzeJumpdests]⟩
  have hsize : CanJump code dst.toNat → Intx.toSize dst = dst.toNat := fun h =>
    Intx.toSize_of_lt ((List.getElem?_eq_some_iff.1 h.2).1.trans hlen)
  classical
  rw [Instr.jumpImpl, jumpTo]
  exact if_ctx_congr hcan (fun h => by rw [hsize h]) fun _ => rfl

omit [Keccak] in
theorem jump_eq (hlen : code.length < 2 ^ 64) :
    Instr.jump (legacyFrame msg rev code) s = jump (frame msg rev code) s := by
  unfold Instr.jump jump
  rcases s.stack with _ | ⟨dst, st⟩
  · rfl
  · exact jumpImpl_eq hlen dst _

omit [Keccak] in
theorem jumpi_eq (hlen : code.length < 2 ^ 64) :
    Instr.jumpi (legacyFrame msg rev code) s = jumpi (frame msg rev code) s := by
  unfold Instr.jumpi jumpi
  rcases s.stack with _ | ⟨dst, _ | ⟨cond, st⟩⟩
  · rfl
  · rfl
  · dsimp only
    rw [jumpImpl_eq hlen]

omit [Keccak] in
/-- The padding stands for the zeros behind the code. -/
theorem codeBytes_eq {pos len : ℕ} (hpos : pos ≤ code.length) (hlen : len ≤ 32) :
    Instr.codeBytes (legacyFrame msg rev code) pos len = Instr.slice code pos len := by
  have hzeros : min (len - (code.length - pos)) padding = len - min len (code.length - pos) := by
    unfold padding
    omega
  change ((code ++ List.replicate padding 0).drop pos).take len = _
  rw [List.drop_append_of_le_length hpos, List.take_append, List.take_replicate, List.length_drop,
    hzeros, Instr.slice, List.length_take, List.length_drop]

omit [Keccak] in
theorem push_eq (hpos : s.codeIt < code.length) {len : ℕ} (hlen : len ≤ 32) :
    Instr.push len (legacyFrame msg rev code) s = push len (frame msg rev code) s := by
  have hcode : (legacyFrame msg rev code).analysis.executableCode.length = code.length + 33 := by
    simp [analyzeLegacy, padCode, padding]
  rw [Instr.push, push, Instr.pushData_eq hlen (by omega), codeBytes_eq hpos hlen]
  rfl

/-- An instruction does what it means. -/
theorem impl_eq (hnew : op ∉ newOpcodes) (hlen : code.length < 2 ^ 64)
    (hpos : s.codeIt < code.length) :
    Evm.impl op (legacyFrame msg rev code) s = impl op (frame msg rev code) s := by
  have hbinary : ∀ {f g : Word → Word → Word}, (∀ x y, f x y = g x y) →
      invokeStack (Instr.binary f) (legacyFrame msg rev code) s =
        invokeStack (Instr.binary g) (frame msg rev code) s :=
    fun h => congrArg (fun f => invokeStack (Instr.binary f) (frame msg rev code) s) (funext₂ h)
  have hternary : ∀ {f g : Word → Word → Word → Word}, (∀ x y m, f x y m = g x y m) →
      invokeStack (Instr.ternary f) (legacyFrame msg rev code) s =
        invokeStack (Instr.ternary g) (frame msg rev code) s :=
    fun h => congrArg (fun f => invokeStack (Instr.ternary f) (frame msg rev code) s) (funext₃ h)
  cases op with
  | add => exact hbinary add_eq
  | mul => exact hbinary mul_eq
  | sub => exact hbinary sub_eq
  | div => exact hbinary div_eq
  | mod => exact hbinary mod_eq
  | sdiv => exact hbinary sdiv_eq
  | smod => exact hbinary smod_eq
  | addmod => exact hternary addmod_eq
  | mulmod => exact hternary mulmod_eq
  | signextend => exact hbinary signextend_eq
  | slt => exact hbinary (fun x y => congrArg ofBool (slt_eq x y))
  | sgt => exact hbinary (fun x y => congrArg ofBool (slt_eq y x))
  | byte => exact hbinary byte_eq
  | shl => exact hbinary shl_eq
  | shr => exact hbinary shr_eq
  | sar => exact hbinary sar_eq
  | exp => exact congrArg (· >>= _) exp_instr_eq
  | jump => exact jump_eq hlen
  | jumpi => exact jumpi_eq hlen
  | push n => exact push_eq hpos n.isLt
  | rjump | rjumpi | rjumpv | callf | retf | dupn | swapn => exact absurd hnew (by decide)
  | _ => rfl

/-- What has been checked is executed, if the instruction does what it means. -/
theorem agree_invoke {gas : ℤ} (hs : Sane s) {post : ExecutionState → ExecutionState → Prop}
    (himpl : ∀ s₁, Checked (legacyFrame msg rev code) op s s₁ →
      Evm.impl op (legacyFrame msg rev code) s₁ = impl op (frame msg rev code) s₁ ∧
        (Evm.impl op (legacyFrame msg rev code) s₁).Meets (defined rev gas) (post s₁))
    (hpost : ∀ s₁ s₂, post s₁ s₂ →
      (s₂.stack.length : ℤ) = s₁.stack.length + op.traits.stackHeightChange) :
    Dialogue.Agree (Reliable rev) (invoke op (legacyFrame msg rev code) s)
      (checkRequirements op (frame msg rev code) s >>= fun s₁ =>
        impl op (frame msg rev code) s₁) := by
  have hcheck : checkRequirements op (frame msg rev code) s =
      checkRequirements op (legacyFrame msg rev code) s := rfl
  rw [hcheck]
  have hchecked : (checkRequirements op (legacyFrame msg rev code) s).Meets (defined rev gas)
      (Checked (legacyFrame msg rev code) op s) := meets_checkRequirements hs op
  refine Dialogue.Agree.bind (.refl _) hchecked fun s₁ h₁ => ?_
  obtain ⟨heq, hmeets⟩ := himpl s₁ h₁
  rw [← heq]
  refine hmeets.agree_bind fun s₂ h₂ => if_pos ?_
  rw [hpost s₁ s₂ h₂, h₁.paid.stack]

/-- **A turn of the interpreter does what a step does.** -/
theorem agree_step (hcode : LegacyCode rev code) (hs : Between (legacyFrame msg rev code) s) :
    Dialogue.Agree (Reliable rev) (turn (legacyFrame msg rev code) s)
      (step (frame msg rev code) s) := by
  have hbyte : (legacyFrame msg rev code).analysis.executableCode[s.codeIt]? =
      some (code[s.codeIt]?.getD 0) := getElem?_padCode hs.codeIt_le
  have hcode' : (frame msg rev code).originalCode = code := rfl
  rw [turn, hbyte, step, hcode']
  cases hb : code[s.codeIt]? with
  | none =>
    -- behind the code there is a `STOP`
    have himpl : ∀ s₁, Checked (legacyFrame msg rev code) .stop s s₁ →
        Evm.impl .stop (legacyFrame msg rev code) s₁ = impl .stop (frame msg rev code) s₁ ∧
          (Evm.impl .stop (legacyFrame msg rev code) s₁).Meets (defined rev msg.gas.toInt)
            fun _ => False :=
      fun s₁ h₁ => by
        obtain ⟨c, -, hpaid⟩ := h₁.cost
        exact ⟨rfl, meets_stopImpl (legacyFrame msg rev code) _ h₁.paid.sane
          ((hs.ledger h₁ hpaid).mono (Int.natCast_nonneg c))⟩
    exact agree_invoke hs.sane himpl fun _ _ h => h.elim
  | some b =>
    rw [Option.getD_some]
    cases hop : Opcode.ofByte b with
    | none =>
      rw [orFault, Dialogue.ret_bind]
      dsimp only
      rw [hop]
      exact .refl _
    | some op =>
      rw [orFault, Dialogue.ret_bind]
      dsimp only
      rw [hop]
      have hpos : s.codeIt < code.length := (List.getElem?_eq_some_iff.1 hb).1
      have himpl : ∀ s₁, Checked (legacyFrame msg rev code) op s s₁ →
          Evm.impl op (legacyFrame msg rev code) s₁ = impl op (frame msg rev code) s₁ ∧
            (Evm.impl op (legacyFrame msg rev code) s₁).Meets (defined rev msg.gas.toInt)
              (Executed rev msg.gas.toInt code op s₁) := by
        intro s₁ h₁
        obtain ⟨hnew, hmeets⟩ := meets_impl_of_checked rfl hcode.plain hs hb hop h₁
        exact ⟨impl_eq hnew hcode.length_lt (h₁.paid.codeIt ▸ hpos), hmeets⟩
      exact agree_invoke hs.sane himpl fun _ _ h => h.height

/-- The executions of legacy code. -/
theorem agree_executeFrame (hcode : LegacyCode rev code) (hgas : Fits rev msg.gas.toInt) :
    Dialogue.Agree (Reliable rev) (executeFrame (legacyFrame msg rev code))
      (Dialogue.iterate (step (frame msg rev code)) (turns (padCode code) msg.gas.toInt)
        (.start msg)) :=
  Dialogue.Agree.iterate (t := defined rev msg.gas.toInt) (I := Between (legacyFrame msg rev code))
    (fun _ hs => (meets_turn rfl hcode.plain hs).imp fun _ h => h.1)
    (fun _ hs => agree_step hcode hs) _ (between_start hgas)

end Agree

/-- The machine does what the interpreter does. -/
theorem follows_machine (rev : Revision) (ub : Result) : (machine rev ub).Follows rev :=
  fun _ _ hcode hgas => ⟨ub, _, rfl, agree_executeFrame hcode hgas⟩

end Semantics

end Evm

end WeakChain
