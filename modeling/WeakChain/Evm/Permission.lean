import WeakChain.Evm.Baseline

/-!
# What a contract may ask the host

The host trusts the machine: it writes where it is told to write, and executes the messages that it
is given.  `Permitted` says what the bundled machine asks while it executes a message, whatever the
code is and whatever the host answers: it reads and writes the storage of the recipient of the
message only, it changes nothing in static mode and hands the static mode on, and it makes no call
that is too deep (`modest_executeFrame`).  So it is a machine that is `Vm.Modest`.
-/

namespace WeakChain

namespace Evm

/-- `in_static_mode`, of a message. -/
def Message.isStatic (msg : Message) : Bool := msg.flags &&& 1 != 0

/-- The message of a call, as the kind of the call has it. -/
def Message.CallsAs (msg callee : Message) : Prop :=
  match callee.kind with
  | .call => callee.sender = msg.recipient ∧ callee.recipient = callee.codeAddress ∧
      (msg.isStatic = true → callee.value = .zero 32)
  | .callcode => callee.sender = msg.recipient ∧ callee.recipient = msg.recipient
  | .delegatecall => callee.sender = msg.sender ∧ callee.recipient = msg.recipient ∧
      callee.value = msg.value
  | .create | .create2 => callee.sender = msg.recipient ∧ callee.recipient = .zero 20 ∧
      msg.isStatic = false

/-- What may be called in the course of a message. -/
structure Message.MayCall (msg callee : Message) : Prop where
  /-- It is as the kind of the call has it. -/
  callsAs : msg.CallsAs callee
  /-- There is a bound on the depth, -/
  depth_lt : msg.depth < 1024
  /-- which is counted. -/
  depth_eq : callee.depth = msg.depth + 1
  /-- The static mode goes on. -/
  isStatic : msg.isStatic = true → callee.isStatic = true

/-- What may be asked in the course of a message. -/
def Permitted (msg : Message) : HostCall → Prop
  | .getStorage a _ | .accessStorage a _ => a = msg.recipient
  | .setStorage a _ _ | .selfdestruct a _ | .emitLog a _ _ =>
    a = msg.recipient ∧ msg.isStatic = false
  | .call callee => msg.MayCall callee
  | _ => True

/-- A part of an execution that asks permitted questions only. -/
abbrev Modest {α : Type} (msg : Message) (x : Act α) : Prop := x.Asks (Permitted msg)

section Parts

variable {msg : Message} {α : Type}

@[simp, grind ←] theorem modest_halt (status : StatusCode) (s : ExecutionState) :
    Modest msg (halt status s : Act α) := trivial

@[simp, grind ←] theorem modest_fault (f : Fault) : Modest msg (fault f : Act α) := trivial

@[grind ←] theorem modest_int64 (x : ℤ) : Modest msg (int64 x) := by
  unfold int64
  split <;> trivial

@[grind ←] theorem modest_charge (cost : ℕ) (s : ExecutionState) : Modest msg (charge cost s) := by
  refine .bind (modest_int64 _) fun gas => ?_
  split <;> trivial

theorem modest_addRefund (refund : ℤ) (s : ExecutionState) : Modest msg (addRefund refund s) :=
  .bind (modest_int64 _) fun _ => trivial

@[grind ←] theorem modest_push (x : Word) (s : ExecutionState) : Modest msg (push x s) := by
  unfold push
  split <;> trivial

theorem modest_growMemory (n : ℕ) (s : ExecutionState) : Modest msg (growMemory n s) := by
  refine .bind (modest_int64 _) fun gas => ?_
  split
  · unfold grow
    split <;> trivial
  · trivial

@[grind ←] theorem modest_checkMemorySize (offset : Word) (n : ℕ) (s : ExecutionState) :
    Modest msg (checkMemorySize offset n s) := by
  unfold checkMemorySize
  split
  · trivial
  · refine .ite_bind (modest_growMemory ..) trivial fun s => ?_
    dsimp only
    split <;> trivial

@[grind ←] theorem modest_checkMemory (offset size : Word) (s : ExecutionState) :
    Modest msg (checkMemory offset size s) := by
  unfold checkMemory
  split
  · trivial
  · split
    · trivial
    · exact modest_checkMemorySize ..

@[grind ←] theorem modest_readMemory (offset n : ℕ) (s : ExecutionState) :
    Modest msg (readMemory offset n s) := by
  unfold readMemory
  split <;> trivial

@[grind ←] theorem modest_readMemory? (offset n : ℕ) (s : ExecutionState) :
    Modest msg (readMemory? offset n s) := by
  unfold readMemory?
  split
  · exact modest_readMemory ..
  · trivial

@[grind ←] theorem modest_writeMemory (offset : ℕ) (bs : Bytes) (s : ExecutionState) :
    Modest msg (writeMemory offset bs s) := by
  unfold writeMemory
  split <;> trivial

@[grind ←] theorem modest_orFault (f : Fault) (o : Option α) : Modest msg (orFault f o) := by
  cases o <;> trivial

theorem meets_orFault {t : Dialogue.Terms HostCall HostCall.Answer Exit} {post : α → Prop}
    {f : Fault} {o : Option α} (h : ∀ a, o = some a → post a) (hf : o = none → t.exit (.fault f)) :
    (orFault f o).Meets t post := by
  cases o with
  | none => exact hf rfl
  | some a => exact h a rfl

@[grind ←] theorem modest_askHost {q : HostCall} (h : Permitted msg q) : Modest msg (askHost q) :=
  Dialogue.asks_ask.2 ⟨h, fun _ => trivial⟩

/-- A permitted question, and what is done with the answer. -/
theorem modest_askHost_bind {q : HostCall} (h : Permitted msg q) {k : q.Answer → Act α}
    (hk : ∀ x, Modest msg (k x)) : Modest msg (askHost q >>= k) :=
  .bind (modest_askHost h) hk

@[grind ←] theorem modest_getTxContext (s : ExecutionState) : Modest msg (getTxContext s) := by
  unfold getTxContext
  split
  · exact modest_askHost_bind (by trivial) fun _ => trivial
  · trivial

@[grind ←] theorem modest_accessAccount (fr : Frame) (a : Address) (cost : ℕ) (s : ExecutionState) :
    Modest msg (accessAccount fr a cost s) := by
  unfold accessAccount
  split
  · refine modest_askHost_bind (by trivial) fun access => ?_
    split
    · exact modest_charge ..
    · trivial
  · trivial

@[grind ←] theorem modest_goTo (pos : ℤ) (s : ExecutionState) : Modest msg (Instr.goTo pos s) := by
  unfold Instr.goTo
  split <;> trivial

end Parts

section Instructions

variable (fr : Frame) (s : ExecutionState)

theorem modest_sload : Modest fr.msg (Instr.sload fr s) := by
  unfold Instr.sload
  split
  · dsimp only
    split
    · refine modest_askHost_bind (by rfl) fun access => ?_
      exact .ite_bind (modest_charge ..) trivial fun s =>
        modest_askHost_bind (by rfl) fun _ => trivial
    · exact modest_askHost_bind (by rfl) fun _ => trivial
  · trivial

theorem modest_sstore : Modest fr.msg (Instr.sstore fr s) := by
  unfold Instr.sstore
  split
  · trivial
  · next hstatic =>
    split
    · trivial
    · split
      · next x y st _ =>
        have hset : ∀ gasCostCold : ℕ, Modest fr.msg
            (askHost (.setStorage fr.msg.recipient (Intx.store x) (Intx.store y)) >>= fun status =>
              charge ((Instr.sstoreCosts fr.rev status).gasCost + gasCostCold) s >>= fun s =>
                addRefund (Instr.sstoreCosts fr.rev status).gasRefund s >>= fun s =>
                  .ret { s with stack := st }) :=
          fun _ => modest_askHost_bind (by exact ⟨rfl, Bool.eq_false_iff.2 hstatic⟩) fun _ =>
            .bind (modest_charge ..) fun _ => .bind (modest_addRefund ..) fun _ => trivial
        dsimp only
        split
        · exact modest_askHost_bind (by rfl) fun _ => hset _
        · exact hset 0
      · trivial

/-- A beneficiary that is not there has to be paid for. -/
theorem modest_payBeneficiary {msg : Message} {a : Address}
    {k : ExecutionState → Act ExecutionState} (hk : ∀ s', Modest msg (k s')) (pays : Bool) :
    Modest msg (if pays then askHost (.accountExists a) >>= fun isThere =>
        if isThere then .ret s >>= k else charge 25000 s >>= k
      else .ret s >>= k) := by
  split
  · exact modest_askHost_bind (by trivial) fun _ => .ite_bind trivial (modest_charge ..) hk
  · exact hk s

theorem modest_selfdestruct : Modest fr.msg (Instr.selfdestruct fr s) := by
  unfold Instr.selfdestruct
  split
  · trivial
  · next hstatic =>
    split
    · next x _ _ =>
      refine .bind (modest_accessAccount ..) fun s₁ => ?_
      have hdestroy : ∀ s, Modest fr.msg
          (askHost (.selfdestruct fr.msg.recipient (Intx.truncAddress x)) >>= fun first =>
            if first ∧ fr.rev < .london then
              addRefund 24000 s >>= fun s => (halt statusSuccess s : Act ExecutionState)
            else .ret s >>= fun s => halt statusSuccess s) :=
        fun _ => modest_askHost_bind (by exact ⟨rfl, Bool.eq_false_iff.2 hstatic⟩) fun _ =>
          .ite_bind (modest_addRefund ..) trivial fun _ => trivial
      dsimp only
      split
      · split
        · exact modest_payBeneficiary s₁ hdestroy true
        · exact modest_askHost_bind (by trivial) fun value => modest_payBeneficiary s₁ hdestroy _
      · exact hdestroy s₁
    · trivial

theorem modest_log (n : ℕ) : Modest fr.msg (Instr.log n fr s) := by
  unfold Instr.log
  split
  · trivial
  · next hstatic =>
    split
    · split
      · trivial
      · exact .bind (modest_checkMemory ..) fun s => .bind (modest_charge ..) fun s =>
          .bind (modest_readMemory? ..) fun data =>
            modest_askHost_bind (by exact ⟨rfl, Bool.eq_false_iff.2 hstatic⟩) fun _ => trivial
    · trivial

/-- What is done with the result of a call or of a creation asks nothing. -/
theorem modest_payBack {msg : Message} (gas : ℤ) (r : Result)
    {k : ℤ → ExecutionState → Act ExecutionState} (hk : ∀ g s, Modest msg (k g s)) :
    Modest msg (int64 (gas - r.gasLeft.toInt) >>= fun gasUsed => int64 (s.gasLeft - gasUsed) >>=
      fun gasLeft => addRefund r.gasRefund.toInt s >>= k gasLeft) :=
  .bind (modest_int64 _) fun _ => .bind (modest_int64 _) fun _ => .bind (modest_addRefund ..)
    fun _ => hk ..

theorem modest_finishCall (args : Instr.CallArgs) (st : List Word) (gas : ℤ) (r : Result) :
    Modest fr.msg (Instr.finishCall args st gas r s) :=
  .ite_bind (modest_writeMemory ..) trivial fun s => modest_payBack s gas r fun _ _ => trivial

theorem modest_finishCreate (st : List Word) (gas : ℤ) (r : Result) :
    Modest fr.msg (Instr.finishCreate st gas r s) :=
  modest_payBack s gas r fun _ _ => trivial

/-- A question about a balance, if there is something to send. -/
theorem modest_tooLittle {msg : Message} {c : Prop} [Decidable c] {a : Address}
    (f : Bytes32 → Bool) {k : Bool → Act ExecutionState} (hk : ∀ b, Modest msg (k b)) :
    Modest msg (if c then askHost (.getBalance a) >>= fun balance => .ret (f balance) >>= k
      else .ret false >>= k) := by
  split
  · exact modest_askHost_bind (by trivial) fun _ => hk _
  · exact hk false

variable {fr}

theorem value_of_pop {op : Instr.CallOp} {st : List Word} {p : Instr.CallArgs × List Word}
    (h : op.pop st = some p) (hop : op = .staticcall ∨ op = .delegatecall) : p.1.value = 0 := by
  unfold Instr.CallOp.pop at h
  rw [if_pos hop] at h
  split at h
  · obtain rfl := Option.some.inj h
    rfl
  · cases h

/-- Nothing is sent in static mode: `CALL` with a value is refused, and `STATICCALL` has none. -/
def SendsNothing (fr : Frame) (op : Instr.CallOp) (args : Instr.CallArgs) : Prop :=
  op = .call ∨ op = .staticcall → fr.inStaticMode = true → args.value = 0

theorem meets_cost_sendsNothing (op : Instr.CallOp) (args : Instr.CallArgs)
    (hargs : op = .staticcall → args.value = 0) :
    (op.cost fr args s).Meets (.asking (Permitted fr.msg)) fun _ => SendsNothing fr op args := by
  unfold Instr.CallOp.cost
  by_cases hop : op = .call
  · rw [if_pos hop]
    by_cases hstatic : args.value ≠ 0 ∧ fr.inStaticMode = true
    · rw [if_pos hstatic]
      trivial
    · have hsends : SendsNothing fr op args := fun _ h => not_not.1 fun hv => hstatic ⟨hv, h⟩
      rw [if_neg hstatic]
      split
      · exact ⟨trivial, fun x _ => hsends⟩
      · exact hsends
  · rw [if_neg hop]
    exact fun h _ => hargs (h.resolve_left hop)

theorem modest_callGas (gas : Word) : Modest fr.msg (Instr.callGas fr gas s) := by
  unfold Instr.callGas
  generalize (if gas.toNat < 2 ^ 63 - 1 then (gas.toNat : ℤ) else 2 ^ 63 - 1) = msgGas
  dsimp only
  split
  · trivial
  · split <;> trivial

/-- The message of a call may be called. -/
theorem mayCall_message {op : Instr.CallOp} {args : Instr.CallArgs} {inputData : Bytes}
    {gas : Int64} (hdepth : fr.msg.depth < 1024) (hsends : SendsNothing fr op args) :
    fr.msg.MayCall { op.message fr args inputData with gas := gas } where
  callsAs := by
    have hzero : fr.inStaticMode = true → op = .call ∨ op = .staticcall →
        Intx.store args.value = .zero 32 := by
      intro hstatic hop
      rw [hsends hop hstatic]
      rfl
    cases op with
    | call => exact ⟨rfl, rfl, fun h => hzero h (.inl rfl)⟩
    | callcode => exact ⟨rfl, rfl⟩
    | delegatecall => exact ⟨rfl, rfl, rfl⟩
    | staticcall => exact ⟨rfl, rfl, fun h => hzero h (.inr rfl)⟩
  depth_lt := hdepth
  depth_eq := rfl
  isStatic := by
    intro h
    cases op with
    | staticcall =>
      change ((1 : UInt32) &&& 1 != 0) = true
      decide
    | _ => exact h

theorem modest_makeCall {op : Instr.CallOp} {args : Instr.CallArgs} {inputData : Bytes}
    (st : List Word) (gas : ℤ) (hsends : SendsNothing fr op args) :
    Modest fr.msg (Instr.makeCall fr args st (op.message fr args inputData) gas s) := by
  unfold Instr.makeCall
  split
  · trivial
  · next hdepth =>
    have hcall : Permitted fr.msg
        (.call { op.message fr args inputData with gas := Int64.ofInt gas }) :=
      mayCall_message (Int32.not_le.1 hdepth) hsends
    refine modest_tooLittle _ fun tooLittle => ?_
    dsimp only
    split
    · trivial
    · exact modest_askHost_bind hcall fun result => modest_finishCall ..

theorem modest_callImpl (op : Instr.CallOp) : Modest fr.msg (Instr.callImpl op fr s) := by
  unfold Instr.callImpl
  refine (meets_orFault (fun p hp => hp) fun _ => trivial).bind fun p hpop => ?_
  refine Dialogue.Asks.bind (modest_accessAccount ..) fun s =>
    .bind (modest_checkMemory ..) fun s => .bind (modest_checkMemory ..) fun s =>
      .bind (modest_readMemory? ..) fun data => ?_
  refine (meets_cost_sendsNothing s op p.1 fun h => value_of_pop hpop (.inl h)).bind
    fun cost hsends => ?_
  exact Dialogue.Asks.bind (modest_charge ..) fun s => .bind (modest_callGas ..) fun gas =>
    .bind (modest_int64 ..) fun gas => .bind (modest_int64 ..) fun gasLeft =>
      modest_makeCall _ _ _ hsends

/-- The message of a creation may be called. -/
theorem mayCall_createMessage {salted : Bool} {args : Instr.CreateArgs} {initCode : Bytes} {gas : ℤ}
    (hdepth : fr.msg.depth < 1024) (hstatic : fr.inStaticMode = false) :
    fr.msg.MayCall (Instr.createMessage salted fr args initCode gas) where
  callsAs := by cases salted <;> exact ⟨rfl, rfl, hstatic⟩
  depth_lt := hdepth
  depth_eq := rfl
  isStatic h := absurd (hstatic.symm.trans h) Bool.false_ne_true

theorem modest_makeCreate {salted : Bool} {args : Instr.CreateArgs} (st : List Word)
    (hstatic : fr.inStaticMode = false) :
    Modest fr.msg (Instr.makeCreate salted fr args st s) := by
  unfold Instr.makeCreate
  split
  · trivial
  · next hdepth =>
    have hcall : ∀ initCode gas,
        Permitted fr.msg (.call (Instr.createMessage salted fr args initCode gas)) :=
      fun _ _ => mayCall_createMessage (Int32.not_le.1 hdepth) hstatic
    refine modest_tooLittle _ fun tooLittle => ?_
    dsimp only
    split
    · trivial
    · exact .bind (modest_readMemory? ..) fun initCode =>
        modest_askHost_bind (hcall ..) fun result => modest_finishCreate ..

theorem modest_createImpl (salted : Bool) : Modest fr.msg (Instr.createImpl salted fr s) := by
  unfold Instr.createImpl
  split
  · trivial
  · next hstatic =>
    refine .bind (modest_orFault ..) fun p => .bind (modest_checkMemory ..) fun s => ?_
    dsimp only
    split
    · trivial
    · exact .bind (modest_charge ..) fun s =>
        modest_makeCreate s _ (Bool.eq_false_iff.2 hstatic)

end Instructions

/-! ### All instructions -/

section Execute

variable (fr : Frame) (s : ExecutionState)

theorem modest_invokeStack (f : StackFn) : Modest fr.msg (invokeStack f fr s) :=
  .bind (modest_orFault ..) fun _ => trivial

variable {fr s} in
theorem modest_invokeNext {f : Instruction} (h : Modest fr.msg (f fr s)) :
    Modest fr.msg (invokeNext f fr s) :=
  .bind h fun _ => trivial

theorem modest_pushTxContext (f : TxContext → Word) :
    Modest fr.msg (Instr.pushTxContext f fr s) :=
  .bind (modest_getTxContext s) fun _ => modest_push ..

theorem modest_copyFrom (data : Bytes) : Modest fr.msg (Instr.copyFrom data s) := by
  unfold Instr.copyFrom
  split
  · exact .bind (modest_checkMemory ..) fun s => .bind (modest_charge ..) fun s =>
      .ite_bind (modest_writeMemory ..) trivial fun s => trivial
  · trivial

theorem modest_returnImpl (status : StatusCode) :
    Modest fr.msg (Instr.returnImpl status fr s) := by
  unfold Instr.returnImpl
  split
  · exact .bind (modest_checkMemory ..) fun s => trivial
  · trivial

theorem modest_extcodecopy : Modest fr.msg (Instr.extcodecopy fr s) := by
  unfold Instr.extcodecopy
  split
  · refine .bind (modest_checkMemory ..) fun s => .bind (modest_charge ..) fun s =>
      .bind (modest_accessAccount ..) fun s => ?_
    split
    · exact modest_askHost_bind (by trivial) fun bs =>
        .bind (modest_writeMemory ..) fun s => trivial
    · trivial
  · trivial

theorem modest_impl [Keccak] (op : Opcode) : Modest fr.msg (impl op fr s) := by
  cases op with
  | stop | invalid => trivial
  | exp | keccak256 | balance | calldataload | extcodesize | returndatacopy | extcodehash
  | blockhash | selfbalance | mload | mstore | mstore8 =>
    refine modest_invokeNext ?_
    grind [Permitted, Instr.exp, Instr.keccak256, Instr.balance, Instr.calldataload,
      Instr.extcodesize, Instr.returndatacopy, Instr.extcodehash, Instr.blockhash,
      Instr.selfbalance, Instr.mload, Instr.mstore, Instr.mstore8]
  | extcodecopy => exact modest_invokeNext (modest_extcodecopy fr s)
  | address | caller | callvalue | calldatasize | codesize | returndatasize | msize | gas =>
    exact modest_invokeNext (modest_push ..)
  | origin | gasprice | coinbase | timestamp | number | prevrandao | gaslimit | chainid
  | basefee => exact modest_invokeNext (modest_pushTxContext ..)
  | calldatacopy | codecopy => exact modest_invokeNext (modest_copyFrom ..)
  | sload => exact modest_invokeNext (modest_sload fr s)
  | sstore => exact modest_invokeNext (modest_sstore fr s)
  | jump | jumpi | rjump | rjumpi | rjumpv | callf | retf | pc | push n | dupn | swapn =>
    rw [impl]
    grind [Instr.jump, Instr.jumpi, Instr.jumpImpl, Instr.rjump, Instr.rjumpi, Instr.rjumpv,
      Instr.readInt16Be, Instr.callf, Instr.retf, Instr.pc, Instr.push, Instr.dupn, Instr.swapn]
  | log n => exact modest_invokeNext (modest_log fr s n)
  | call | callcode | delegatecall | staticcall => exact modest_invokeNext (modest_callImpl s _)
  | create | create2 => exact modest_invokeNext (modest_createImpl s _)
  | return_ | revert => exact modest_returnImpl fr s _
  | selfdestruct => exact modest_selfdestruct fr s
  | _ => exact modest_invokeStack fr s _

theorem modest_checkRequirements (op : Opcode) : Modest fr.msg (checkRequirements op fr s) := by
  unfold checkRequirements
  grind

theorem modest_turn [Keccak] : Modest fr.msg (turn fr s) := by
  have himpl := modest_impl fr
  have hcheck := modest_checkRequirements fr
  unfold turn invoke
  grind

/-- **The machine asks permitted questions only**, whatever the code is, and whatever the host
answers. -/
theorem modest_executeFrame [Keccak] : Modest fr.msg (executeFrame fr) :=
  .iterate (fun s => modest_turn fr s) _ _

end Execute

/-! ### The machine of the host -/

/-- What an execution asks, the machine of the host asks. -/
theorem always_toVmRun {P : HostCall → Prop} {Q : Result → Prop} {ub : Result} (hub : Q ub)
    (hQ : ∀ s r, makeResult s = some r → Q r) {x : Act ExecutionState} (hx : x.Asks P) :
    (toVmRun ub x).Always P Q := by
  induction x with
  | ret s => exact hub
  | exit e =>
    cases e with
    | fault f => exact hub
    | halt s =>
      rw [toVmRun]
      cases hr : makeResult s with
      | none => exact hub
      | some r => exact hQ s r hr
  | ask q k ih => exact ⟨hx.1, fun x => ih x (hx.2 x trivial)⟩

/-- A machine that asks permitted questions only, and never reports an address. -/
def Vm.Modest (vm : Vm) : Prop :=
  ∀ code msg, (vm.execute code msg).Always (Permitted msg) fun r => r.createAddress = .zero 20

theorem createAddress_of_makeResult {s : ExecutionState} {r : Result} (h : makeResult s = some r) :
    r.createAddress = .zero 20 := by
  unfold makeResult at h
  split at h
  · cases h
  · split at h
    · cases h
    · obtain rfl := Option.some.inj h
      rfl

/-- The bundled machine is one. -/
theorem modest_baseline [Keccak] (rev : Revision) {ub : Result}
    (hub : ub.createAddress = .zero 20) : (baseline rev ub).Modest := by
  intro code msg
  rw [baseline]
  dsimp only
  split
  · exact hub
  · next analysis _ =>
    exact always_toVmRun hub (fun _ _ => createAddress_of_makeResult)
      (modest_executeFrame ⟨msg, rev, code, analysis⟩)

theorem VmRun.Always.imp {P P' : HostCall → Prop} {Q Q' : Result → Prop} {run : VmRun}
    (h : run.Always P Q) (hP : ∀ q, P q → P' q) (hQ : ∀ r, Q r → Q' r) : run.Always P' Q' := by
  induction run with
  | done r => exact hQ r h
  | ask q k ih => exact ⟨hP q h.1, fun x => ih x (h.2 x)⟩

theorem Message.CallsAs.of_isCreate {msg callee : Message} (h : msg.CallsAs callee)
    (hkind : callee.kind.isCreate = true) :
    callee.recipient = .zero 20 ∧ msg.isStatic = false := by
  unfold Message.CallsAs at h
  cases hk : callee.kind with
  | create | create2 =>
    rw [hk] at h
    exact h.2
  | _ =>
    rw [hk] at hkind
    cases hkind

end Evm

end WeakChain
