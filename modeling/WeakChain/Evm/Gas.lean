import WeakChain.Evm.Safety

/-!
# The gas of messages within messages

The interpreter relies on the results of its calls: what a call leaves of its gas is not less than
zero and not more than it was given.  `WeakEvmHost` keeps this for messages that are executed, since
the interpreter itself keeps it; so a message is executed as it should be, with all messages within
it, if they are executed on legacy code (`execMsg_eq_of_onLegacyCode`).

A call of an account that is not there is answered with `Result{EVMC_FAILURE, ...}` and the largest
number as the gas that is left.  The caller computes the gas that it has from it, and the sum
overflows (`finishCall_of_not_accountExists`).
-/

namespace WeakChain

namespace Evm

/-- The code that a message is executed on, and the state in which it is; nothing if the host
refuses the message. -/
def codeOf (w : IAcnGettable) (s : State) (msg : Message) : Option (Bytes × State) :=
  if msg.kind.isCreate then
    if s.host.accountExists w msg.recipient then none else some (msg.inputData, s)
  else if s.host.accountExists w msg.codeAddress then fetchCode w s msg.codeAddress
  else none

/-- A message that is executed on legacy code. -/
def OnLegacyCode (rev : Revision) (w : IAcnGettable) (s : State) (msg : Message) : Prop :=
  ∃ code s', codeOf w s msg = some (code, s') ∧ LegacyCode rev code

/-- All messages that are called are executed on legacy code. -/
def AllOnLegacyCode (rev : Revision) (w : IAcnGettable) (cs : List Made) : Prop :=
  ∀ c ∈ cs, ∀ msg, c.call = .call msg → OnLegacyCode rev w c.state msg

section Gas

variable [Keccak] {rev : Revision} {w : IAcnGettable} {exec exec' : State → Message → Run}
  {callsOf : State → Message → List Made}

/-- The answers of the host can be relied on, except for those to calls. -/
theorem reliable_answer {q : HostCall} {s s' : State} {x : q.Answer}
    (h : answer w exec q s = some (x, s')) (hq : ∀ msg, q ≠ .call msg) : Reliable rev q x := by
  cases q with
  | call msg => exact absurd rfl (hq msg)
  | copyCode a offset size =>
    obtain ⟨bs, hbs, heq⟩ := Option.map_eq_some_iff.1 h
    obtain ⟨rfl, -⟩ := Prod.mk.inj heq
    unfold WeakEvmHost.copyCode at hbs
    split at hbs
    · obtain ⟨acn, -, rfl⟩ := Option.map_eq_some_iff.1 hbs
      exact List.length_take_le ..
    · obtain rfl := Option.some.inj hbs
      exact Nat.zero_le _
  | getTxContext =>
    obtain ⟨rfl, -⟩ := Prod.mk.inj (Option.some.inj h)
    exact Int64.le_refl _
  | _ => trivial

/-- A machine that does on legacy code what the bundled one does. -/
def Vm.Follows (vm : Vm) (rev : Revision) : Prop :=
  ∀ code msg, LegacyCode rev code → Fits rev msg.gas.toInt →
    ∃ ub y, vm.execute code msg = toVmRun ub y ∧
      Dialogue.Agree (Reliable rev) (executeFrame ⟨msg, rev, code, analyzeLegacy code⟩) y

/-- Messages are executed alike by two executors, and what they return can be relied on. -/
def Accounts (rev : Revision) (w : IAcnGettable) (exec exec' : State → Message → Run)
    (callsOf : State → Message → List Made) : Prop :=
  ∀ s msg, Fits rev msg.gas.toInt → OnLegacyCode rev w s msg →
    AllOnLegacyCode rev w (callsOf s msg) →
      exec s msg = exec' s msg ∧ ∀ r s', exec s msg = some (r, s') → Reliable rev (.call msg) r

/-- Machines that do the same leave the same, if what they do is defined. -/
theorem runVm_toVmRun (hexec : Accounts rev w exec exec' callsOf) {msg : Message}
    (hgas : 0 ≤ msg.gas.toInt) {x y : Act ExecutionState} (hxy : Dialogue.Agree (Reliable rev) x y)
    (hx : x.Meets (defined rev msg.gas.toInt) fun _ => False) (ub ub' : Result) (stack : ℕ)
    (s : State)
    (hcalls : AllOnLegacyCode rev w (vmCalls w stack exec callsOf (toVmRun ub x) s)) :
    runVm w exec (toVmRun ub x) s = runVm w exec' (toVmRun ub' y) s ∧
      ∀ r s', runVm w exec (toVmRun ub x) s = some (r, s') → Reliable rev (.call msg) r := by
  induction hxy generalizing s with
  | ret a => exact hx.elim
  | exit e =>
    cases e with
    | fault f => exact hx.elim
    | halt a =>
      obtain ⟨r, hr, hreliable⟩ := exists_makeResult hx hgas
      rw [toVmRun, toVmRun, hr, Option.getD_some, Option.getD_some, runVm, runVm]
      refine ⟨rfl, fun r' s' h => ?_⟩
      obtain ⟨rfl, -⟩ := Prod.mk.inj (Option.some.inj h)
      exact hreliable
  | ask q hk ih =>
    rw [toVmRun, vmCalls] at hcalls
    rw [toVmRun, toVmRun, runVm, runVm]
    have hanswer : answer w exec q s = answer w exec' q s ∧
        ∀ x s', answer w exec q s = some (x, s') → Reliable rev q x := by
      cases q with
      | call msg =>
        obtain ⟨heq, hleft⟩ := hexec s msg hx.1 (hcalls _ List.mem_cons_self msg rfl)
          fun c hc => hcalls c (List.mem_cons_of_mem _ (List.mem_append_left _ hc))
        exact ⟨heq, hleft⟩
      | _ => exact ⟨rfl, fun x s' h => reliable_answer h (by simp)⟩
    rw [← hanswer.1]
    cases ha : answer w exec q s with
    | none => exact ⟨rfl, fun r s' h => by cases h⟩
    | some p =>
      rw [ha] at hcalls
      have hreliable := hanswer.2 p.1 p.2 ha
      refine ih p.1 hreliable (hx.2 p.1 hreliable) p.2 fun c hc => hcalls c ?_
      exact List.mem_cons_of_mem _ (List.mem_append_right _ hc)

omit [Keccak] in
/-- Not refused: there is no account yet that a contract is created at, or the account that is
called is there. -/
theorem codeOf_eq_some {s s' : State} {msg : Message} {code : Bytes}
    (h : codeOf w s msg = some (code, s')) :
    (msg.kind.isCreate = true ∧ s.host.accountExists w msg.recipient = false ∧
        code = msg.inputData ∧ s' = s) ∨
      (msg.kind.isCreate = false ∧ s.host.accountExists w msg.codeAddress = true ∧
        fetchCode w s msg.codeAddress = some (code, s')) := by
  unfold codeOf at h
  split_ifs at h with hkind hexists hexists
  · obtain ⟨rfl, rfl⟩ := Prod.mk.inj (Option.some.inj h)
    exact .inl ⟨hkind, Bool.eq_false_iff.2 hexists, rfl, rfl⟩
  · exact .inr ⟨Bool.eq_false_iff.2 hkind, hexists, h⟩

omit [Keccak] in
theorem started_eq {vm : Vm} {s s' : State} {msg : Message} {code : Bytes}
    (h : codeOf w s msg = some (code, s')) :
    started vm w s msg = some (vm.execute code msg, s') := by
  rw [started]
  rcases codeOf_eq_some h with ⟨hkind, hexists, rfl, rfl⟩ | ⟨hkind, hexists, hfetch⟩
  · rw [if_pos hkind, hexists]
    rfl
  · rw [hkind, hexists, hfetch]
    rfl

/-- The executions of a message with a given machine. -/
theorem execMsg_eq_handle {vm : Vm} {stack : ℕ} {s s' : State} {msg : Message} {code : Bytes}
    (h : codeOf w s msg = some (code, s')) :
    execMsg vm w (stack + 1) s msg =
      (runVm w (execMsg vm w stack) (vm.execute code msg) s').map fun p =>
        (p.1, if msg.kind.isCreate ∧ p.1.statusCode = statusSuccess then
          ⟨p.2.nonce + 1, p.2.host.deploy msg.recipient p.2.nonce p.1.output⟩ else p.2) := by
  rw [execMsg]
  rcases codeOf_eq_some h with ⟨hkind, hexists, rfl, rfl⟩ | ⟨hkind, hexists, hfetch⟩
  · rw [if_pos hkind, handleCreate, hexists, if_neg Bool.false_ne_true]
    cases runVm w (execMsg vm w stack) (vm.execute msg.inputData msg) s' with
    | none => rfl
    | some p =>
      dsimp only [Option.map_some]
      by_cases hok : p.1.statusCode = statusSuccess
      · rw [if_neg (not_not.2 hok), if_pos ⟨hkind, hok⟩]
      · rw [if_pos hok, if_neg fun h => hok h.2]
  · rw [hkind, if_neg Bool.false_ne_true, handleCall, if_pos hexists, hfetch]
    dsimp only
    cases runVm w (execMsg vm w stack) (vm.execute code msg) s' with
    | none => rfl
    | some p => simp

theorem execute_eq_of_legacyCode {code : Bytes} (h : LegacyCode rev code) (ub : Result)
    (msg : Message) : (baseline rev ub).execute code msg =
      toVmRun ub (executeFrame ⟨msg, rev, code, analyzeLegacy code⟩) := by
  rw [baseline]
  dsimp only
  rw [h.analyze]

/-- What the machine does on legacy code does not depend on what it does where it is undefined. -/
theorem follows_baseline (rev : Revision) (ub : Result) : (baseline rev ub).Follows rev :=
  fun _ msg h _ => ⟨ub, _, execute_eq_of_legacyCode h ub msg, .refl _⟩

/-- Messages are executed alike by machines that do the same on legacy code. -/
theorem accounts_execMsg {vm : Vm} (hvm : vm.Follows rev) (ub : Result) (stack : ℕ) :
    Accounts rev w (execMsg (baseline rev ub) w stack) (execMsg vm w stack)
      (calls (baseline rev ub) w stack) := by
  induction stack with
  | zero => exact fun s msg _ _ _ => ⟨rfl, fun r s' h => by cases h⟩
  | succ stack ih =>
    intro s msg hgas hon hall
    obtain ⟨code, s', hcode, hlegacy⟩ := hon
    have hmeets := @meets_executeFrame ⟨msg, rev, code, analyzeLegacy code⟩ _ rfl hlegacy.plain hgas
    obtain ⟨ub', y, hexecute, hagree⟩ := hvm code msg hlegacy hgas
    rw [calls, started_eq hcode, execute_eq_of_legacyCode hlegacy] at hall
    obtain ⟨hrun, hleft⟩ := runVm_toVmRun ih hgas.nonneg hagree hmeets ub ub' stack s' hall
    rw [execMsg_eq_handle hcode, execMsg_eq_handle hcode, execute_eq_of_legacyCode hlegacy,
      hexecute, hrun]
    refine ⟨rfl, fun r t ht => ?_⟩
    obtain ⟨p, hp, heq⟩ := Option.map_eq_some_iff.1 ht
    obtain ⟨rfl, -⟩ := Prod.mk.inj heq
    exact hleft p.1 p.2 (hrun ▸ hp)

end Gas

/-- A host that has an account with `returnByte` at zero, and one with `callZero` at `1`. -/
def hostWithCaller : State :=
  ⟨0, (WeakEvmHost.init.setAcn (.zero 20) { code := returnByte }).setAcn (makeAddress 1)
    { code := callZero }⟩

/-- A call of the account at `1`. -/
def callOfCaller : Message :=
  { callWithGas 10000 with recipient := makeAddress 1, codeAddress := makeAddress 1 }

theorem allOnLegacyCode_callOfCaller :
    let _ : Keccak := Sponge.keccak
    let w : IAcnGettable := fun _ => none
    AllOnLegacyCode .prague w
      (calls (baseline .prague failureResult) w 2 hostWithCaller callOfCaller) := by
  intro _ w c hc msg hmsg
  have hall : (calls (baseline .prague failureResult) w 2 hostWithCaller callOfCaller).all
      (fun c => c.message?.all fun msg =>
        (codeOf w c.state msg).map Prod.fst = some returnByte) = true := by decide +kernel
  have hcode := List.all_eq_true.1 hall c hc
  rw [Made.message?_of_call hmsg] at hcode
  obtain ⟨⟨code, s'⟩, hcode, rfl⟩ := Option.map_eq_some_iff.1 (of_decide_eq_true hcode)
  exact ⟨_, s', hcode, legacyCode_returnByte⟩

section Missing

variable [Keccak] {vm : Vm} {w : IAcnGettable}

/-- **A call of an account that is not there** makes the caller compute its gas from that of the
failure, and this overflows if and only if the caller has kept some gas for itself. -/
theorem finishCall_of_not_accountExists {stack : ℕ} {σ σ' : State} {callee : Message} {r : Result}
    (hkind : callee.kind.isCreate = false)
    (hmissing : σ.host.accountExists w callee.codeAddress = false)
    (hcall : execMsg vm w (stack + 1) σ callee = some (r, σ')) {s : ExecutionState}
    (hs : 0 ≤ s.gasLeft ∧ s.gasLeft < 2 ^ 63) (args : Instr.CallArgs) (st : List Word) {msgGas : ℤ}
    (hgas : 0 ≤ msgGas ∧ msgGas < 2 ^ 63) :
    Instr.finishCall args st msgGas r s = fault .overflow ↔ msgGas < s.gasLeft := by
  have hr : r = failureResult := by
    rw [execMsg, hkind, if_neg Bool.false_ne_true, handleCall, hmissing,
      if_neg Bool.false_ne_true] at hcall
    exact (Prod.mk.inj (Option.some.inj hcall)).1.symm
  have hleft : failureResult.gasLeft.toInt = 2 ^ 63 - 1 := rfl
  have hrefund : failureResult.gasRefund.toInt = 0 := rfl
  -- nothing is copied
  rw [hr, Instr.finishCall]
  dsimp only
  rw [if_neg (by rw [failureResult]; simp), hleft, int64, Dialogue.ret_bind, if_pos (by omega),
    Dialogue.ret_bind, int64]
  constructor
  · intro h
    by_contra hle
    rw [if_pos (by omega), Dialogue.ret_bind, hrefund, addRefund_zero] at h
    cases h
  · intro hlt
    rw [if_neg (by omega)]
    rfl

end Missing

/-- A call with 100 gas, by a contract that keeps 100. -/
theorem finishCall_of_not_accountExists_init :
    let _ : Keccak := Sponge.keccak
    let vm : Vm := baseline .prague failureResult
    ∃ r σ', execMsg vm (fun _ => none) 1 ⟨0, .init⟩ (callWithGas 100) = some (r, σ') ∧
      Instr.finishCall ⟨100, .zero 20, 0, 0, 0, 0, 0⟩ [] 100 r { gasLeft := 200 } =
        fault .overflow := by
  intro _ vm
  have hcall : execMsg vm (fun _ => none) 1 ⟨0, .init⟩ (callWithGas 100) =
      some (failureResult, ⟨0, .init⟩) := rfl
  exact ⟨_, _, hcall, (finishCall_of_not_accountExists rfl rfl hcall (by decide) _ _ (by decide)).2
    (by decide)⟩

end Evm

end WeakChain
