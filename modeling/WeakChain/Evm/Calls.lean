import WeakChain.Evm.Executor

/-!
# The calls of an execution

`calls` lists the calls that the machines make to the host while a message is executed, at any depth
and in the order in which they are made: the call of a message stands before those that are made
while it is executed.  With each call stands the state in which it is made.

* `forall_mem_calls` : what is true of all calls that the machine may make is true of those that it
  does make.
* `isSome_answer_of_mem_calls` : if the execution returns, all of them have been answered.
-/

namespace WeakChain

namespace Evm

/-- A call that a machine has made. -/
structure Made where
  /-- The room on the stack for calls within it. -/
  stack : ℕ
  /-- The state in which it is made. -/
  state : State
  /-- The call. -/
  call : HostCall

/-- The message, if one is called. -/
def Made.message? (c : Made) : Option Message :=
  match c.call with
  | .call msg => some msg
  | _ => none

theorem Made.message?_of_call {c : Made} {msg : Message} (h : c.call = .call msg) :
    c.message? = some msg := by
  rw [message?, h]

section Calls

variable [Keccak] (vm : Vm) (w : IAcnGettable)

omit [Keccak] in
/-- The calls that are made while a call is answered; `calls` is for the call of a message. -/
def answerCalls (calls : State → Message → List Made) (q : HostCall) (s : State) : List Made :=
  match q with
  | .call msg => calls s msg
  | _ => []

/-- The calls that a machine makes. -/
def vmCalls (stack : ℕ) (execMsg : State → Message → Run) (calls : State → Message → List Made) :
    VmRun → State → List Made
  | .done _, _ => []
  | .ask q k, s =>
    ⟨stack, s, q⟩ :: (answerCalls calls q s ++
      match answer w execMsg q s with
      | none => []
      | some (x, s') => vmCalls stack execMsg calls (k x) s')

/-- The machine that a message starts, and the state in which it starts. -/
def started (s : State) (msg : Message) : Option (VmRun × State) :=
  if msg.kind.isCreate then
    if s.host.accountExists w msg.recipient then none
    else some (vm.execute msg.inputData msg, s)
  else if s.host.accountExists w msg.codeAddress then
    (fetchCode w s msg.codeAddress).map fun (code, s') => (vm.execute code msg, s')
  else none

/-- The calls that are made while a message is executed. -/
def calls : ℕ → State → Message → List Made
  | 0, _, _ => []
  | stack + 1, s, msg =>
    match started vm w s msg with
    | none => []
    | some (run, s') => vmCalls w stack (execMsg vm w stack) (calls stack) run s'

end Calls

/-! ### What a machine may do -/

/-- All calls that the machine may make, and all results that it may end with, are of a kind. -/
def VmRun.Always (P : HostCall → Prop) (Q : Result → Prop) : VmRun → Prop
  | .done r => Q r
  | .ask q k => P q ∧ ∀ x, (k x).Always P Q

section Always

variable [Keccak] {vm : Vm} {w : IAcnGettable} {exec : State → Message → Run}
  {P : HostCall → Prop} {Q : Result → Prop}

theorem result_of_always {run : VmRun} (hrun : run.Always P Q) {s s' : State} {r : Result}
    (hr : runVm w exec run s = some (r, s')) : Q r := by
  induction run generalizing s with
  | done r' =>
    obtain ⟨rfl, -⟩ := Prod.mk.inj (Option.some.inj hr)
    exact hrun
  | ask q k ih =>
    rw [runVm] at hr
    split at hr
    · cases hr
    · exact ih _ (hrun.2 _) hr

theorem forall_mem_vmCalls {stack : ℕ} {callsOf : State → Message → List Made}
    (h : ∀ s msg, ∀ c ∈ callsOf s msg, P c.call) {run : VmRun} (hrun : run.Always P Q) (s : State) :
    ∀ c ∈ vmCalls w stack exec callsOf run s, P c.call := by
  induction run generalizing s with
  | done r => exact fun c hc => absurd hc List.not_mem_nil
  | ask q k ih =>
    intro c hc
    rw [vmCalls, List.mem_cons, List.mem_append] at hc
    rcases hc with rfl | hc | hc
    · exact hrun.1
    · -- only the call of a message has calls within it
      cases q with
      | call msg => exact h s msg c hc
      | _ => exact absurd hc List.not_mem_nil
    · split at hc
      · exact absurd hc List.not_mem_nil
      · exact ih _ (hrun.2 _) _ c hc

omit [Keccak] in
/-- A message starts a machine on some code. -/
theorem exists_execute_of_started {s s' : State} {msg : Message} {run : VmRun}
    (h : started vm w s msg = some (run, s')) : ∃ code, run = vm.execute code msg := by
  unfold started at h
  split_ifs at h
  · obtain ⟨rfl, -⟩ := Prod.mk.inj (Option.some.inj h)
    exact ⟨_, rfl⟩
  · obtain ⟨p, -, heq⟩ := Option.map_eq_some_iff.1 h
    obtain ⟨rfl, -⟩ := Prod.mk.inj heq
    exact ⟨_, rfl⟩

/-- What is true of all calls that the machine may make is true of those that are made. -/
theorem forall_mem_calls (hvm : ∀ code msg, (vm.execute code msg).Always P Q) (stack : ℕ)
    (s : State) (msg : Message) : ∀ c ∈ calls vm w stack s msg, P c.call := by
  induction stack generalizing s msg with
  | zero => exact fun c hc => absurd hc List.not_mem_nil
  | succ stack ih =>
    intro c hc
    rw [calls] at hc
    split at hc
    · exact absurd hc List.not_mem_nil
    · next hstart =>
      obtain ⟨code, rfl⟩ := exists_execute_of_started hstart
      exact forall_mem_vmCalls ih (hvm code msg) _ c hc

end Always

/-! ### Answers -/

section Answers

variable [Keccak] {vm : Vm} {w : IAcnGettable}

/-- A message that returns has run the machine that it starts. -/
theorem isSome_runVm_of_started {stack : ℕ} {s s' : State} {msg : Message} {run : VmRun}
    (h : (execMsg vm w (stack + 1) s msg).isSome = true)
    (hstart : started vm w s msg = some (run, s')) :
    (runVm w (execMsg vm w stack) run s').isSome = true := by
  rw [execMsg] at h
  unfold started at hstart
  split_ifs at h hstart with hkind hexists hexists
  · obtain ⟨rfl, rfl⟩ := Prod.mk.inj (Option.some.inj hstart)
    rw [handleCreate, if_neg hexists] at h
    cases hrun : runVm w (execMsg vm w stack) (vm.execute msg.inputData msg) s with
    | none =>
      simp only [hrun] at h
      cases h
    | some p => rfl
  · obtain ⟨⟨code, s₁⟩, hfetch, heq⟩ := Option.map_eq_some_iff.1 hstart
    obtain ⟨rfl, rfl⟩ := Prod.mk.inj heq
    rw [handleCall, if_pos hexists] at h
    simpa only [hfetch] using h

/-- **Everything has been answered** when the execution of a message returns. -/
theorem isSome_answer_of_mem_calls {stack : ℕ} {s : State} {msg : Message}
    (h : (execMsg vm w stack s msg).isSome = true) :
    ∀ c ∈ calls vm w stack s msg,
      (answer w (execMsg vm w c.stack) c.call c.state).isSome = true := by
  induction stack generalizing s msg with
  | zero => exact fun c hc => absurd hc List.not_mem_nil
  | succ stack ih =>
    intro c hc
    rw [calls] at hc
    cases hstart : started vm w s msg with
    | none =>
      simp only [hstart] at hc
      exact absurd hc List.not_mem_nil
    | some p =>
      obtain ⟨run, s'⟩ := p
      simp only [hstart] at hc
      have hrun := isSome_runVm_of_started h hstart
      clear hstart h
      -- over the calls of the machine
      induction run generalizing s' with
      | done r => exact absurd hc List.not_mem_nil
      | ask q k ihk =>
        rw [runVm] at hrun
        rw [vmCalls, List.mem_cons, List.mem_append] at hc
        cases hans : answer w (execMsg vm w stack) q s' with
        | none =>
          simp only [hans] at hrun
          cases hrun
        | some x =>
          simp only [hans] at hrun hc
          rcases hc with rfl | hc | hc
          · rw [hans]
            rfl
          · cases q with
            | call msg' => exact ih (Option.isSome_iff_exists.2 ⟨x, hans⟩) c hc
            | _ => exact absurd hc List.not_mem_nil
          · exact ihk _ _ hc hrun

end Answers

end Evm

end WeakChain
