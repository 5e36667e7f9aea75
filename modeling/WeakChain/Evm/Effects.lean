import WeakChain.Evm.Baseline
import WeakChain.Lib.Keccak

/-!
# What a message does to the host

Executing a message writes to accounts, destroys accounts and deploys accounts, and so do the
messages that the machine executes meanwhile, to any depth.  All of them work on one host, and
nothing is taken back when a message fails: only `EvmExecutor::executeTx` looks at the result, and
leaves the host alone if the outermost message has failed.

`effects` lists what is done, in order, and `Traced` is the relation that it has to the hosts before
and after.  `unchanged_iff` says when a message leaves what can be seen of the accounts as it was.
-/

namespace WeakChain

namespace Evm

/-- What is done to the accounts of a host. -/
inductive Effect
  | write (a : Address) (key value : Bytes32)
  | destroy (a : Address)
  | deploy (a : Address)
  deriving DecidableEq

/-! ### The effects of a message -/

section Effects

variable [Keccak] (vm : Vm) (w : IAcnGettable)

omit [Keccak] in
/-- The effects of a question; `effects` is for the call of a message. -/
def answerEffects (effects : State → Message → List Effect) (q : HostCall) (s : State) :
    List Effect :=
  match q with
  | .setStorage a key value => [.write a key value]
  | .selfdestruct a _ => [.destroy a]
  | .call msg => effects s msg
  | _ => []

/-- The effects of a machine. -/
def vmEffects (execMsg : State → Message → Run) (effects : State → Message → List Effect) :
    VmRun → State → List Effect
  | .done _, _ => []
  | .ask q k, s =>
    answerEffects effects q s ++
      match answer w execMsg q s with
      | none => []
      | some (x, s') => vmEffects execMsg effects (k x) s'

/-- The effects of `handleCreate`: the contract is deployed at the end, if the machine succeeds. -/
def createEffects (execMsg : State → Message → Run) (effects : State → Message → List Effect)
    (s : State) (msg : Message) : List Effect :=
  if s.host.accountExists w msg.recipient then []
  else
    vmEffects w execMsg effects (vm.execute msg.inputData msg) s ++
      match runVm w execMsg (vm.execute msg.inputData msg) s with
      | none => []
      | some (r, _) => if r.statusCode ≠ statusSuccess then [] else [.deploy msg.recipient]

/-- The effects of `handleCall`. -/
def callEffects (execMsg : State → Message → Run) (effects : State → Message → List Effect)
    (s : State) (msg : Message) : List Effect :=
  if s.host.accountExists w msg.codeAddress then
    match fetchCode w s msg.codeAddress with
    | none => []
    | some (code, s') => vmEffects w execMsg effects (vm.execute code msg) s'
  else []

/-- The effects of `execMsg`. -/
def effects : ℕ → State → Message → List Effect
  | 0, _, _ => []
  | stack + 1, s, msg =>
    if msg.kind.isCreate then createEffects vm w (execMsg vm w stack) (effects stack) s msg
    else callEffects vm w (execMsg vm w stack) (effects stack) s msg

end Effects

/-! ### The hosts before and after -/

/-- The effects lead from one host to the other. -/
inductive Traced (w : IAcnGettable) : WeakEvmHost → List Effect → WeakEvmHost → Prop
  | refl (h : WeakEvmHost) : Traced w h [] h
  | fetch (h : WeakEvmHost) (a : Address) (acn : Acn) (hmem : h.accounts.find? a = none)
      (hw : w a = some acn) : Traced w h [] (h.setAcn a acn)
  | write (h : WeakEvmHost) (a : Address) (key value : Bytes32) :
      Traced w h [.write a key value] (h.setStorage w a key value)
  | destroy (h : WeakEvmHost) (a : Address) : Traced w h [.destroy a] (h.selfdestruct a)
  | deploy {h h' : WeakEvmHost} {es : List Effect} (ht : Traced w h es h') (a : Address)
      (nonce : UInt64) (code : Bytes) (hnew : h.accountExists w a = false) :
      Traced w h (es ++ [.deploy a]) (h'.deploy a nonce code)
  | trans {h h' h'' : WeakEvmHost} {es es' : List Effect} (ht : Traced w h es h')
      (ht' : Traced w h' es' h'') : Traced w h (es ++ es') h''

section Traced

variable [Keccak] {vm : Vm} {w : IAcnGettable} {exec : State → Message → Run}
  {effs : State → Message → List Effect}

/-- The messages within have the effects that are listed for them. -/
def TracedBy (w : IAcnGettable) (exec : State → Message → Run)
    (effs : State → Message → List Effect) : Prop :=
  ∀ s msg r s', exec s msg = some (r, s') → Traced w s.host (effs s msg) s'.host

theorem traced_answer (h : TracedBy w exec effs) {q : HostCall} {s s' : State} {x : q.Answer}
    (ha : answer w exec q s = some (x, s')) :
    Traced w s.host (answerEffects effs q s) s'.host := by
  cases q with
  | setStorage a key value =>
    obtain ⟨-, rfl⟩ := Prod.mk.inj (Option.some.inj ha)
    exact .write s.host a key value
  | selfdestruct a b =>
    obtain ⟨-, rfl⟩ := Prod.mk.inj (Option.some.inj ha)
    exact .destroy s.host a
  | call msg => exact h s msg x s' ha
  | copyCode a offset size =>
    obtain ⟨bs, -, heq⟩ := Option.map_eq_some_iff.1 ha
    obtain ⟨-, rfl⟩ := Prod.mk.inj heq
    exact .refl _
  | _ =>
    obtain ⟨-, rfl⟩ := Prod.mk.inj (Option.some.inj ha)
    exact .refl _

theorem traced_runVm (h : TracedBy w exec effs) {run : VmRun} {s s' : State} {r : Result}
    (hr : runVm w exec run s = some (r, s')) :
    Traced w s.host (vmEffects w exec effs run s) s'.host := by
  induction run generalizing s with
  | done r' =>
    obtain ⟨-, rfl⟩ := Prod.mk.inj (Option.some.inj hr)
    exact .refl _
  | ask q k ih =>
    rw [runVm] at hr
    rw [vmEffects]
    cases ha : answer w exec q s with
    | none =>
      simp only [ha] at hr
      cases hr
    | some p =>
      simp only [ha] at hr ⊢
      exact (traced_answer h ha).trans (ih _ hr)

theorem traced_handleCreate (h : TracedBy w exec effs) :
    TracedBy w (handleCreate vm w exec) (createEffects vm w exec effs) := by
  intro s msg r s' hr
  rw [handleCreate] at hr
  rw [createEffects]
  split at hr
  · next hexists =>
    obtain ⟨-, rfl⟩ := Prod.mk.inj (Option.some.inj hr)
    rw [if_pos hexists]
    exact .refl _
  · next hexists =>
    rw [if_neg hexists]
    cases hrun : runVm w exec (vm.execute msg.inputData msg) s with
    | none =>
      simp only [hrun] at hr
      cases hr
    | some p =>
      simp only [hrun] at hr ⊢
      by_cases hfail : p.1.statusCode ≠ statusSuccess
      · rw [if_pos hfail] at hr
        obtain ⟨-, rfl⟩ := Prod.mk.inj (Option.some.inj hr)
        rw [if_pos hfail, List.append_nil]
        exact traced_runVm h hrun
      · rw [if_neg hfail] at hr
        obtain ⟨-, rfl⟩ := Prod.mk.inj (Option.some.inj hr)
        rw [if_neg hfail]
        exact (traced_runVm h hrun).deploy _ _ _ (Bool.eq_false_iff.2 hexists)

omit [Keccak] in
theorem traced_fetchCode {s s' : State} {a : Address} {code : Bytes}
    (hf : fetchCode w s a = some (code, s')) : Traced w s.host [] s'.host := by
  rw [fetchCode] at hf
  split at hf
  · obtain ⟨-, rfl⟩ := Prod.mk.inj (Option.some.inj hf)
    exact .refl _
  · next hmem =>
    split at hf
    · cases hf
    · next hadd =>
      obtain ⟨acn, hw, rfl⟩ := Option.map_eq_some_iff.1 hadd
      obtain ⟨-, rfl⟩ := Prod.mk.inj (Option.some.inj hf)
      exact .fetch s.host a acn hmem hw

theorem traced_handleCall (h : TracedBy w exec effs) :
    TracedBy w (handleCall vm w exec) (callEffects vm w exec effs) := by
  intro s msg r s' hr
  rw [handleCall] at hr
  rw [callEffects]
  split at hr
  · next hexists =>
    rw [if_pos hexists]
    cases hfetch : fetchCode w s msg.codeAddress with
    | none =>
      simp only [hfetch] at hr
      cases hr
    | some p =>
      simp only [hfetch] at hr ⊢
      exact (traced_fetchCode hfetch).trans (traced_runVm h hr)
  · next hexists =>
    obtain ⟨-, rfl⟩ := Prod.mk.inj (Option.some.inj hr)
    rw [if_neg hexists]
    exact .refl _

/-- The effects of a message lead to the host after it. -/
theorem traced_execMsg (stack : ℕ) : TracedBy w (execMsg vm w stack) (effects vm w stack) := by
  induction stack with
  | zero => exact fun s msg r s' hr => absurd hr (by simp [execMsg])
  | succ stack ih =>
    intro s msg r s' hr
    rw [execMsg] at hr
    rw [effects]
    split at hr
    · next hkind =>
      rw [if_pos hkind]
      exact traced_handleCreate ih s msg r s' hr
    · next hkind =>
      rw [if_neg hkind]
      exact traced_handleCall ih s msg r s' hr

/-! ### What can be seen of the host afterwards -/

omit [Keccak]

variable {h h' : WeakEvmHost} {es : List Effect}

theorem accountExists_eq_false_iff {a : Address} :
    h.accountExists w a = false ↔ a ∈ h.deadAcn ∨ h.acn? w a = none := by
  have hmem : (h.accounts.contains a || (w a).isSome) = (h.acn? w a).isSome := by
    rw [HashMap.contains, WeakEvmHost.acn?]
    cases h.accounts.find? a <;> simp
  rw [WeakEvmHost.accountExists, hmem]
  cases h.acn? w a <;> simp

theorem acn?_setAcn (a b : Address) (acn : Acn) :
    (h.setAcn a acn).acn? w b = if b = a then some acn else h.acn? w b := by
  rw [WeakEvmHost.acn?, WeakEvmHost.setAcn, HashMap.find?_set]
  split_ifs <;> rfl

theorem acn?_deploy (a b : Address) (nonce : UInt64) (code : Bytes) :
    (h.deploy a nonce code).acn? w b =
      if b = a then some { nonce := nonce, code := code } else h.acn? w b := by
  rw [WeakEvmHost.acn?, WeakEvmHost.deploy, HashMap.find?_set]
  split_ifs <;> rfl

/-- The storage of an account after some writes; an account that is nowhere is made. -/
def written (acn : Option Acn) (ws : List (Bytes32 × Bytes32)) : Option Acn :=
  if ws = [] then acn
  else
    let acn := acn.getD {}
    some { acn with storage := acn.storage.setAll ws }

/-- The writes to an account. -/
def writesTo (a : Address) (es : List Effect) : List (Bytes32 × Bytes32) :=
  es.filterMap fun
    | .write b key value => if b = a then some (key, value) else none
    | _ => none

theorem written_append (acn : Option Acn) (ws ws' : List (Bytes32 × Bytes32)) :
    written acn (ws ++ ws') = written (written acn ws) ws' := by
  by_cases hws : ws = []
  · simp [written, hws]
  · by_cases hws' : ws' = []
    · simp [written, hws, hws']
    · simp [written, hws, hws', HashMap.setAll, List.foldl_append]

/-- Writes change nothing if and only if the last value of each slot is the one it had. -/
theorem written_eq_self_iff {acn : Option Acn} {ws : List (Bytes32 × Bytes32)} :
    written acn ws = acn ↔ ∀ key value, HashMap.lastValue ws key = some value →
      ∃ x, acn = some x ∧ x.storage.find? key = some value := by
  by_cases hws : ws = []
  · simp [written, hws, HashMap.lastValue]
  · obtain ⟨w, hw⟩ := List.exists_mem_of_ne_nil ws hws
    cases acn with
    | none =>
      obtain ⟨value, hvalue⟩ := Option.isSome_iff_exists.1 (HashMap.lastValue_isSome hw)
      refine iff_of_false (by simp [written, hws]) fun h => ?_
      obtain ⟨x, hx, -⟩ := h _ _ hvalue
      cases hx
    | some x =>
      have hset : written (some x) ws = some x ↔ x.storage.setAll ws = x.storage := by
        simp only [written, hws, if_false, Option.getD_some, Option.some_inj]
        exact ⟨congrArg Acn.storage, fun h => by rw [h]⟩
      rw [hset, HashMap.setAll_eq_self_iff]
      simp

/-- What is there stays there. -/
theorem Traced.isSome_acn? (ht : Traced w h es h') {a : Address}
    (ha : (h.acn? w a).isSome = true) : (h'.acn? w a).isSome = true := by
  induction ht with
  | refl h => exact ha
  | fetch h b acn hmem hw =>
    rw [acn?_setAcn]
    split_ifs
    · rfl
    · exact ha
  | write h b key value =>
    rw [WeakEvmHost.setStorage, acn?_setAcn]
    split_ifs
    · rfl
    · exact ha
  | destroy h b => exact ha
  | deploy ht b nonce code hnew ih =>
    rw [acn?_deploy]
    split_ifs
    · rfl
    · exact ih ha
  | trans ht ht' ih ih' => exact ih' (ih ha)

theorem mem_setInsert {a b : Address} {l : List Address} :
    a ∈ setInsert b l ↔ a = b ∨ a ∈ l := by
  induction l with
  | nil => simp [setInsert]
  | cons c l ih =>
    rw [setInsert]
    split_ifs with hbc hlt
    · simp [hbc]
    · simp
    · rw [List.mem_cons, ih, List.mem_cons]
      tauto

/-- The dead accounts are those that were dead and those that have been destroyed. -/
theorem Traced.mem_deadAcn (ht : Traced w h es h') {a : Address} :
    a ∈ h'.deadAcn ↔ a ∈ h.deadAcn ∨ .destroy a ∈ es := by
  induction ht with
  | refl h => simp
  | fetch h b acn hmem hw => simp [WeakEvmHost.setAcn]
  | write h b key value => simp [WeakEvmHost.setStorage, WeakEvmHost.setAcn]
  | destroy h b => simp [WeakEvmHost.selfdestruct, mem_setInsert, or_comm]
  | deploy ht b nonce code hnew ih => simpa [WeakEvmHost.deploy] using ih
  | trans ht ht' ih ih' => rw [ih', ih, List.mem_append, or_assoc]

/-- An account that is deployed and not dead was not there before, and is there afterwards. -/
theorem Traced.of_deploy (ht : Traced w h es h') {a : Address} (ha : a ∉ h'.deadAcn)
    (hes : .deploy a ∈ es) : h.acn? w a = none ∧ (h'.acn? w a).isSome = true := by
  induction ht with
  | refl h => cases hes
  | fetch h b acn hmem hw => cases hes
  | write h b key value => simp at hes
  | destroy h b => simp at hes
  | @deploy h h' es ht b nonce code hnew ih =>
    have hdead : a ∉ h.deadAcn := fun h => ha (ht.mem_deadAcn.2 (.inl h))
    rw [acn?_deploy]
    by_cases hab : a = b
    · subst hab
      exact ⟨(accountExists_eq_false_iff.1 hnew).resolve_left hdead, by simp⟩
    · have hes : .deploy a ∈ es := by simpa [hab] using hes
      rw [if_neg hab]
      exact ih ha hes
  | @trans h h' h'' es es' ht ht' ih ih' =>
    have hdead : a ∉ h'.deadAcn := fun h => ha (ht'.mem_deadAcn.2 (.inl h))
    rcases List.mem_append.1 hes with hes | hes
    · obtain ⟨hnone, hsome⟩ := ih hdead hes
      exact ⟨hnone, ht'.isSome_acn? hsome⟩
    · obtain ⟨hnone, hsome⟩ := ih' ha hes
      refine ⟨?_, hsome⟩
      by_contra hne
      have := ht.isSome_acn? (Option.isSome_iff_ne_none.2 hne)
      rw [hnone] at this
      cases this

/-- An account that is not deployed has the writes to it. -/
theorem Traced.acn?_eq (ht : Traced w h es h') {a : Address} (hes : .deploy a ∉ es) :
    h'.acn? w a = written (h.acn? w a) (writesTo a es) := by
  induction ht with
  | refl h => rfl
  | fetch h b acn hmem hw =>
    rw [acn?_setAcn]
    split_ifs with hab
    · subst hab
      rw [WeakEvmHost.acn?, hmem]
      exact hw.symm
    · rfl
  | write h b key value =>
    rw [WeakEvmHost.setStorage, acn?_setAcn]
    by_cases hab : a = b
    · subst hab
      simp [written, writesTo, HashMap.setAll]
    · simp [written, writesTo, hab, Ne.symm hab]
  | destroy h b => rfl
  | deploy ht b nonce code hnew ih =>
    rw [List.mem_append, not_or, List.mem_singleton, Effect.deploy.injEq] at hes
    rw [acn?_deploy, if_neg hes.2, ih hes.1]
    simp [writesTo]
  | trans ht ht' ih ih' =>
    rw [List.mem_append, not_or] at hes
    rw [ih' hes.2, ih hes.1, ← written_append, writesTo, writesTo, writesTo, List.filterMap_append]

end Traced

/-! ### When a message has no effect -/

/-- An account as it is seen through the host: in memory or else in the world below, and not if it
is dead. -/
def WeakEvmHost.seen (w : IAcnGettable) (h : WeakEvmHost) (a : Address) : Option Acn :=
  if a ∈ h.deadAcn then none else h.acn? w a

/-- The effects cancel out on a host: what is destroyed or deployed was dead before, and each slot
of an account that was not dead is last given the value that it had. -/
structure Harmless (w : IAcnGettable) (h : WeakEvmHost) (es : List Effect) : Prop where
  destroy : ∀ a, .destroy a ∈ es → a ∈ h.deadAcn
  deploy : ∀ a, .deploy a ∈ es → a ∈ h.deadAcn
  write : ∀ a key value, HashMap.lastValue (writesTo a es) key = some value →
    a ∈ h.deadAcn ∨ ∃ acn, h.acn? w a = some acn ∧ acn.storage.find? key = some value

section Harmless

variable {w : IAcnGettable} {h h' : WeakEvmHost} {es : List Effect}

/-- What is seen of an account that is not dead before and after. -/
theorem Traced.seen_eq_written (ht : Traced w h es h') {a : Address} (ha : a ∉ h.deadAcn)
    (ha' : a ∉ h'.deadAcn) (hes : .deploy a ∉ es) :
    h'.seen w a = written (h.seen w a) (writesTo a es) := by
  rw [WeakEvmHost.seen, WeakEvmHost.seen, if_neg ha, if_neg ha', ht.acn?_eq hes]

/-- Effects that change nothing cancel out. -/
theorem Traced.harmless (ht : Traced w h es h') (hseen : ∀ a, h'.seen w a = h.seen w a)
    (hdead : ∀ a, a ∈ h'.deadAcn ↔ a ∈ h.deadAcn) : Harmless w h es := by
  have hdeploy : ∀ a, .deploy a ∈ es → a ∈ h.deadAcn := by
    intro a hes
    by_contra ha
    have ha' : a ∉ h'.deadAcn := fun h => ha ((hdead a).1 h)
    obtain ⟨hnone, hsome⟩ := ht.of_deploy ha' hes
    have heq := hseen a
    rw [WeakEvmHost.seen, WeakEvmHost.seen, if_neg ha, if_neg ha'] at heq
    rw [heq, hnone] at hsome
    cases hsome
  refine ⟨fun a hes => (hdead a).1 (ht.mem_deadAcn.2 (.inr hes)), hdeploy, ?_⟩
  intro a key value hvalue
  by_cases ha : a ∈ h.deadAcn
  · exact .inl ha
  · have ha' : a ∉ h'.deadAcn := fun h => ha ((hdead a).1 h)
    have heq := hseen a
    rw [ht.seen_eq_written ha ha' fun hes => ha (hdeploy a hes), WeakEvmHost.seen, if_neg ha] at heq
    exact .inr (written_eq_self_iff.1 heq key value hvalue)

/-- Effects that cancel out destroy nothing. -/
theorem Traced.mem_deadAcn_of_harmless (ht : Traced w h es h') (hharmless : Harmless w h es)
    {a : Address} : a ∈ h'.deadAcn ↔ a ∈ h.deadAcn := by
  rw [ht.mem_deadAcn]
  exact ⟨fun h => h.elim id (hharmless.destroy a), .inl⟩

/-- Effects that cancel out change nothing that is seen. -/
theorem Traced.seen_eq (ht : Traced w h es h') (hharmless : Harmless w h es) (a : Address) :
    h'.seen w a = h.seen w a := by
  by_cases ha : a ∈ h.deadAcn
  · rw [WeakEvmHost.seen, WeakEvmHost.seen, if_pos ha,
      if_pos ((ht.mem_deadAcn_of_harmless hharmless).2 ha)]
  · have ha' : a ∉ h'.deadAcn := fun h => ha ((ht.mem_deadAcn_of_harmless hharmless).1 h)
    rw [ht.seen_eq_written ha ha' fun hes => ha (hharmless.deploy a hes), WeakEvmHost.seen,
      if_neg ha]
    refine written_eq_self_iff.2 fun key value hvalue => ?_
    exact (hharmless.write a key value hvalue).resolve_left ha

theorem Traced.seen_eq_iff (ht : Traced w h es h') :
    ((∀ a, h'.seen w a = h.seen w a) ∧ ∀ a, a ∈ h'.deadAcn ↔ a ∈ h.deadAcn) ↔
      Harmless w h es :=
  ⟨fun ⟨hseen, hdead⟩ => ht.harmless hseen hdead,
    fun hharmless => ⟨ht.seen_eq hharmless, fun _ => ht.mem_deadAcn_of_harmless hharmless⟩⟩

end Harmless

variable [Keccak]

/-- **When a message has no effect.**  For every machine, host and message that returns, and in
particular if it fails: what is seen of the accounts and which of them are dead is the same after
the message as before it if and only if its effects, with those of all messages within it, cancel
out.  Nothing else takes them back. -/
theorem unchanged_iff (vm : Vm) (w : IAcnGettable) (stack : ℕ) (s s' : State) (msg : Message)
    (r : Result) (hr : execMsg vm w stack s msg = some (r, s')) :
    ((∀ a, s'.host.seen w a = s.host.seen w a) ∧
        ∀ a, a ∈ s'.host.deadAcn ↔ a ∈ s.host.deadAcn) ↔
      Harmless w s.host (effects vm w stack s msg) :=
  (traced_execMsg stack s msg r s' hr).seen_eq_iff

/-- `PUSH1 0 PUSH1 0 REVERT`. -/
def revertCode : Bytes := [0x60, 0, 0x60, 0, 0xfd]

/-- `PUSH1 1 PUSH1 0 SSTORE`, and then the code above. -/
def storeRevertCode : Bytes := [0x60, 1, 0x60, 0, 0x55] ++ revertCode

/-- A call of the account `2`, within one of the account `1`. -/
def nestedCall : Message where
  kind := .call
  depth := 1
  gas := 100000
  recipient := makeAddress 2
  sender := makeAddress 1
  inputData := []
  codeAddress := makeAddress 2

/-- A host that has an account with a code at `2`. -/
def hostWithCode (code : Bytes) : State :=
  ⟨0, WeakEvmHost.init.setAcn (makeAddress 2) { code := code }⟩

/-- The same with a value in the slot 0 of the account. -/
def hostWithSlot (code : Bytes) (value : Bytes32) : State :=
  ⟨0, WeakEvmHost.init.setAcn (makeAddress 2)
    { code := code, storage := HashMap.empty.set (.zero 32) value }⟩

omit [Keccak] in
/-- A call that writes to a slot the value that it has, and then reverts. -/
theorem unchanged_iff_revert :
    let _ : Keccak := Sponge.keccak
    let vm := baseline .prague failureResult
    let w : IAcnGettable := fun _ => none
    let s := hostWithSlot storeRevertCode (Intx.store 1)
    ∃ r s', execMsg vm w 1 s nestedCall = some (r, s') ∧ r.statusCode ≠ statusSuccess ∧
      effects vm w 1 s nestedCall = [.write (makeAddress 2) (.zero 32) (Intx.store 1)] ∧
      (∀ a, s'.host.seen w a = s.host.seen w a) ∧
      ∀ a, a ∈ s'.host.deadAcn ↔ a ∈ s.host.deadAcn := by
  intro _ vm w s
  have heffects : effects vm w 1 s nestedCall =
      [.write (makeAddress 2) (.zero 32) (Intx.store 1)] := by decide +kernel
  refine ⟨_, _, rfl, by decide, heffects, (unchanged_iff vm w 1 s _ nestedCall _ rfl).2 ?_⟩
  rw [heffects]
  refine ⟨by simp, by simp, fun a key value hvalue => ?_⟩
  by_cases ha : makeAddress 2 = a
  · subst ha
    by_cases hkey : .zero 32 = key
    · subst hkey
      obtain rfl : Intx.store 1 = value := by
        simpa [writesTo, HashMap.lastValue] using hvalue
      exact .inr ⟨_, rfl, rfl⟩
    · simp [writesTo, HashMap.lastValue, hkey] at hvalue
  · simp [writesTo, HashMap.lastValue, ha] at hvalue

omit [Keccak] in
/-- A call that writes to its storage and then reverts: the write is still there. -/
theorem not_unchanged :
    let _ : Keccak := Sponge.keccak
    let vm := baseline .prague failureResult
    let w : IAcnGettable := fun _ => none
    ∃ r s', execMsg vm w 1 (hostWithCode storeRevertCode) nestedCall = some (r, s') ∧
      r.statusCode ≠ statusSuccess ∧
      s'.host.seen w (makeAddress 2) ≠
        (hostWithCode storeRevertCode).host.seen w (makeAddress 2) := by
  intro _ vm w
  exact ⟨_, _, rfl, by decide, by decide +kernel⟩

end Evm

end WeakChain
