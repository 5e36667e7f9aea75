import Mathlib.Logic.Relation
import WeakChain.Evm.Create
import WeakChain.Evm.Effects
import WeakChain.Evm.Permission

/-!
# Messages within messages

What the bundled machine may ask (`Permitted`) bounds what a message can do, with all the messages
that are executed within it, to any depth.

* `attributed_effects` : an account is written to or destroyed by a message for this account only,
  and not in static mode; so a message leaves the other accounts alone (`seen_eq_of_forall_ne`).
* `unchanged_of_isStatic` : a call in static mode changes nothing.
* `execMsg_eq_of_le` : there are at most 1025 executions within one another, so more room on the
  stack makes no difference.
-/

namespace WeakChain

namespace Evm

/-! ### The messages within a message -/

/-- From a message to one that may be executed within it. -/
abbrev Linked : Message → Message → Prop := Relation.ReflTransGen Message.MayCall

/-- An effect of a message itself. -/
def Effect.By (msg : Message) : Effect → Prop
  | .write a _ _ | .destroy a => a = msg.recipient ∧ msg.isStatic = false
  | .deploy a => a = msg.recipient ∧ msg.kind.isCreate = true

/-- The message of a call is among some calls. -/
def Called (cs : List Made) (msg : Message) : Prop := ∃ c ∈ cs, c.call = .call msg

section Effects

variable [Keccak] {vm : Vm} {w : IAcnGettable} {exec : State → Message → Run}
  {callsOf : State → Message → List Made} {effs : State → Message → List Effect} {msg : Message}

/-- Each of some effects is that of a message or of one called within it. -/
def Attributed (msg : Message) (cs : List Made) (es : List Effect) : Prop :=
  ∀ e ∈ es, ∃ m, (m = msg ∨ Called cs m) ∧ Linked msg m ∧ e.By m

theorem attributed_vmEffects (h : ∀ s m, Attributed m (callsOf s m) (effs s m)) {Q : Result → Prop}
    {run : VmRun} (hrun : run.Always (Permitted msg) Q) (stack : ℕ) (s : State) :
    Attributed msg (vmCalls w stack exec callsOf run s) (vmEffects w exec effs run s) := by
  induction run generalizing s with
  | done r => exact fun e he => absurd he List.not_mem_nil
  | ask q k ih =>
    intro e he
    rw [vmEffects, List.mem_append] at he
    rw [vmCalls]
    rcases he with he | he
    · have hq := hrun.1
      cases q with
      | setStorage a key value =>
        obtain rfl := List.mem_singleton.1 he
        exact ⟨msg, .inl rfl, .refl, hq⟩
      | selfdestruct a b =>
        obtain rfl := List.mem_singleton.1 he
        exact ⟨msg, .inl rfl, .refl, hq⟩
      | call callee =>
        obtain ⟨m, hm, hlinked, hby⟩ := h s callee e he
        refine ⟨m, .inr ?_, hlinked.head hq, hby⟩
        rcases hm with rfl | ⟨c, hc, hcall⟩
        · exact ⟨_, List.mem_cons_self, rfl⟩
        · exact ⟨c, List.mem_cons_of_mem _ (List.mem_append_left _ hc), hcall⟩
      | _ => exact absurd he List.not_mem_nil
    · cases ha : answer w exec q s with
      | none =>
        rw [ha] at he
        exact absurd he List.not_mem_nil
      | some p =>
        rw [ha] at he
        obtain ⟨m, hm, hm'⟩ := ih _ (hrun.2 _) _ e he
        refine ⟨m, hm.imp_right ?_, hm'⟩
        rintro ⟨c, hc, hcall⟩
        exact ⟨c, List.mem_cons_of_mem _ (List.mem_append_right _ hc), hcall⟩

/-- **What is done to accounts** in the course of a message is done by a message within it: an
account is written to or destroyed by messages for this account, and not in static mode. -/
theorem attributed_effects (hvm : vm.Modest) (stack : ℕ) (s : State) (msg : Message) :
    Attributed msg (calls vm w stack s msg) (effects vm w stack s msg) := by
  induction stack generalizing s msg with
  | zero => exact fun e he => absurd he List.not_mem_nil
  | succ stack ih =>
    rw [effects, calls, started]
    by_cases hkind : msg.kind.isCreate = true
    · rw [if_pos hkind, if_pos hkind, createEffects]
      by_cases hexists : s.host.accountExists w msg.recipient = true
      · rw [if_pos hexists, if_pos hexists]
        exact fun e he => absurd he List.not_mem_nil
      · rw [if_neg hexists, if_neg hexists]
        intro e he
        rcases List.mem_append.1 he with he | he
        · exact attributed_vmEffects ih (hvm _ _) stack s e he
        · split at he
          · exact absurd he List.not_mem_nil
          · split at he
            · exact absurd he List.not_mem_nil
            · obtain rfl := List.mem_singleton.1 he
              exact ⟨msg, .inl rfl, .refl, rfl, hkind⟩
    · rw [if_neg hkind, if_neg hkind, callEffects]
      by_cases hexists : s.host.accountExists w msg.codeAddress = true
      · rw [if_pos hexists, if_pos hexists]
        cases fetchCode w s msg.codeAddress with
        | none => exact fun e he => absurd he List.not_mem_nil
        | some p => exact attributed_vmEffects ih (hvm _ _) stack _
      · rw [if_neg hexists, if_neg hexists]
        exact fun e he => absurd he List.not_mem_nil

/-- **The frame of a message**: an account is seen as before unless a message has been executed for
it, and not in static mode. -/
theorem seen_eq_of_forall_ne (hvm : vm.Modest) {stack : ℕ} {s s' : State} {r : Result} {a : Address}
    (hr : execMsg vm w stack s msg = some (r, s'))
    (ha : ∀ m, m = msg ∨ Called (calls vm w stack s msg) m →
      m.isStatic = false ∨ m.kind.isCreate = true → m.recipient ≠ a) :
    s'.host.seen w a = s.host.seen w a := by
  have ht := traced_execMsg stack s msg r s' hr
  have heffects := attributed_effects (w := w) hvm stack s msg
  have hdestroy : .destroy a ∉ effects vm w stack s msg := by
    intro he
    obtain ⟨m, hm, -, hby⟩ := heffects _ he
    exact ha m hm (.inl hby.2) hby.1.symm
  have hdeploy : .deploy a ∉ effects vm w stack s msg := by
    intro he
    obtain ⟨m, hm, -, hby⟩ := heffects _ he
    exact ha m hm (.inr hby.2) hby.1.symm
  have hwrites : writesTo a (effects vm w stack s msg) = [] := by
    refine List.filterMap_eq_nil_iff.2 fun e he => ?_
    cases e with
    | write b key value =>
      refine if_neg ?_
      rintro rfl
      obtain ⟨m, hm, -, hby⟩ := heffects _ he
      exact ha m hm (.inl hby.2) hby.1.symm
    | _ => rfl
  have hdead : a ∈ s'.host.deadAcn ↔ a ∈ s.host.deadAcn := by
    rw [ht.mem_deadAcn, or_iff_left hdestroy]
  simp only [WeakEvmHost.seen, hdead, ht.acn?_eq hdeploy, hwrites, written, if_true]

/-! ### Static mode -/

omit [Keccak] in
/-- In static mode all messages within a call are calls in static mode. -/
theorem Linked.isStatic {m : Message} (h : Linked msg m) (hstatic : msg.isStatic = true)
    (hkind : msg.kind.isCreate = false) : m.isStatic = true ∧ m.kind.isCreate = false := by
  induction h with
  | refl => exact ⟨hstatic, hkind⟩
  | tail _ hcall ih =>
    refine ⟨hcall.isStatic ih.1, Bool.eq_false_iff.2 fun hcreate => ?_⟩
    exact absurd (ih.1.symm.trans (hcall.callsAs.of_isCreate hcreate).2) (by decide)

/-- A call in static mode has no effects. -/
theorem effects_eq_nil_of_isStatic (hvm : vm.Modest) (stack : ℕ) (s : State)
    (hstatic : msg.isStatic = true) (hkind : msg.kind.isCreate = false) :
    effects vm w stack s msg = [] := by
  refine List.eq_nil_iff_forall_not_mem.2 fun e he => ?_
  obtain ⟨m, -, hlinked, hby⟩ := attributed_effects hvm stack s msg e he
  obtain ⟨hmstatic, hmkind⟩ := hlinked.isStatic hstatic hkind
  cases e with
  | write a key value => exact absurd (hmstatic.symm.trans hby.2) (by decide)
  | destroy a => exact absurd (hmstatic.symm.trans hby.2) (by decide)
  | deploy a => exact absurd (hmkind.symm.trans hby.2) (by decide)

/-- **A call in static mode changes nothing**: what is seen of the accounts and which of them are
dead is the same after the call as before it, whatever is executed meanwhile. -/
theorem unchanged_of_isStatic (hvm : vm.Modest) {stack : ℕ} {s s' : State} {r : Result}
    (hstatic : msg.isStatic = true) (hkind : msg.kind.isCreate = false)
    (hr : execMsg vm w stack s msg = some (r, s')) :
    (∀ a, s'.host.seen w a = s.host.seen w a) ∧ ∀ a, a ∈ s'.host.deadAcn ↔ a ∈ s.host.deadAcn := by
  have ht := traced_execMsg stack s msg r s' hr
  rw [effects_eq_nil_of_isStatic hvm stack s hstatic hkind] at ht
  refine ht.seen_eq_iff.2 ⟨fun a h => absurd h List.not_mem_nil,
    fun a h => absurd h List.not_mem_nil, fun a key value h => ?_⟩
  rw [writesTo, List.filterMap_nil, HashMap.lastValue] at h
  cases h

end Effects

/-! ### The depth -/

section Depth

variable [Keccak] {vm : Vm} {w : IAcnGettable} {exec exec' : State → Message → Run}

theorem runVm_congr {P : HostCall → Prop} {Q : Result → Prop} {run : VmRun} (hrun : run.Always P Q)
    (h : ∀ s msg, P (.call msg) → exec s msg = exec' s msg) (s : State) :
    runVm w exec run s = runVm w exec' run s := by
  induction run generalizing s with
  | done r => rfl
  | ask q k ih =>
    have hanswer : answer w exec q s = answer w exec' q s := by
      cases q with
      | call msg => exact h s msg hrun.1
      | _ => rfl
    rw [runVm, runVm, hanswer]
    split
    · rfl
    · exact ih _ (hrun.2 _) _

/-- A message is executed alike if the messages that may be called are. -/
theorem execMsg_succ_congr (hvm : vm.Modest) {m n : ℕ} {msg : Message}
    (h : ∀ s callee, msg.MayCall callee → execMsg vm w m s callee = execMsg vm w n s callee)
    (s : State) : execMsg vm w (m + 1) s msg = execMsg vm w (n + 1) s msg := by
  have hrun : ∀ code s, runVm w (execMsg vm w m) (vm.execute code msg) s =
      runVm w (execMsg vm w n) (vm.execute code msg) s :=
    fun code s => runVm_congr (hvm code msg) h s
  rw [execMsg, execMsg, handleCreate, handleCreate, handleCall, handleCall, hrun]
  simp only [hrun]

omit [Keccak] in
theorem Message.MayCall.toInt_depth {msg callee : Message} (h : msg.MayCall callee) :
    msg.depth.toInt < 1024 ∧ callee.depth.toInt = msg.depth.toInt + 1 := by
  have hlt : msg.depth.toInt < 1024 := Int32.lt_iff_toInt_lt.1 h.depth_lt
  have hle := msg.depth.le_toInt
  have hone : (1 : Int32).toInt = 1 := rfl
  refine ⟨hlt, ?_⟩
  rw [h.depth_eq, Int32.toInt_add, hone, Int.bmod_eq_emod]
  split <;> omega

/-- **The depth of nesting is bounded**: a message at some depth is executed alike with any room on
the stack that is enough for the messages from there to the depth 1024. -/
theorem execMsg_eq_of_le (hvm : vm.Modest) {n stack : ℕ} {msg : Message} (s : State)
    (hn : 1024 ≤ msg.depth.toInt + n) (hstack : n < stack) :
    execMsg vm w stack s msg = execMsg vm w (n + 1) s msg := by
  induction n generalizing stack s msg with
  | zero =>
    obtain ⟨stack, rfl⟩ := Nat.exists_eq_add_of_lt hstack
    refine execMsg_succ_congr hvm (fun s callee h => ?_) s
    have := h.toInt_depth.1
    omega
  | succ n ih =>
    obtain ⟨stack, rfl⟩ : ∃ m, stack = m + 1 := ⟨stack - 1, by omega⟩
    refine execMsg_succ_congr hvm (fun s callee h => ?_) s
    have := h.toInt_depth.2
    exact ih s (by omega) (by omega)

end Depth

/-! ### The bundled machine -/

section Baseline

variable [Keccak] {rev : Revision} {ub : Result} {w : IAcnGettable}

/-- **What the interpreter asks the host**, for every code and every answer of the host: it reads
and writes the storage of the recipient of the message only, it changes nothing in static mode, the
messages that it calls are as the kind of the call has them and carry the static mode on, and none
of them is deeper than 1024. -/
theorem permitted_of_baseline (hub : ub.createAddress = .zero 20) (code : Bytes) (msg : Message) :
    ((baseline rev ub).execute code msg).Always (Permitted msg)
      fun r => r.createAddress = .zero 20 :=
  modest_baseline rev hub code msg

omit [Keccak] in
theorem permitted_of_baseline_store :
    let _ : Keccak := Sponge.keccak
    ((baseline .prague failureResult).execute storeCode nestedCall).Always (Permitted nestedCall)
      fun r => r.createAddress = .zero 20 := by
  intro _
  exact permitted_of_baseline rfl storeCode nestedCall

/-- **A static call changes nothing**, whatever is executed in the course of it, and whether it
succeeds or not. -/
theorem unchanged_of_baseline_isStatic (hub : ub.createAddress = .zero 20) {stack : ℕ}
    {s s' : State} {msg : Message} {r : Result} (hstatic : msg.isStatic = true)
    (hkind : msg.kind.isCreate = false)
    (hr : execMsg (baseline rev ub) w stack s msg = some (r, s')) :
    (∀ a, s'.host.seen w a = s.host.seen w a) ∧ ∀ a, a ∈ s'.host.deadAcn ↔ a ∈ s.host.deadAcn :=
  unchanged_of_isStatic (modest_baseline rev hub) hstatic hkind hr

omit [Keccak] in
/-- A contract that writes to its storage, called in static mode. -/
theorem unchanged_of_baseline_isStatic_store :
    let _ : Keccak := Sponge.keccak
    let w : IAcnGettable := fun _ => none
    ∃ r s', execMsg (baseline .prague failureResult) w 1 (hostWithCode storeCode)
        { nestedCall with flags := 1 } = some (r, s') ∧
      (∀ a, s'.host.seen w a = (hostWithCode storeCode).host.seen w a) ∧
      ∀ a, a ∈ s'.host.deadAcn ↔ a ∈ (hostWithCode storeCode).host.deadAcn := by
  intro _ w
  obtain ⟨r, s', hr⟩ : ∃ r s', execMsg (baseline .prague failureResult) w 1
    (hostWithCode storeCode) { nestedCall with flags := 1 } = some (r, s') := ⟨_, _, rfl⟩
  exact ⟨r, s', hr, unchanged_of_baseline_isStatic rfl rfl rfl hr⟩

/-- **A message leaves the other accounts alone**: an account for which no message has been executed
other than in static mode is seen as before. -/
theorem seen_eq_of_baseline (hub : ub.createAddress = .zero 20) {stack : ℕ} {s s' : State}
    {msg : Message} {r : Result} {a : Address}
    (hr : execMsg (baseline rev ub) w stack s msg = some (r, s'))
    (ha : ∀ m, m = msg ∨ Called (calls (baseline rev ub) w stack s msg) m →
      m.isStatic = false ∨ m.kind.isCreate = true → m.recipient ≠ a) :
    s'.host.seen w a = s.host.seen w a :=
  seen_eq_of_forall_ne (modest_baseline rev hub) hr ha

omit [Keccak] in
theorem seen_eq_of_baseline_store :
    let _ : Keccak := Sponge.keccak
    let w : IAcnGettable := fun _ => none
    ∃ r s', execMsg (baseline .prague failureResult) w 1 (hostWithCode storeCode)
        nestedCall = some (r, s') ∧
      s'.host.seen w (makeAddress 1) = (hostWithCode storeCode).host.seen w (makeAddress 1) := by
  intro _ w
  obtain ⟨r, s', hr⟩ : ∃ r s', execMsg (baseline .prague failureResult) w 1
    (hostWithCode storeCode) nestedCall = some (r, s') := ⟨_, _, rfl⟩
  refine ⟨r, s', hr, seen_eq_of_baseline rfl hr ?_⟩
  obtain ⟨key, key', value, hcalls⟩ : ∃ key key' value,
      (calls (baseline .prague failureResult) w 1 (hostWithCode storeCode) nestedCall).map
        Made.call = [.accessStorage (makeAddress 2) key, .setStorage (makeAddress 2) key' value] :=
    ⟨_, _, _, rfl⟩
  rintro m (rfl | ⟨c, hc, hcall⟩) -
  · decide
  · have := List.mem_map_of_mem (f := Made.call) hc
    rw [hcalls, hcall] at this
    simp at this

/-- **The nesting is bounded**: a transaction is executed alike with room for 1025 messages within
one another and with any room beyond. -/
theorem executeTx_eq_of_le [HashOrder Address] [HashOrder Bytes32] [Pb hiPb.Acn]
    (hub : ub.createAddress = .zero 20) {stack : ℕ} (hstack : 1025 ≤ stack) (t : Tx)
    (nonce : UInt64) :
    executeTx (baseline rev ub) w stack t nonce = executeTx (baseline rev ub) w 1025 t nonce := by
  have hdepth : 1024 ≤ (txToEvmcMsg t).depth.toInt + (1024 : ℕ) := le_rfl
  rw [executeTx, executeTx, execMsg_eq_of_le (modest_baseline rev hub) _ hdepth hstack]

omit [Keccak] in
theorem executeTx_eq_of_le_call :
    let _ : Keccak := Sponge.keccak
    let _ : HashOrder Address := .insertion Address
    let _ : HashOrder Bytes32 := .insertion Bytes32
    let _ : Pb hiPb.Acn := Wire.pb hiPb.Acn
    executeTx (baseline .prague failureResult) creatorWorld 2000 callTx 0 =
      executeTx (baseline .prague failureResult) creatorWorld 1025 callTx 0 := by
  intro _ _ _ _
  exact executeTx_eq_of_le rfl (by decide) callTx 0

end Baseline

end Evm

end WeakChain
