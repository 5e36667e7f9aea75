import WeakChain.Evm.Executor

/-!
# What the counter does

Two processes execute the same transaction on the same world, with counters that differ by `d`.
They run in step: at any moment the host of one is that of the other with `d` added to the nonces of
the contracts created in this transaction (`WeakEvmHost.shift`), since no answer of the host depends
on a nonce.  So they return the same unless such a contract is left at the end.
-/

namespace WeakChain

namespace Evm

/-- Add to the nonce of an account if it is one of the given. -/
def shiftAcn (d : UInt64) (created : List Address) (a : Address) (acn : Acn) : Acn :=
  if a ∈ created then { acn with nonce := acn.nonce + d } else acn

section ShiftAcn

variable {d : UInt64} {created : List Address} {a : Address}

theorem shiftAcn_of_notMem (h : a ∉ created) (acn : Acn) : shiftAcn d created a acn = acn :=
  if_neg h

@[simp] theorem shiftAcn_code (acn : Acn) : (shiftAcn d created a acn).code = acn.code := by
  unfold shiftAcn
  split_ifs <;> rfl

@[simp] theorem shiftAcn_storage (acn : Acn) :
    (shiftAcn d created a acn).storage = acn.storage := by
  unfold shiftAcn
  split_ifs <;> rfl

@[simp] theorem shiftAcn_codehash [Keccak] (acn : Acn) :
    (shiftAcn d created a acn).codehash = acn.codehash := by
  simp [Acn.codehash]

theorem shiftAcn_setStorage (acn : Acn) (m : HashMap Bytes32 Bytes32) :
    shiftAcn d created a { acn with storage := m } =
      { shiftAcn d created a acn with storage := m } := by
  unfold shiftAcn
  split_ifs <;> rfl

end ShiftAcn

namespace WeakEvmHost

/-- Add to the nonces of the contracts that have been created. -/
def shift (d : UInt64) (h : WeakEvmHost) : WeakEvmHost where
  accounts := h.accounts.map (shiftAcn d h.created)
  deadAcn := h.deadAcn
  created := h.created
  created_mem := by
    intro a ha
    rw [HashMap.contains_map]
    exact h.created_mem a ha

variable {d : UInt64} {w : IAcnGettable} {h : WeakEvmHost} {a : Address}

@[simp] theorem shift_init : init.shift d = init := ext rfl rfl rfl

theorem notMem_created_of_find? (hf : h.accounts.find? a = none) : a ∉ h.created := by
  intro ha
  have := h.created_mem a ha
  simp [HashMap.contains, hf] at this

@[simp] theorem find?_shift :
    (h.shift d).accounts.find? a = (h.accounts.find? a).map (shiftAcn d h.created a) :=
  HashMap.find?_map _ _ _

/-- The world below has none of the new contracts, as far as the host looks there. -/
theorem acn?_shift : (h.shift d).acn? w a = (h.acn? w a).map (shiftAcn d h.created a) := by
  unfold acn?
  cases hf : h.accounts.find? a with
  | some acn => simp [hf]
  | none =>
    rw [find?_shift, hf, Option.map_none]
    cases w a with
    | none => rfl
    | some acn => rw [Option.map_some, shiftAcn_of_notMem (notMem_created_of_find? hf)]

@[simp] theorem accountExists_shift : (h.shift d).accountExists w a = h.accountExists w a := by
  simp [accountExists, shift]

@[simp] theorem getStorage_shift {key : Bytes32} :
    (h.shift d).getStorage w a key = h.getStorage w a key := by
  unfold getStorage
  rw [accountExists_shift, acn?_shift]
  cases h.acn? w a with
  | none => rfl
  | some acn => simp

@[simp] theorem copyCode_shift {offset size : ℕ} :
    (h.shift d).copyCode w a offset size = h.copyCode w a offset size := by
  unfold copyCode
  rw [accountExists_shift, find?_shift]
  cases h.accounts.find? a with
  | none => rfl
  | some acn => simp

@[simp] theorem getCodeSize_shift : (h.shift d).getCodeSize a = h.getCodeSize a := by
  unfold getCodeSize
  rw [find?_shift]
  cases h.accounts.find? a with
  | none => rfl
  | some acn => simp

@[simp] theorem getCodeHash_shift [Keccak] : (h.shift d).getCodeHash a = h.getCodeHash a := by
  unfold getCodeHash
  rw [find?_shift]
  cases h.accounts.find? a with
  | none => rfl
  | some acn => simp

theorem shift_setAcn (acn : Acn) :
    (h.setAcn a acn).shift d = (h.shift d).setAcn a (shiftAcn d h.created a acn) :=
  ext (HashMap.map_set _ _ _ _) rfl rfl

theorem shift_setStorage {key value : Bytes32} :
    (h.setStorage w a key value).shift d = (h.shift d).setStorage w a key value := by
  have hacn : ((h.shift d).acn? w a).getD {} = shiftAcn d h.created a ((h.acn? w a).getD {}) := by
    rw [acn?_shift]
    cases hf : h.acn? w a with
    | some acn => rfl
    | none =>
      -- an account that is nowhere is not one of the new ones either
      have hnone : h.accounts.find? a = none := by
        unfold acn? at hf
        split at hf
        · cases hf
        · next hnone => exact hnone
      exact (shiftAcn_of_notMem (notMem_created_of_find? hnone) _).symm
  simp only [setStorage, shift_setAcn, hacn, shiftAcn_storage]
  exact congrArg _ (shiftAcn_setStorage _ _)

/-- A new contract gets a nonce that differs by `d`. -/
theorem shift_deploy {nonce : UInt64} {code : Bytes} :
    (h.deploy a nonce code).shift d = (h.shift d).deploy a (nonce + d) code := by
  refine ext ?_ rfl rfl
  have hnew : shiftAcn d (a :: h.created) a { nonce := nonce, code := code } =
      { nonce := nonce + d, code := code } := if_pos List.mem_cons_self
  have hold : ∀ b, b ≠ a → shiftAcn d (a :: h.created) b = shiftAcn d h.created b := by
    intro b hb
    funext acn
    simp [shiftAcn, hb]
  show (h.accounts.set a { nonce := nonce, code := code }).map (shiftAcn d (a :: h.created)) =
    (h.accounts.map (shiftAcn d h.created)).set a { nonce := nonce + d, code := code }
  -- the new account hides what was there before
  rw [HashMap.map_set, HashMap.set_map_congr hold, hnew]

end WeakEvmHost

/-! ### The two processes run in step -/

/-- The state of the other process. -/
def State.shift (d : UInt64) (s : State) : State := ⟨s.nonce + d, s.host.shift d⟩

@[simp] theorem State.host_shift (d : UInt64) (s : State) : (s.shift d).host = s.host.shift d := rfl

section Shift

variable [Keccak] {vm : Vm} {w : IAcnGettable} {d : UInt64}

/-- The other process does the same. -/
def InStep (d : UInt64) (execMsg : State → Message → Run) : Prop :=
  ∀ s msg, execMsg (s.shift d) msg = (execMsg s msg).map (Prod.map id (State.shift d))

variable {execMsg' : State → Message → Run}

theorem answer_shift (h : InStep d execMsg') (q : HostCall) (s : State) :
    answer w execMsg' q (s.shift d) =
      (answer w execMsg' q s).map (Prod.map id (State.shift d)) := by
  cases q with
  | setStorage a key value =>
    simp only [answer, State.shift, Option.map_some, Prod.map, WeakEvmHost.shift_setStorage, id]
  | selfdestruct a b => rfl
  | call msg => exact h s msg
  | copyCode a offset size =>
    simp only [answer, State.shift, WeakEvmHost.copyCode_shift]
    cases s.host.copyCode w a offset size <;> rfl
  | _ => simp [answer, State.shift]

theorem runVm_shift (h : InStep d execMsg') (run : VmRun) (s : State) :
    runVm w execMsg' run (s.shift d) =
      (runVm w execMsg' run s).map (Prod.map id (State.shift d)) := by
  induction run generalizing s with
  | done r => rfl
  | ask q k ih =>
    simp only [runVm, answer_shift h]
    cases answer w execMsg' q s with
    | none => rfl
    | some xs => exact ih xs.1 xs.2

theorem inStep_handleCreate (h : InStep d execMsg') : InStep d (handleCreate vm w execMsg') := by
  intro s msg
  simp only [handleCreate, State.host_shift, WeakEvmHost.accountExists_shift, runVm_shift h]
  split_ifs with hex
  · rfl
  · cases runVm w execMsg' (vm.execute msg.inputData msg) s with
    | none => rfl
    | some rs =>
      simp only [Option.map_some, Prod.map, id]
      split_ifs
      · rfl
      · simp only [Option.map_some, State.shift, WeakEvmHost.shift_deploy, Prod.map, id]
        rw [UInt64.add_assoc, UInt64.add_comm d 1, ← UInt64.add_assoc]

omit [Keccak] in
theorem fetchCode_shift (s : State) (a : Address) :
    fetchCode w (s.shift d) a = (fetchCode w s a).map (Prod.map id (State.shift d)) := by
  unfold fetchCode
  rw [State.host_shift, WeakEvmHost.find?_shift]
  cases hf : s.host.accounts.find? a with
  | some acn => simp
  | none =>
    -- what comes from the world below is not shifted
    have hnew := WeakEvmHost.notMem_created_of_find? hf
    cases hw : w a with
    | none => simp [WeakEvmHost.tryAddAcnFromWorldState, hw]
    | some acn =>
      simp [WeakEvmHost.tryAddAcnFromWorldState, hw, State.shift, WeakEvmHost.shift_setAcn,
        shiftAcn_of_notMem hnew]

theorem inStep_handleCall (h : InStep d execMsg') : InStep d (handleCall vm w execMsg') := by
  intro s msg
  simp only [handleCall, State.host_shift, WeakEvmHost.accountExists_shift, fetchCode_shift]
  split_ifs with hex
  · cases fetchCode w s msg.codeAddress with
    | none => rfl
    | some cs => exact runVm_shift h _ _
  · rfl

theorem inStep_execMsg (stack : ℕ) : InStep d (execMsg vm w stack) := by
  induction stack with
  | zero => exact fun s msg => rfl
  | succ stack ih =>
    intro s msg
    simp only [execMsg]
    split_ifs
    · exact inStep_handleCreate ih s msg
    · exact inStep_handleCall ih s msg

/-- A new process with the counter `c` does what one with the counter zero does, with the nonces of
the contracts moved up. -/
theorem execMsg_init (stack : ℕ) (c : UInt64) (msg : Message) :
    execMsg vm w stack ⟨c, .init⟩ msg =
      (execMsg vm w stack ⟨0, .init⟩ msg).map (Prod.map id (State.shift c)) := by
  rw [← inStep_execMsg]
  simp [State.shift]

end Shift

/-! ### The counter counts -/

section Count

variable [Keccak] (vm : Vm) (stack : ℕ)

/-- The number of contracts that a transaction creates. -/
def creations (w : IAcnGettable) (t : Tx) : ℕ :=
  ((execMsg vm w stack ⟨0, .init⟩ (txToEvmcMsg t)).map fun rs => rs.2.host.created.length).getD 0

/-- The number of contracts that some transactions create. -/
def totalCreations (past : List (IAcnGettable × Tx)) : ℕ :=
  (past.map fun wt => creations vm stack wt.1 wt.2).sum

variable {vm stack}

omit [Keccak] in
theorem stable_count :
    Stable fun s => s.nonce = UInt64.ofNat s.host.created.length where
  setAcn _ _ _ h := h
  selfdestruct _ _ h := h
  deploy s a code h := by
    simp [WeakEvmHost.deploy, h]

variable [HashOrder Address] [HashOrder Bytes32] [Pb hiPb.Acn]

theorem counter_executeTx {w : IAcnGettable} {t : Tx} {c c' : UInt64}
    {o : Option (Journal × Bytes)} (h : executeTx vm w stack t c = some (c', o)) :
    c' = c + UInt64.ofNat (creations vm stack w t) := by
  rw [executeTx, execMsg_init] at h
  rw [creations]
  cases hrun : execMsg vm w stack ⟨0, .init⟩ (txToEvmcMsg t) with
  | none => simp [hrun] at h
  | some rs =>
    have hcount := keeps_execMsg stable_count stack _ _ _ _ hrun rfl
    simp only [hrun, Option.map_some, Option.some.injEq, Prod.mk.injEq, Prod.map] at h
    rw [← h.1, State.shift, hcount, UInt64.add_comm]
    rfl

theorem counterAfter_eq {past : List (IAcnGettable × Tx)} {c c' : UInt64}
    (h : counterAfter vm stack past c = some c') :
    c' = c + UInt64.ofNat (totalCreations vm stack past) := by
  induction past generalizing c with
  | nil =>
    obtain rfl := Option.some.inj h
    simp [totalCreations]
  | cons wt past ih =>
    obtain ⟨w, t⟩ := wt
    rw [counterAfter] at h
    split at h
    · cases h
    · next c₁ o hexec =>
      rw [ih h, counter_executeTx hexec]
      simp [totalCreations, UInt64.add_assoc]

end Count

/-! ### What is returned -/

section Outcome

variable [HashOrder Address] [HashOrder Bytes32] [Pb hiPb.Acn]

omit [HashOrder Address] in
/-- A serialized account tells its nonce. -/
theorem nonce_eq_of_toString (hpb : Pb.ReadsBack hiPb.Acn) {x y : Acn}
    (h : x.toString = y.toString) : x.nonce = y.nonce := by
  have hx := hpb x.toPb
  have hy := hpb y.toPb
  rw [show serializeAsString x.toPb = serializeAsString y.toPb from h, hy] at hx
  exact congrArg (fun r => r.2.nonce) hx.symm

theorem getStateChanges_shift (h : WeakEvmHost) (d : UInt64) :
    getStateChanges (h.shift d) =
      ((h.accounts.toList.filter fun e => !h.deadAcn.contains e.1).map fun e =>
          ⟨false, addressToString e.1, (shiftAcn d h.created e.1 e.2).toString⟩) ++
        h.deadAcn.map fun a => ⟨true, addressToString a, []⟩ := by
  simp only [getStateChanges, WeakEvmHost.shift, HashMap.toList_map, List.filter_map, List.map_map]
  rfl

/-- Journals with different nonces are the same if and only if no new contract is left. -/
theorem getStateChanges_shift_eq_iff (hpb : Pb.ReadsBack hiPb.Acn) (h : WeakEvmHost)
    (c d : UInt64) :
    getStateChanges (h.shift c) = getStateChanges (h.shift d) ↔
      c = d ∨ ∀ a ∈ h.created, a ∈ h.deadAcn := by
  rw [getStateChanges_shift, getStateChanges_shift, List.append_cancel_right_eq, List.map_inj_left]
  constructor
  · intro heq
    by_contra hnot
    push Not at hnot
    obtain ⟨hcd, a, ha, hlive⟩ := hnot
    obtain ⟨acn, hacn⟩ := Option.isSome_iff_exists.1 (h.created_mem a ha)
    have hmem : (a, acn) ∈ h.accounts.toList.filter fun e => !h.deadAcn.contains e.1 :=
      List.mem_filter.2 ⟨HashMap.mem_toList.2 hacn, by simpa using hlive⟩
    -- the account of the contract tells the counters apart
    have hnonce := nonce_eq_of_toString hpb (StateChange.mk.inj (heq _ hmem)).2.2
    simp only [shiftAcn, if_pos ha] at hnonce
    exact hcd (UInt64.add_right_inj acn.nonce |>.1 hnonce)
  · rintro (rfl | hdead) ⟨a, acn⟩ hmem
    · rfl
    · have hlive : a ∉ h.deadAcn := by simpa using (List.mem_filter.1 hmem).2
      have hold : a ∉ h.created := fun ha => hlive (hdead a ha)
      rw [shiftAcn_of_notMem hold, shiftAcn_of_notMem hold]

variable [Keccak] (vm : Vm) (stack : ℕ)

/-- A transaction succeeds and leaves a contract that it has created. -/
def LeavesContract (w : IAcnGettable) (t : Tx) : Prop :=
  ∃ r s, execMsg vm w stack ⟨0, .init⟩ (txToEvmcMsg t) = some (r, s) ∧
    r.statusCode = statusSuccess ∧ ∃ a ∈ s.host.created, a ∉ s.host.deadAcn

/-- What a transaction returns in processes with different counters. -/
theorem executeTx_eq_iff (hpb : Pb.ReadsBack hiPb.Acn) (w : IAcnGettable) (t : Tx)
    (c d : UInt64) :
    (executeTx vm w stack t c).map Prod.snd = (executeTx vm w stack t d).map Prod.snd ↔
      c = d ∨ ¬LeavesContract vm stack w t := by
  unfold executeTx LeavesContract
  rw [execMsg_init stack c, execMsg_init stack d]
  -- a process that ends does so with any counter
  cases execMsg vm w stack ⟨0, .init⟩ (txToEvmcMsg t) with
  | none => simp
  | some rs =>
    obtain ⟨r, s⟩ := rs
    by_cases hr : r.statusCode = statusSuccess
    · simp [hr, getStateChanges_shift_eq_iff hpb]
    · simp [hr]

/-- **What a transaction returns does not depend on the past of the process** if and only if the two
pasts have created equally many contracts, as far as a 64-bit counter can tell, or the transaction
leaves no contract that it has created.  (A process that ends returns nothing.) -/
theorem executeTx_after_eq_iff (hpb : Pb.ReadsBack hiPb.Acn) {p q : List (IAcnGettable × Tx)}
    {c d : UInt64} (hp : counterAfter vm stack p 0 = some c)
    (hq : counterAfter vm stack q 0 = some d) (w : IAcnGettable) (t : Tx) :
    (executeTx vm w stack t c).map Prod.snd = (executeTx vm w stack t d).map Prod.snd ↔
      totalCreations vm stack p % 2 ^ 64 = totalCreations vm stack q % 2 ^ 64 ∨
        ¬LeavesContract vm stack w t := by
  have hcd : c = d ↔
      totalCreations vm stack p % 2 ^ 64 = totalCreations vm stack q % 2 ^ 64 := by
    rw [counterAfter_eq hp, counterAfter_eq hq, UInt64.add_right_inj, ← UInt64.toNat_inj]
    simp
  rw [executeTx_eq_iff vm stack hpb, hcd]

omit [HashOrder Address] [HashOrder Bytes32] [Pb hiPb.Acn] [Keccak] in
/-- A machine that can execute the empty code only, which stops at once. -/
def stopVm : Vm where
  execute code msg :=
    .done ⟨if code = [] then statusSuccess else statusFailure, msg.gas, 0, [], .zero 20⟩

end Outcome

/-- The deployment of an empty contract. -/
def deployTx : Tx := .create (makeAddress 1) (.zero 20) [] 7 0

/-- A process that has deployed a contract before and one that has not. -/
theorem executeTx_after_eq_iff_deploy :
    let _ : Keccak := Sponge.keccak
    let _ : HashOrder Address := .insertion Address
    let _ : HashOrder Bytes32 := .insertion Bytes32
    let _ : Pb hiPb.Acn := Wire.pb hiPb.Acn
    let w : IAcnGettable := fun _ => none
    counterAfter stopVm 1 [] 0 = some 0 ∧ counterAfter stopVm 1 [(w, deployTx)] 0 = some 1 ∧
      ((executeTx stopVm w 1 deployTx 0).map Prod.snd =
          (executeTx stopVm w 1 deployTx 1).map Prod.snd ↔
        totalCreations stopVm 1 [] % 2 ^ 64 = totalCreations stopVm 1 [(w, deployTx)] % 2 ^ 64 ∨
          ¬LeavesContract stopVm 1 w deployTx) := by
  intro _ _ _ _ w
  have hp : counterAfter stopVm 1 [] 0 = some 0 := by decide +kernel
  have hq : counterAfter stopVm 1 [(w, deployTx)] 0 = some 1 := by decide +kernel
  have hpb : Pb.ReadsBack hiPb.Acn := Wire.readsBack hiPb.Acn
  exact ⟨hp, hq, executeTx_after_eq_iff stopVm 1 hpb hp hq w deployTx⟩

/-- A process that has deployed a contract before returns another journal than one that has not. -/
theorem executeTx_ne_after_deploy :
    let _ : Keccak := Sponge.keccak
    let _ : HashOrder Address := .insertion Address
    let _ : HashOrder Bytes32 := .insertion Bytes32
    let _ : Pb hiPb.Acn := Wire.pb hiPb.Acn
    let w : IAcnGettable := fun _ => none
    counterAfter stopVm 1 [] 0 = some 0 ∧ counterAfter stopVm 1 [(w, deployTx)] 0 = some 1 ∧
      (executeTx stopVm w 1 deployTx 0).map Prod.snd ≠
        (executeTx stopVm w 1 deployTx 1).map Prod.snd := by
  intro _ _ _ _ w
  exact ⟨by decide +kernel, by decide +kernel, by decide +kernel⟩

end Evm

end WeakChain
