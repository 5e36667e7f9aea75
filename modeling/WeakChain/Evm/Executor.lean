import WeakChain.Core.Blk
import WeakChain.Core.Codec
import WeakChain.Evm.Host

/-!
# The executor of EVM transactions

`EvmweakMsgExecutor` executes a message on a host: it creates or calls a contract, and the machine
may ask the host to do the same with further messages.  `EvmExecutor::executeTx` turns a transaction
into a message, executes it on a new host, and reads the journal off the host.

`handleCreate` gives every new contract the next value of a counter as its nonce, and the counter is
a `static` variable: it lives as long as the process.  The machine cannot see it.  So what a
transaction returns depends on what the process has executed before through these nonces alone; the
main result says exactly when it does.
-/

namespace WeakChain

namespace Evm

/-- What a message is executed on. -/
structure State where
  /-- The `static` counter of `handleCreate`. -/
  nonce : UInt64
  /-- The host. -/
  host : WeakEvmHost

/-- What executing a message leaves behind; nothing if the process ends. -/
abbrev Run := Option (Result × State)

section Execute

variable [Keccak] (vm : Vm) (w : IAcnGettable)

/-- The answer of the host; `execMsg` is for the call of a message. -/
def answer (execMsg : State → Message → Run) (q : HostCall) (s : State) :
    Option (q.Answer × State) :=
  match q with
  | .accountExists a => some (s.host.accountExists w a, s)
  | .getStorage a key => some (s.host.getStorage w a key, s)
  | .setStorage a key value =>
    some (if value = .zero 32 then .deleted else .modified,
      { s with host := s.host.setStorage w a key value })
  | .getBalance _ => some (.zero 32, s)
  | .getCodeSize a => some (s.host.getCodeSize a, s)
  | .getCodeHash a => some (s.host.getCodeHash a, s)
  | .copyCode a offset size => (s.host.copyCode w a offset size).map fun bs => (bs, s)
  | .selfdestruct a _ => some (true, { s with host := s.host.selfdestruct a })
  | .call msg => execMsg s msg
  | .getTxContext => some ({}, s)
  | .getBlockHash _ => some (.zero 32, s)
  | .emitLog _ _ _ => some ((), s)
  | .accessAccount _ => some (.cold, s)
  | .accessStorage _ _ => some (.cold, s)

/-- Run a machine on a host. -/
def runVm (execMsg : State → Message → Run) : VmRun → State → Run
  | .done r, s => some (r, s)
  | .ask q k, s =>
    match answer w execMsg q s with
    | none => none
    | some (x, s') => runVm execMsg (k x) s'

/-- `Result{EVMC_FAILURE, gas_left, gas_refund, nullptr, 0}`. -/
def failureResult : Result := ⟨statusFailure, Int64.maxValue, 0, [], .zero 20⟩

/-- `handleCreate`. -/
def handleCreate (execMsg : State → Message → Run) (s : State) (msg : Message) : Run :=
  if s.host.accountExists w msg.recipient then some (failureResult, s)
  else
    match runVm w execMsg (vm.execute msg.inputData msg) s with
    | none => none
    | some (r, s') =>
      -- the machine may have created contracts meanwhile: the counter is read afterwards
      if r.statusCode ≠ statusSuccess then some (r, s')
      else some (r, ⟨s'.nonce + 1, s'.host.deploy msg.recipient s'.nonce r.output⟩)

/-- The account with the code, fetched if it is not in memory.  The process exits if it cannot be
fetched. -/
def fetchCode (s : State) (a : Address) : Option (Bytes × State) :=
  match s.host.accounts.find? a with
  | some acn => some (acn.code, s)
  | none =>
    match s.host.tryAddAcnFromWorldState w a with
    | none => none
    | some h => some (((h.accounts.find? a).map Acn.code).getD [], { s with host := h })

/-- `handleCall`. -/
def handleCall (execMsg : State → Message → Run) (s : State) (msg : Message) : Run :=
  if s.host.accountExists w msg.codeAddress then
    match fetchCode w s msg.codeAddress with
    | none => none
    | some (code, s') => runVm w execMsg (vm.execute code msg) s'
  else some (failureResult, s)

/-- `execMsg`, with room for as many calls within calls on the stack. -/
def execMsg : ℕ → State → Message → Run
  | 0, _, _ => none
  | stack + 1, s, msg =>
    if msg.kind.isCreate then handleCreate vm w (execMsg stack) s msg
    else handleCall vm w (execMsg stack) s msg

/-- `txToEvmcMsg`. -/
def txToEvmcMsg (t : Tx) : Message :=
  let a := if t.toAddr = .zero 20 then t.getContractDeployAddress else t.toAddr
  { kind := if t.toAddr = .zero 20 then .create else .call
    gas := Int64.maxValue
    recipient := a
    sender := t.fromAddr
    inputData := t.data
    codeAddress := a }

/-- `getStateChanges`. -/
def getStateChanges [HashOrder Address] [HashOrder Bytes32] [Pb hiPb.Acn] (h : WeakEvmHost) :
    Journal :=
  ((h.accounts.toList.filter fun e => !h.deadAcn.contains e.1).map fun e =>
      ⟨false, addressToString e.1, e.2.toString⟩) ++
    h.deadAcn.map fun a => ⟨true, addressToString a, []⟩

variable [HashOrder Address] [HashOrder Bytes32] [Pb hiPb.Acn]

/-- `executeTx` in a process with the given counter: the counter afterwards, and what is returned.
Nothing if the process ends. -/
def executeTx (stack : ℕ) (t : Tx) (nonce : UInt64) : Option (UInt64 × Option (Journal × Bytes)) :=
  (execMsg vm w stack ⟨nonce, .init⟩ (txToEvmcMsg t)).map fun (r, s) =>
    (s.nonce,
      if r.statusCode ≠ statusSuccess then none else some (getStateChanges s.host, r.output))

omit w in
/-- The counter of a process that has executed some transactions, each on the world of its time;
nothing if it has ended. -/
def counterAfter (stack : ℕ) : List (IAcnGettable × Tx) → UInt64 → Option UInt64
  | [], nonce => some nonce
  | (w, t) :: past, nonce =>
    match executeTx vm w stack t nonce with
    | none => none
    | some (nonce, _) => counterAfter stack past nonce

end Execute

/-! ### Invariants -/

/-- What is true of a state stays true whatever the host does. -/
structure Stable (P : State → Prop) : Prop where
  setAcn : ∀ s a acn, P s → P { s with host := s.host.setAcn a acn }
  selfdestruct : ∀ s a, P s → P { s with host := s.host.selfdestruct a }
  deploy : ∀ s a code, P s → P ⟨s.nonce + 1, s.host.deploy a s.nonce code⟩

/-- What is true of a state stays true when a message is executed. -/
def Keeps (P : State → Prop) (execMsg : State → Message → Run) : Prop :=
  ∀ s msg r s', execMsg s msg = some (r, s') → P s → P s'

section Invariant

variable [Keccak] {vm : Vm} {w : IAcnGettable} {P : State → Prop} {exec : State → Message → Run}

theorem answer_keeps (hP : Stable P) (h : Keeps P exec) {q : HostCall} {s s' : State}
    {x : q.Answer} (ha : answer w exec q s = some (x, s')) (hs : P s) : P s' := by
  cases q with
  | setStorage a key value =>
    -- the account is fetched or made, and then written
    obtain ⟨-, rfl⟩ := Prod.mk.inj (Option.some.inj ha)
    exact hP.setAcn s a _ hs
  | selfdestruct a b =>
    obtain ⟨-, rfl⟩ := Prod.mk.inj (Option.some.inj ha)
    exact hP.selfdestruct s a hs
  | call msg => exact h s msg x s' ha hs
  | copyCode a offset size =>
    obtain ⟨bs, -, heq⟩ := Option.map_eq_some_iff.1 ha
    obtain ⟨-, rfl⟩ := Prod.mk.inj heq
    exact hs
  | _ =>
    obtain ⟨-, rfl⟩ := Prod.mk.inj (Option.some.inj ha)
    exact hs

theorem runVm_keeps (hP : Stable P) (h : Keeps P exec) {run : VmRun} {s s' : State} {r : Result}
    (hr : runVm w exec run s = some (r, s')) (hs : P s) : P s' := by
  induction run generalizing s with
  | done r' =>
    obtain ⟨-, rfl⟩ := Prod.mk.inj (Option.some.inj hr)
    exact hs
  | ask q k ih =>
    rw [runVm] at hr
    split at hr
    · cases hr
    · next ha => exact ih _ hr (answer_keeps hP h ha hs)

theorem keeps_handleCreate (hP : Stable P) (h : Keeps P exec) :
    Keeps P (handleCreate vm w exec) := by
  intro s msg r s' hr hs
  rw [handleCreate] at hr
  split at hr
  · obtain ⟨-, rfl⟩ := Prod.mk.inj (Option.some.inj hr)
    exact hs
  · split at hr
    · cases hr
    · next hrun =>
      have hrun := runVm_keeps hP h hrun hs
      split at hr
      · obtain ⟨-, rfl⟩ := Prod.mk.inj (Option.some.inj hr)
        exact hrun
      · obtain ⟨-, rfl⟩ := Prod.mk.inj (Option.some.inj hr)
        exact hP.deploy _ _ _ hrun

omit [Keccak] in
theorem fetchCode_keeps (hP : Stable P) {s s' : State} {a : Address} {code : Bytes}
    (hf : fetchCode w s a = some (code, s')) (hs : P s) : P s' := by
  rw [fetchCode] at hf
  split at hf
  · obtain ⟨-, rfl⟩ := Prod.mk.inj (Option.some.inj hf)
    exact hs
  · split at hf
    · cases hf
    · next hadd =>
      obtain ⟨acn, -, rfl⟩ := Option.map_eq_some_iff.1 hadd
      obtain ⟨-, rfl⟩ := Prod.mk.inj (Option.some.inj hf)
      exact hP.setAcn s a acn hs

theorem keeps_handleCall (hP : Stable P) (h : Keeps P exec) : Keeps P (handleCall vm w exec) := by
  intro s msg r s' hr hs
  rw [handleCall] at hr
  split at hr
  · split at hr
    · cases hr
    · next hfetch => exact runVm_keeps hP h hr (fetchCode_keeps hP hfetch hs)
  · obtain ⟨-, rfl⟩ := Prod.mk.inj (Option.some.inj hr)
    exact hs

/-- **The invariant rule**: what the host keeps, executing a message keeps. -/
theorem keeps_execMsg (hP : Stable P) (stack : ℕ) : Keeps P (execMsg vm w stack) := by
  induction stack with
  | zero => exact fun s msg r s' hr _ => absurd hr (by simp [execMsg])
  | succ stack ih =>
    intro s msg r s' hr
    rw [execMsg] at hr
    split at hr
    · exact keeps_handleCreate hP ih s msg r s' hr
    · exact keeps_handleCall hP ih s msg r s' hr

end Invariant

end Evm

end WeakChain
