import WeakChain.Evm.Permission
import WeakChain.Lib.Keccak

/-!
# Creating contracts

`handleCreate` runs the init code on the host, and then puts a new account at the recipient of the
message, in place of whatever is there.

* `initStorage_iff` : what the init code has written to the storage of the new contract is lost.
* `usable_iff` : the bundled machine leaves it to the host to choose the address of a contract that
  a contract creates, and reads it off the result.  The host does not choose: the contract goes to
  the address zero, and zero is reported.
-/

namespace WeakChain

namespace Evm

section Create

variable [Keccak] {vm : Vm} {w : IAcnGettable} {exec : State → Message → Run}

/-- `handleCreate` succeeds if there is no account at the recipient and the init code succeeds, and
then it deploys the output. -/
theorem handleCreate_succeeds_iff {s s' : State} {msg : Message} {r : Result} :
    (handleCreate vm w exec s msg = some (r, s') ∧ r.statusCode = statusSuccess) ↔
      s.host.accountExists w msg.recipient = false ∧ r.statusCode = statusSuccess ∧
        ∃ s₁, runVm w exec (vm.execute msg.inputData msg) s = some (r, s₁) ∧
          s' = ⟨s₁.nonce + 1, s₁.host.deploy msg.recipient s₁.nonce r.output⟩ := by
  rw [handleCreate]
  cases hexists : s.host.accountExists w msg.recipient with
  | true =>
    rw [if_pos rfl]
    constructor
    · rintro ⟨h, hok⟩
      obtain ⟨rfl, -⟩ := Prod.mk.inj (Option.some.inj h)
      exact absurd hok (by decide)
    · rintro ⟨h, -⟩
      cases h
  | false =>
    rw [if_neg Bool.false_ne_true]
    cases hrun : runVm w exec (vm.execute msg.inputData msg) s with
    | none => simp
    | some p =>
      obtain ⟨r₁, s₁⟩ := p
      dsimp only
      constructor
      · rintro ⟨h, hok⟩
        split_ifs at h with hfail
        · obtain ⟨rfl, rfl⟩ := Prod.mk.inj (Option.some.inj h)
          exact absurd hok hfail
        · obtain ⟨rfl, rfl⟩ := Prod.mk.inj (Option.some.inj h)
          exact ⟨rfl, hok, s₁, rfl, rfl⟩
      · rintro ⟨-, hok, s₂, heq, rfl⟩
        obtain ⟨rfl, rfl⟩ := Prod.mk.inj (Option.some.inj heq)
        exact ⟨if_neg (not_not.2 hok), hok⟩

/-! ### The storage of a new contract -/

omit [Keccak] in
/-- What some calls of `set_storage` write to an account, in order. -/
def setStorageCalls (a : Address) (cs : List Made) : List (Bytes32 × Bytes32) :=
  cs.filterMap fun c =>
    match c.call with
    | .setStorage b key value => if b = a then some (key, value) else none
    | _ => none

variable (vm w) in
/-- The calls that the init code makes, with those of the messages within it. -/
def initCalls (stack : ℕ) (s : State) (msg : Message) : List Made :=
  vmCalls w stack (execMsg vm w stack) (calls vm w stack) (vm.execute msg.inputData msg) s

/-- **Init code keeps its storage** if and only if it has written nothing to the new contract: when
`handleCreate` succeeds, the code of the account is the output of the init code, and the storage is
empty, whatever has been written to it. -/
theorem initStorage_iff {stack : ℕ} {s s' : State} {msg : Message} {r : Result}
    (hr : handleCreate vm w (execMsg vm w stack) s msg = some (r, s'))
    (hok : r.statusCode = statusSuccess) :
    (∃ acn, s'.host.accounts.find? msg.recipient = some acn ∧ acn.code = r.output ∧
        acn.storage =
          HashMap.empty.setAll (setStorageCalls msg.recipient (initCalls vm w stack s msg))) ↔
      setStorageCalls msg.recipient (initCalls vm w stack s msg) = [] := by
  obtain ⟨-, -, s₁, -, rfl⟩ := handleCreate_succeeds_iff.1 ⟨hr, hok⟩
  have hfind : (s₁.host.deploy msg.recipient s₁.nonce r.output).accounts.find? msg.recipient =
      some { nonce := s₁.nonce, code := r.output } := by
    rw [WeakEvmHost.deploy, HashMap.find?_set, if_pos rfl]
  dsimp only
  rw [hfind, ← HashMap.setAll_empty_eq_iff]
  constructor
  · rintro ⟨acn, hacn, -, hstorage⟩
    obtain rfl := Option.some.inj hacn
    exact hstorage.symm
  · intro hempty
    exact ⟨_, rfl, rfl, hempty.symm⟩

end Create

/-- `PUSH1 1 PUSH1 0 RETURN`: the output is one zero byte, the code `STOP`. -/
def returnCode : Bytes := [0x60, 1, 0x60, 0, 0xf3]

/-- `PUSH1 1 PUSH1 0 SSTORE`, and then the code above. -/
def storeReturnCode : Bytes := [0x60, 1, 0x60, 0, 0x55] ++ returnCode

/-- `PUSH1 1 PUSH1 0 SSTORE STOP`. -/
def storeCode : Bytes := [0x60, 1, 0x60, 0, 0x55, 0]

/-- A `CALL` of the account `3`, with nothing, and then `returnCode`. -/
def callReturnCode : Bytes :=
  [0x60, 0, 0x60, 0, 0x60, 0, 0x60, 0, 0x60, 0, 0x60, 3, 0x5a, 0xf1] ++ returnCode

/-- The deployment of a contract at `2`. -/
def createAtTwo (init : Bytes) : Message where
  kind := .create
  gas := 1000000
  recipient := makeAddress 2
  sender := makeAddress 1
  inputData := init
  codeAddress := makeAddress 2

/-- A host with a contract at `3` that writes to its storage. -/
def hostWithStore : State := ⟨0, WeakEvmHost.init.setAcn (makeAddress 3) { code := storeCode }⟩

/-- Init code that calls this contract, and writes nothing itself. -/
theorem initStorage_iff_return :
    let _ : Keccak := Sponge.keccak
    let vm := baseline .prague failureResult
    let w : IAcnGettable := fun _ => none
    let msg := createAtTwo callReturnCode
    let cs := initCalls vm w 1 hostWithStore msg
    ∃ r s', handleCreate vm w (execMsg vm w 1) hostWithStore msg = some (r, s') ∧
      setStorageCalls (makeAddress 3) cs = [(.zero 32, Intx.store 1)] ∧
      ((∃ acn, s'.host.accounts.find? msg.recipient = some acn ∧ acn.code = r.output ∧
          acn.storage = HashMap.empty.setAll (setStorageCalls msg.recipient cs)) ↔
        setStorageCalls msg.recipient cs = []) := by
  intro _ vm w msg cs
  have hsuccess : (handleCreate vm w (execMsg vm w 1) hostWithStore msg).map
      (fun p => p.1.statusCode) = some statusSuccess := by decide +kernel
  obtain ⟨⟨r, s'⟩, hr, hok⟩ := Option.map_eq_some_iff.1 hsuccess
  exact ⟨r, s', hr, by decide +kernel, initStorage_iff hr hok⟩

/-- Init code that writes 1 to the slot 0: the new contract has no storage. -/
theorem not_initStorage :
    let _ : Keccak := Sponge.keccak
    let vm := baseline .prague failureResult
    let w : IAcnGettable := fun _ => none
    let s : State := ⟨0, .init⟩
    let msg := createAtTwo storeReturnCode
    ∃ r s', handleCreate vm w (execMsg vm w 1) s msg = some (r, s') ∧
      r.statusCode = statusSuccess ∧
      ¬∃ acn, s'.host.accounts.find? msg.recipient = some acn ∧ acn.code = r.output ∧
        acn.storage =
          HashMap.empty.setAll (setStorageCalls msg.recipient (initCalls vm w 1 s msg)) := by
  intro _ vm w s msg
  have hempty : (handleCreate vm w (execMsg vm w 1) s msg).map (fun p =>
      (p.1.statusCode, (p.2.host.accounts.find? msg.recipient).map Acn.storage)) =
        some (statusSuccess, some .empty) := by decide +kernel
  obtain ⟨⟨r, s'⟩, hr, heq⟩ := Option.map_eq_some_iff.1 hempty
  obtain ⟨hok, hfind⟩ := Prod.mk.inj heq
  refine ⟨r, s', hr, hok, ?_⟩
  rintro ⟨acn, hacn, -, hstorage⟩
  have hnone : acn.storage = .empty := by
    rw [hacn] at hfind
    exact Option.some.inj hfind
  rw [hstorage] at hnone
  revert hnone
  decide +kernel

/-! ### Contracts that create contracts -/

/-- How the bundled machine creates contracts: it leaves the recipient zero, and its own results
report no address. -/
def Vm.Bundled (vm : Vm) : Prop :=
  ∀ code msg, (vm.execute code msg).Always
    (fun q => ∀ msg, q = .call msg → msg.kind.isCreate = true → msg.recipient = .zero 20)
    fun r => r.createAddress = .zero 20

/-- So does a machine that asks permitted questions only. -/
theorem Vm.Modest.bundled {vm : Vm} (h : vm.Modest) : vm.Bundled := by
  intro code msg
  refine (h code msg).imp ?_ fun _ hr => hr
  rintro _ hq callee rfl hkind
  exact (hq.callsAs.of_isCreate hkind).1

/-- A message by which a contract creates a contract, and what it is executed on. -/
structure NestedCreate where
  /-- The world below the host. -/
  world : IAcnGettable
  /-- The room on the stack. -/
  stack : ℕ
  /-- The state before. -/
  state : State
  /-- The message. -/
  msg : Message

/-- The call is one that creates a contract. -/
def Made.nestedCreate (w : IAcnGettable) (c : Made) : Option NestedCreate :=
  match c.call with
  | .call msg => if msg.kind.isCreate then some ⟨w, c.stack, c.state, msg⟩ else none
  | _ => none

section NestedCreate

variable [Keccak] (vm : Vm)

/-- The contracts that contracts create in a process that executes some transactions one after
another, each on the world of its time. -/
def nestedCreates (stack : ℕ) : List (IAcnGettable × Tx) → UInt64 → List NestedCreate
  | [], _ => []
  | (w, t) :: txs, nonce =>
    (calls vm w stack ⟨nonce, .init⟩ (txToEvmcMsg t)).filterMap (Made.nestedCreate w) ++
      match execMsg vm w stack ⟨nonce, .init⟩ (txToEvmcMsg t) with
      | none => []
      | some (_, s) => nestedCreates stack txs s.nonce

namespace NestedCreate

/-- What the call returns. -/
def run (c : NestedCreate) : Run := execMsg vm c.world c.stack c.state c.msg

/-- The address that is reported, if the call succeeds. -/
def reported (c : NestedCreate) : Option Address :=
  ((c.run vm).filter fun p => p.1.statusCode = statusSuccess).map fun p => p.1.createAddress

/-- The addresses of the contracts can be used: the contract is at the address that is reported,
this is not zero, and different contracts have different addresses. -/
structure Usable (l : List NestedCreate) : Prop where
  stored : ∀ c ∈ l, ∀ r s', c.run vm = some (r, s') → r.statusCode = statusSuccess →
    ∃ acn, s'.host.accounts.find? r.createAddress = some acn ∧ acn.code = r.output
  ne_zero : ∀ c ∈ l, ∀ a, c.reported vm = some a → a ≠ .zero 20
  nodup : (l.filterMap (reported vm)).Nodup

/-- There is an account at zero already, or the init code does not succeed. -/
def Refused (c : NestedCreate) : Prop :=
  c.state.host.accountExists c.world (.zero 20) = true ∨
    ∀ stack, c.stack = stack + 1 → ∀ r s',
      runVm c.world (execMsg vm c.world stack) (vm.execute c.msg.inputData c.msg) c.state =
        some (r, s') → r.statusCode ≠ statusSuccess

variable {vm}

/-- A create to the address zero succeeds unless it is refused. -/
theorem reported_eq_none_iff {c : NestedCreate} (hkind : c.msg.kind.isCreate = true)
    (hzero : c.msg.recipient = .zero 20) : c.reported vm = none ↔ c.Refused vm := by
  have hreported : c.reported vm = none ↔
      ∀ r s', c.run vm = some (r, s') → r.statusCode ≠ statusSuccess := by
    simp [reported, Option.filter_eq_none_iff]
  rw [hreported, run]
  cases hstack : c.stack with
  | zero =>
    -- there is no room
    exact iff_of_true (fun r s' h => by cases h) (.inr fun stack h => by cases hstack.symm.trans h)
  | succ stack =>
    have hrun : execMsg vm c.world (stack + 1) c.state c.msg =
        handleCreate vm c.world (execMsg vm c.world stack) c.state c.msg := by
      rw [execMsg, if_pos hkind]
    rw [hrun]
    constructor
    · intro h
      by_cases hexists : c.state.host.accountExists c.world (.zero 20) = true
      · exact .inl hexists
      · refine .inr fun stack' heq r s₁ hvm hok => ?_
        obtain rfl : stack = stack' := Nat.succ.inj (hstack.symm.trans heq)
        have hnew : c.state.host.accountExists c.world c.msg.recipient = false := by
          rw [hzero]
          exact Bool.eq_false_iff.2 hexists
        obtain ⟨hcreate, -⟩ := handleCreate_succeeds_iff.2 ⟨hnew, hok, s₁, hvm, rfl⟩
        exact h r _ hcreate hok
    · intro hrefused r s' hcreate hok
      obtain ⟨hnew, -, s₁, hvm, -⟩ := handleCreate_succeeds_iff.1 ⟨hcreate, hok⟩
      rcases hrefused with hexists | hfails
      · rw [hzero, hexists] at hnew
        cases hnew
      · exact hfails stack hstack r s₁ hvm hok

/-- A create that succeeds reports the address zero. -/
theorem eq_zero_of_reported (hvm : vm.Bundled) {c : NestedCreate} {a : Address}
    (hkind : c.msg.kind.isCreate = true) (h : c.reported vm = some a) : a = .zero 20 := by
  obtain ⟨⟨r, s'⟩, hfilter, rfl⟩ := Option.map_eq_some_iff.1 h
  obtain ⟨hrun, hok⟩ := Option.filter_eq_some_iff.1 hfilter
  have hok : r.statusCode = statusSuccess := of_decide_eq_true hok
  rw [run] at hrun
  cases hstack : c.stack with
  | zero =>
    rw [hstack] at hrun
    cases hrun
  | succ stack =>
    rw [hstack, execMsg, if_pos hkind] at hrun
    obtain ⟨-, -, s₁, hinit, -⟩ := handleCreate_succeeds_iff.1 ⟨hrun, hok⟩
    exact result_of_always (hvm _ _) hinit

end NestedCreate

variable {vm}

/-- The nested creates of a process are creates, to the address zero. -/
theorem of_mem_nestedCreates (hvm : vm.Bundled) {stack : ℕ} {txs : List (IAcnGettable × Tx)}
    {nonce : UInt64} : ∀ c ∈ nestedCreates vm stack txs nonce,
      c.msg.kind.isCreate = true ∧ c.msg.recipient = .zero 20 := by
  induction txs generalizing nonce with
  | nil => exact fun c hc => absurd hc List.not_mem_nil
  | cons p txs ih =>
    obtain ⟨w, t⟩ := p
    intro c hc
    rw [nestedCreates, List.mem_append] at hc
    rcases hc with hc | hc
    · obtain ⟨⟨stack', s, q⟩, hmem, hcreate⟩ := List.mem_filterMap.1 hc
      have hzero := forall_mem_calls hvm stack _ _ _ hmem
      cases q with
      | call msg =>
        simp only [Made.nestedCreate, Option.ite_none_right_eq_some] at hcreate
        obtain ⟨hkind, heq⟩ := hcreate
        obtain rfl := Option.some.inj heq
        exact ⟨hkind, hzero msg rfl hkind⟩
      | _ => cases hcreate
    · split at hc
      · exact absurd hc List.not_mem_nil
      · exact ih c hc

/-- **Contracts that create contracts** get addresses that can be used if and only if they do not
get any: for every list of transactions, every nested create is refused. -/
theorem usable_iff (hvm : vm.Bundled) (stack : ℕ) (txs : List (IAcnGettable × Tx))
    (nonce : UInt64) :
    NestedCreate.Usable vm (nestedCreates vm stack txs nonce) ↔
      ∀ c ∈ nestedCreates vm stack txs nonce, c.Refused vm := by
  have hcreates : ∀ c ∈ nestedCreates vm stack txs nonce,
      c.msg.kind.isCreate = true ∧ c.msg.recipient = .zero 20 := of_mem_nestedCreates hvm
  constructor
  · intro h c hc
    obtain ⟨hkind, hzero⟩ := hcreates c hc
    rw [← NestedCreate.reported_eq_none_iff hkind hzero, Option.eq_none_iff_forall_ne_some]
    intro a ha
    exact h.ne_zero c hc a ha (NestedCreate.eq_zero_of_reported hvm hkind ha)
  · intro h
    have hnone : ∀ c ∈ nestedCreates vm stack txs nonce, c.reported vm = none := by
      intro c hc
      obtain ⟨hkind, hzero⟩ := hcreates c hc
      exact (NestedCreate.reported_eq_none_iff hkind hzero).2 (h c hc)
    refine ⟨?_, ?_, ?_⟩
    · intro c hc r s' hrun hok
      have := hnone c hc
      simp [NestedCreate.reported, hrun, Option.filter, hok] at this
    · intro c hc a ha
      rw [hnone c hc] at ha
      cases ha
    · rw [List.filterMap_eq_nil_iff.2 hnone]
      exact List.nodup_nil

end NestedCreate

/-- `PUSH1 0 PUSH1 0 PUSH1 0 CREATE STOP`. -/
def createCode : Bytes := [0x60, 0, 0x60, 0, 0x60, 0, 0xf0, 0]

/-- A call of the account `2`. -/
def callTx : Tx := .create (makeAddress 1) (makeAddress 2) [] 7 0

/-- A world with the code above at `2`. -/
def creatorWorld : IAcnGettable := fun a =>
  if a = makeAddress 2 then some { code := createCode } else none

/-- One transaction, which calls a contract that creates a contract. -/
theorem usable_iff_create :
    let _ : Keccak := Sponge.keccak
    let vm := baseline .prague failureResult
    let l := nestedCreates vm 2 [(creatorWorld, callTx)] 0
    NestedCreate.Usable vm l ↔ ∀ c ∈ l, c.Refused vm := by
  intro _ vm l
  exact usable_iff (modest_baseline .prague rfl).bundled 2 _ 0

/-- The contract that is created has the address zero. -/
theorem not_usable :
    let _ : Keccak := Sponge.keccak
    let vm := baseline .prague failureResult
    let l := nestedCreates vm 2 [(creatorWorld, callTx)] 0
    l.filterMap (NestedCreate.reported vm) = [.zero 20] ∧ ¬NestedCreate.Usable vm l := by
  intro _ vm l
  have hl : l.filterMap (NestedCreate.reported vm) = [.zero 20] := by decide +kernel
  refine ⟨hl, fun h => ?_⟩
  have hmem : .zero 20 ∈ l.filterMap (NestedCreate.reported vm) := by
    rw [hl]
    exact List.mem_singleton_self _
  obtain ⟨c, hc, hreported⟩ := List.mem_filterMap.1 hmem
  exact h.ne_zero c hc _ hreported rfl

end Evm

end WeakChain
