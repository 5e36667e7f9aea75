import WeakChain.Evm.Counter
import WeakChain.Evm.Effects
import WeakChain.Exec.Div2Executor
import WeakChain.Exec.Storage
import WeakChain.Lib.Run

/-!
# Deploying contracts

The address of a contract is made of the nonce and the timestamp of the transaction that deploys it.
The sender is not part of it, and only 32 bits of the others are.  The EVM refuses to deploy a
contract where there is an account, but it looks for one in the database as it was before the block;
a Python contract is written wherever its address is.

So deployments can overwrite one another, and any other account.  `Deploy.intact` says when a run of
them does not.
-/

namespace WeakChain

namespace Deploy

open Evm StateDB

/-! ### The journal of a host -/

section Journal

variable [HashOrder Address] [HashOrder Bytes32] [Pb hiPb.Acn] {h : WeakEvmHost} {a : Address}

/-- The changes of an account that is not dead. -/
theorem mem_getStateChanges (ha : a ∉ h.deadAcn) {c : StateChange} :
    c ∈ getStateChanges h ∧ c.k = addressToString a ↔
      ∃ x, h.accounts.find? a = some x ∧ c = ⟨false, addressToString a, x.toString⟩ := by
  rw [getStateChanges, List.mem_append, List.mem_map, List.mem_map]
  constructor
  · rintro ⟨⟨e, he, rfl⟩ | ⟨b, hb, rfl⟩, hk⟩
    · obtain rfl := addressToString_injective hk
      exact ⟨e.2, HashMap.mem_toList.1 (List.mem_of_mem_filter he), rfl⟩
    · obtain rfl := addressToString_injective hk
      exact absurd hb ha
  · rintro ⟨x, hx, rfl⟩
    refine ⟨.inl ⟨(a, x), List.mem_filter.2 ⟨HashMap.mem_toList.2 hx, ?_⟩, rfl⟩, rfl⟩
    simpa using ha

/-- An account that is not in memory is left alone. -/
theorem getAcn_getStateChanges_of_none (db : StateDB) (ha : a ∉ h.deadAcn)
    (hx : h.accounts.find? a = none) :
    getAcn (applyJournal db (getStateChanges h)) a = getAcn db a := by
  refine getAcn_applyJournal fun c hc hk => ?_
  obtain ⟨x, hx', -⟩ := (mem_getStateChanges ha).1 ⟨hc, hk⟩
  rw [hx] at hx'
  cases hx'

/-- An account in memory is written to the database. -/
theorem getAcn_getStateChanges_of_some (db : StateDB) (hpb : Pb.ReadsBack hiPb.Acn)
    (ha : a ∉ h.deadAcn) {x : Acn} (hx : h.accounts.find? a = some x) :
    ∃ acn, getAcn (applyJournal db (getStateChanges h)) a = some acn ∧ acn.Same x := by
  refine getAcn_applyJournal_of_mem hpb (fun c hc hk => ?_)
    ((mem_getStateChanges ha).2 ⟨x, hx, rfl⟩).1
  obtain ⟨y, hy, rfl⟩ := (mem_getStateChanges ha).1 ⟨hc, hk⟩
  rw [hx] at hy
  rw [Option.some.inj hy]

end Journal

/-! ### What a deployment leaves alone -/

/-- Some effects leave an account alone: it is not destroyed, no contract is deployed in its place,
and each slot of its storage is last given the value that it had. -/
structure LeavesAlone (w : IAcnGettable) (es : List Effect) (a : Address) : Prop where
  destroy : .destroy a ∉ es
  deploy : .deploy a ∉ es
  write : ∀ key value, HashMap.lastValue (writesTo a es) key = some value →
    ∃ acn, w a = some acn ∧ acn.storage.find? key = some value

/-- The memory of a host has an account that is left alone as it was, if it has it. -/
theorem LeavesAlone.find? {w : IAcnGettable} {es : List Effect} {a : Address}
    (hl : LeavesAlone w es a) {h : WeakEvmHost} (ht : Traced w .init es h) :
    a ∉ h.deadAcn ∧ ∀ x, h.accounts.find? a = some x → w a = some x := by
  have hinit : WeakEvmHost.init.acn? w a = w a := rfl
  constructor
  · intro ha
    rcases ht.mem_deadAcn.1 ha with ha | ha
    · cases ha
    · exact hl.destroy ha
  · intro x hx
    have heq := ht.acn?_eq hl.deploy
    rw [hinit, written_eq_self_iff.2 hl.write, WeakEvmHost.acn?, hx] at heq
    exact heq.symm

/-- The journal of a transaction changes no account that its effects leave alone. -/
theorem keeps_getStateChanges [HashOrder Address] [HashOrder Bytes32] [Pb hiPb.Acn]
    (hpb : Pb.ReadsBack hiPb.Acn) {snapshot db : StateDB} (hsnapshot : snapshot.Keeps db)
    {es : List Effect} {h : WeakEvmHost} (ht : Traced (getAcn snapshot) .init es h)
    (hes : ∀ a acn, getAcn db a = some acn → LeavesAlone (getAcn snapshot) es a) :
    db.Keeps (applyJournal db (getStateChanges h)) := by
  intro a acn hacn
  obtain ⟨hdead, hfind⟩ := (hes a acn hacn).find? ht
  cases hx : h.accounts.find? a with
  | none => exact ⟨acn, (getAcn_getStateChanges_of_none db hdead hx).trans hacn, .refl acn⟩
  | some x =>
    obtain ⟨acn', hacn', hsame'⟩ := getAcn_getStateChanges_of_some db hpb hdead hx
    -- what was fetched from the snapshot is what is in the database
    obtain ⟨acn'', hacn'', hsame⟩ := hsnapshot a x (hfind x hx)
    rw [hacn] at hacn''
    obtain rfl := Option.some.inj hacn''
    exact ⟨acn', hacn', hsame'.trans hsame.symm⟩

/-! ### Runs of deployments -/

/-- A deployment that has been executed. -/
structure Deployed where
  /-- The state database that its journal was applied to. -/
  db : StateDB
  /-- The transaction. -/
  tx : Tx
  /-- The journal. -/
  journal : Journal

/-- The state of a node that deploys contracts. -/
structure State where
  /-- The state database. -/
  db : StateDB
  /-- The state database before the block. -/
  snapshot : StateDB
  /-- The deployments so far, the last one first. -/
  deployed : List Deployed

/-- What happens. -/
inductive Event
  /-- A new block begins. -/
  | beginBlk
  /-- A transaction that deploys a contract is executed in a process with the given counter. -/
  | create (e : Div2Executor) (counter : UInt64) (t : Tx)

section Runs

variable [Keccak] [BoostJson] [BoostJsonSerialize] [HashOrder Address] [HashOrder Bytes32]
  [Pb hiPb.Acn]

/-- The journal of a transaction; nothing if it fails. -/
def journal (s : State) (e : Div2Executor) (counter : UInt64) (t : Tx) : Option Journal :=
  (e.executeTx (getAcn s.snapshot) t counter).bind fun r => r.2.map Prod.fst

/-- Apply the journal of a transaction to the state database. -/
def create (s : State) (e : Div2Executor) (counter : UInt64) (t : Tx) : State :=
  match journal s e counter t with
  | none => s
  | some j =>
    { s with
      db := applyJournal s.db j
      deployed := ⟨s.db, t, j⟩ :: s.deployed }

/-- Any sequence of deployments that succeed, on any state database and in any blocks.  No two of
them have the same sender and nonce. -/
def creates : Sys State Event where
  init s := s.snapshot = s.db ∧ s.deployed = []
  enabled s
    | .beginBlk => True
    | .create e counter t =>
      t.toAddr = .zero 20 ∧ t.type ≠ .data ∧ (journal s e counter t).isSome = true ∧
        ∀ d ∈ s.deployed, (d.tx.fromAddr, d.tx.nonce) ≠ (t.fromAddr, t.nonce)
  act s
    | .beginBlk => { s with snapshot := s.db }
    | .create e counter t => create s e counter t

/-- No deployment has changed an account, and no two contracts have the same address. -/
structure Intact (s : State) : Prop where
  keeps : ∀ d ∈ s.deployed, d.db.Keeps (applyJournal d.db d.journal)
  nodup : (s.deployed.map fun d => d.tx.getContractDeployAddress).Nodup

/-- The address of the contract is new, and what is done to deploy it leaves the accounts alone that
there are. -/
structure Spared (s : State) (e : Div2Executor) (counter : UInt64) (t : Tx) : Prop where
  word : ∀ d ∈ s.deployed, d.tx.addressWord ≠ t.addressWord
  free : getAcn s.db t.getContractDeployAddress = none
  alone : t.type = .evm → ∀ a acn, getAcn s.db a = some acn →
    LeavesAlone (getAcn s.snapshot)
      (effects e.vm (getAcn s.snapshot) e.stack ⟨counter, .init⟩ (txToEvmcMsg t)) a

/-- Every deployment is spared the accounts that there are. -/
def SparedEvent (s : State) : Event → Prop
  | .beginBlk => True
  | .create e counter t => Spared s e counter t

variable {s : State} {e : Div2Executor} {counter : UInt64} {t : Tx} {j : Journal}

theorem act_create (hj : journal s e counter t = some j) :
    creates.act s (.create e counter t) =
      ⟨applyJournal s.db j, s.snapshot, ⟨s.db, t, j⟩ :: s.deployed⟩ := by
  change create s e counter t = _
  rw [create, hj]

/-- One more block. -/
theorem reach_beginBlk {C : State → Event → Prop} (h : (creates.only C).Reach s)
    (hC : C s .beginBlk) : (creates.only C).Reach { s with snapshot := s.db } :=
  h.act_only (A := creates) (l := .beginBlk) trivial hC

/-- One more deployment. -/
theorem reach_create {C : State → Event → Prop} (h : (creates.only C).Reach s)
    (hto : t.toAddr = .zero 20) (hdata : t.type ≠ .data) (hj : journal s e counter t = some j)
    (hnew : ∀ d ∈ s.deployed, (d.tx.fromAddr, d.tx.nonce) ≠ (t.fromAddr, t.nonce))
    (hC : C s (.create e counter t)) :
    (creates.only C).Reach ⟨applyJournal s.db j, s.snapshot, ⟨s.db, t, j⟩ :: s.deployed⟩ := by
  rw [← act_create hj]
  exact h.act_only ⟨hto, hdata, Option.isSome_of_eq_some hj, hnew⟩ hC

/-- The journal of the deployment of a Python contract: the account. -/
theorem journal_python (hto : t.toAddr = .zero 20) (hpython : t.type = .python) :
    journal s e counter t = (PyTxExecutor.deployPyContract e.py t).map fun r =>
      [⟨false, addressToString t.getContractDeployAddress, r.1.toString⟩] := by
  rw [journal, Div2Executor.executeTx, hpython]
  dsimp only
  rw [PyTxExecutor.executePyTx, if_pos hto]
  cases PyTxExecutor.deployPyContract e.py t <;> rfl

/-- The journal of the deployment of an EVM contract: what is left on the host. -/
theorem of_journal_evm (hevm : t.type = .evm) (hj : journal s e counter t = some j) :
    ∃ host, j = getStateChanges host ∧ Traced (getAcn s.snapshot) .init
      (effects e.vm (getAcn s.snapshot) e.stack ⟨counter, .init⟩ (txToEvmcMsg t)) host := by
  rw [journal, Div2Executor.executeTx, hevm] at hj
  obtain ⟨r, hexec, hr⟩ := Option.bind_eq_some_iff.1 hj
  obtain ⟨⟨result, s'⟩, hmsg, rfl⟩ := Option.map_eq_some_iff.1 hexec
  refine ⟨s'.host, ?_, traced_execMsg e.stack _ _ _ _ hmsg⟩
  dsimp only at hr
  split_ifs at hr
  · cases hr
  · exact (Option.some.inj hr).symm

theorem keeps_of_spared (hpb : Pb.ReadsBack hiPb.Acn) (hsnapshot : s.snapshot.Keeps s.db)
    (hto : t.toAddr = .zero 20) (hdata : t.type ≠ .data) (hj : journal s e counter t = some j)
    (h : Spared s e counter t) : s.db.Keeps (applyJournal s.db j) := by
  cases htype : t.type with
  | data => exact absurd htype hdata
  | python =>
    rw [journal_python hto htype] at hj
    obtain ⟨r, -, rfl⟩ := Option.map_eq_some_iff.1 hj
    -- the only account that is written was not there
    intro a acn hacn
    refine ⟨acn, (getAcn_applyJournal fun c hc hk => ?_).trans hacn, .refl acn⟩
    obtain rfl := List.mem_singleton.1 hc
    rw [← addressToString_injective hk, h.free] at hacn
    cases hacn
  | evm =>
    obtain ⟨host, rfl, ht⟩ := of_journal_evm htype hj
    exact keeps_getStateChanges hpb hsnapshot ht (h.alone htype)

omit [Keccak] [BoostJson] [BoostJsonSerialize] [HashOrder Address] [HashOrder Bytes32] in
/-- One more deployment, that changes no account and has an address of its own. -/
theorem Intact.create (h : Intact s) (hkeeps : s.db.Keeps (applyJournal s.db j))
    (hword : ∀ d ∈ s.deployed, d.tx.addressWord ≠ t.addressWord) :
    Intact ⟨applyJournal s.db j, s.snapshot, ⟨s.db, t, j⟩ :: s.deployed⟩ where
  keeps d hd := by
    rcases List.mem_cons.1 hd with rfl | hd
    · exact hkeeps
    · exact h.keeps d hd
  nodup := by
    rw [List.map_cons, List.nodup_cons]
    refine ⟨fun hmem => ?_, h.nodup⟩
    obtain ⟨d, hd, haddr⟩ := List.mem_map.1 hmem
    exact hword d hd (Tx.getContractDeployAddress_eq_iff.1 haddr)

/-- **Deploying overwrites nothing** as long as the address of every contract is new and what is
done to deploy it leaves the accounts alone that there are: then no journal changes an account of
the state database that it is applied to, and the addresses are pairwise different. -/
theorem intact (hpb : Pb.ReadsBack hiPb.Acn) {s : State}
    (h : (creates.only SparedEvent).Reach s) : Intact s := by
  have hinv : s.snapshot.Keeps s.db ∧ Intact s := by
    refine h.invariant (I := fun s => s.snapshot.Keeps s.db ∧ Intact s) ?_ ?_
    · rintro s ⟨hsnapshot, hdeployed⟩
      rw [hsnapshot]
      refine ⟨.refl s.db, ⟨?_, ?_⟩⟩
      · simp [hdeployed]
      · simp [hdeployed]
    · rintro s l - ⟨hsnapshot, hintact⟩ ⟨hen, hspared⟩
      cases l with
      | beginBlk => exact ⟨.refl s.db, ⟨hintact.keeps, hintact.nodup⟩⟩
      | create e counter t =>
        obtain ⟨hto, hdata, hsome, -⟩ := hen
        obtain ⟨j, hj⟩ := Option.isSome_iff_exists.1 hsome
        have hspared : Spared s e counter t := hspared
        have hkeeps := keeps_of_spared hpb hsnapshot hto hdata hj hspared
        have hact : (creates.only SparedEvent).act s (.create e counter t) = _ := act_create hj
        rw [hact]
        exact ⟨hsnapshot.trans hkeeps, hintact.create hkeeps hspared.word⟩
  exact hinv.2

end Runs

/-! ### Two deployments -/

/-- `{"hi": []}`. -/
def hiAbi : Bytes := ascii "\x7b\"hi\": []\x7d"

/-- A parser that has to parse this only. -/
@[reducible] def hiJson : BoostJson where
  parse s := if s = hiAbi then some (.object [(ascii "hi", .array [])]) else none
  uint64OfDouble _ := none

/-- A machine that stops at once, and a verifier of codes that have the method `hi`. -/
def hiExecutor : Div2Executor where
  vm := stopVm
  stack := 1
  py := ⟨fun _ => (0, some hiAbi), [], fun _ _ => .error [], fun _ _ => true, []⟩

/-- The deployment of a Python contract. -/
def hiTx (sender : Int32) (code : String) (timestamp : Int64) : Tx where
  pkPem := []
  signature := []
  pkCrt := []
  type := .python
  fromAddr := makeAddress sender
  toAddr := .zero 20
  data := ascii code
  nonce := 7
  timestamp := timestamp

/-- The account of the contract. -/
def hiAcn (t : Tx) : Acn where
  nonce := t.nonce
  code := t.data
  diskStorage := [hiAbi, ascii "\x7b\x7d"]

section Hi

variable [Keccak] [BoostJsonSerialize] [HashOrder Address] [HashOrder Bytes32] [Pb hiPb.Acn]

theorem journal_hi (s : State) (sender : Int32) (code : String) (timestamp : Int64) :
    let _ : BoostJson := hiJson
    let t := hiTx sender code timestamp
    journal s hiExecutor 0 t =
      some [⟨false, addressToString t.getContractDeployAddress, (hiAcn t).toString⟩] := by
  intro _ t
  have hverify : PyTxExecutor.verifyPyContract hiExecutor.py t.data = some hiAbi := rfl
  have hparse : BoostJson.parse hiAbi = some (.object [(ascii "hi", .array [])]) := if_pos rfl
  have hinit : Json.contains [(ascii "hi", .array [])] (ascii "init") = false := rfl
  have hdeploy : PyTxExecutor.deployPyContract hiExecutor.py t = some (hiAcn t, []) := by
    rw [PyTxExecutor.deployPyContract, hverify]
    simp only [hparse, Option.bind_eq_bind, Option.bind_some, Json.asObject, hinit]
    rfl
  rw [journal_python rfl rfl, hdeploy]
  rfl

omit [Keccak] [BoostJsonSerialize] [HashOrder Address] in
/-- An account is changed if one with another code is written in its place. -/
theorem not_keeps_of_code_ne (hpb : Pb.ReadsBack hiPb.Acn) {db : StateDB} {a : Address}
    {x y : Acn} (hne : x.code ≠ y.code) :
    let j (acn : Acn) : Journal := [⟨false, addressToString a, acn.toString⟩]
    ¬(applyJournal db (j x)).Keeps (applyJournal (applyJournal db (j x)) (j y)) := by
  intro j h
  have hwritten : ∀ (db : StateDB) (acn : Acn),
      ∃ acn', getAcn (applyJournal db (j acn)) a = some acn' ∧ acn'.Same acn := fun db acn =>
    getAcn_applyJournal_of_mem hpb (fun c hc _ => List.mem_singleton.1 hc)
      (List.mem_singleton_self _)
  obtain ⟨x', hx', hsame⟩ := hwritten db x
  obtain ⟨y', hy', hsame'⟩ := hwritten (applyJournal db (j x)) y
  obtain ⟨z, hz, hkept⟩ := h a x' hx'
  rw [hy'] at hz
  obtain rfl := Option.some.inj hz
  exact hne (hsame.code.symm.trans (hkept.code.symm.trans hsame'.code))

omit [Keccak] [BoostJsonSerialize] [HashOrder Address] [HashOrder Bytes32] [Pb hiPb.Acn] in
/-- Two users deploy different contracts with the same nonce at the same time: the contracts have
the same address, and the second one takes the place of the first one. -/
theorem not_intact :
    let _ : Keccak := Sponge.keccak
    let _ : HashOrder Address := .insertion Address
    let _ : HashOrder Bytes32 := .insertion Bytes32
    let _ : Pb hiPb.Acn := Wire.pb hiPb.Acn
    let _ : BoostJson := hiJson
    let _ : BoostJsonSerialize := JsonText.serialize
    ∃ s, creates.Reach s ∧ (∃ d ∈ s.deployed, ¬d.db.Keeps (applyJournal d.db d.journal)) ∧
      ¬(s.deployed.map fun d => d.tx.getContractDeployAddress).Nodup := by
  intro _ _ _ _ _ _
  have hinit : (creates.only fun _ _ => True).Reach ⟨∅, ∅, []⟩ := .init ⟨rfl, rfl⟩
  have h₁ := reach_create hinit rfl (by decide)
    (journal_hi _ 1 "def hi():\n    return 123\n" 0) nofun trivial
  have h₂ := reach_beginBlk h₁ trivial
  have h₃ := reach_create h₂ rfl (by decide)
    (journal_hi _ 2 "def hi():\n    return 456\n" 0) (by decide) trivial
  refine ⟨_, h₃.of_only, ⟨_, List.mem_cons_self, ?_⟩, ?_⟩
  · exact not_keeps_of_code_ne (Wire.readsBack hiPb.Acn) (by decide)
  · exact fun hnodup => (List.nodup_cons.1 hnodup).1 List.mem_cons_self

omit [Keccak] [BoostJsonSerialize] [HashOrder Address] [HashOrder Bytes32] [Pb hiPb.Acn] in
/-- A Python contract and an EVM contract at another address, in one block. -/
theorem intact_hi :
    let _ : Keccak := Sponge.keccak
    let _ : HashOrder Address := .insertion Address
    let _ : HashOrder Bytes32 := .insertion Bytes32
    let _ : Pb hiPb.Acn := Wire.pb hiPb.Acn
    let _ : BoostJson := hiJson
    let _ : BoostJsonSerialize := JsonText.serialize
    ∃ s, (creates.only SparedEvent).Reach s ∧ s.deployed.length = 2 ∧ Intact s := by
  intro _ _ _ _ _ _
  have hinit : (creates.only SparedEvent).Reach ⟨∅, ∅, []⟩ := .init ⟨rfl, rfl⟩
  have h₁ := reach_create hinit rfl (by decide)
    (journal_hi _ 2 "def hi():\n    return 123\n" 1) nofun ⟨nofun, rfl, nofun⟩
  obtain ⟨j, hj⟩ : ∃ j, journal ⟨applyJournal ∅ _, ∅, _⟩ hiExecutor 0 deployTx = some j := ⟨_, rfl⟩
  -- the first contract is somewhere else
  have hfree : getAcn (applyJournal ∅
      [⟨false, addressToString (hiTx 2 "def hi():\n    return 123\n" 1).getContractDeployAddress,
        (hiAcn (hiTx 2 "def hi():\n    return 123\n" 1)).toString⟩])
      deployTx.getContractDeployAddress = none := by
    refine (getAcn_applyJournal fun c hc => ?_).trans rfl
    obtain rfl := List.mem_singleton.1 hc
    decide
  have h₂ := reach_create h₁ rfl (by decide) hj (by decide)
    ⟨by decide, hfree, fun _ a acn hacn => ?_⟩
  · exact ⟨_, h₂, rfl, intact (Wire.readsBack hiPb.Acn) h₂⟩
  · -- all that the machine does is that it deploys the contract
    have hes : effects hiExecutor.vm (getAcn ∅) hiExecutor.stack ⟨0, .init⟩ (txToEvmcMsg deployTx) =
        [.deploy deployTx.getContractDeployAddress] := rfl
    have hne : a ≠ deployTx.getContractDeployAddress := by
      rintro rfl
      rw [hfree] at hacn
      cases hacn
    rw [hes]
    exact ⟨by simp, by simpa using hne, nofun⟩

end Hi

end Deploy

end WeakChain
