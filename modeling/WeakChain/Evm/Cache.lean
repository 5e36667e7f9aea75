import WeakChain.Evm.Create
import WeakChain.Evm.Effects

/-!
# The accounts in memory

The host keeps accounts in memory, and reads the others from the world below.  What it says about an
account should not depend on where the account is: it should be a function of the accounts as they
are seen through the host (`WeakEvmHost.seen`).

`account_exists` and `get_storage` are such functions, and `set_storage` changes what `get_storage`
returns for the slot that is written, and for no other one.  The questions about codes look into the
memory only: an account that is not there has no code, says `get_code_size`; it has the hash zero,
says `get_code_hash`; and `copy_code` ends the process, if the account is in the world.
-/

namespace WeakChain

namespace Evm

namespace WeakEvmHost

variable {w : IAcnGettable} {h h' : WeakEvmHost} {a b : Address}

theorem accountExists_eq_isSome_seen : h.accountExists w a = (h.seen w a).isSome := by
  rw [Bool.eq_iff_iff, ← not_iff_not, Bool.not_eq_true, Bool.not_eq_true, seen,
    accountExists_eq_false_iff]
  split_ifs with hdead
  · simp [hdead]
  · simp [hdead]

theorem getStorage_eq_seen (key : Bytes32) :
    h.getStorage w a key =
      ((h.seen w a).bind fun acn => acn.storage.find? key).getD (.zero 32) := by
  rw [getStorage, accountExists_eq_isSome_seen, seen]
  split_ifs with hdead hsome hsome
  · cases hsome
  · rfl
  · rfl
  · rw [Option.not_isSome_iff_eq_none.1 hsome]
    rfl

/-! ### Pulling an account into the memory -/

/-- An account that is pulled into the memory is seen as before. -/
theorem seen_of_tryAdd (hmem : h.accounts.find? a = none)
    (hadd : h.tryAddAcnFromWorldState w a = some h') : h'.seen w b = h.seen w b := by
  obtain ⟨acn, hw, rfl⟩ := Option.map_eq_some_iff.1 hadd
  have hdead : (h.setAcn a acn).deadAcn = h.deadAcn := rfl
  rw [seen, seen, hdead, acn?_setAcn]
  split_ifs with hb hba
  · rfl
  · subst hba
    rw [acn?, hmem]
    exact hw.symm
  · rfl

/-- The host says the same of an account in two states. -/
structure SameAnswers [Keccak] (w : IAcnGettable) (h h' : WeakEvmHost) (b : Address)
    (key : Bytes32) : Prop where
  accountExists : h'.accountExists w b = h.accountExists w b
  getStorage : h'.getStorage w b key = h.getStorage w b key
  getCodeSize : h'.getCodeSize b = h.getCodeSize b
  getCodeHash : h'.getCodeHash b = h.getCodeHash b

/-- **The cache can be seen.**  When an account of the world is pulled into the memory, the host
says the same of an account as before if and only if it is another one, or one with no code, for
which Keccak-256 would have to be zero. -/
theorem sameAnswers_iff [Keccak] {acn : Acn} (hw : w a = some acn)
    (hmem : h.accounts.contains a = false) (hadd : h.tryAddAcnFromWorldState w a = some h')
    (b : Address) (key : Bytes32) :
    SameAnswers w h h' b key ↔ (b = a → acn.code = [] ∧ keccak256 [] = .zero 32) := by
  have hfind : h.accounts.find? a = none := by simpa [HashMap.contains] using hmem
  have hseen : h'.seen w b = h.seen w b := seen_of_tryAdd hfind hadd
  have hexists : h'.accountExists w b = h.accountExists w b := by
    rw [accountExists_eq_isSome_seen, accountExists_eq_isSome_seen, hseen]
  have hstorage : h'.getStorage w b key = h.getStorage w b key := by
    rw [getStorage_eq_seen, getStorage_eq_seen, hseen]
  have hset : h' = h.setAcn a acn := by
    rw [tryAddAcnFromWorldState, hw] at hadd
    exact (Option.some.inj hadd).symm
  have hnow : h'.accounts.find? b = if b = a then some acn else h.accounts.find? b := by
    rw [hset, setAcn, HashMap.find?_set]
  have hiff : SameAnswers w h h' b key ↔
      h'.getCodeSize b = h.getCodeSize b ∧ h'.getCodeHash b = h.getCodeHash b :=
    ⟨fun h => ⟨h.getCodeSize, h.getCodeHash⟩, fun h => ⟨hexists, hstorage, h.1, h.2⟩⟩
  rw [hiff, WeakEvmHost.getCodeSize, WeakEvmHost.getCodeSize, WeakEvmHost.getCodeHash,
    WeakEvmHost.getCodeHash, hnow]
  by_cases hb : b = a
  · subst hb
    rw [if_pos rfl, hfind]
    constructor
    · rintro ⟨hsize, hhash⟩ -
      have hcode : acn.code = [] := List.length_eq_zero_iff.1 hsize
      rw [← hcode]
      exact ⟨rfl, hhash⟩
    · intro h
      obtain ⟨hcode, hhash⟩ := h rfl
      refine ⟨congrArg List.length hcode, ?_⟩
      change keccak256 acn.code = .zero 32
      rw [hcode, hhash]
  · rw [if_neg hb]
    exact iff_of_true ⟨rfl, rfl⟩ fun h => absurd h hb

/-- The world has an account with the code `STOP` at `2`. -/
def worldWithCode : IAcnGettable := fun a =>
  if a = makeAddress 2 then some { code := [0] } else none

/-- The account at `2` is pulled into the memory, and the host is asked about the one at `1`. -/
theorem sameAnswers_iff_other :
    let _ : Keccak := Sponge.keccak
    let h' := init.setAcn (makeAddress 2) { code := [0] }
    init.tryAddAcnFromWorldState worldWithCode (makeAddress 2) = some h' ∧
      (SameAnswers worldWithCode init h' (makeAddress 1) (.zero 32) ↔
        (makeAddress 1 = makeAddress 2 → ([0] : Bytes) = [] ∧ keccak256 [] = .zero 32)) := by
  intro _ h'
  have hw : worldWithCode (makeAddress 2) = some { code := [0] } := rfl
  have hadd : init.tryAddAcnFromWorldState worldWithCode (makeAddress 2) = some h' := rfl
  exact ⟨hadd, sameAnswers_iff hw rfl hadd (makeAddress 1) (.zero 32)⟩

/-- Before, the code of the account at `2` has the size 0; afterwards it has the size 1. -/
theorem not_sameAnswers :
    let _ : Keccak := Sponge.keccak
    let a := makeAddress 2
    let h' := init.setAcn a { code := [0] }
    a ∉ init.deadAcn ∧ init.accounts.contains a = false ∧
      init.tryAddAcnFromWorldState worldWithCode a = some h' ∧ init.getCodeSize a = 0 ∧
      h'.getCodeSize a = 1 ∧ ¬SameAnswers worldWithCode init h' a (.zero 32) := by
  intro _ a h'
  have hsize : h'.getCodeSize a = 1 := by decide +kernel
  refine ⟨List.not_mem_nil, rfl, rfl, rfl, hsize, fun h => ?_⟩
  exact absurd (hsize.symm.trans h.getCodeSize) (by decide)

/-! ### Writing to the storage -/

/-- A write changes one account, as it is seen; one that is nowhere is made. -/
theorem seen_setStorage (key value : Bytes32) (ha : a ∉ h.deadAcn) :
    (h.setStorage w a key value).seen w b =
      if b = a then
        let acn := (h.seen w a).getD {}
        some { acn with storage := acn.storage.set key value }
      else h.seen w b := by
  have hdead : (h.setStorage w a key value).deadAcn = h.deadAcn := rfl
  rw [seen, hdead, setStorage, acn?_setAcn]
  by_cases hb : b = a
  · subst hb
    rw [if_neg ha, if_pos rfl, if_pos rfl, seen, if_neg ha]
  · rw [if_neg hb, if_neg hb, seen]

/-- **A write is exact.**  For every world, every host and every account that is not dead: after
`set_storage`, `get_storage` returns the value that has been written, and what it returns for every
other slot, of this account or of another one, is what it was before. -/
theorem getStorage_setStorage (w : IAcnGettable) (h : WeakEvmHost) (a : Address)
    (key value : Bytes32) (ha : a ∉ h.deadAcn) :
    (h.setStorage w a key value).getStorage w a key = value ∧
      ∀ (b : Address) (k : Bytes32), (b, k) ≠ (a, key) →
        (h.setStorage w a key value).getStorage w b k = h.getStorage w b k := by
  constructor
  · rw [getStorage_eq_seen, seen_setStorage key value ha, if_pos rfl]
    simp [HashMap.find?_set]
  · intro b k hne
    rw [getStorage_eq_seen, getStorage_eq_seen, seen_setStorage key value ha]
    by_cases hb : b = a
    · -- another slot of the same account, which may have been made by the write
      subst hb
      have hk : k ≠ key := fun hk => hne (hk ▸ rfl)
      rw [if_pos rfl]
      cases h.seen w b with
      | none =>
        have hempty : (HashMap.empty : HashMap Bytes32 Bytes32).find? k = none := rfl
        simp [HashMap.find?_set, hk, hempty]
      | some acn => simp [HashMap.find?_set, hk]
    · rw [if_neg hb]

/-- A write to the account at `2`, which is in the world only. -/
theorem getStorage_setStorage_world :
    let a := makeAddress 2
    let one : Bytes32 := ⟨List.replicate 31 0 ++ [1], rfl⟩
    let h := init.setStorage worldWithCode a one one
    h.getStorage worldWithCode a one = one ∧
      ∀ b k, (b, k) ≠ (a, one) →
        h.getStorage worldWithCode b k = init.getStorage worldWithCode b k := by
  intro a one h
  exact getStorage_setStorage worldWithCode init a one one List.not_mem_nil

/-! ### Copying code -/

/-- The code of an account as it is seen through the host. -/
def seenCode (w : IAcnGettable) (h : WeakEvmHost) (a : Address) : Bytes :=
  ((h.seen w a).map Acn.code).getD []

/-- The account is dead, or in memory, or not in the world: nothing has to be fetched. -/
def NothingToFetch (w : IAcnGettable) (h : WeakEvmHost) (a : Address) : Prop :=
  a ∈ h.deadAcn ∨ h.accounts.contains a = true ∨ w a = none

/-- If an account would have to be fetched, `copy_code` does not return. -/
theorem copyCode_eq_none_iff {offset size : ℕ} :
    h.copyCode w a offset size = none ↔ ¬h.NothingToFetch w a := by
  have hexists : h.accountExists w a = true ↔
      a ∉ h.deadAcn ∧ (h.accounts.contains a = true ∨ w a ≠ none) := by
    simp [accountExists, Option.isSome_iff_ne_none]
  have hfind : h.accounts.find? a = none ↔ ¬h.accounts.contains a = true := by
    simp [HashMap.contains]
  rw [copyCode, NothingToFetch]
  split_ifs with hthere
  · rw [Option.map_eq_none_iff, hfind]
    tauto
  · have hsome : ¬(some [] = (none : Option Bytes)) := Option.some_ne_none []
    tauto

/-- `copy_code` returns a piece of the code as it is seen, or it does not return. -/
theorem copyCode_eq_iff {offset size : ℕ} :
    h.copyCode w a offset size = some (((h.seenCode w a).drop offset).take size) ↔
      h.NothingToFetch w a := by
  constructor
  · intro hcopy
    by_contra hfetch
    rw [copyCode_eq_none_iff.2 hfetch] at hcopy
    cases hcopy
  · intro hnothing
    rw [copyCode, seenCode, accountExists_eq_isSome_seen, seen]
    split_ifs with hdead hsome hsome
    · cases hsome
    · simp
    · -- in memory, as it is in the world only otherwise
      cases hfind : h.accounts.find? a with
      | some acn => simp [acn?, hfind]
      | none =>
        rw [acn?, hfind] at hsome
        rcases hnothing with hd | hmem | hnone
        · exact absurd hd hdead
        · simp [HashMap.contains, hfind] at hmem
        · rw [hnone] at hsome
          cases hsome
    · rw [Option.not_isSome_iff_eq_none.1 hsome]
      simp

end WeakEvmHost

/-- If the call is one of `copy_code`, it returns, and it copies the code as it is seen. -/
def Made.CopiesCode (w : IAcnGettable) (c : Made) : Prop :=
  ∀ a offset size, c.call = .copyCode a offset size →
    c.state.host.copyCode w a offset size =
      some (((c.state.host.seenCode w a).drop offset).take size)

variable [Keccak]

/-- **Copying code.**  For every machine, world, host and message: all calls of `copy_code` that are
made while the message is executed, at any depth, return and copy the code as it is seen if and only
if each is for an account that is dead, or in memory at this time, or not in the world. -/
theorem copiesCode_iff (vm : Vm) (w : IAcnGettable) (stack : ℕ) (s : State) (msg : Message) :
    (∀ c ∈ calls vm w stack s msg, c.CopiesCode w) ↔
      ∀ c ∈ calls vm w stack s msg, ∀ a offset size, c.call = .copyCode a offset size →
        c.state.host.NothingToFetch w a := by
  refine forall₂_congr fun c _ => ?_
  refine forall₄_congr fun a offset size _ => ?_
  exact WeakEvmHost.copyCode_eq_iff

/-- Otherwise the process ends. -/
theorem execMsg_eq_none_of_copyCode {vm : Vm} {w : IAcnGettable} {stack : ℕ} {s : State}
    {msg : Message} {c : Made} (hc : c ∈ calls vm w stack s msg) (h : ¬c.CopiesCode w) :
    execMsg vm w stack s msg = none := by
  by_contra hreturns
  have hanswer := isSome_answer_of_mem_calls (Option.isSome_iff_ne_none.2 hreturns) c hc
  refine h fun a offset size hcall => ?_
  rw [WeakEvmHost.copyCode_eq_iff]
  by_contra hfetch
  rw [hcall, answer, WeakEvmHost.copyCode_eq_none_iff.2 hfetch] at hanswer
  cases hanswer

/-- `PUSH1 1 PUSH1 0 PUSH1 0 PUSH1 3 EXTCODECOPY STOP`. -/
def copierCode : Bytes := [0x60, 1, 0x60, 0, 0x60, 0, 0x60, 3, 0x3c, 0]

/-- A world with the code above at `2`, and another account at `3`. -/
def copierWorld : IAcnGettable := fun a =>
  if a = makeAddress 2 then some { code := copierCode }
  else if a = makeAddress 3 then some { code := [0] }
  else none

omit [Keccak] in
/-- A transaction calls the contract at `2`, which copies from `3`: the process ends. -/
theorem not_copiesCode :
    let _ : Keccak := Sponge.keccak
    let vm := baseline .prague failureResult
    let s : State := ⟨0, .init⟩
    let msg := txToEvmcMsg callTx
    (¬∀ c ∈ calls vm copierWorld 1 s msg, c.CopiesCode copierWorld) ∧
      execMsg vm copierWorld 1 s msg = none := by
  intro _ vm s msg
  have hany : (calls vm copierWorld 1 s msg).any (fun c =>
      match c.call with
      | .copyCode a offset size => (c.state.host.copyCode copierWorld a offset size).isNone
      | _ => false) = true := by decide +kernel
  obtain ⟨c, hc, hnone⟩ := List.any_eq_true.1 hany
  have hbad : ¬c.CopiesCode copierWorld := by
    intro hcopies
    cases hcall : c.call with
    | copyCode a offset size =>
      rw [hcall] at hnone
      dsimp only at hnone
      rw [hcopies a offset size hcall] at hnone
      cases hnone
    | _ =>
      rw [hcall] at hnone
      cases hnone
  exact ⟨fun h => hbad (h c hc), execMsg_eq_none_of_copyCode hc hbad⟩

end Evm

end WeakChain
