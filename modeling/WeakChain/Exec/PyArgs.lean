import Mathlib.Data.List.TakeWhile
import WeakChain.Core.Codec
import WeakChain.Core.Json
import WeakChain.Exec.Div2Executor
import WeakChain.Lib.HashMap

/-!
# The arguments of a method

Before a method of a Python contract is run, `checkAndPrepareArgs` compares the arguments of the
user with those that the interface (`abi`) of the contract asks for: "they should be matched
exactly".  An argument that begins with `_` is not for the user; `invokePyMethod` adds the two that
it knows.

`Matches` says without the loop which calls match, and `prepare` is `invokePyMethod` up to the point
at which the script is made.  A call is refused by an object with the key `quit`, and a user may
have an argument of this name; and the name of the method ends at its first zero.  So `exact_iff` is
what the comparison comes to.
-/

namespace WeakChain

namespace PyTxExecutor

/-! ### The interface -/

/-- An argument that begins with `_`. -/
def Special (a : Bytes) : Prop := a.head? = some 95

instance (a : Bytes) : Decidable (Special a) := inferInstanceAs (Decidable (a.head? = some 95))

/-- The arguments that the user provides. -/
def userArgs (required : List Bytes) : List Bytes := required.filter fun a => ¬Special a

theorem mem_userArgs {required : List Bytes} {a : Bytes} :
    a ∈ userArgs required ↔ a ∈ required ∧ ¬Special a := by
  simp [userArgs]

theorem userArgs_cons_of_special {a : Bytes} (h : Special a) (required : List Bytes) :
    userArgs (a :: required) = userArgs required := by
  simp [userArgs, h]

theorem userArgs_cons_of_not_special {a : Bytes} (h : ¬Special a) (required : List Bytes) :
    userArgs (a :: required) = a :: userArgs required := by
  simp [userArgs, h]

/-- An interface: the arguments of every method. -/
abbrev Abi := HashMap Bytes (List Bytes)

/-- No method has two arguments of one name. -/
def WellFormed (abi : Abi) : Prop := ∀ m required, abi.find? m = some required → required.Nodup

theorem wellFormed_of_entries {abi : Abi} (h : ∀ e ∈ abi.entries, e.2.Nodup) : WellFormed abi :=
  fun m required hfind => h (m, required) (HashMap.find?_eq_some_iff.1 hfind)

/-- The interface, as it is stored. -/
def abiJson (abi : Abi) : List (Bytes × Json) :=
  abi.entries.map fun e => (e.1, .array (e.2.map .string))

theorem at_abiJson (abi : Abi) (m : Bytes) :
    (Json.object (abiJson abi)).at m =
      (abi.find? m).map fun required => .array (required.map .string) := by
  simp only [Json.at, abiJson, HashMap.find?, List.find?_map, Option.map_map]
  rfl

/-! ### The comparison -/

theorem takeArgs_cons (a : Bytes) (required : List Bytes) (unused : List (Bytes × Json)) :
    takeArgs ((a :: required).map .string) unused =
      if Special a then takeArgs (required.map .string) unused
      else if a ∈ Json.keys unused then takeArgs (required.map .string) (Json.erase unused a)
      else some (.error a) := by
  simp only [← Json.contains_iff]
  rfl

/-- The loop takes each argument of the user once. -/
theorem perm_of_takeArgs {required : List Bytes} {unused rest : List (Bytes × Json)}
    (h : takeArgs (required.map .string) unused = some (.ok rest)) :
    (Json.keys unused).Perm (userArgs required ++ Json.keys rest) := by
  induction required generalizing unused with
  | nil =>
    cases h
    exact .refl _
  | cons a required ih =>
    rw [takeArgs_cons] at h
    split_ifs at h with hspecial hmem
    · rw [userArgs_cons_of_special hspecial]
      exact ih h
    · rw [userArgs_cons_of_not_special hspecial]
      exact (List.perm_cons_erase hmem).trans
        (((Json.keys_erase unused a).symm.trans (ih h)).cons a)
    · cases h

/-- It succeeds if they are all there. -/
theorem exists_takeArgs {required : List Bytes} {unused : List (Bytes × Json)} {ks : List Bytes}
    (h : (Json.keys unused).Perm (userArgs required ++ ks)) :
    ∃ rest, takeArgs (required.map .string) unused = some (.ok rest) := by
  induction required generalizing unused with
  | nil => exact ⟨unused, rfl⟩
  | cons a required ih =>
    rw [takeArgs_cons]
    by_cases hspecial : Special a
    · rw [userArgs_cons_of_special hspecial] at h
      rw [if_pos hspecial]
      exact ih h
    · rw [userArgs_cons_of_not_special hspecial] at h
      have hmem : a ∈ Json.keys unused := h.symm.subset List.mem_cons_self
      have hrest : ((Json.keys unused).erase a).Perm (userArgs required ++ ks) :=
        ((List.perm_cons_erase hmem).symm.trans h).cons_inv
      rw [if_neg hspecial, if_pos hmem]
      exact ih ((Json.keys_erase unused a).trans hrest)

/-- The loop always comes to an end. -/
theorem exists_takeArgs_eq (required : List Bytes) (unused : List (Bytes × Json)) :
    ∃ r, takeArgs (required.map .string) unused = some r := by
  induction required generalizing unused with
  | nil => exact ⟨_, rfl⟩
  | cons a required ih =>
    rw [takeArgs_cons]
    split_ifs
    · exact ih unused
    · exact ih _
    · exact ⟨_, rfl⟩

/-- The arguments of the user are those that are asked for, each of them once. -/
theorem takeArgs_eq_nil_iff {required : List Bytes} {args : List (Bytes × Json)} :
    takeArgs (required.map .string) args = some (.ok []) ↔
      (Json.keys args).Perm (userArgs required) := by
  constructor
  · intro h
    simpa [Json.keys] using perm_of_takeArgs h
  · intro h
    have hperm : (Json.keys args).Perm (userArgs required ++ []) := by rwa [List.append_nil]
    obtain ⟨rest, hrest⟩ := exists_takeArgs hperm
    have hnil : (Json.keys rest).Perm [] :=
      (List.perm_append_left_iff _).1 ((perm_of_takeArgs hrest).symm.trans hperm)
    rw [hrest, List.map_eq_nil_iff.1 hnil.eq_nil]

/-- A call of the method `m` with the arguments `args`; the keys of an object are different. -/
structure Calls (invoke : List (Bytes × Json)) (m : Bytes) (args : List (Bytes × Json)) : Prop where
  at_method : (Json.object invoke).at (ascii "method") = some (.string m)
  at_args : ((Json.object invoke).at (ascii "args")).getD (.object []) = .object args
  nodup : (Json.keys args).Nodup

/-- What is asked for is what the user provides. -/
def Takes (abi : Abi) (m : Bytes) (args : List (Bytes × Json)) (required : List Bytes) : Prop :=
  abi.find? m = some required ∧ (Json.keys args).Perm (userArgs required)

section Prepare

variable [BoostJsonSerialize] {abi : Abi} {invoke args : List (Bytes × Json)} {m : Bytes}

/-- The arguments of a call that matches are those of the user. -/
theorem checkAndPrepareArgs_of_takes (h : Calls invoke m args) {required : List Bytes}
    (ht : Takes abi (cString m) args required) :
    checkAndPrepareArgs invoke (abiJson abi) = some args := by
  rw [checkAndPrepareArgs, h.at_method]
  simp only [Json.asString, Option.bind_eq_bind, Option.bind_some, at_abiJson, ht.1,
    Option.map_some, Json.asArray, h.at_args, Json.asObject, takeArgs_eq_nil_iff.2 ht.2]
  rfl

/-- Any other call is refused. -/
theorem checkAndPrepareArgs_of_not_takes (h : Calls invoke m args)
    (hn : ∀ required, ¬Takes abi (cString m) args required) :
    ∃ s, checkAndPrepareArgs invoke (abiJson abi) = some (quit s) := by
  rw [checkAndPrepareArgs, h.at_method]
  simp only [Json.asString, Option.bind_eq_bind, Option.bind_some, at_abiJson]
  cases hfind : abi.find? (cString m) with
  | none => exact ⟨_, rfl⟩
  | some required =>
    simp only [Option.map_some, Json.asArray, Option.bind_some, h.at_args, Json.asObject]
    obtain ⟨r, hr⟩ := exists_takeArgs_eq required args
    rw [hr]
    cases r with
    | error a => exact ⟨_, rfl⟩
    | ok unused =>
      have hunused : unused ≠ [] := by
        rintro rfl
        exact hn required ⟨hfind, takeArgs_eq_nil_iff.1 hr⟩
      simp only [Option.bind_some, if_pos hunused]
      exact ⟨_, rfl⟩

end Prepare

/-! ### What the script is given -/

section Script

variable [Keccak] [BoostJsonSerialize]

/-- The method of the script and its arguments, or the object that says why there is none;
nothing if `invokePyMethod` throws. -/
def prepare (invoke abi : List (Bytes × Json)) (t : Tx) (storage : Json) :
    Option (Except (List (Bytes × Json)) (Bytes × List (Bytes × Json))) := do
  let args ← checkAndPrepareArgs invoke abi
  if Json.contains args (ascii "quit") then some (.error args)
  else
    let method := cString (← (← (Json.object invoke).at (ascii "method")).asString)
    let requiredArgs ← (← (Json.object abi).at method).asArray
    let args ← addTxContextToArgsMaybe requiredArgs args t
    let args :=
      if ← containsString requiredArgs (ascii "_storage") then
        Json.assign args (ascii "_storage") storage
      else args
    some (.ok (method, args))

/-- `invokePyMethod` runs a script with what is prepared, or refuses. -/
theorem invokePyMethod_eq [BoostJson] (py : PyVm) (invoke : List (Bytes × Json)) (pyCode : Bytes)
    (abi : List (Bytes × Json)) (t : Tx) (storage : Json) :
    invokePyMethod py invoke pyCode abi t storage = (prepare invoke abi t storage).map fun
      | .error r => r
      | .ok (method, args) =>
        readResult py storage (py.exec (makePyTxCode pyCode py.invokeTemplate method)
          (BoostJsonSerialize.serialize (.object args))) := by
  simp only [invokePyMethod, prepare, Option.bind_eq_bind, Option.map_bind]
  refine congrArg _ (funext fun args => ?_)
  simp only [Function.comp_apply]
  split_ifs
  · rfl
  · simp only [Option.map_bind, Function.comp_def, Option.map_some]

/-- The value of `_tx_context`. -/
def txContext (t : Tx) : Json :=
  .object [
    (ascii "to", .string (addressToString t.toAddr)),
    (ascii "from", .string (addressToString t.fromAddr)),
    (ascii "timestamp", .int64 t.timestamp),
    (ascii "hash", .string (hashToString t.hash))]

/-- The arguments of the user, and the special ones that are asked for. -/
def withSpecialArgs (required : List Bytes) (args : List (Bytes × Json)) (t : Tx)
    (storage : Json) : List (Bytes × Json) :=
  let args :=
    if ascii "_tx_context" ∈ required then Json.assign args (ascii "_tx_context") (txContext t)
    else args
  if ascii "_storage" ∈ required then Json.assign args (ascii "_storage") storage else args

omit [BoostJsonSerialize] in
theorem nodup_withSpecialArgs {args : List (Bytes × Json)} (h : (Json.keys args).Nodup)
    (required : List Bytes) (t : Tx) (storage : Json) :
    (Json.keys (withSpecialArgs required args t storage)).Nodup := by
  have hassign {o : List (Bytes × Json)} (ho : (Json.keys o).Nodup) (a : Bytes) (v : Json) :
      (Json.keys (if a ∈ required then Json.assign o a v else o)).Nodup := by
    split_ifs
    · exact Json.nodup_keys_assign o a v ho
    · exact ho
  exact hassign (hassign h _ _) _ _

omit [Keccak] [BoostJsonSerialize] in
theorem containsString_map (required : List Bytes) (a : Bytes) :
    containsString (required.map .string) a = some (decide (a ∈ required)) := by
  induction required with
  | nil => rfl
  | cons b required ih =>
    simp only [List.map_cons, containsString, Json.asString, Option.bind_eq_bind,
      Option.bind_some, ih]
    by_cases h : b = a
    · simp [h]
    · simp [h, Ne.symm h]

omit [BoostJsonSerialize] in
theorem addTxContextToArgsMaybe_map (required : List Bytes) (args : List (Bytes × Json)) (t : Tx) :
    addTxContextToArgsMaybe (required.map .string) args t =
      some (if ascii "_tx_context" ∈ required then
        Json.assign args (ascii "_tx_context") (txContext t) else args) := by
  rw [addTxContextToArgsMaybe, containsString_map]
  by_cases h : ascii "_tx_context" ∈ required
  · simp only [h, decide_true, Option.bind_eq_bind, Option.bind_some, if_pos]
    rfl
  · simp [h]

variable {abi : Abi} {invoke args : List (Bytes × Json)} {m : Bytes}

theorem prepare_of_takes (h : Calls invoke m args) {required : List Bytes}
    (ht : Takes abi (cString m) args required) (t : Tx) (storage : Json) :
    prepare invoke (abiJson abi) t storage =
      some (if ascii "quit" ∈ Json.keys args then .error args
        else .ok (cString m, withSpecialArgs required args t storage)) := by
  rw [prepare, checkAndPrepareArgs_of_takes h ht]
  simp only [Option.bind_eq_bind, Option.bind_some, Json.contains_iff]
  split_ifs with hquit
  · rfl
  · simp only [h.at_method, Json.asString, Option.bind_some, at_abiJson, ht.1, Option.map_some,
      Json.asArray, addTxContextToArgsMaybe_map, containsString_map, decide_eq_true_eq]
    rfl

theorem prepare_of_not_takes (h : Calls invoke m args)
    (hn : ∀ required, ¬Takes abi (cString m) args required) (t : Tx) (storage : Json) :
    ∃ s, prepare invoke (abiJson abi) t storage = some (.error (quit s)) := by
  obtain ⟨s, hs⟩ := checkAndPrepareArgs_of_not_takes h hn
  refine ⟨s, ?_⟩
  rw [prepare, hs]
  rfl

/-- A method is run if what it asks for is what the user provides, and none of this has the key by
which calls are refused. -/
theorem prepare_eq_ok_iff (h : Calls invoke m args) {t : Tx} {storage : Json} {method : Bytes}
    {passed : List (Bytes × Json)} :
    prepare invoke (abiJson abi) t storage = some (.ok (method, passed)) ↔
      method = cString m ∧ ascii "quit" ∉ Json.keys args ∧
        ∃ required, Takes abi (cString m) args required ∧
          passed = withSpecialArgs required args t storage := by
  constructor
  · intro hok
    by_cases ht : ∃ required, Takes abi (cString m) args required
    · obtain ⟨required, ht⟩ := ht
      rw [prepare_of_takes h ht] at hok
      split_ifs at hok with hquit
      · cases hok
      · cases hok
        exact ⟨rfl, hquit, required, ht, rfl⟩
    · obtain ⟨s, hs⟩ := prepare_of_not_takes h (not_exists.1 ht) t storage
      rw [hs] at hok
      cases hok
  · rintro ⟨rfl, hquit, required, ht, rfl⟩
    rw [prepare_of_takes h ht, if_neg hquit]

/-! ### Which calls match -/

omit [Keccak] [BoostJsonSerialize] in
/-- The arguments have the names of those that the method asks for and that do not begin
with `_`. -/
def Matches (abi : Abi) (m : Bytes) (args : List (Bytes × Json)) : Prop :=
  ∃ required, abi.find? m = some required ∧
    ∀ k, k ∈ Json.keys args ↔ k ∈ required ∧ ¬Special k

omit [Keccak] [BoostJsonSerialize] in
theorem matches_iff (hw : WellFormed abi) (hargs : (Json.keys args).Nodup) :
    Matches abi m args ↔ ∃ required, Takes abi m args required := by
  refine exists_congr fun required => and_congr_right fun hfind => ?_
  have hrequired : (userArgs required).Nodup := (hw m required hfind).filter _
  rw [List.perm_ext_iff_of_nodup hargs hrequired]
  simp only [mem_userArgs]

/-- The arguments that are passed are those of the user, none of which begins with `_`, and those
special arguments that the method asks for. -/
structure Provides (required : List Bytes) (args : List (Bytes × Json)) (t : Tx) (storage : Json)
    (passed : List (Bytes × Json)) : Prop where
  at_eq : ∀ k, (Json.object passed).at k =
    if k = ascii "_storage" ∧ k ∈ required then some storage
    else if k = ascii "_tx_context" ∧ k ∈ required then some (txContext t)
    else (Json.object args).at k
  not_special : ∀ k ∈ Json.keys args, ¬Special k

/-- A method is run if and only if the call matches; it is the method of the call, and its arguments
are those of the user and the special ones that it asks for. -/
structure Exact (abi : Abi) (invoke : List (Bytes × Json)) (m : Bytes) (args : List (Bytes × Json))
    (t : Tx) (storage : Json) : Prop where
  runs_iff : (∃ method passed,
    prepare invoke (abiJson abi) t storage = some (.ok (method, passed))) ↔ Matches abi m args
  provides : ∀ method passed,
    prepare invoke (abiJson abi) t storage = some (.ok (method, passed)) →
      method = m ∧ ∃ required, abi.find? m = some required ∧
        Provides required args t storage passed

omit [Keccak] [BoostJsonSerialize] in
theorem at_ite_assign (required : List Bytes) (o : List (Bytes × Json)) (a : Bytes) (v : Json)
    (k : Bytes) :
    (Json.object (if a ∈ required then Json.assign o a v else o)).at k =
      if k = a ∧ k ∈ required then some v else (Json.object o).at k := by
  split_ifs with hmem hk hk
  · rw [Json.at_assign, if_pos hk.1]
  · rw [Json.at_assign, if_neg fun heq => hk ⟨heq, heq ▸ hmem⟩]
  · exact absurd (hk.1 ▸ hk.2) hmem
  · rfl

omit [BoostJsonSerialize] in
theorem provides_withSpecialArgs {required : List Bytes}
    (hperm : (Json.keys args).Perm (userArgs required)) (t : Tx) (storage : Json) :
    Provides required args t storage (withSpecialArgs required args t storage) where
  at_eq k := by
    rw [withSpecialArgs, at_ite_assign, at_ite_assign]
  not_special k hk := (mem_userArgs.1 (hperm.subset hk)).2

omit [Keccak] [BoostJsonSerialize] in
theorem cString_eq_self_iff {s : Bytes} : cString s = s ↔ 0 ∉ s := by
  rw [cString, List.takeWhile_eq_self_iff]
  simp only [decide_eq_true_eq]
  exact ⟨fun h hmem => h 0 hmem rfl, fun h x hx heq => h (heq ▸ hx)⟩

/-- **Exact matching of arguments.**  For every interface, every call and every argument object: a
method is run exactly for the calls that match, if and only if a call that matches has no argument
`quit` and no zero in the name of its method, and there is none either if the call would match with
the name ending there. -/
theorem exact_iff (hw : WellFormed abi) (h : Calls invoke m args) (t : Tx) (storage : Json) :
    Exact abi invoke m args t storage ↔
      (Matches abi m args → ascii "quit" ∉ Json.keys args ∧ 0 ∉ m) ∧
        (Matches abi (cString m) args → ascii "quit" ∉ Json.keys args → 0 ∉ m) := by
  have hruns : (∃ method passed,
      prepare invoke (abiJson abi) t storage = some (.ok (method, passed))) ↔
      Matches abi (cString m) args ∧ ascii "quit" ∉ Json.keys args := by
    rw [matches_iff hw h.nodup]
    constructor
    · rintro ⟨method, passed, hok⟩
      obtain ⟨-, hquit, required, ht, -⟩ := (prepare_eq_ok_iff h).1 hok
      exact ⟨⟨required, ht⟩, hquit⟩
    · rintro ⟨⟨required, ht⟩, hquit⟩
      exact ⟨_, _, (prepare_eq_ok_iff h).2 ⟨rfl, hquit, required, ht, rfl⟩⟩
  constructor
  · intro hexact
    have hname : Matches abi (cString m) args → ascii "quit" ∉ Json.keys args → 0 ∉ m := by
      intro hm hquit
      obtain ⟨method, passed, hok⟩ := hruns.2 ⟨hm, hquit⟩
      rw [← cString_eq_self_iff, ← ((prepare_eq_ok_iff h).1 hok).1]
      exact (hexact.provides method passed hok).1
    refine ⟨fun hm => ?_, hname⟩
    obtain ⟨hm', hquit⟩ := hruns.1 (hexact.runs_iff.2 hm)
    exact ⟨hquit, hname hm' hquit⟩
  · rintro ⟨hmatch, hname⟩
    refine ⟨hruns.trans ⟨fun ⟨hm, hquit⟩ => ?_, fun hm => ?_⟩, fun method passed hok => ?_⟩
    · rwa [cString_eq_self_iff.2 (hname hm hquit)] at hm
    · obtain ⟨hquit, hzero⟩ := hmatch hm
      exact ⟨by rwa [cString_eq_self_iff.2 hzero], hquit⟩
    · obtain ⟨rfl, hquit, required, ht, rfl⟩ := (prepare_eq_ok_iff h).1 hok
      have hm := (matches_iff hw h.nodup).2 ⟨required, ht⟩
      have heq : cString m = m := cString_eq_self_iff.2 (hname hm hquit)
      rw [heq] at ht
      exact ⟨heq, required, ht.1, provides_withSpecialArgs ht.2 t storage⟩

omit [Keccak] [BoostJsonSerialize] in
/-- A method that asks for two arguments of the user and for the storage. -/
theorem exact_iff_set :
    let _ : Keccak := Sponge.keccak
    let _ : BoostJsonSerialize := JsonText.serialize
    let abi : Abi := ⟨[(ascii "set", [ascii "key", ascii "value", ascii "_storage"])], by decide⟩
    let args := [(ascii "value", .int64 1), (ascii "key", .string (ascii "x"))]
    let invoke := [(ascii "method", .string (ascii "set")), (ascii "args", .object args)]
    let t := Tx.create (makeAddress 1) (makeAddress 2) [] 123 0
    Exact abi invoke (ascii "set") args t (.object []) := by
  intro _ _ abi args invoke t
  have hw : WellFormed abi := wellFormed_of_entries (by decide)
  refine (exact_iff hw ⟨rfl, rfl, by decide⟩ t _).2 ⟨fun _ => ?_, fun _ _ => ?_⟩ <;> decide

omit [Keccak] [BoostJsonSerialize] in
/-- The only argument of a method is called `quit`: the call is refused. -/
theorem not_exact :
    let _ : Keccak := Sponge.keccak
    let _ : BoostJsonSerialize := JsonText.serialize
    let abi : Abi := ⟨[(ascii "f", [ascii "quit"])], by decide⟩
    let args := [(ascii "quit", .int64 1)]
    let invoke := [(ascii "method", .string (ascii "f")), (ascii "args", .object args)]
    let t := Tx.create (makeAddress 1) (makeAddress 2) [] 123 0
    WellFormed abi ∧ Calls invoke (ascii "f") args ∧
      ¬Exact abi invoke (ascii "f") args t (.object []) := by
  intro _ _ abi args invoke t
  have hcalls : Calls invoke (ascii "f") args := ⟨rfl, rfl, by decide⟩
  have hmatches : Matches abi (ascii "f") args := by
    refine ⟨[ascii "quit"], rfl, fun k => ?_⟩
    have hspecial : k = ascii "quit" → ¬Special k := by
      rintro rfl
      decide
    simpa [args, Json.keys] using hspecial
  refine ⟨wellFormed_of_entries (by decide), hcalls, fun h => ?_⟩
  obtain ⟨method, passed, hok⟩ := h.runs_iff.2 hmatches
  exact ((prepare_eq_ok_iff hcalls).1 hok).2.1 List.mem_cons_self

end Script

end PyTxExecutor

end WeakChain
