import WeakChain.Exec.PyFailure

/-!
# What a Python transaction returns

A method leaves a value and a log.  `returned` is what is left by the method of a transaction: the
method that is called, or the `init` of a contract that is deployed.  `executePyTx` makes a text of
it; where nothing is left, the text is empty, but the transaction still counts as executed
(`executePyTx_cases`).
-/

namespace WeakChain

namespace PyTxExecutor

section Returned

variable [BoostJson]

/-- What a script leaves: the value and the log; nothing if it fails. -/
def leaves : Except Bytes (Int32 × Bytes × Bytes) → Option (Json × Bytes)
  | .error _ => none
  | .ok (exitCode, output, resultJson) =>
    if exitCode ≠ 0 then none
    else ((BoostJson.parse resultJson).bind Json.asObject).map fun result =>
      (((Json.object result).at (ascii "result")).getD .null, output)

theorem leaves_eq_none_iff {r : Except Bytes (Int32 × Bytes × Bytes)} :
    leaves r = none ↔ RunFails r := by
  rcases r with what | ⟨exitCode, output, resultJson⟩
  · exact iff_of_true rfl trivial
  · by_cases hcode : exitCode ≠ 0
    · exact iff_of_true (if_pos hcode) (.inl hcode)
    · rw [leaves, if_neg hcode, Option.map_eq_none_iff, RunFails, or_iff_right hcode]

/-- The object for a method that has left something. -/
def resultObject (v : Json) (changed : Option Json) (log : Bytes) : List (Bytes × Json) :=
  [(ascii "result", v)] ++ (changed.map fun s => (ascii "storage", s)).toList ++
    [(ascii "log", .string log)]

theorem readResult_of_leaves (py : PyVm) (storage : Json)
    {r : Except Bytes (Int32 × Bytes × Bytes)} {v : Json} {log : Bytes}
    (h : leaves r = some (v, log)) :
    ∃ changed, readResult py storage r = resultObject v changed log := by
  rcases r with what | ⟨exitCode, output, resultJson⟩
  · cases h
  · rw [leaves] at h
    split_ifs at h with hcode
    obtain ⟨result, hresult, heq⟩ := Option.map_eq_some_iff.1 h
    cases heq
    obtain ⟨w, hparse, hobject⟩ := Option.bind_eq_some_iff.1 hresult
    rw [readResult, if_neg hcode, hparse, Option.getD_some, hobject]
    exact ⟨_, rfl⟩

variable [Keccak] [BoostJsonSerialize]

/-- What a method leaves; nothing if it is not run. -/
def leftBy (py : PyVm) (invoke : List (Bytes × Json)) (pyCode : Bytes) (abi : List (Bytes × Json))
    (t : Tx) (storage : Json) : Option (Json × Bytes) :=
  match prepare invoke abi t storage with
  | some (.ok (method, args)) =>
    leaves (py.exec (makePyTxCode pyCode py.invokeTemplate method)
      (BoostJsonSerialize.serialize (.object args)))
  | _ => none

/-- What is left by the method of a transaction. -/
def returned (py : PyVm) (w : IAcnGettable) (t : Tx) : Option (Json × Bytes) :=
  if t.toAddr = .zero 20 then do
    let abi ← (← BoostJson.parse (← verifyPyContract py t.data)).asObject
    if Json.contains abi (ascii "init") then
      leftBy py [(ascii "method", .string (ascii "init"))] t.data abi t (.object [])
    else none
  else do
    let invoke ← invokeOf t
    let a ← w t.toAddr
    let (abi, storage) ← contractOf a invoke
    leftBy py invoke a.code abi t storage

variable {py : PyVm} {w : IAcnGettable} {t : Tx}

omit [BoostJson] in
/-- A call that is refused has the key of a failure. -/
theorem contains_quit_of_prepare {invoke abi r : List (Bytes × Json)} {storage : Json}
    (h : prepare invoke abi t storage = some (.error r)) :
    Json.contains r (ascii "quit") = true := by
  rw [prepare] at h
  obtain ⟨args, -, h⟩ := Option.bind_eq_some_iff.1 h
  split_ifs at h with hquit
  · cases h
    exact hquit
  · simp [Option.bind_eq_some_iff] at h

/-- A method fails, or something is left. -/
theorem invokePyMethod_cases {invoke abi r : List (Bytes × Json)} {pyCode : Bytes} {storage : Json}
    (h : invokePyMethod py invoke pyCode abi t storage = some r) :
    (leftBy py invoke pyCode abi t storage = none ∧ Json.contains r (ascii "quit") = true) ∨
      ∃ v log changed, leftBy py invoke pyCode abi t storage = some (v, log) ∧
        r = resultObject v changed log := by
  rw [invokePyMethod_eq] at h
  obtain ⟨p, hprepare, rfl⟩ := Option.map_eq_some_iff.1 h
  rw [leftBy, hprepare]
  rcases p with r | ⟨method, args⟩
  · exact .inl ⟨rfl, contains_quit_of_prepare hprepare⟩
  · dsimp only
    cases hleft : leaves (py.exec (makePyTxCode pyCode py.invokeTemplate method)
        (BoostJsonSerialize.serialize (.object args))) with
    | none =>
      obtain ⟨s, hs⟩ : ∃ s, readResult py storage _ = quit s :=
        readResult_of_runFails (leaves_eq_none_iff.1 hleft)
      refine .inl ⟨rfl, ?_⟩
      rw [hs]
      rfl
    | some p =>
      obtain ⟨changed, hread⟩ := readResult_of_leaves py storage hleft
      exact .inr ⟨p.1, p.2, changed, rfl, hread⟩

/-- The text of what is left. -/
def resultText (p : Json × Json) : Bytes :=
  BoostJsonSerialize.serialize (.object [(ascii "result", p.1), (ascii "log", p.2)])

/-- The result of a transaction: what is left, or nothing. -/
def resultOf (left : Option (Json × Bytes)) : Bytes :=
  (left.map fun p => resultText (p.1, .string p.2)).getD []

/-- The result of a deployment. -/
theorem deployPyContract_result (hto : t.toAddr = .zero 20) {a : Acn} {res : Bytes}
    (h : deployPyContract py t = some (a, res)) : res = resultOf (returned py w t) := by
  rw [returned, if_pos hto]
  rw [deployPyContract] at h
  cases hverify : verifyPyContract py t.data with
  | none =>
    rw [hverify] at h
    cases h
    rfl
  | some abi =>
    rw [hverify] at h
    obtain ⟨v, hparse, h⟩ := Option.bind_eq_some_iff.1 h
    obtain ⟨abiJson, hobject, h⟩ := Option.bind_eq_some_iff.1 h
    simp only [Option.bind_eq_bind, Option.bind_some, hparse, hobject]
    split_ifs at h ⊢ with hinit
    · obtain ⟨r, hinvoke, h⟩ := Option.bind_eq_some_iff.1 h
      rcases invokePyMethod_cases hinvoke with ⟨hleft, hquit⟩ | ⟨v, log, changed, hleft, rfl⟩
      · rw [hleft]
        rw [if_pos hquit] at h
        cases h
        rfl
      · rw [hleft]
        cases changed with
        | none =>
          cases h
          rfl
        | some storage =>
          cases h
          rfl
    · cases h
      rfl

/-- The result of a call. -/
theorem invokePyContract_result (hto : t.toAddr ≠ .zero 20) {invoke : List (Bytes × Json)}
    (hinvoke : invokeOf t = some invoke) {a : Acn} (hacn : w t.toAddr = some a)
    {x : Option Acn} {res : Bytes} (h : invokePyContract py a invoke t = some (x, res)) :
    res = resultOf (returned py w t) := by
  rw [returned, if_neg hto]
  simp only [hinvoke, hacn, Option.bind_eq_bind, Option.bind_some]
  cases hcontract : contractOf a invoke with
  | none =>
    rw [invokePyContract_of_noMethod hinvoke hcontract] at h
    cases h
    rfl
  | some p =>
    obtain ⟨abi, storage⟩ := p
    obtain ⟨text, rest, heq⟩ := invokePyContract_of_contract py t hcontract
    rw [heq] at h
    obtain ⟨r, hmethod, h⟩ := Option.bind_eq_some_iff.1 h
    rw [Option.bind_some]
    rcases invokePyMethod_cases hmethod with ⟨hleft, hquit⟩ | ⟨v, log, changed, hleft, rfl⟩
    · rw [hleft]
      rw [Json.contains_eq] at hquit
      obtain ⟨q, hq⟩ := Option.isSome_iff_exists.1 hquit
      rw [hq] at h
      obtain ⟨-, -, h⟩ := Option.bind_eq_some_iff.1 h
      cases h
      rfl
    · rw [hleft]
      cases changed with
      | none =>
        cases h
        rfl
      | some storage =>
        cases h
        rfl

variable [HashOrder Bytes32] [Pb hiPb.Acn]

/-- A call that counts as one that failed: its object is malformed or there is no account. -/
def Refused (w : IAcnGettable) (t : Tx) : Prop :=
  t.toAddr ≠ .zero 20 ∧ (invokeOf t = none ∨ w t.toAddr = none)

/-- A transaction counts as one that failed, or its result is what is left. -/
theorem executePyTx_cases {x : Option (Journal × Bytes)} (h : executePyTx py w t = some x) :
    (Refused w t ∧ x = none) ∨
      ¬Refused w t ∧ ∃ j, x = some (j, resultOf (returned py w t)) := by
  by_cases hto : t.toAddr = .zero 20
  · refine .inr ⟨fun hrefused => hrefused.1 hto, ?_⟩
    rw [executePyTx, if_pos hto] at h
    obtain ⟨⟨a, res⟩, hdeploy, h⟩ := Option.bind_eq_some_iff.1 h
    cases h
    rw [deployPyContract_result hto hdeploy]
    exact ⟨_, rfl⟩
  · cases hinvoke : invokeOf t with
    | none =>
      rw [executePyTx_of_malformed hto hinvoke] at h
      exact .inl ⟨⟨hto, .inl hinvoke⟩, (Option.some.inj h).symm⟩
    | some invoke =>
      rw [executePyTx_of_invokeOf hto hinvoke] at h
      cases hacn : w t.toAddr with
      | none =>
        rw [hacn] at h
        exact .inl ⟨⟨hto, .inr hacn⟩, (Option.some.inj h).symm⟩
      | some a =>
        rw [hacn] at h
        obtain ⟨⟨a', res⟩, hcall, h⟩ := Option.map_eq_some_iff.1 h
        refine .inr ⟨fun hrefused => ?_, ?_⟩
        · rcases hrefused.2 with hnone | hnone
          · exact Option.some_ne_none _ (hinvoke.symm.trans hnone)
          · exact Option.some_ne_none _ (hacn.symm.trans hnone)
        · rw [← h, invokePyContract_result hto hinvoke hacn hcall]
          exact ⟨_, rfl⟩

end Returned

end PyTxExecutor

end WeakChain
