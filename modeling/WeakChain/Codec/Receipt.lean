import WeakChain.Exec.Deploy
import WeakChain.Exec.PyResult
import WeakChain.Rpc.Formats
import WeakChain.Rpc.Lookup

/-!
# The JSON of a receipt

`toJson` and `fromJson` of a receipt look at different things.  The writer shows the result of a
Python transaction as a value and a log if there is a result, and in hexadecimal if it is empty; the
reader asks for a value and a log whenever the transaction is one of Python that succeeded.  So the
receipt of a Python transaction with an empty result cannot be read.

`TxReceipt.roundTrips_iff` says which of the receipts that `executeBlk` makes can be read.
-/

namespace WeakChain

open PyTxExecutor (resultText returned Refused)

/-- `value_to<bool>`. -/
def Json.valueToBool : Json → Option Bool
  | .bool b => some b
  | _ => none

namespace TxReceipt

section RoundTrip

variable [BoostJson] [BoostJsonSerialize]

omit [BoostJson] in
/-- `TxReceipt::fromJson`, into a fresh one; nothing if it returns `false`. -/
def fromJson (v : Json) : Option TxReceipt := do
  let ok ← (← v.at (ascii "ok")).valueToBool
  let o ← v.asObject
  let type ←
    if Json.contains o (ascii "type") then Tx.typeFromString (← (← v.at (ascii "type")).asString)
    else some .evm
  if ok then
    if type = .python then
      -- the value and the log become a text again
      let result ← v.at (ascii "result")
      let log ← v.at (ascii "log")
      return ⟨ok, BoostJsonSerialize.serialize
        (.object [(ascii "result", result), (ascii "log", log)]), type⟩
    else
      let s ← valueToString (← v.at (ascii "result"))
      return ⟨ok, ← fromHexBytes s, type⟩
  else return ⟨ok, [], type⟩

/-- The receipt is read back from its JSON. -/
def ReadsBack (r : TxReceipt) : Prop := r.toJson.bind fromJson = some r

/-- A receipt with the same JSON is read back from it. -/
def ReadsBackInJson (r : TxReceipt) : Prop :=
  ∃ v r', r.toJson = some v ∧ fromJson v = some r' ∧ r'.toJson = some v

omit [BoostJsonSerialize] in
/-- The value and the log in a text. -/
def parseResult (s : Bytes) : Option (Json × Json) := do
  let o ← (← BoostJson.parse s).asObject
  let result ← (Json.object o).at (ascii "result")
  let log ← (Json.object o).at (ascii "log")
  return (result, log)

/-- A receipt that can be read back is. -/
theorem ReadsBack.inJson {r : TxReceipt} (h : r.ReadsBack) : r.ReadsBackInJson := by
  obtain ⟨v, hv, hr⟩ := Option.bind_eq_some_iff.1 h
  exact ⟨v, r, hv, hr, hv⟩

theorem readsBack_failed (type : TxType) : (failed type).ReadsBack := by
  cases type with
  | evm => rfl
  | data => rfl
  | python => rfl

theorem readsBack_succeeded {type : TxType} (h : type ≠ .python) (s : Bytes) :
    (succeeded s type).ReadsBack := by
  have hhex : fromHexBytes (hex s) = some s :=
    Rpc.fromHexBytes_of_hexText (.inl (Rpc.hexDigits_hex s))
  have hjson : (succeeded s type).toJson =
      some (.object ((succeeded s type).resultToJson (.string (hex s)))) :=
    if_neg fun hpython => h hpython.1
  have hread : fromJson (.object ((succeeded s type).resultToJson (.string (hex s)))) =
      (fromHexBytes (hex s)).bind fun s => some (succeeded s type) := by
    cases type with
    | evm => rfl
    | data => rfl
    | python => exact absurd rfl h
  rw [ReadsBack, hjson, Option.bind_some, hread, hhex, Option.bind_some]

/-- An empty result of Python cannot be read: there is no log. -/
theorem not_readsBackInJson_nil : ¬(succeeded [] .python).ReadsBackInJson := by
  rintro ⟨v, r', hv, hr, -⟩
  obtain rfl := Option.some.inj hv
  cases hr

omit [BoostJsonSerialize] in
theorem toJson_python {s : Bytes} (hs : s ≠ []) :
    (succeeded s .python).toJson = (parseResult s).map fun p =>
      .object ((succeeded s .python).resultToJson p.1 ++ [(ascii "log", p.2)]) := by
  rw [toJson, if_pos ⟨rfl, hs⟩, parseResult]
  simp only [Option.bind_eq_bind, Option.map_bind, Function.comp_def, Option.pure_def,
    Option.map_some]
  rfl

omit [BoostJson] in
/-- A result of Python is read as the text of its value and its log. -/
theorem fromJson_python (s : Bytes) (p : Json × Json) :
    fromJson (.object ((succeeded s .python).resultToJson p.1 ++ [(ascii "log", p.2)])) =
      some (succeeded (resultText p) .python) := rfl

theorem readsBack_python_iff {s : Bytes} : (succeeded s .python).ReadsBack ↔
    s ≠ [] ∧ ∃ p, parseResult s = some p ∧ resultText p = s := by
  by_cases hs : s = []
  · subst hs
    exact iff_of_false (fun h => not_readsBackInJson_nil h.inJson) fun h => h.1 rfl
  · rw [ReadsBack, toJson_python hs, ne_eq, and_iff_right hs]
    cases parseResult s with
    | none => exact iff_of_false nofun nofun
    | some p =>
      simp only [Option.map_some, Option.bind_some, fromJson_python, Option.some.injEq,
        exists_eq_left']
      exact ⟨congrArg TxReceipt.result, congrArg (succeeded · .python)⟩

theorem readsBackInJson_python_iff {s : Bytes} : (succeeded s .python).ReadsBackInJson ↔
    s ≠ [] ∧ ∃ p, parseResult s = some p ∧
      resultText p ≠ [] ∧ parseResult (resultText p) = some p := by
  by_cases hs : s = []
  · subst hs
    exact iff_of_false not_readsBackInJson_nil fun h => h.1 rfl
  · rw [ReadsBackInJson, toJson_python hs, ne_eq, and_iff_right hs]
    cases parseResult s with
    | none => exact iff_of_false (fun ⟨_, _, h, _⟩ => nomatch h) nofun
    | some p =>
      simp only [Option.map_some, Option.some.injEq, exists_and_left, exists_eq_left',
        fromJson_python]
      by_cases hp : resultText p = []
      · -- a receipt with an empty result has no log
        rw [hp]
        refine iff_of_false (fun h => ?_) fun h => h.1 rfl
        have hlength := congrArg List.length (Json.object.inj (Option.some.inj h))
        simp [resultToJson] at hlength
      · rw [toJson_python hp, Option.map_eq_some_iff, ne_eq, and_iff_right hp]
        constructor
        · rintro ⟨q, hq, heq⟩
          have hresult : q.1 = p.1 := Option.some.inj (congrArg (Json.at · (ascii "result")) heq)
          have hlog : q.2 = p.2 := Option.some.inj (congrArg (Json.at · (ascii "log")) heq)
          rw [hq, Prod.ext hresult hlog]
        · intro h
          exact ⟨p, h, rfl⟩

/-- The text of a value and a log is not empty and can be read, and the text of what is read is the
same. -/
def Survives (v : Json) (log : Bytes) : Prop :=
  resultText (v, .string log) ≠ [] ∧ ∃ p, parseResult (resultText (v, .string log)) = some p ∧
    resultText p = resultText (v, .string log)

/-- The text of a value and a log is not empty and can be read, and so can the text of what is read,
with the same outcome. -/
def SurvivesInJson (v : Json) (log : Bytes) : Prop :=
  resultText (v, .string log) ≠ [] ∧ ∃ p, parseResult (resultText (v, .string log)) = some p ∧
    resultText p ≠ [] ∧ parseResult (resultText p) = some p

/-- It is enough that the parser returns what has been written. -/
theorem survives_of_parse {v : Json} {log : Bytes} (hne : resultText (v, .string log) ≠ [])
    (hparse : BoostJson.parse (resultText (v, .string log)) =
      some (.object [(ascii "result", v), (ascii "log", .string log)])) :
    Survives v log ∧ SurvivesInJson v log := by
  have hread : parseResult (resultText (v, .string log)) = some (v, .string log) := by
    rw [parseResult, hparse]
    rfl
  exact ⟨⟨hne, _, hread, rfl⟩, ⟨hne, _, hread, hne, hread⟩⟩

variable [Keccak] [HashOrder Bytes32] [Pb hiPb.Acn]

omit [Keccak] [HashOrder Bytes32] [Pb hiPb.Acn] in
theorem readsBack_receiptOf {t : Tx} (h : t.type ≠ .python) (x : Option (Journal × Bytes)) :
    (receiptOf t x).ReadsBack := by
  cases x with
  | none => exact readsBack_failed t.type
  | some x => exact readsBack_succeeded h x.2

/-- The receipts of Python transactions. -/
theorem readsBack_receiptOf_python {py : PyVm} {w : IAcnGettable} {t : Tx}
    (hpython : t.type = .python) {x : Option (Journal × Bytes)}
    (hx : PyTxExecutor.executePyTx py w t = some x) :
    ((receiptOf t x).ReadsBack ↔
        Refused w t ∨ ∃ v log, returned py w t = some (v, log) ∧ Survives v log) ∧
      ((receiptOf t x).ReadsBackInJson ↔
        Refused w t ∨ ∃ v log, returned py w t = some (v, log) ∧ SurvivesInJson v log) := by
  rcases PyTxExecutor.executePyTx_cases hx with ⟨hrefused, rfl⟩ | ⟨hrefused, j, rfl⟩
  · have hback : (receiptOf t none).ReadsBack := readsBack_failed t.type
    exact ⟨iff_of_true hback (.inl hrefused), iff_of_true hback.inJson (.inl hrefused)⟩
  · rw [receiptOf, hpython, or_iff_right hrefused, or_iff_right hrefused, readsBack_python_iff,
      readsBackInJson_python_iff]
    cases hleft : returned py w t with
    | none => exact ⟨iff_of_false (fun h => h.1 rfl) nofun, iff_of_false (fun h => h.1 rfl) nofun⟩
    | some p =>
      obtain ⟨v, log⟩ := p
      have hsome (P : Json → Bytes → Prop) :
          P v log ↔ ∃ v' log', some (v, log) = some (v', log') ∧ P v' log' := by
        simp only [Option.some.injEq, Prod.mk.injEq, and_assoc, exists_eq_left', exists_and_left]
      exact ⟨hsome Survives, hsome SurvivesInJson⟩

variable [HashOrder Address] {W : Type*}

/-- **Which receipts are read back from their JSON.**  For every receipt `r` that `executeBlk` makes
with `Div2Executor`: it is read back, with its result as a text or with its result as a value, if
and only if it is not one of Python, or one that says that the transaction failed, or the method has
left a value and a log that survive. -/
theorem roundTrips_iff (e : BlkExecutor W) (d : Div2Executor) {w : W} {b : Blk} {i : ℕ} {t : Tx}
    {r : TxReceipt} (ht : (e.executeBlk w b).txs[i]? = some t)
    (hr : (e.executeBlk w b).txReceipts[i]? = some r)
    (hexec : ∃ nonce nonce', d.executeTx (e.world.getAcn w) t nonce =
      some (nonce', e.txExecutor.executeTx (e.world.getAcn w) t)) :
    (r.ReadsBack ↔ (t.type = .python → Refused (e.world.getAcn w) t ∨
        ∃ v log, returned d.py (e.world.getAcn w) t = some (v, log) ∧ Survives v log)) ∧
      (r.ReadsBackInJson ↔ (t.type = .python → Refused (e.world.getAcn w) t ∨
        ∃ v log, returned d.py (e.world.getAcn w) t = some (v, log) ∧ SurvivesInJson v log)) := by
  obtain rfl := Option.some.inj (hr.symm.trans (BlkExecutor.txReceipts_executeBlk ht))
  by_cases hpython : t.type = .python
  · obtain ⟨nonce, nonce', hexec⟩ := hexec
    rw [Div2Executor.executeTx, hpython] at hexec
    obtain ⟨x, hx, heq⟩ := Option.map_eq_some_iff.1 hexec
    rw [← (Prod.mk.inj heq).2]
    simp only [hpython, forall_const]
    exact readsBack_receiptOf_python hpython hx
  · have hback := readsBack_receiptOf hpython (e.txExecutor.executeTx (e.world.getAcn w) t)
    exact ⟨iff_of_true hback fun h => absurd h hpython,
      iff_of_true hback.inJson fun h => absurd h hpython⟩

end RoundTrip

/-! ### A contract with `init`, and one without -/

/-- `{"init": []}`. -/
def initAbi : Bytes := ascii "\x7b\"init\": []\x7d"

/-- `{"result": 1}`. -/
def oneResult : Bytes := ascii "\x7b\"result\": 1\x7d"

/-- `{"result":1,"log":""}`. -/
def oneText : Bytes := ascii "\x7b\"result\":1,\"log\":\"\"\x7d"

/-- A parser that has to parse these only. -/
@[reducible] def initJson : BoostJson where
  parse s :=
    if s = initAbi then some (.object [(ascii "init", .array [])])
    else if s = oneResult then some (.object [(ascii "result", .int64 1)])
    else if s = oneText then
      some (.object [(ascii "result", .int64 1), (ascii "log", .string [])])
    else none
  uint64OfDouble _ := none

/-- A machine that stops at once, a verifier of codes that have an `init`, and scripts that return
one. -/
def initExecutor : Div2Executor where
  vm := Evm.stopVm
  stack := 1
  py := ⟨fun _ => (0, some initAbi), [], fun _ _ => .ok (0, [], oneResult), fun _ _ => true, []⟩

/-- The deployment of a contract whose `init` returns one. -/
theorem roundTrips_iff_init :
    let _ : Keccak := Sponge.keccak
    let _ : HashOrder Address := .insertion Address
    let _ : HashOrder Bytes32 := .insertion Bytes32
    let _ : Pb hiPb.Acn := Wire.pb hiPb.Acn
    let _ : BoostJson := initJson
    let _ : BoostJsonSerialize := JsonText.serialize
    let e := BlkExecutor.inRam (PyTxExecutor.executorOf initExecutor)
    let t := Deploy.hiTx 1 "def init():\n    return 1\n" 0
    let r := succeeded oneText .python
    (e.executeBlk ⟨∅, ∅⟩ ⟨0, .zero 32, [t]⟩).txReceipts[0]? = some r ∧
      r.ReadsBack ∧ r.ReadsBackInJson := by
  intro _ _ _ _ _ _ e t r
  have hr : (e.executeBlk ⟨∅, ∅⟩ ⟨0, .zero 32, [t]⟩).txReceipts[0]? = some r := rfl
  have hreturned : returned initExecutor.py (e.world.getAcn ⟨∅, ∅⟩) t = some (.int64 1, []) := rfl
  have hne : resultText (.int64 1, .string []) ≠ [] := by decide +kernel
  obtain ⟨hsurvives, hsurvives'⟩ := survives_of_parse hne rfl
  have hiff := roundTrips_iff e initExecutor (w := ⟨∅, ∅⟩) (b := ⟨0, .zero 32, [t]⟩) (i := 0) rfl hr
    ⟨0, 0, rfl⟩
  exact ⟨hr, hiff.1.2 fun _ => .inr ⟨_, _, hreturned, hsurvives⟩,
    hiff.2.2 fun _ => .inr ⟨_, _, hreturned, hsurvives'⟩⟩

/-- The deployment of a contract without `init`: it succeeds, and the receipt cannot be read back
from its JSON. -/
theorem not_roundTrips :
    let _ : Keccak := Sponge.keccak
    let _ : HashOrder Address := .insertion Address
    let _ : HashOrder Bytes32 := .insertion Bytes32
    let _ : Pb hiPb.Acn := Wire.pb hiPb.Acn
    let _ : BoostJson := Deploy.hiJson
    let _ : BoostJsonSerialize := JsonText.serialize
    let e := BlkExecutor.inRam (PyTxExecutor.executorOf Deploy.hiExecutor)
    let t := Deploy.hiTx 1 "def hi():\n    return 123\n" 0
    let r := succeeded [] .python
    (e.executeBlk ⟨∅, ∅⟩ ⟨0, .zero 32, [t]⟩).txReceipts[0]? = some r ∧
      r.toJson.bind fromJson = none ∧ ¬r.ReadsBack ∧ ¬r.ReadsBackInJson := by
  intro _ _ _ _ _ _ e t r
  exact ⟨rfl, rfl, nofun, not_readsBackInJson_nil⟩

end TxReceipt

end WeakChain
