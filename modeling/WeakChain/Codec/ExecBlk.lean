import WeakChain.Codec.Tx

/-!
# The codecs of an executed block

An executed block is stored in protobuf: a block, a list of receipts and a list of lists of changes,
one for each transaction.  What the parsers have produced is read back
(`ExecBlk.readsBack_stored`), with empty journals in their places.

In JSON it is shown only.  A block cannot be put into JSON if one of its receipts is that of a
Python transaction whose result is not an object with a result and a log (`isSome_toJson_iff`).
-/

namespace WeakChain

namespace ExecBlk

section ReadsBack

variable [Keccak] [BoostJson]

/-- **A stored block is read back.**  For every executed block of transactions that a protobuf
message or a JSON object has given, with any journals and receipts: its message is read as the same
block, so there is a journal and a receipt for every transaction, and the hash is the same. -/
theorem readsBack_stored {b : ExecBlk}
    (h : ∀ t ∈ b.txs, (∃ o, Tx.fromJson0 o = some t) ∨ ∃ pb, Tx.fromPb pb = .ok t) :
    ∃ p, fromPb0 b.toPb0 = .ok p ∧
      (p.number = b.number ∧ p.parentHash = b.parentHash ∧ p.txs = b.txs ∧
        p.stateChanges = b.stateChanges ∧ p.txReceipts = b.txReceipts) ∧
      (p.txs.length = p.stateChanges.length ∧ p.stateChanges.length = p.txReceipts.length) ∧
      p.toBlk.hash = b.toBlk.hash := by
  have hkeys : ∀ t ∈ b.txs, t.FromPkPem := fun t ht => Tx.fromPkPem_of_parsed (h t ht)
  refine ⟨⟨b.toBlk, b.stateChanges, b.txReceipts⟩, ?_, ⟨rfl, rfl, rfl, rfl, rfl⟩,
    ⟨b.length_stateChanges, b.length_txReceipts⟩, rfl⟩
  rw [fromPb0_toPb0_derived, Blk.derived_eq_self hkeys]

omit [Keccak] [BoostJson] in
/-- Two transactions, the first of which has failed and changed nothing. -/
theorem readsBack_stored_two :
    let _ : Keccak := Sponge.keccak
    let _ : BoostJson := ⟨fun _ => none, fun _ => none⟩
    let t (n : UInt64) : Tx := Tx.create (makeAddress 2) (makeAddress 4) [] n 0
    let b : ExecBlk :=
      { number := 5, parentHash := .zero 32, txs := [t 0, t 1],
        stateChanges := [[], [⟨true, [1], []⟩]], txReceipts := [.failed .evm, .succeeded [7] .evm],
        length_stateChanges := rfl,
        length_txReceipts := rfl }
    ∃ p, fromPb0 b.toPb0 = .ok p ∧
      (p.number = b.number ∧ p.parentHash = b.parentHash ∧ p.txs = b.txs ∧
        p.stateChanges = b.stateChanges ∧ p.txReceipts = b.txReceipts) ∧
      (p.txs.length = p.stateChanges.length ∧ p.stateChanges.length = p.txReceipts.length) ∧
      p.toBlk.hash = b.toBlk.hash := by
  intro _ _ t b
  refine readsBack_stored (List.forall_mem_cons.2 ⟨.inr ⟨(t 0).toPb, rfl⟩,
    List.forall_mem_singleton.2 (.inr ⟨(t 1).toPb, rfl⟩)⟩)

end ReadsBack

end ExecBlk

/-! ### Blocks in JSON -/

/-- `StateChange` in JSON; the value is a serialized account. -/
def StateChange.toJson (c : StateChange) : Json :=
  .object [(ascii "del", .bool c.del), (ascii "k", .string c.k), (ascii "v", .string (hex c.v))]

section ToJson

variable [Keccak]

/-- `BlkHeader` in JSON. -/
def Blk.headerToJson (b : Blk) : List (Bytes × Json) :=
  [(ascii "number", .uint64 b.number), (ascii "hash", .string (hashToString b.hash)),
    (ascii "parentHash", .string (hashToString b.parentHash))]

/-- `Blk` in JSON. -/
def Blk.fieldsToJson (b : Blk) : List (Bytes × Json) :=
  b.headerToJson ++ [(ascii "txs", .array (b.txs.map Tx.toJson))]

variable [BoostJson]

/-- `ExecBlk::toJson`; nothing if one of the receipts stops the process. -/
def ExecBlk.Parsed.toJson (b : ExecBlk.Parsed) : Option Json := do
  let rs ← b.txReceipts.mapM TxReceipt.toJson
  return .object (b.toBlk.fieldsToJson ++
    [(ascii "stateChanges", .array (b.stateChanges.map fun j => .array (j.map StateChange.toJson))),
      (ascii "txReceipts", .array rs)])

omit [Keccak] in
/-- What Python returned can be shown: it is an object with a result and a log. -/
def TxReceipt.Shows (r : TxReceipt) : Prop :=
  r.type = .python → r.result ≠ [] → ∃ o result log, BoostJson.parse r.result = some (.object o) ∧
    (Json.object o).at (ascii "result") = some result ∧ (Json.object o).at (ascii "log") = some log

omit [Keccak] in
theorem TxReceipt.isSome_toJson_iff {r : TxReceipt} : r.toJson.isSome = true ↔ r.Shows := by
  rw [toJson, Shows]
  by_cases hpython : r.type = .python ∧ r.result ≠ []
  · rw [if_pos hpython, Option.isSome_iff_exists]
    simp only [hpython.1, hpython.2, Option.bind_eq_bind, Option.bind_eq_some_iff, forall_const,
      ne_eq, not_false_eq_true]
    constructor
    · rintro ⟨-, v, hparse, o, hobject, result, hresult, log, hlog, -⟩
      cases v with
      | object o' =>
        obtain rfl := Option.some.inj hobject
        exact ⟨o', result, log, hparse, hresult, hlog⟩
      | _ => cases hobject
    · rintro ⟨o, result, log, hparse, hresult, hlog⟩
      exact ⟨_, .object o, hparse, o, rfl, result, hresult, log, hlog, rfl⟩
  · rw [if_neg hpython]
    exact iff_of_true rfl fun htype hne => absurd ⟨htype, hne⟩ hpython

theorem ExecBlk.Parsed.isSome_toJson_iff {b : ExecBlk.Parsed} :
    b.toJson.isSome = true ↔ ∀ r ∈ b.txReceipts, r.Shows := by
  have hmap : (b.txReceipts.mapM TxReceipt.toJson).isSome = true ↔ ∀ r ∈ b.txReceipts, r.Shows := by
    simp only [Traverse.isSome_mapM_iff, TxReceipt.isSome_toJson_iff]
  rw [← hmap, toJson]
  cases b.txReceipts.mapM TxReceipt.toJson <;> simp

end ToJson

end WeakChain
