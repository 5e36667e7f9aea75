import WeakChain.Codec.Tx
import WeakChain.Core.Acn

/-!
# The codecs of an account

In JSON the storage of an account is an object.  Its keys and values are written without leading
zeros, unless all are zeros, and padded again when they are read (`padded_trimmed`), so different
keys stay different.  An account is read back from both formats (`Acn.readsBack_same`), in whatever
order the loops visit its storage.
-/

namespace WeakChain

namespace Acn

/-- A string without its leading zeros, unless there is nothing else in it. -/
def trimmed (s : Bytes) : Bytes :=
  match s.findIdx? (· ≠ 0) with
  | some i => s.drop i
  | none => s

/-- A string, copied to the back of zeros; nothing if it is too long. -/
def padded (s : Bytes) : Option Bytes32 :=
  if h : s.length ≤ 32 then some ⟨List.replicate (32 - s.length) 0 ++ s, by simp; omega⟩ else none

/-- The loop of `Acn::toJson` over the storage. -/
def storageToJson (es : List (Bytes32 × Bytes32)) : List (Bytes × Json) :=
  es.foldl (fun o e => Json.assign o (trimmed e.1.bytes) (.string (trimmed e.2.bytes))) []

section ToJson

variable [Keccak] [HashOrder Bytes32]

/-- The entries of the object that `Acn::toJson` makes. -/
def fieldsToJson (a : Acn) : List (Bytes × Json) :=
  let o := [(ascii "nonce", .uint64 a.nonce), (ascii "code", .string (hex a.code)),
    (ascii "codehash", .string (hashToString a.codehash))]
  let o := Json.assign o (ascii "storage") (.object (storageToJson a.storage.toList))
  if a.diskStorage ≠ [] then
    Json.assign o (ascii "disk_storage") (.array (a.diskStorage.map .string))
  else o

/-- `Acn::toJson`. -/
def toJson (a : Acn) : Json := .object a.fieldsToJson

end ToJson

/-- The loop of `Acn::fromJson` over the storage; nothing if it returns `false`. -/
def storageFromJson : List (Bytes × Json) → HashMap Bytes32 Bytes32 →
    Option (HashMap Bytes32 Bytes32)
  | [], m => some m
  | kv :: o, m => do
    let sVal ← valueToString kv.2
    let key ← padded kv.1
    let val ← padded sVal
    storageFromJson o (m.set key val)

/-- The disk storage, if there is one. -/
def diskStorageFromJson (o : List (Bytes × Json)) : Option (List Bytes) :=
  if Json.contains o (ascii "disk_storage") then do
    (← (← (Json.object o).at (ascii "disk_storage")).asArray).mapM valueToString
  else some []

/-- `Acn::fromJson`, into a fresh `Acn`; nothing if it returns `false`. -/
def fromJson [BoostJson] (v : Json) : Option Acn := do
  let o ← v.asObject
  let nonce ← valueToUInt64 (← (Json.object o).at (ascii "nonce"))
  let code ← fromHexBytes (← valueToString (← v.at (ascii "code")))
  let storage ← storageFromJson (← (← (Json.object o).at (ascii "storage")).asObject) .empty
  let diskStorage ← diskStorageFromJson o
  return ⟨nonce, code, storage, diskStorage⟩

/-! ### Keys and values -/

/-- What is missing are zeros. -/
theorem exists_trimmed (s : Bytes) :
    ∃ n, n ≤ s.length ∧ trimmed s = s.drop n ∧ s.take n = List.replicate n 0 := by
  rw [trimmed]
  cases hi : s.findIdx? (· ≠ 0) with
  | none => exact ⟨0, Nat.zero_le _, rfl, rfl⟩
  | some i =>
    obtain ⟨hlt, -, hzero⟩ := List.findIdx?_eq_some_iff_getElem.1 hi
    refine ⟨i, Nat.le_of_lt hlt, rfl, List.eq_replicate_iff.2 ⟨by simp; omega, fun c hc => ?_⟩⟩
    obtain ⟨j, hj, rfl⟩ := List.mem_iff_getElem.1 hc
    rw [List.getElem_take]
    simpa using hzero j (by simp at hj; omega)

/-- What has been trimmed is padded again. -/
theorem padded_trimmed (t : Bytes32) : padded (trimmed t.bytes) = some t := by
  obtain ⟨n, hn, htrim, hzero⟩ := exists_trimmed t.bytes
  rw [t.size] at hn
  have hlen : (trimmed t.bytes).length = 32 - n := by rw [htrim, List.length_drop, t.size]
  rw [padded, dif_pos (by omega)]
  congr 1
  apply FixedBytes.ext
  dsimp only
  rw [hlen, htrim, Nat.sub_sub_self hn, ← hzero, List.take_append_drop]

theorem trimmed_injective {s t : Bytes32} (h : trimmed s.bytes = trimmed t.bytes) : s = t :=
  Option.some.inj (by rw [← padded_trimmed s, h, padded_trimmed])

/-- Different keys are different in the object, so it has the entries in the order of the loop. -/
theorem storageToJson_eq {es : List (Bytes32 × Bytes32)} (h : (es.map Prod.fst).Nodup) :
    storageToJson es = es.map fun e => (trimmed e.1.bytes, .string (trimmed e.2.bytes)) := by
  rw [storageToJson]
  induction es using List.reverseRecOn with
  | nil => rfl
  | append_singleton es e ih =>
    rw [List.map_append, List.map_singleton, List.nodup_append] at h
    have hnew : trimmed e.1.bytes ∉
        Json.keys (es.map fun e => (trimmed e.1.bytes, Json.string (trimmed e.2.bytes))) := by
      intro hmem
      obtain ⟨kv, hkv, heq⟩ := List.mem_map.1 hmem
      obtain ⟨e', he', rfl⟩ := List.mem_map.1 hkv
      exact h.2.2 e'.1 (List.mem_map_of_mem he') e.1 List.mem_cons_self (trimmed_injective heq)
    rw [List.foldl_append, ih h.1, List.map_append]
    exact Json.assign_of_notMem _ _ _ hnew

theorem storageFromJson_map (es : List (Bytes32 × Bytes32)) (m : HashMap Bytes32 Bytes32) :
    storageFromJson (es.map fun e => (trimmed e.1.bytes, .string (trimmed e.2.bytes))) m =
      some (m.setAll es) := by
  induction es generalizing m with
  | nil => rfl
  | cons e es ih =>
    rw [List.map_cons, storageFromJson]
    simp only [valueToString, padded_trimmed, Option.bind_eq_bind, Option.bind_some]
    exact ih (m.set e.1 e.2)

theorem mapM_valueToString (ss : List Bytes) :
    (ss.map Json.string).mapM valueToString = some ss := by
  have h := Traverse.mapM_map_eq_pure (f := valueToString) (g := Json.string) (h := id)
    (fun _ => rfl) ss
  rwa [List.map_id] at h

/-! ### Round trips -/

variable [HashOrder Bytes32] [Keccak] [BoostJson]

omit [BoostJson] in
/-- What is found in the object of an account. -/
theorem at_fieldsToJson (a : Acn) (k : Bytes) :
    (Json.object a.fieldsToJson).at k =
      if k = ascii "disk_storage" ∧ a.diskStorage ≠ [] then
        some (.array (a.diskStorage.map .string))
      else if k = ascii "storage" then some (.object (storageToJson a.storage.toList))
      else (Json.object [(ascii "nonce", .uint64 a.nonce), (ascii "code", .string (hex a.code)),
        (ascii "codehash", .string (hashToString a.codehash))]).at k := by
  rw [fieldsToJson]
  by_cases hdisk : a.diskStorage = []
  · simp only [hdisk, ne_eq, not_true_eq_false, if_false, and_false, Json.at_assign]
  · simp only [hdisk, ne_eq, not_false_eq_true, if_true, and_true, Json.at_assign]

omit [BoostJson] in
/-- The list is read back, and if it is empty it is not there. -/
theorem diskStorageFromJson_fieldsToJson (a : Acn) :
    diskStorageFromJson a.fieldsToJson = some a.diskStorage := by
  have hat := at_fieldsToJson a (ascii "disk_storage")
  rw [diskStorageFromJson, Json.contains_eq]
  by_cases hdisk : a.diskStorage = []
  · rw [if_neg fun h => h.2 hdisk, if_neg (by decide)] at hat
    rw [hat, hdisk]
    rfl
  · rw [if_pos ⟨rfl, hdisk⟩] at hat
    rw [hat, Option.isSome_some, if_pos rfl]
    exact mapM_valueToString a.diskStorage

/-- An account is read back from its value. -/
theorem fromJson_toJson (a : Acn) : ∃ b, fromJson a.toJson = some b ∧ b.Same a := by
  have hstorage := storageFromJson_map a.storage.toList .empty
  rw [← storageToJson_eq (HashMap.nodup_keys_toList a.storage)] at hstorage
  refine ⟨⟨a.nonce, a.code, HashMap.empty.setAll a.storage.toList, a.diskStorage⟩, ?_,
    ⟨rfl, rfl, HashMap.find?_setAll_toList a.storage, rfl⟩⟩
  have hnonce : (Json.object a.fieldsToJson).at (ascii "nonce") = some (.uint64 a.nonce) := by
    rw [at_fieldsToJson, if_neg fun h => absurd h.1 (by decide), if_neg (by decide)]
    rfl
  have hcode : (Json.object a.fieldsToJson).at (ascii "code") = some (.string (hex a.code)) := by
    rw [at_fieldsToJson, if_neg fun h => absurd h.1 (by decide), if_neg (by decide)]
    rfl
  have hobject : (Json.object a.fieldsToJson).at (ascii "storage") =
      some (.object (storageToJson a.storage.toList)) := by
    rw [at_fieldsToJson, if_neg fun h => absurd h.1 (by decide), if_pos rfl]
  have hhex : fromHexBytes (hex a.code) = some a.code :=
    Rpc.fromHexBytes_of_hexText (.inl (Rpc.hexDigits_hex _))
  simp only [fromJson, toJson, Json.asObject, Option.bind_eq_bind, Option.bind_some, hnonce, hcode,
    hobject, valueToUInt64, valueToString, hhex, hstorage, diskStorageFromJson_fieldsToJson]
  rfl

/-- **Both codecs read back every account**, in whatever order the loops visit its storage. -/
theorem readsBack_same (a : Acn) :
    (∃ b, fromPb a.toPb = .ok b ∧ b.Same a) ∧ ∃ b, fromJson a.toJson = some b ∧ b.Same a :=
  ⟨fromPb_toPb a, fromJson_toJson a⟩

end Acn

end WeakChain
