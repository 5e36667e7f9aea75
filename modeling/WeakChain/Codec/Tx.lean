import WeakChain.Rpc.Formats
import WeakChain.Rpc.Lookup

/-!
# The codecs of a transaction

A transaction is stored and sent in protobuf and shown in JSON.  What one of the parsers has
produced is read back from both (`Tx.readsBack_parsed`).  Other transactions need not be: the sender
is derived again if there is a public key.
-/

namespace WeakChain

namespace Tx

section Fields

variable (t : Tx)

/-- The data and the type. -/
theorem at_dataToJson (k : Bytes) :
    (Json.object t.dataToJson).at k =
      if ascii "type" = k ∧ t.type ≠ .evm then some (.string t.type.typeToString)
      else if ascii "data" = k then some (.string (if t.type = .evm then hex t.data else t.data))
      else none := by
  rw [dataToJson]
  by_cases hevm : t.type = .evm
  · by_cases hdata : ascii "data" = k
    · simp [Json.at, hevm, hdata]
    · simp [Json.at, hevm, hdata]
  · by_cases htype : ascii "type" = k
    · simp [Json.at, hevm, htype]
    · by_cases hdata : ascii "data" = k
      · simp [Json.at, hevm, htype, hdata]
      · simp [Json.at, hevm, htype, hdata]

/-- A field that may be left out. -/
theorem at_optionalToJson (k : Bytes) : (Json.object t.optionalToJson).at k =
    ((if t.pkPem ≠ [] ∧ ascii "pk_pem" = k then some (.string t.pkPem) else none).or
      (if t.signature ≠ [] ∧ ascii "signature" = k then some (.string (hex t.signature))
        else none)).or
      (if t.pkCrt ≠ [] ∧ ascii "pk_crt" = k then some (.string (hex t.pkCrt)) else none) := by
  simp only [optionalToJson, Json.at_object, Entries.find?_append, Entries.find?_ite]

/-- The key. -/
theorem at_optionalToJson_pkPem : (Json.object t.optionalToJson).at (ascii "pk_pem") =
    if t.pkPem ≠ [] then some (.string t.pkPem) else none := by
  have hsignature : ascii "signature" ≠ ascii "pk_pem" := by decide
  have hpkCrt : ascii "pk_crt" ≠ ascii "pk_pem" := by decide
  simp [at_optionalToJson, hsignature, hpkCrt]

/-- The signature. -/
theorem at_optionalToJson_signature : (Json.object t.optionalToJson).at (ascii "signature") =
    if t.signature ≠ [] then some (.string (hex t.signature)) else none := by
  have hpkPem : ascii "pk_pem" ≠ ascii "signature" := by decide
  have hpkCrt : ascii "pk_crt" ≠ ascii "signature" := by decide
  simp [at_optionalToJson, hpkPem, hpkCrt]

/-- The certificate. -/
theorem at_optionalToJson_pkCrt : (Json.object t.optionalToJson).at (ascii "pk_crt") =
    if t.pkCrt ≠ [] then some (.string (hex t.pkCrt)) else none := by
  have hpkPem : ascii "pk_pem" ≠ ascii "pk_crt" := by decide
  have hsignature : ascii "signature" ≠ ascii "pk_crt" := by decide
  simp [at_optionalToJson, hpkPem, hsignature]

/-- There is no type among these. -/
theorem at_optionalToJson_type : (Json.object t.optionalToJson).at (ascii "type") = none := by
  have hpkPem : ascii "pk_pem" ≠ ascii "type" := by decide
  have hsignature : ascii "signature" ≠ ascii "type" := by decide
  have hpkCrt : ascii "pk_crt" ≠ ascii "type" := by decide
  simp [at_optionalToJson, hpkPem, hsignature, hpkCrt]

variable [Keccak]

/-- The fields that are always there. -/
def fixedToJson : List (Bytes × Json) :=
  [(ascii "from", .string (addressToString t.fromAddr)),
    (ascii "to", .string (addressToString t.toAddr)), (ascii "nonce", .uint64 t.nonce),
    (ascii "timestamp", .uint64 t.timestamp.toUInt64),
    (ascii "hash", .string (hashToString t.hash))]

/-- All fields. -/
def fieldsToJson : List (Bytes × Json) := t.fixedToJson ++ t.dataToJson ++ t.optionalToJson

theorem toJson_eq : t.toJson = .object t.fieldsToJson := rfl

theorem at_fieldsToJson (k : Bytes) :
    (Json.object t.fieldsToJson).at k =
      (((Json.object t.fixedToJson).at k).or ((Json.object t.dataToJson).at k)).or
        ((Json.object t.optionalToJson).at k) := by
  simp only [fieldsToJson, Json.at_object, Entries.find?_append]

/-- A field that is always there. -/
theorem at_fieldsToJson_of_some {k : Bytes} {v : Json}
    (h : (Json.object t.fixedToJson).at k = some v) :
    (Json.object t.fieldsToJson).at k = some v := by
  rw [at_fieldsToJson, h]
  rfl

/-- A field that may be left out. -/
theorem at_fieldsToJson_of_none {k : Bytes} (hfixed : (Json.object t.fixedToJson).at k = none)
    (htype : ascii "type" ≠ k) (hdata : ascii "data" ≠ k) :
    (Json.object t.fieldsToJson).at k = (Json.object t.optionalToJson).at k := by
  rw [at_fieldsToJson, hfixed, at_dataToJson, if_neg fun h => htype h.1, if_neg hdata]
  rfl

/-- A field in hexadecimal that is left out if it is empty. -/
theorem hexFromJson_optional {k bs : Bytes} (hfixed : (Json.object t.fixedToJson).at k = none)
    (htype : ascii "type" ≠ k) (hdata : ascii "data" ≠ k)
    (h : (Json.object t.optionalToJson).at k = if bs ≠ [] then some (.string (hex bs)) else none) :
    hexFromJson t.fieldsToJson k = some bs := by
  refine Rpc.hexFromJson_eq ?_
  rw [at_fieldsToJson_of_none t hfixed htype hdata, h]
  by_cases hne : bs = []
  · exact .inl ⟨if_neg (not_not.2 hne), hne⟩
  · exact .inr ⟨_, if_pos hne, .inl (Rpc.hexDigits_hex _)⟩

theorem hexFromJson_pkCrt : hexFromJson t.fieldsToJson (ascii "pk_crt") = some t.pkCrt :=
  t.hexFromJson_optional rfl (by decide) (by decide) t.at_optionalToJson_pkCrt

theorem hexFromJson_signature :
    hexFromJson t.fieldsToJson (ascii "signature") = some t.signature :=
  t.hexFromJson_optional rfl (by decide) (by decide) t.at_optionalToJson_signature

theorem typeFromJson_fieldsToJson : typeFromJson t.fieldsToJson = some t.type := by
  refine Rpc.typeFromJson_eq ?_
  have hfixed : (Json.object t.fixedToJson).at (ascii "type") = none := rfl
  rw [at_fieldsToJson, hfixed, at_optionalToJson_type, at_dataToJson]
  cases htype : t.type with
  | evm => exact .inl ⟨rfl, rfl⟩
  | data => exact .inr ⟨ascii "data", rfl, rfl⟩
  | python => exact .inr ⟨ascii "python", rfl, rfl⟩

theorem dataFromJson_fieldsToJson : dataFromJson t.fieldsToJson t.type = some t.data := by
  have hfixed : (Json.object t.fixedToJson).at (ascii "data") = none := rfl
  rw [dataFromJson, at_fieldsToJson, hfixed, at_dataToJson, if_neg fun h => absurd h.1 (by decide),
    if_pos rfl]
  by_cases hevm : t.type = .evm
  · rw [if_pos hevm]
    exact (if_pos hevm).trans (Rpc.fromHexBytes_of_hexText (.inl (Rpc.hexDigits_hex _)))
  · rw [if_neg hevm]
    exact if_neg hevm

theorem at_pkPem : (Json.object t.fieldsToJson).at (ascii "pk_pem") =
    if t.pkPem ≠ [] then some (.string t.pkPem) else none :=
  (t.at_fieldsToJson_of_none rfl (by decide) (by decide)).trans t.at_optionalToJson_pkPem

/-- An address that is always there. -/
theorem addressFromJson_fieldsToJson {k : Bytes} {a : Address}
    (h : (Json.object t.fixedToJson).at k = some (.string (addressToString a))) :
    addressFromJson t.fieldsToJson k = some a :=
  Rpc.addressFromJson_eq (t.at_fieldsToJson_of_some h) (.inl (Rpc.hexDigits_hex _))
    (Rpc.ClientTx.addressBytes_self a)

theorem senderFromJson_fieldsToJson (h : t.FromPkPem) :
    senderFromJson t.fieldsToJson = some (t.pkPem, t.fromAddr) := by
  rw [senderFromJson, Json.contains_eq, at_pkPem]
  by_cases hne : t.pkPem = []
  · have hfrom : addressFromJson t.fieldsToJson (ascii "from") = some t.fromAddr :=
      t.addressFromJson_fieldsToJson rfl
    rw [if_neg (not_not.2 hne), Option.isSome_none, if_neg Bool.false_ne_true, hfrom, hne]
    rfl
  · rw [if_pos hne, Option.isSome_some, if_pos rfl, h hne]
    rfl

end Fields

variable [Keccak] [BoostJson]

/-- A number that is always there. -/
theorem uint64FromJson_fieldsToJson (t : Tx) {k : Bytes} {n : UInt64}
    (h : (Json.object t.fixedToJson).at k = some (.uint64 n)) :
    uint64FromJson t.fieldsToJson k = some n :=
  Rpc.uint64FromJson_eq (t.at_fieldsToJson_of_some h)

/-- `Tx::fromJson`, into a fresh `Tx`. -/
def fromJson (v : Json) : Option Tx := v.asObject.bind fromJson0

/-- **Round trip**: a transaction whose sender belongs to its public key is read back. -/
theorem fromJson_toJson {t : Tx} (h : t.FromPkPem) : fromJson t.toJson = some t := by
  have hnonce : uint64FromJson t.fieldsToJson (ascii "nonce") = some t.nonce :=
    t.uint64FromJson_fieldsToJson rfl
  have htime : uint64FromJson t.fieldsToJson (ascii "timestamp") = some t.timestamp.toUInt64 :=
    t.uint64FromJson_fieldsToJson rfl
  have hto : addressFromJson t.fieldsToJson (ascii "to") = some t.toAddr :=
    t.addressFromJson_fieldsToJson rfl
  rw [toJson_eq]
  change fromJson0 t.fieldsToJson = some t
  rw [fromJson0, senderFromJson_fieldsToJson t h, hexFromJson_signature, hexFromJson_pkCrt, hnonce,
    htime]
  simp only [Option.bind_eq_bind, Option.bind_some, typeFromJson_fieldsToJson,
    dataFromJson_fieldsToJson, hto]
  rfl

theorem fromPkPem_of_parsed {t : Tx}
    (h : (∃ o, fromJson0 o = some t) ∨ ∃ pb, fromPb pb = .ok t) : t.FromPkPem := by
  rcases h with ⟨o, ho⟩ | ⟨pb, hpb⟩
  · exact fromPkPem_of_fromJson0 ho
  · exact fromPkPem_of_fromPb hpb

/-- **Both codecs read back what a parser has produced.**  For every transaction that a protobuf
message or a JSON object has given: it is read back from its message and from its value. -/
theorem readsBack_parsed {t : Tx}
    (h : (∃ o, fromJson0 o = some t) ∨ ∃ pb, fromPb pb = .ok t) :
    fromPb t.toPb = .ok t ∧ fromJson t.toJson = some t := by
  have hkey := fromPkPem_of_parsed h
  exact ⟨fromPb_toPb hkey, fromJson_toJson hkey⟩

omit [Keccak] [BoostJson] in
/-- A transaction from `02` to `0004`. -/
theorem readsBack_parsed_message :
    let _ : Keccak := Sponge.keccak
    let _ : BoostJson := ⟨fun _ => none, fun _ => none⟩
    let t : Tx :=
      { pkPem := [], signature := [], pkCrt := [9], type := .data, fromAddr := makeAddress 2,
        toAddr := makeAddress 4, data := ascii "hi", nonce := 3, timestamp := -1 }
    fromPb t.toPb = .ok t ∧ fromJson t.toJson = some t := by
  intro _ _ t
  let pb : hiPb.Tx :=
    { type := 1, fromAddr := [2], toAddr := [0, 4], data := ascii "hi", timestamp := -1, nonce := 3,
      pkCrt := [9] }
  exact readsBack_parsed (.inr ⟨pb, rfl⟩)

end Tx

end WeakChain
