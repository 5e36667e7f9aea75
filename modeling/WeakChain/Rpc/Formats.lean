import WeakChain.Core.Json
import WeakChain.Rpc.AddTxs

/-!
# The two formats of a request

What a client wants to be executed (`ClientTx`) can be said in JSON and in protobuf, and the parser
of the second "should mimic" that of the first.  `InJson` and `InPb` say when an object or a message
stands for the same thing, without the parsers: a number is a number, an address is written with
leading zeros or without, data are in hexadecimal if they are for the EVM.

The parsers agree on a request (`Agree`) if both refuse it, or both read the same transactions from
it and answer the same for each of them.  They do so unless the client gives a timestamp, an empty
public key, or data that look like the name of a file (`agree_iff`).
-/

namespace WeakChain

namespace Rpc

/-! ### Texts -/

/-- The digits of some bytes, in upper or lower case. -/
inductive HexDigits : Bytes → Bytes → Prop
  | nil : HexDigits [] []
  | cons {h l hi lo : UInt8} {s bs : Bytes} (hh : fromHexDigit h = some hi)
      (hl : fromHexDigit l = some lo) (hs : HexDigits s bs) :
      HexDigits (h :: l :: s) ((hi <<< 4 ||| lo) :: bs)

/-- A text is the hexadecimal form of some bytes; it may start with `0x`. -/
def HexText (s bs : Bytes) : Prop := HexDigits s bs ∨ ∃ s', s = 48 :: 120 :: s' ∧ HexDigits s' bs

/-- The bytes of an address, of which leading zeros may be left out. -/
def AddressBytes (bs : Bytes) (a : Address) : Prop :=
  bs.length ≤ 20 ∧ a.bytes = List.replicate (20 - bs.length) 0 ++ bs

theorem HexDigits.length_eq {s bs : Bytes} (h : HexDigits s bs) : s.length = 2 * bs.length := by
  induction h with
  | nil => rfl
  | cons hh hl hs ih =>
    simp only [List.length_cons, ih]
    omega

/-- The loop reads two digits at a time. -/
theorem HexDigits.fromHexLoop_eq {s bs : Bytes} (h : HexDigits s bs) {i : ℕ} (hi : i % 2 = 0)
    (last : Option UInt8) : fromHexLoop i last s = some bs := by
  induction h generalizing i last with
  | nil => simp [fromHexLoop, hi]
  | cons hh hl hs ih =>
    rw [fromHexLoop, hh]
    dsimp only
    rw [if_pos hi, fromHexLoop, hl]
    dsimp only
    rw [if_neg (by omega), ih (by omega)]
    rfl

theorem fromHexBytes_of_hexText {s bs : Bytes} (h : HexText s bs) : fromHexBytes s = some bs := by
  rcases h with h | ⟨s', rfl, h⟩
  · exact h.fromHexLoop_eq rfl none
  · -- the `x` is skipped because the digit before it is a zero
    change fromHexLoop 2 (some 0) s' = some bs
    exact h.fromHexLoop_eq rfl _

/-- A text without `0x`. -/
def without0x (s : Bytes) : Bytes :=
  match s with
  | 48 :: 120 :: t => t
  | _ => s

/-- `evmc::from_hex<address>` of a text without `0x`. -/
def addressFromHex (s : Bytes) : Option Address :=
  if 20 < s.length / 2 then none
  else
    (fromHexLoop 0 none s).map fun bs =>
      ⟨(List.replicate (20 - s.length / 2) 0 ++ bs ++ List.replicate 20 0).take 20, by
        simp; omega⟩

theorem fromHex_eq (s : Bytes) : fromHex 20 s = addressFromHex (without0x s) := rfl

theorem HexText.without0x {s bs : Bytes} (h : HexText s bs) : HexDigits (without0x s) bs := by
  rcases h with h | ⟨s', rfl, h⟩
  · -- a text of digits does not start with `0x`
    unfold Rpc.without0x
    split
    · cases h with
      | cons hh hl hs => cases hl
    · exact h
  · exact h

theorem fromHex_of_hexText {s bs : Bytes} {a : Address} (h : HexText s bs)
    (ha : AddressBytes bs a) : fromHex 20 s = some a := by
  have hdigits := h.without0x
  have hlen : (without0x s).length / 2 = bs.length := by
    rw [hdigits.length_eq]
    omega
  rw [fromHex_eq, addressFromHex, if_neg (by rw [hlen]; exact Nat.not_lt.2 ha.1),
    hdigits.fromHexLoop_eq rfl none, Option.map_some]
  congr 1
  apply FixedBytes.ext
  dsimp only
  rw [hlen, ← ha.2, List.take_append_of_le_length (Nat.le_of_eq a.size.symm),
    List.take_of_length_le (Nat.le_of_eq a.size)]

theorem fromByteStringAddress_of_addressBytes {bs : Bytes} {a : Address} (h : AddressBytes bs a) :
    fromByteStringAddress bs = .ok a := by
  rw [fromByteStringAddress, dif_pos h.1]
  congr 1
  exact FixedBytes.ext h.2.symm

/-! ### A transaction of a client -/

/-- What a client wants to be executed.  There is a public key or a sender. -/
structure ClientTx where
  pkPem : Option Bytes
  fromAddr : Option Address
  toAddr : Address
  data : Bytes
  nonce : UInt64
  type : TxType
  signature : Bytes
  pkCrt : Bytes
  timestamp : Option UInt64
  sender : pkPem = none → fromAddr ≠ none

/-- The data of a transaction are said by a text: in hexadecimal if they are for the EVM. -/
def DataText (type : TxType) (text data : Bytes) : Prop :=
  if type = .evm then HexText text data else text = data

/-- The name of a type; the EVM may be left open. -/
def TypeText (text : Bytes) : TxType → Prop
  | .evm => text = [] ∨ text = ascii "evm"
  | .data => text = ascii "data"
  | .python => text = ascii "python"

section

variable [BoostJson]

/-- A JSON object stands for the transaction.  Its data may be in a file that it names. -/
structure InJson (readAllText : Bytes → Option Bytes) (o : List (Bytes × Json)) (c : ClientTx) :
    Prop where
  pkPem : Option.Rel (fun v s => v = .string s) ((Json.object o).at (ascii "pk_pem")) c.pkPem
  fromAddr : Option.Rel (fun v a => ∃ s bs, v = .string s ∧ HexText s bs ∧ AddressBytes bs a)
    ((Json.object o).at (ascii "from")) c.fromAddr
  toAddr : ∃ s bs, (Json.object o).at (ascii "to") = some (.string s) ∧ HexText s bs ∧
    AddressBytes bs c.toAddr
  data : ∃ s, (Json.object o).at (ascii "data") = some (.string s) ∧
    (DataText c.type s c.data ∨ ∃ path text, s = 64 :: path ∧ readAllText path = some text ∧
      DataText c.type text c.data)
  nonce : ∃ v, (Json.object o).at (ascii "nonce") = some v ∧ valueToUInt64 v = some c.nonce
  type : ((Json.object o).at (ascii "type") = none ∧ c.type = .evm) ∨
    ∃ s, (Json.object o).at (ascii "type") = some (.string s) ∧ TypeText s c.type
  signature : ((Json.object o).at (ascii "signature") = none ∧ c.signature = []) ∨
    ∃ s, (Json.object o).at (ascii "signature") = some (.string s) ∧ HexText s c.signature
  pkCrt : ((Json.object o).at (ascii "pk_crt") = none ∧ c.pkCrt = []) ∨
    ∃ s, (Json.object o).at (ascii "pk_crt") = some (.string s) ∧ HexText s c.pkCrt
  timestamp : Option.Rel (fun v n => valueToUInt64 v = some n)
    ((Json.object o).at (ascii "timestamp")) c.timestamp

end

/-- A protobuf message stands for the transaction.  A field that is not set is empty or zero. -/
structure InPb (pb : hiPb.Tx) (c : ClientTx) : Prop where
  pkPem : pb.pkPem = c.pkPem.getD []
  fromAddr : AddressBytes pb.fromAddr (c.fromAddr.getD (.zero 20))
  toAddr : AddressBytes pb.toAddr c.toAddr
  data : pb.data = c.data
  nonce : pb.nonce = c.nonce
  type : pb.type = c.type.toPb
  signature : pb.signature = c.signature
  pkCrt : pb.pkCrt = c.pkCrt
  timestamp : pb.timestamp = c.timestamp.getD 0

/-! ### What the parsers read -/

section Readers

variable {o : List (Bytes × Json)} {k : Bytes}

theorem uint64FromJson_eq [BoostJson] {v : Json} (h : (Json.object o).at k = some v) :
    Tx.uint64FromJson o k = valueToUInt64 v := by
  rw [Tx.uint64FromJson, h]
  rfl

theorem addressFromJson_eq {s bs : Bytes} {a : Address}
    (h : (Json.object o).at k = some (.string s)) (hs : HexText s bs) (ha : AddressBytes bs a) :
    Tx.addressFromJson o k = some a := by
  rw [Tx.addressFromJson, h]
  exact fromHex_of_hexText hs ha

theorem hexFromJson_eq {bs : Bytes} (h : ((Json.object o).at k = none ∧ bs = []) ∨
    ∃ s, (Json.object o).at k = some (.string s) ∧ HexText s bs) :
    Tx.hexFromJson o k = some bs := by
  rw [Tx.hexFromJson, Json.contains_eq]
  rcases h with ⟨h, rfl⟩ | ⟨s, h, hs⟩
  · simp [h]
  · simp only [h, Option.isSome_some, if_true]
    exact fromHexBytes_of_hexText hs

theorem typeFromString_of_typeText {s : Bytes} {type : TxType} (h : TypeText s type) :
    Tx.typeFromString s = some type := by
  cases type with
  | evm => exact if_pos h
  | data =>
    obtain rfl := h
    decide
  | python =>
    obtain rfl := h
    decide

theorem typeFromJson_eq {type : TxType}
    (h : ((Json.object o).at (ascii "type") = none ∧ type = .evm) ∨
      ∃ s, (Json.object o).at (ascii "type") = some (.string s) ∧ TypeText s type) :
    Tx.typeFromJson o = some type := by
  rw [Tx.typeFromJson, Json.contains_eq]
  rcases h with ⟨h, rfl⟩ | ⟨s, h, hs⟩
  · simp [h]
  · simp only [h, Option.isSome_some, if_true]
    exact typeFromString_of_typeText hs

theorem exists_of_rel_some {α β : Type*} {R : α → β → Prop} {x : Option α} {b : β}
    (h : Option.Rel R x (some b)) : ∃ a, x = some a ∧ R a b := by
  cases h with
  | some h => exact ⟨_, rfl, h⟩

theorem eq_none_of_rel_none {α β : Type*} {R : α → β → Prop} {x : Option α}
    (h : Option.Rel R x none) : x = none := by
  cases h with
  | none => rfl

variable [Keccak]

namespace ClientTx

variable (c : ClientTx)

/-- The transaction, with a sender, data and a time. -/
def toTx (fromAddr : Address) (data : Bytes) (timestamp : Int64) : Tx where
  pkPem := c.pkPem.getD []
  signature := c.signature
  pkCrt := c.pkCrt
  type := c.type
  fromAddr := fromAddr
  toAddr := c.toAddr
  data := data
  nonce := c.nonce
  timestamp := timestamp

/-- The sender, if the key is looked for in JSON: it may be there and be empty. -/
def senderInJson : Address :=
  match c.pkPem with
  | some pkPem => Tx.getFromFromPkPem pkPem
  | none => c.fromAddr.getD (.zero 20)

/-- The sender, if the key is looked for in protobuf: an empty one is not there. -/
def senderInPb : Address :=
  if c.pkPem.getD [] ≠ [] then Tx.getFromFromPkPem (c.pkPem.getD []) else c.fromAddr.getD (.zero 20)

theorem senderInJson_eq_senderInPb_iff : c.senderInJson = c.senderInPb ↔
    (c.pkPem = some [] → c.fromAddr.getD (.zero 20) = Tx.getFromFromPkPem []) := by
  rw [senderInJson, senderInPb]
  cases c.pkPem with
  | none => simp
  | some pkPem =>
    by_cases hempty : pkPem = []
    · subst hempty
      simp only [Option.getD_some, ne_eq, not_true_eq_false, if_false, forall_const]
      exact eq_comm
    · simp [hempty]

end ClientTx

theorem fromPb_of_inPb {pb : hiPb.Tx} {c : ClientTx} (h : InPb pb c) :
    Tx.fromPb pb = .ok (c.toTx c.senderInPb c.data pb.timestamp.toInt64) := by
  have hsender : Tx.senderFromPb pb = .ok c.senderInPb := by
    rw [Tx.senderFromPb, ClientTx.senderInPb, h.pkPem,
      fromByteStringAddress_of_addressBytes h.fromAddr]
    split_ifs <;> rfl
  rw [Tx.fromPb, hsender, fromByteStringAddress_of_addressBytes h.toAddr]
  simp [bind, Except.bind, pure, Except.pure, ClientTx.toTx, h.pkPem, h.data, h.nonce, h.type,
    h.signature, h.pkCrt]

theorem senderFromJson_eq {c : ClientTx}
    (hpk : Option.Rel (fun v s => v = .string s) ((Json.object o).at (ascii "pk_pem")) c.pkPem)
    (hfrom : Option.Rel (fun v a => ∃ s bs, v = .string s ∧ HexText s bs ∧ AddressBytes bs a)
      ((Json.object o).at (ascii "from")) c.fromAddr) :
    Tx.senderFromJson o = some (c.pkPem.getD [], c.senderInJson) := by
  rw [Tx.senderFromJson, Json.contains_eq, ClientTx.senderInJson]
  cases hc : c.pkPem with
  | some pkPem =>
    rw [hc] at hpk
    obtain ⟨v, hv, rfl⟩ := exists_of_rel_some hpk
    simp only [hv, Option.isSome_some, if_true]
    rfl
  | none =>
    rw [hc] at hpk
    have hnone := eq_none_of_rel_none hpk
    -- without a key there is a sender
    obtain ⟨a, ha⟩ := Option.ne_none_iff_exists'.1 (c.sender hc)
    rw [ha] at hfrom
    obtain ⟨v, hv, s, bs, rfl, htext, hbytes⟩ := exists_of_rel_some hfrom
    simp only [hnone, Option.isSome_none, Bool.false_eq_true, if_false,
      addressFromJson_eq hv htext hbytes, ha]
    rfl

end Readers

/-- The text that is read for the data, after `prepare`. -/
def dataText (readAllText : Bytes → Option Bytes) : Bytes → Option Bytes
  | 64 :: path => readAllText path
  | s => some s

/-- What `prepare` makes of an object. -/
structure Prepared (env : Env) (i : ℕ) (o : List (Bytes × Json)) (text : Bytes)
    (o' : List (Bytes × Json)) : Prop where
  data : (Json.object o').at (ascii "data") = some (.string text)
  timestamp : (Json.object o').at (ascii "timestamp") =
    some (((Json.object o).at (ascii "timestamp")).getD (.int64 (env.time i)))
  rest : ∀ k, k ≠ ascii "data" → k ≠ ascii "timestamp" →
    (Json.object o').at k = (Json.object o).at k

theorem at_emplace_data (env : Env) (i : ℕ) (o : List (Bytes × Json)) :
    (Json.object (Json.emplace o (ascii "timestamp") (.int64 (env.time i)))).at (ascii "data") =
      (Json.object o).at (ascii "data") := by
  rw [Json.at_emplace, if_neg (by decide)]

/-- An object is prepared unless it names a file that is not there. -/
theorem prepare_spec (env : Env) (i : ℕ) {o : List (Bytes × Json)} {s : Bytes}
    (hs : (Json.object o).at (ascii "data") = some (.string s)) :
    (dataText env.readAllText s = none ∧ prepare env i o = none) ∨
      ∃ text o', dataText env.readAllText s = some text ∧ prepare env i o = some o' ∧
        Prepared env i o text o' := by
  rw [← at_emplace_data env i] at hs
  rw [prepare]
  have hemplaced := Json.at_emplace o (ascii "timestamp") (.int64 (env.time i))
  generalize Json.emplace o (ascii "timestamp") (.int64 (env.time i)) = o₁ at hs hemplaced ⊢
  by_cases hfile : ∃ path, s = 64 :: path
  · obtain ⟨path, rfl⟩ := hfile
    simp only [hs, dataText]
    cases env.readAllText path with
    | none => exact .inl ⟨rfl, rfl⟩
    | some text =>
      have hset := Json.at_set o₁ (ascii "data") (.string text)
      refine .inr ⟨text, _, rfl, rfl, ?_, ?_, ?_⟩
      · rw [hset, if_pos rfl, hs]
        rfl
      · rw [hset, if_neg (by decide), hemplaced, if_pos rfl]
      · intro k hdata htime
        rw [hset, if_neg hdata, hemplaced, if_neg htime]
  · have htext : dataText env.readAllText s = some s := by
      unfold dataText
      split
      · next path => exact absurd ⟨path, rfl⟩ hfile
      · rfl
    refine .inr ⟨s, o₁, htext, ?_, hs, ?_, ?_⟩
    · rw [hs]
      split
      · next path heq =>
        obtain rfl := Json.string.inj (Option.some.inj heq)
        exact absurd ⟨path, rfl⟩ hfile
      · rfl
    · rw [hemplaced, if_pos rfl]
    · intro k _ htime
      rw [hemplaced, if_neg htime]

section Step

variable [Keccak] [BoostJson] {env : Env} {i : ℕ} {o : List (Bytes × Json)} {c : ClientTx}
  {pb : hiPb.Tx}

/-- What is read from an object that has been prepared. -/
theorem fromJson0_eq {text : Bytes} {o' : List (Bytes × Json)} (h : InJson env.readAllText o c)
    (hp : Prepared env i o text o') :
    Tx.fromJson0 o' =
      (valueToUInt64 (((Json.object o).at (ascii "timestamp")).getD (.int64 (env.time i)))).bind
        fun timestamp => (if c.type = .evm then fromHexBytes text else some text).bind
          fun data => some (c.toTx c.senderInJson data timestamp.toInt64) := by
  have hsender : Tx.senderFromJson o' = some (c.pkPem.getD [], c.senderInJson) := by
    refine senderFromJson_eq ?_ ?_
    · rw [hp.rest _ (by decide) (by decide)]
      exact h.pkPem
    · rw [hp.rest _ (by decide) (by decide)]
      exact h.fromAddr
  have hsignature : Tx.hexFromJson o' (ascii "signature") = some c.signature := by
    refine hexFromJson_eq ?_
    rw [hp.rest _ (by decide) (by decide)]
    exact h.signature
  have hpkCrt : Tx.hexFromJson o' (ascii "pk_crt") = some c.pkCrt := by
    refine hexFromJson_eq ?_
    rw [hp.rest _ (by decide) (by decide)]
    exact h.pkCrt
  have htype : Tx.typeFromJson o' = some c.type := by
    refine typeFromJson_eq ?_
    rw [hp.rest _ (by decide) (by decide)]
    exact h.type
  have hnonce : Tx.uint64FromJson o' (ascii "nonce") = some c.nonce := by
    obtain ⟨v, hv, hn⟩ := h.nonce
    rw [uint64FromJson_eq (by rw [hp.rest _ (by decide) (by decide), hv]), hn]
  have hto : Tx.addressFromJson o' (ascii "to") = some c.toAddr := by
    obtain ⟨s, bs, hs, htext, hbytes⟩ := h.toAddr
    exact addressFromJson_eq (by rw [hp.rest _ (by decide) (by decide), hs]) htext hbytes
  have hdata : Tx.dataFromJson o' c.type =
      if c.type = .evm then fromHexBytes text else some text := by
    rw [Tx.dataFromJson, hp.data]
    rfl
  rw [Tx.fromJson0, hsender, hsignature, hpkCrt, hnonce, uint64FromJson_eq hp.timestamp]
  simp only [Option.bind_eq_bind, Option.bind_some, htype, hdata, hto]
  rfl

omit [Keccak] [BoostJson] in
/-- A text is read as the data that it says. -/
theorem read_of_dataText {type : TxType} {text data : Bytes} (h : DataText type text data) :
    (if type = .evm then fromHexBytes text else some text) = some data := by
  rw [DataText] at h
  split_ifs at h ⊢
  · exact fromHexBytes_of_hexText h
  · rw [h]

/-- The two formats say the same about a transaction as far as the parsers go: the time that the
client gives, if any, is the time of the node; an empty key comes with the sender that is derived
from it; and what looks like the name of a file is the name of a file with the data. -/
structure Unambiguous (env : Env) (i : ℕ) (o : List (Bytes × Json)) (c : ClientTx) : Prop where
  timestamp : match c.timestamp with
    | none => 0 ≤ env.time i
    | some timestamp => timestamp.toInt64 = env.time i
  pkPem : c.pkPem = some [] → c.fromAddr.getD (.zero 20) = Tx.getFromFromPkPem []
  data : c.type ≠ .evm → ∀ path, (Json.object o).at (ascii "data") = some (.string (64 :: path)) →
    env.readAllText path = some c.data

omit [Keccak] in
/-- The time that is read is that of the node. -/
theorem time_iff (h : InJson env.readAllText o c) :
    (∃ timestamp, valueToUInt64 (((Json.object o).at (ascii "timestamp")).getD
        (.int64 (env.time i))) = some timestamp ∧ timestamp.toInt64 = env.time i) ↔
      match c.timestamp with
      | none => 0 ≤ env.time i
      | some timestamp => timestamp.toInt64 = env.time i := by
  have hgiven := h.timestamp
  cases hc : c.timestamp with
  | some timestamp =>
    rw [hc] at hgiven
    obtain ⟨v, hv, hvalue⟩ := exists_of_rel_some hgiven
    simp [hv, hvalue]
  | none =>
    rw [hc] at hgiven
    rw [eq_none_of_rel_none hgiven, Option.getD_none, valueToUInt64]
    by_cases hpos : 0 ≤ env.time i
    · simp [hpos]
    · simp [hpos]

omit [Keccak] [BoostJson] in
theorem HexText.head_ne {s bs : Bytes} (h : HexText s bs) (path : Bytes) : s ≠ 64 :: path := by
  rintro rfl
  rcases h with h | ⟨s', heq, -⟩
  · cases h with
    | cons hh hl hs => cases hh
  · cases heq

omit [Keccak] in
/-- The data that are read are those of the client. -/
theorem data_iff (h : InJson env.readAllText o c) {s : Bytes}
    (hs : (Json.object o).at (ascii "data") = some (.string s)) :
    (∃ text, dataText env.readAllText s = some text ∧
        (if c.type = .evm then fromHexBytes text else some text) = some c.data) ↔
      (c.type ≠ .evm → ∀ path, (Json.object o).at (ascii "data") = some (.string (64 :: path)) →
        env.readAllText path = some c.data) := by
  obtain ⟨s', hs', hdata⟩ := h.data
  obtain rfl : s' = s := Json.string.inj (Option.some.inj (hs'.symm.trans hs))
  have hliteral : (∀ path, s' ≠ 64 :: path) → dataText env.readAllText s' = some s' := by
    intro hne
    unfold dataText
    split
    · next path => exact absurd rfl (hne path)
    · rfl
  rcases hdata with hdata | ⟨path, text, rfl, hread, hdata⟩
  · by_cases hevm : c.type = .evm
    · -- digits do not name a file
      have htext : HexText s' c.data := by
        rwa [DataText, if_pos hevm] at hdata
      exact iff_of_true ⟨s', hliteral htext.head_ne, read_of_dataText hdata⟩
        fun hne => absurd hevm hne
    · simp only [hevm, if_false, ne_eq, not_false_iff, forall_const, hs]
      rw [DataText, if_neg hevm] at hdata
      by_cases hfile : ∃ path, s' = 64 :: path
      · obtain ⟨path, rfl⟩ := hfile
        simp [dataText, Option.some.injEq]
      · have hne : ∀ path, s' ≠ 64 :: path := fun path heq => hfile ⟨path, heq⟩
        refine iff_of_true ⟨s', hliteral hne, by rw [hdata]⟩ ?_
        intro path heq
        exact absurd (Json.string.inj (Option.some.inj heq)) (hne path)
  · refine iff_of_true ⟨text, hread, read_of_dataText hdata⟩ ?_
    intro hevm path' hpath
    rw [hs] at hpath
    obtain rfl := (List.cons.inj (Json.string.inj (Option.some.inj hpath))).2
    rw [DataText, if_neg hevm] at hdata
    rw [hread, hdata]

/-- **One transaction**: what is read from JSON is what is read from protobuf. -/
theorem jsonTx_eq_iff (h : InJson env.readAllText o c) :
    (prepare env i o).bind Tx.fromJson0 = some (c.toTx c.senderInPb c.data (env.time i)) ↔
      Unambiguous env i o c := by
  obtain ⟨s, hs, -⟩ := h.data
  have htime := time_iff (i := i) h
  have hdata := data_iff h hs
  have hsender := c.senderInJson_eq_senderInPb_iff
  constructor
  · intro heq
    rcases prepare_spec env i hs with ⟨-, hprep⟩ | ⟨text, o', htext, hprep, hp⟩
    · rw [hprep] at heq
      cases heq
    · rw [hprep, Option.bind_some, fromJson0_eq h hp] at heq
      obtain ⟨timestamp, hvalue, heq⟩ := Option.bind_eq_some_iff.1 heq
      obtain ⟨data, hread, heq⟩ := Option.bind_eq_some_iff.1 heq
      have heq := Option.some.inj heq
      simp only [ClientTx.toTx, Tx.mk.injEq, true_and] at heq
      obtain ⟨hfrom, rfl, htimestamp⟩ := heq
      exact ⟨htime.1 ⟨timestamp, hvalue, htimestamp⟩, hsender.1 hfrom, hdata.1 ⟨text, htext, hread⟩⟩
  · intro hc
    obtain ⟨timestamp, hvalue, htimestamp⟩ := htime.2 hc.timestamp
    obtain ⟨text, htext, hread⟩ := hdata.2 hc.data
    rcases prepare_spec env i hs with ⟨hnone, -⟩ | ⟨text', o', htext', hprep, hp⟩
    · rw [hnone] at htext
      cases htext
    · obtain rfl : text' = text := Option.some.inj (htext'.symm.trans htext)
      rw [hprep, Option.bind_some, fromJson0_eq h hp, hvalue, Option.bind_some, hread,
        Option.bind_some, htimestamp, hsender.2 hc.pkPem]

end Step

/-! ### The parsers -/

section Parsers

variable [Keccak] [BoostJson] [BoostJsonSerialize]

/-- `parse_txs_json_for_rpc`. -/
def parseTxsJsonForRpc (verifier : Option (Tx → Bool)) (env : Env) (a : List Json) :
    Option (Bytes × List Tx) :=
  (txsFromJson verifier env 0 a).map fun txs =>
    (BoostJsonSerialize.serialize (.array (txs.map jsonReply)), txs)

theorem parseTxsJsonStringForRpc_eq (verifier : Option (Tx → Bool)) (env : Env) (s : Bytes) :
    parseTxsJsonStringForRpc verifier env s =
      (BoostJson.parse s).bind fun v => v.asArray.bind fun a =>
        parseTxsJsonForRpc verifier env a := by
  simp only [parseTxsJsonStringForRpc, parseTxsJsonForRpc, Option.bind_eq_bind,
    Option.map_eq_bind]
  rfl

variable [Pb hiPb.Txs] [Pb hiPb.AddTxsReply]

omit [BoostJson] [BoostJsonSerialize] [Pb hiPb.Txs] in
/-- `parse_txs_pb_for_rpc`. -/
def parseTxsPbForRpc (verifier : Option (Tx → Bool)) (env : Env) (pb : hiPb.Txs) :
    Option (Bytes × List Tx) :=
  (txsFromPb verifier env 0 pb.txs).map fun txs =>
    (serializeAsString (⟨txs.map pbReply⟩ : hiPb.AddTxsReply), txs)

omit [BoostJson] [BoostJsonSerialize] in
theorem parseTxsPbStringForRpc_eq (verifier : Option (Tx → Bool)) (env : Env) (s : Bytes) :
    parseTxsPbStringForRpc verifier env s =
      if (parseFromString (M := hiPb.Txs) s).1 then
        parseTxsPbForRpc verifier env (parseFromString (M := hiPb.Txs) s).2
      else none := rfl

/-- Two answers for a transaction tell the client the same: the hash, and the address of the
contract if there is one. -/
structure SameReply (r : Json) (pb : hiPb.AddTxReply) : Prop where
  hash : ∃ s, r.at (ascii "hash") = some (.string s) ∧ HexText s pb.hash
  deployedAddr : (r.at (ascii "deployed_address") = none ∧ pb.deployedAddr = []) ∨
    ∃ s bs a, r.at (ascii "deployed_address") = some (.string s) ∧ HexText s bs ∧
      AddressBytes bs a ∧ AddressBytes pb.deployedAddr a

omit [Keccak] [BoostJson] [BoostJsonSerialize] [Pb hiPb.Txs] [Pb hiPb.AddTxsReply] in
theorem hexDigits_hex (bs : Bytes) : HexDigits (hex bs) bs := by
  induction bs with
  | nil => exact .nil
  | cons b bs ih =>
    obtain ⟨hhigh, hlow, hb⟩ := fromHexDigit_hexDigit b
    change HexDigits (hexDigit (b >>> 4) :: hexDigit (b &&& 15) :: hex bs) (b :: bs)
    have hcons := HexDigits.cons hhigh hlow ih
    rwa [hb] at hcons

omit [Keccak] [BoostJson] [BoostJsonSerialize] [Pb hiPb.Txs] [Pb hiPb.AddTxsReply] in
theorem addressBytes_toByteStringAddress (a : Address) :
    AddressBytes (toByteStringAddress a) a := by
  have hle : (toByteStringAddress a).length ≤ 20 := by
    have := (List.dropWhile_sublist (· == 0) (l := a.bytes)).length_le
    rwa [a.size] at this
  have hpad := replicate_append_dropWhile a.bytes
  rw [a.size] at hpad
  exact ⟨hle, hpad.symm⟩

omit [BoostJson] [BoostJsonSerialize] [Pb hiPb.Txs] [Pb hiPb.AddTxsReply] in
/-- What is answered for a transaction is the same in both formats. -/
theorem sameReply (t : Tx) : SameReply (jsonReply t) (pbReply t) := by
  refine ⟨⟨hashToString t.hash, rfl, .inl (hexDigits_hex _)⟩, ?_⟩
  by_cases hdeploys : deploys t
  · refine .inr ⟨addressToString t.getContractDeployAddress,
      t.getContractDeployAddress.bytes, t.getContractDeployAddress, ?_, .inl (hexDigits_hex _),
      ⟨Nat.le_of_eq t.getContractDeployAddress.size, by simp [FixedBytes.size]⟩, ?_⟩
    · rw [jsonReply, if_pos hdeploys]
      rfl
    · rw [pbReply, if_pos hdeploys]
      exact addressBytes_toByteStringAddress _
  · refine .inl ⟨?_, ?_⟩
    · rw [jsonReply, if_neg hdeploys]
      rfl
    · rw [pbReply, if_neg hdeploys]

omit [Keccak] [BoostJson] [Pb hiPb.Txs] in
/-- The parsers agree: both refuse the request, or both read the same transactions and answer the
same for each of them. -/
def Agree (json pb : Option (Bytes × List Tx)) : Prop :=
  Option.Rel (fun x y => x.2 = y.2 ∧ ∃ rs ps, x.1 = BoostJsonSerialize.serialize (.array rs) ∧
    y.1 = serializeAsString (⟨ps⟩ : hiPb.AddTxsReply) ∧ List.Forall₂ SameReply rs ps) json pb

omit [Pb hiPb.Txs] in
/-- The answers follow from the transactions. -/
theorem agree_iff_txs {verifier : Option (Tx → Bool)} {env : Env} {a : List Json}
    {pb : hiPb.Txs} :
    Agree (parseTxsJsonForRpc verifier env a) (parseTxsPbForRpc verifier env pb) ↔
      txsFromJson verifier env 0 a = txsFromPb verifier env 0 pb.txs := by
  rw [Agree, parseTxsJsonForRpc, parseTxsPbForRpc]
  cases txsFromJson verifier env 0 a with
  | none => cases txsFromPb verifier env 0 pb.txs <;> simp
  | some txs =>
    cases txsFromPb verifier env 0 pb.txs with
    | none => simp
    | some txs' =>
      simp only [Option.map_some, Option.rel_some_some, Option.some.injEq]
      constructor
      · exact fun h => h.1
      · rintro rfl
        refine ⟨rfl, _, _, rfl, rfl, ?_⟩
        rw [List.forall₂_map_left_iff, List.forall₂_map_right_iff]
        exact List.forall₂_same.2 fun t _ => sameReply t

omit [BoostJsonSerialize] [Pb hiPb.Txs] [Pb hiPb.AddTxsReply]

theorem txsFromJson_cons (verifier : Option (Tx → Bool)) (env : Env) (i : ℕ)
    (o : List (Bytes × Json)) (vs : List Json) :
    txsFromJson verifier env i (.object o :: vs) =
      ((prepare env i o).bind Tx.fromJson0).bind fun t =>
        (txsFromJson verifier env (i + 1) vs).map fun ts =>
          if passes verifier t then t :: ts else ts := by
  simp only [txsFromJson, Json.asObject, Option.bind_eq_bind, Option.bind_some, Option.map_eq_bind,
    Option.bind_assoc]
  rfl

omit [BoostJson] in
theorem txsFromPb_cons {pb : hiPb.Tx} {c : ClientTx} (h : InPb pb c)
    (verifier : Option (Tx → Bool)) (env : Env) (i : ℕ) (pbs : List hiPb.Tx) :
    txsFromPb verifier env i (pb :: pbs) =
      (txsFromPb verifier env (i + 1) pbs).map fun ts =>
        let t := c.toTx c.senderInPb c.data (env.time i)
        if passes verifier t then t :: ts else ts := by
  rw [txsFromPb, fromPb_of_inPb h]
  simp only [Option.bind_eq_bind, Option.map_eq_bind]
  rfl

omit [BoostJson] in
/-- The indices of a list are that of its head and those of its tail. -/
theorem forall_unambiguous_cons {env : Env} {i : ℕ} {o : List (Bytes × Json)} {c : ClientTx}
    {os : List (List (Bytes × Json))} {cs : List ClientTx} :
    (∀ j o' c', (o :: os)[j]? = some o' → (c :: cs)[j]? = some c' →
        Unambiguous env (i + j) o' c') ↔
      Unambiguous env i o c ∧ ∀ j o' c', os[j]? = some o' → cs[j]? = some c' →
        Unambiguous env (i + 1 + j) o' c' := by
  constructor
  · intro h
    refine ⟨h 0 o c rfl rfl, fun j o' c' ho hc => ?_⟩
    rw [Nat.add_assoc, Nat.add_comm 1 j]
    exact h (j + 1) o' c' ho hc
  · rintro ⟨hhead, htail⟩ j o' c' ho hc
    cases j with
    | zero =>
      obtain rfl := Option.some.inj ho
      obtain rfl := Option.some.inj hc
      exact hhead
    | succ j =>
      have := htail j o' c' ho hc
      rwa [Nat.add_assoc, Nat.add_comm 1 j] at this

/-- The transactions are the same for every verifier if the formats say the same about each. -/
theorem txs_eq_of_unambiguous {env : Env} {i : ℕ} {os : List (List (Bytes × Json))}
    {pbs : List hiPb.Tx} {cs : List ClientTx}
    (hjson : List.Forall₂ (InJson env.readAllText) os cs) (hpb : List.Forall₂ InPb pbs cs)
    (h : ∀ j o c, os[j]? = some o → cs[j]? = some c → Unambiguous env (i + j) o c)
    (verifier : Option (Tx → Bool)) :
    txsFromJson verifier env i (os.map .object) = txsFromPb verifier env i pbs := by
  induction hjson generalizing i pbs with
  | nil =>
    cases hpb
    rfl
  | cons ho _ ih =>
    cases hpb with
    | cons hp hpbs =>
      obtain ⟨hhead, htail⟩ := forall_unambiguous_cons.1 h
      rw [List.map_cons, txsFromJson_cons, txsFromPb_cons hp, (jsonTx_eq_iff ho).2 hhead,
        Option.bind_some, ih hpbs htail]

omit [BoostJson] in
/-- Protobuf is never refused. -/
theorem isSome_txsFromPb {pbs : List hiPb.Tx} {cs : List ClientTx} (hpb : List.Forall₂ InPb pbs cs)
    (verifier : Option (Tx → Bool)) (env : Env) (i : ℕ) :
    (txsFromPb verifier env i pbs).isSome = true := by
  induction hpb generalizing i with
  | nil => rfl
  | cons hp _ ih =>
    rw [txsFromPb_cons hp, Option.isSome_map]
    exact ih (i + 1)

/-- Without a verifier, the transactions are the same only if the formats say the same about each.
-/
theorem unambiguous_of_txs_eq {env : Env} {i : ℕ} {os : List (List (Bytes × Json))}
    {pbs : List hiPb.Tx} {cs : List ClientTx}
    (hjson : List.Forall₂ (InJson env.readAllText) os cs) (hpb : List.Forall₂ InPb pbs cs)
    (h : txsFromJson none env i (os.map .object) = txsFromPb none env i pbs) :
    ∀ j o c, os[j]? = some o → cs[j]? = some c → Unambiguous env (i + j) o c := by
  induction hjson generalizing i pbs with
  | nil => exact fun j o c ho _ => absurd ho (by simp)
  | @cons o c os cs ho _ ih =>
    cases hpb with
    | @cons pb _ pbs _ hp hpbs =>
      obtain ⟨ts, hts⟩ := Option.isSome_iff_exists.1 (isSome_txsFromPb hpbs none env (i + 1))
      rw [List.map_cons, txsFromJson_cons, txsFromPb_cons hp, hts] at h
      obtain ⟨t, ht, hrest⟩ := Option.bind_eq_some_iff.1 h
      obtain ⟨ts', hts', hcons⟩ := Option.map_eq_some_iff.1 hrest
      -- everything passes
      obtain ⟨rfl, rfl⟩ := List.cons.inj hcons
      exact forall_unambiguous_cons.2 ⟨(jsonTx_eq_iff ho).1 ht, ih hpbs (hts'.trans hts.symm)⟩

variable [BoostJsonSerialize] [Pb hiPb.AddTxsReply]

/-- **The two entries agree** on a request, whatever the verifier, if and only if the formats say
the same about each of its transactions: the client gives no time other than that of the node, no
empty key, and no data that look like the name of a file and are not. -/
theorem agree_iff {env : Env} {os : List (List (Bytes × Json))} {pbs : List hiPb.Tx}
    {cs : List ClientTx} (hjson : List.Forall₂ (InJson env.readAllText) os cs)
    (hpb : List.Forall₂ InPb pbs cs) :
    (∀ verifier : Option (Tx → Bool), Agree (parseTxsJsonForRpc verifier env (os.map .object))
        (parseTxsPbForRpc verifier env ⟨pbs⟩)) ↔
      ∀ i o c, os[i]? = some o → cs[i]? = some c → Unambiguous env i o c := by
  constructor
  · intro h i o c ho hc
    have heq := agree_iff_txs.1 (h none)
    simpa using unambiguous_of_txs_eq hjson hpb heq i o c ho hc
  · intro h verifier
    refine agree_iff_txs.2 (txs_eq_of_unambiguous hjson hpb ?_ verifier)
    simpa using h

end Parsers

/-! ### Every transaction can be said in both formats -/

namespace ClientTx

/-- The object that a client posts. -/
def toJson (c : ClientTx) : List (Bytes × Json) :=
  (c.pkPem.map fun s => (ascii "pk_pem", .string s)).toList ++
    (c.fromAddr.map fun a => (ascii "from", .string (addressToString a))).toList ++
    [(ascii "to", .string (addressToString c.toAddr)),
      (ascii "data", .string (if c.type = .evm then hex c.data else c.data)),
      (ascii "nonce", .uint64 c.nonce),
      (ascii "type", .string (match c.type with
        | .evm => ascii "evm"
        | .data => ascii "data"
        | .python => ascii "python")),
      (ascii "signature", .string (hex c.signature)),
      (ascii "pk_crt", .string (hex c.pkCrt))] ++
    (c.timestamp.map fun n => (ascii "timestamp", .uint64 n)).toList

/-- The message that a client posts. -/
def toPb (c : ClientTx) : hiPb.Tx where
  type := c.type.toPb
  fromAddr := (c.fromAddr.map toByteStringAddress).getD []
  toAddr := toByteStringAddress c.toAddr
  data := c.data
  timestamp := c.timestamp.getD 0
  nonce := c.nonce
  pkPem := c.pkPem.getD []
  signature := c.signature
  pkCrt := c.pkCrt

theorem inPb_toPb (c : ClientTx) : InPb c.toPb c where
  pkPem := rfl
  fromAddr := by
    cases h : c.fromAddr with
    | none =>
      simp only [toPb, h, Option.map_none, Option.getD_none]
      exact ⟨by simp, by simp [FixedBytes.zero]⟩
    | some a =>
      simp only [toPb, h, Option.map_some, Option.getD_some]
      exact addressBytes_toByteStringAddress a
  toAddr := addressBytes_toByteStringAddress c.toAddr
  data := rfl
  nonce := rfl
  type := rfl
  signature := rfl
  pkCrt := rfl
  timestamp := rfl

theorem addressBytes_self (a : Address) : AddressBytes a.bytes a :=
  ⟨Nat.le_of_eq a.size, by simp [a.size]⟩

/-- The fields that are always there. -/
theorem at_toJson (c : ClientTx) {k : Bytes} (hpk : ascii "pk_pem" ≠ k) (hfrom : ascii "from" ≠ k)
    (htime : ascii "timestamp" ≠ k) :
    (Json.object c.toJson).at k = (Json.object
      [(ascii "to", .string (addressToString c.toAddr)),
        (ascii "data", .string (if c.type = .evm then hex c.data else c.data)),
        (ascii "nonce", .uint64 c.nonce),
        (ascii "type", .string (match c.type with
          | .evm => ascii "evm"
          | .data => ascii "data"
          | .python => ascii "python")),
        (ascii "signature", .string (hex c.signature)),
        (ascii "pk_crt", .string (hex c.pkCrt))]).at k := by
  simp only [toJson, Json.at_object, Entries.find?_append, Entries.find?_toList, if_neg hpk,
    if_neg hfrom, if_neg htime, Option.none_or, Option.or_none]

theorem inJson_toJson [BoostJson] (readAllText : Bytes → Option Bytes) (c : ClientTx) :
    InJson readAllText c.toJson c where
  pkPem := by
    have hat : (Json.object c.toJson).at (ascii "pk_pem") = c.pkPem.map .string := by
      simp only [toJson, Json.at_object, Entries.find?_append, Entries.find?_toList]
      cases c.pkPem <;> rfl
    rw [hat]
    cases c.pkPem <;> simp
  fromAddr := by
    have hat : (Json.object c.toJson).at (ascii "from") =
        c.fromAddr.map fun a => .string (addressToString a) := by
      simp only [toJson, Json.at_object, Entries.find?_append, Entries.find?_toList]
      cases c.fromAddr <;> rfl
    rw [hat]
    cases c.fromAddr with
    | none => exact .none
    | some a => exact .some ⟨_, a.bytes, rfl, .inl (hexDigits_hex _), addressBytes_self a⟩
  toAddr := by
    refine ⟨addressToString c.toAddr, c.toAddr.bytes, ?_, .inl (hexDigits_hex _),
      addressBytes_self _⟩
    rw [at_toJson c (by decide) (by decide) (by decide)]
    rfl
  data := by
    refine ⟨if c.type = .evm then hex c.data else c.data, ?_, .inl ?_⟩
    · rw [at_toJson c (by decide) (by decide) (by decide)]
      rfl
    · rw [DataText]
      split_ifs
      · exact .inl (hexDigits_hex _)
      · rfl
  nonce := by
    refine ⟨.uint64 c.nonce, ?_, rfl⟩
    rw [at_toJson c (by decide) (by decide) (by decide)]
    rfl
  type := by
    rw [at_toJson c (by decide) (by decide) (by decide)]
    cases c.type with
    | evm => exact .inr ⟨_, rfl, .inr rfl⟩
    | data => exact .inr ⟨_, rfl, rfl⟩
    | python => exact .inr ⟨_, rfl, rfl⟩
  signature := by
    refine .inr ⟨hex c.signature, ?_, .inl (hexDigits_hex _)⟩
    rw [at_toJson c (by decide) (by decide) (by decide)]
    rfl
  pkCrt := by
    refine .inr ⟨hex c.pkCrt, ?_, .inl (hexDigits_hex _)⟩
    rw [at_toJson c (by decide) (by decide) (by decide)]
    rfl
  timestamp := by
    have hat : (Json.object c.toJson).at (ascii "timestamp") = c.timestamp.map .uint64 := by
      simp only [toJson, Json.at_object, Entries.find?_append, Entries.find?_toList]
      cases c.timestamp <;> rfl
    rw [hat]
    cases c.timestamp with
    | none => exact .none
    | some n => exact .some rfl

end ClientTx

/-- A call of a contract, with or without a time. -/
def callTx (timestamp : Option UInt64) : ClientTx where
  pkPem := none
  fromAddr := some (makeAddress 1)
  toAddr := makeAddress 2
  data := [255, 255]
  nonce := 0
  type := .evm
  signature := []
  pkCrt := []
  timestamp := timestamp
  sender _ := by simp

/-- A node whose clock stands still, and on which there are no files. -/
def atTime (now : Int64) : Env := ⟨fun _ => now, fun _ => none⟩

/-- A call without a time. -/
theorem agree_iff_call :
    let _ : Keccak := Sponge.keccak
    let _ : BoostJson := ⟨fun _ => none, fun _ => none⟩
    let _ : BoostJsonSerialize := JsonText.serialize
    let _ : Pb hiPb.AddTxsReply := Wire.pb hiPb.AddTxsReply
    let c := callTx none
    (∀ verifier : Option (Tx → Bool),
        Agree (parseTxsJsonForRpc verifier (atTime 7) ([c.toJson].map .object))
          (parseTxsPbForRpc verifier (atTime 7) ⟨[c.toPb]⟩)) ↔
      ∀ i o c', [c.toJson][i]? = some o → [c][i]? = some c' →
        Unambiguous (atTime 7) i o c' := by
  intro _ _ _ _ c
  exact agree_iff (.cons (c.inJson_toJson _) .nil) (.cons c.inPb_toPb .nil)

/-- A call with a time that is not that of the node: it is kept in one format only. -/
theorem not_agree_of_timestamp :
    let _ : Keccak := Sponge.keccak
    let _ : BoostJson := ⟨fun _ => none, fun _ => none⟩
    let _ : BoostJsonSerialize := JsonText.serialize
    let _ : Pb hiPb.AddTxsReply := Wire.pb hiPb.AddTxsReply
    let c := callTx (some 5)
    InJson (atTime 7).readAllText c.toJson c ∧ InPb c.toPb c ∧
      ¬Agree (parseTxsJsonForRpc none (atTime 7) [.object c.toJson])
        (parseTxsPbForRpc none (atTime 7) ⟨[c.toPb]⟩) := by
  intro _ _ _ _ c
  have hjson : InJson (atTime 7).readAllText c.toJson c := c.inJson_toJson _
  refine ⟨hjson, c.inPb_toPb, fun hagree => ?_⟩
  have hclear := unambiguous_of_txs_eq (.cons hjson .nil) (.cons c.inPb_toPb .nil)
    (agree_iff_txs.1 hagree) 0 c.toJson c rfl rfl
  have htime : (5 : UInt64).toInt64 = 7 := hclear.timestamp
  exact absurd htime (by decide)

end Rpc

end WeakChain
