import Mathlib.Data.List.Basic
import Mathlib.Tactic.SplitIfs

/-!
# The proto3 wire format

A message travels as a sequence of *fields*.  A field is a number and a payload: a base-128 varint
(wire type 0) or a string of bytes with its length in front (wire type 2), which are the two types
the messages of this development have.  Fields with their default value are left out, the last one
counts where a field occurs several times, and a repeated field is the list of its occurrences.

* `Wire.decode_encode` : **what is written is read back**, field by field.
* `Wire.Message` : how the fields make up a message; `Wire.Message.parse_serialize` is the round
  trip for whole messages.

A parser that fails has already filled in what it read before, so `decode` returns the fields up to
the failure together with a flag.
-/

namespace WeakChain

namespace Wire

/-! ### Varints -/

/-- Seven bits a byte, lowest first; `fuel` bounds the number of bytes. -/
def varintAux : ℕ → ℕ → List UInt8
  | 0, n => [UInt8.ofNat n]
  | fuel + 1, n =>
    if n < 128 then [UInt8.ofNat n] else UInt8.ofNat (128 + n % 128) :: varintAux fuel (n / 128)

/-- The base-128 varint of `n`. -/
def varint (n : ℕ) : List UInt8 := varintAux n n

/-- Read a varint off the front. -/
def readVarint : List UInt8 → Option (ℕ × List UInt8)
  | [] => none
  | b :: bs =>
    if b.toNat < 128 then some (b.toNat, bs)
    else (readVarint bs).map fun r => (b.toNat - 128 + 128 * r.1, r.2)

theorem readVarint_varintAux {fuel n : ℕ} (h : n ≤ fuel) (rest : List UInt8) :
    readVarint (varintAux fuel n ++ rest) = some (n, rest) := by
  induction fuel generalizing n with
  | zero =>
    obtain rfl : n = 0 := by omega
    rfl
  | succ fuel ih =>
    simp only [varintAux]
    split_ifs with hn
    · have hb : (UInt8.ofNat n).toNat = n := by simp; omega
      simp [readVarint, hb, hn]
    · have hb : (UInt8.ofNat (128 + n % 128)).toNat = 128 + n % 128 := by simp; omega
      have hrec := ih (n := n / 128) (by omega)
      simp only [List.cons_append, readVarint, hb, hrec, Option.map_some]
      rw [if_neg (by omega)]
      congr 2
      omega

theorem readVarint_varint (n : ℕ) (rest : List UInt8) :
    readVarint (varint n ++ rest) = some (n, rest) :=
  readVarint_varintAux (Nat.le_refl n) rest

theorem varintAux_ne_nil (fuel n : ℕ) : varintAux fuel n ≠ [] := by
  cases fuel with
  | zero => simp [varintAux]
  | succ fuel =>
    simp only [varintAux]
    split_ifs <;> simp

/-! ### Fields -/

/-- What a field carries. -/
inductive Payload
  | varint (n : ℕ)
  | len (bs : List UInt8)
  deriving DecidableEq

/-- A field: its number and its payload. -/
abbrev Field := ℕ × Payload

/-- A field on the wire. -/
def encodeField : Field → List UInt8
  | (k, .varint n) => varint (8 * k) ++ varint n
  | (k, .len bs) => varint (8 * k + 2) ++ (varint bs.length ++ bs)

/-- A sequence of fields on the wire. -/
def encode (fs : List Field) : List UInt8 := fs.flatMap encodeField

/-- Read a field off the front. -/
def readField (bs : List UInt8) : Option (Field × List UInt8) :=
  match readVarint bs with
  | none => none
  | some (tag, bs) =>
    match readVarint bs with
    | none => none
    | some (n, bs) =>
      if tag % 8 = 0 then some ((tag / 8, .varint n), bs)
      else if tag % 8 = 2 ∧ n ≤ bs.length then some ((tag / 8, .len (bs.take n)), bs.drop n)
      else none

/-- Read at most `fuel` fields: those before the first that cannot be read, and whether all of the
input could be read. -/
def decodeAux : ℕ → List UInt8 → List Field × Bool
  | 0, bs => ([], bs.isEmpty)
  | fuel + 1, bs =>
    if bs = [] then ([], true)
    else
      match readField bs with
      | none => ([], false)
      | some (f, bs) =>
        let r := decodeAux fuel bs
        (f :: r.1, r.2)

/-- Read all the fields. -/
def decode (bs : List UInt8) : List Field × Bool := decodeAux bs.length bs

theorem readField_encodeField (f : Field) (rest : List UInt8) :
    readField (encodeField f ++ rest) = some (f, rest) := by
  obtain ⟨k, n | bs⟩ := f
  · simp only [readField, encodeField, List.append_assoc, readVarint_varint]
    rw [if_pos (by omega)]
    congr 3
    omega
  · simp only [readField, encodeField, List.append_assoc, readVarint_varint]
    rw [if_neg (by omega), if_pos ⟨by omega, by simp⟩]
    simp only [List.take_left, List.drop_left]
    congr 3
    omega

theorem encodeField_ne_nil (f : Field) : encodeField f ≠ [] := by
  obtain ⟨k, n | bs⟩ := f
  · simp [encodeField, varint, varintAux_ne_nil]
  · simp [encodeField, varint, varintAux_ne_nil]

theorem decodeAux_encode {fuel : ℕ} (fs : List Field) (h : fs.length ≤ fuel) :
    decodeAux fuel (encode fs) = (fs, true) := by
  induction fs generalizing fuel with
  | nil => cases fuel <;> rfl
  | cons f fs ih =>
    obtain ⟨fuel, rfl⟩ : ∃ k, fuel = k + 1 := ⟨fuel - 1, by simp at h; omega⟩
    -- there is a byte to read, and the rest is shorter
    have hne : encodeField f ++ encode fs ≠ [] := by simp [encodeField_ne_nil]
    simp only [encode, List.flatMap_cons] at hne ⊢
    simp only [decodeAux, hne, ↓reduceIte]
    rw [readField_encodeField]
    have := ih (show fs.length ≤ fuel by simpa using h)
    rw [encode] at this
    simp only [this]

theorem length_le_encode (fs : List Field) : fs.length ≤ (encode fs).length := by
  induction fs with
  | nil => simp
  | cons f fs ih =>
    have := List.length_pos_iff.2 (encodeField_ne_nil f)
    simp only [encode, List.flatMap_cons, List.length_append, List.length_cons] at ih ⊢
    omega

/-- **What is written is read back.** -/
theorem decode_encode (fs : List Field) : decode (encode fs) = (fs, true) :=
  decodeAux_encode fs (length_le_encode fs)

/-! ### Fields with defaults -/

/-- The varints with number `k`. -/
def varints (k : ℕ) (fs : List Field) : List ℕ :=
  fs.filterMap fun f => match f with
    | (j, .varint n) => if j = k then some n else none
    | (_, .len _) => none

/-- The strings with number `k`. -/
def lens (k : ℕ) (fs : List Field) : List (List UInt8) :=
  fs.filterMap fun f => match f with
    | (_, .varint _) => none
    | (j, .len bs) => if j = k then some bs else none

/-- The value of a number field. -/
def getVarint (k : ℕ) (fs : List Field) : ℕ := (varints k fs).getLast?.getD 0

/-- The value of a string field. -/
def getLen (k : ℕ) (fs : List Field) : List UInt8 := (lens k fs).getLast?.getD []

/-- A number field, left out if it has its default. -/
def putVarint (k n : ℕ) : List Field := if n = 0 then [] else [(k, .varint n)]

/-- A string field, left out if it has its default. -/
def putLen (k : ℕ) (bs : List UInt8) : List Field := if bs = [] then [] else [(k, .len bs)]

/-- A repeated string field. -/
def putLens (k : ℕ) (l : List (List UInt8)) : List Field := l.map fun bs => (k, .len bs)

section Simp

variable (j k n : ℕ) (bs : List UInt8) (l : List (List UInt8)) (fs fs' : List Field)

@[simp] theorem varints_append : varints k (fs ++ fs') = varints k fs ++ varints k fs' :=
  List.filterMap_append

@[simp] theorem lens_append : lens k (fs ++ fs') = lens k fs ++ lens k fs' :=
  List.filterMap_append

@[simp] theorem varints_putVarint :
    varints k (putVarint j n) = if j = k ∧ n ≠ 0 then [n] else [] := by
  by_cases hn : n = 0 <;> by_cases hj : j = k <;> simp [varints, putVarint, hn, hj]

@[simp] theorem varints_putLen : varints k (putLen j bs) = [] := by
  by_cases hb : bs = [] <;> simp [varints, putLen, hb]

@[simp] theorem varints_putLens : varints k (putLens j l) = [] := by
  simp [varints, putLens]

@[simp] theorem lens_putVarint : lens k (putVarint j n) = [] := by
  by_cases hn : n = 0 <;> simp [lens, putVarint, hn]

@[simp] theorem lens_putLen :
    lens k (putLen j bs) = if j = k ∧ bs ≠ [] then [bs] else [] := by
  by_cases hb : bs = [] <;> by_cases hj : j = k <;> simp [lens, putLen, hb, hj]

@[simp] theorem lens_putLens : lens k (putLens j l) = if j = k then l else [] := by
  by_cases hj : j = k
  · simp [lens, putLens, hj]
  · simp [lens, putLens, hj]

@[simp] theorem getD_getLast?_ite_zero :
    (if n = 0 then [] else [n]).getLast?.getD 0 = n := by
  by_cases hn : n = 0 <;> simp [hn]

@[simp] theorem getD_getLast?_ite_nil :
    (if bs = [] then [] else [bs]).getLast?.getD [] = bs := by
  by_cases hb : bs = [] <;> simp [hb]

end Simp

/-! ### Messages -/

/-- A type of messages: its fields on the wire, and how they are read. -/
class Message (M : Type) where
  /-- The fields of a message. -/
  toFields : M → List Field
  /-- The message with the given fields, and whether they could all be read. -/
  ofFields : List Field → Bool × M
  /-- What is written is read back. -/
  ofFields_toFields : ∀ m, ofFields (toFields m) = (true, m)

namespace Message

variable {M : Type} [Message M]

/-- A message on the wire. -/
def serialize (m : M) : List UInt8 := encode (toFields m)

/-- Read a message: whether the input is well formed, and what could be read. -/
def parse (bs : List UInt8) : Bool × M :=
  let r := decode bs
  let m := ofFields r.1
  (r.2 && m.1, m.2)

/-- **Messages are read back.** -/
theorem parse_serialize (m : M) : parse (serialize m) = (true, m) := by
  simp [parse, serialize, decode_encode, ofFields_toFields]

/-- The messages of a repeated field. -/
def parseAll (l : List (List UInt8)) : Bool × List M :=
  (l.all fun bs => (parse (M := M) bs).1, l.map fun bs => (parse bs).2)

theorem parseAll_map_serialize (ms : List M) : parseAll (ms.map serialize) = (true, ms) := by
  simp [parseAll, parse_serialize, Function.comp_def]

end Message

end Wire

end WeakChain
