import Mathlib.Algebra.GroupWithZero.Nat
import Mathlib.Algebra.Ring.Int.Defs
import Mathlib.Data.List.Basic
import Mathlib.Tactic.SplitIfs

/-!
# Byte strings and machine integers

A C++ `string` or `evmc::bytes` is a list of bytes (`Bytes`); `evmc::address`, `evmc::bytes32` and
`ethash::hash256` are byte arrays of a fixed size (`FixedBytes n`).  This file has the conversions
between them that the serializers use: the zero-trimming `toByteString<address>` and its inverse
`fromByteString<address>` (`fromByteStringAddress_toByteStringAddress`), the exact conversions of
the other fixed-size types, the big-endian, decimal and hexadecimal forms of numbers and hashes, and
the conversions of machine integers.
-/

namespace WeakChain

/-- A C++ string: any bytes. -/
abbrev Bytes := List UInt8

instance : LawfulBEq Bytes := inferInstance

/-- The bytes of an ASCII literal. -/
def ascii (s : String) : Bytes := s.toList.map fun c => UInt8.ofNat c.toNat

/-- A type with a member `uint8_t bytes[n]`. -/
structure FixedBytes (n : ℕ) where
  /-- The array. -/
  bytes : Bytes
  /-- Its size. -/
  size : bytes.length = n
  deriving DecidableEq

namespace FixedBytes

variable {n : ℕ}

@[ext] theorem ext {a b : FixedBytes n} (h : a.bytes = b.bytes) : a = b := by
  cases a; cases b; cases h; rfl

/-- The value-initialised array: all zeros. -/
def zero (n : ℕ) : FixedBytes n := ⟨List.replicate n 0, List.length_replicate⟩

instance : Inhabited (FixedBytes n) := ⟨zero n⟩

end FixedBytes

/-- `evmc::address`. -/
abbrev Address := FixedBytes 20

instance : LawfulBEq Address := inferInstance

/-- `ethash::hash256`. -/
abbrev Hash256 := FixedBytes 32

/-- `evmc::bytes32`. -/
abbrev Bytes32 := FixedBytes 32

/-! ### Fixed-size types as strings -/

/-- `toByteString` for the types that are written in full. -/
def toByteString {n : ℕ} (t : FixedBytes n) : Bytes := t.bytes

/-- `lexical_cast<string>` of an unsigned integer. -/
def decimal (n : ℕ) : Bytes := (Nat.toDigits 10 n).map fun c => UInt8.ofNat c.toNat

/-- `lexical_cast<string>` and `std::to_string` of an `int`. -/
def decimalInt (n : Int32) : Bytes :=
  if n < 0 then ascii "-" ++ decimal n.toInt.natAbs else decimal n.toInt.natAbs

/-- `fromByteString` for the types that are read in full: the size must be exact.  `name` is the
name of the type in the message of the exception. -/
def fromByteString (name : Bytes) (n : ℕ) (s : Bytes) : Except Bytes (FixedBytes n) :=
  if h : s.length = n then .ok ⟨s, h⟩
  else .error (ascii "Invalid size for " ++ name ++ ascii ", should be " ++ decimal n ++
    ascii ", but got " ++ decimal s.length)

/-- `toByteString<address>` skips the leading zeros. -/
def toByteStringAddress (t : Address) : Bytes := t.bytes.dropWhile (· == 0)

/-- `fromByteString<address>` puts the leading zeros back and refuses more than 20 bytes. -/
def fromByteStringAddress (s : Bytes) : Except Bytes Address :=
  if h : s.length ≤ 20 then
    .ok ⟨List.replicate (20 - s.length) 0 ++ s, by simp; omega⟩
  else .error (ascii "Invalid size for address, should be at most 20, but got " ++ decimal s.length)

@[simp] theorem fromByteString_toByteString {n : ℕ} (name : Bytes) (t : FixedBytes n) :
    fromByteString name n (toByteString t) = .ok t := by
  simp [fromByteString, toByteString, t.size]

/-- Dropping the leading zeros and padding to the old length gives the string back. -/
theorem replicate_append_dropWhile (l : Bytes) :
    List.replicate (l.length - (l.dropWhile (· == 0)).length) 0 ++ l.dropWhile (· == 0) = l := by
  induction l with
  | nil => rfl
  | cons b l ih =>
    by_cases hb : b = 0
    · have hle : (l.dropWhile (· == 0)).length ≤ l.length :=
        (List.dropWhile_sublist _).length_le
      -- one more zero to pad with
      have hsucc : l.length + 1 - (l.dropWhile (· == 0)).length =
          (l.length - (l.dropWhile (· == 0)).length) + 1 := by omega
      rw [List.dropWhile_cons_of_pos (by simpa using hb), List.length_cons, hsucc,
        List.replicate_succ, List.cons_append, ih, hb]
    · rw [List.dropWhile_cons_of_neg (by simpa using hb), Nat.sub_self]
      rfl

@[simp] theorem fromByteStringAddress_toByteStringAddress (t : Address) :
    fromByteStringAddress (toByteStringAddress t) = .ok t := by
  have hle : (toByteStringAddress t).length ≤ 20 := by
    have := (List.dropWhile_sublist (· == 0) (l := t.bytes)).length_le
    rwa [t.size] at this
  have hpad := replicate_append_dropWhile t.bytes
  rw [t.size] at hpad
  simp only [fromByteStringAddress, hle, ↓reduceDIte, Except.ok.injEq]
  exact FixedBytes.ext hpad

/-! ### Numbers as strings -/

/-- `intx::be::store` of a 64-bit integer. -/
def be64 (x : UInt64) : Bytes :=
  [56, 48, 40, 32, 24, 16, 8, 0].map fun k : UInt64 => (x >>> k).toUInt8

/-- The value of a string of digits, after digits with the value `n`. -/
def digitsValue : ℕ → Bytes → Option ℕ
  | n, [] => some n
  | n, c :: s => if 48 ≤ c ∧ c ≤ 57 then digitsValue (10 * n + (c.toNat - 48)) s else none

/-- The value of a sign and a string of digits, if it is in the range of an `int`. -/
def intValue (neg : Bool) (s : Bytes) : Option ℤ :=
  if s = [] then none
  else (digitsValue 0 s).bind fun n =>
    let x : ℤ := if neg then -n else n
    if -2147483648 ≤ x ∧ x ≤ 2147483647 then some x else none

/-- `lexical_cast<int>` of a string: an optional sign and digits. -/
def lexicalCastInt (s : Bytes) : Option ℤ :=
  match s with
  | 45 :: s => intValue true s
  | 43 :: s => intValue false s
  | s => intValue false s

theorem digitsValue_append (n : ℕ) (s t : Bytes) :
    digitsValue n (s ++ t) = (digitsValue n s).bind fun m => digitsValue m t := by
  induction s generalizing n with
  | nil => rfl
  | cons c s ih =>
    rw [List.cons_append, digitsValue, digitsValue]
    split_ifs
    · exact ih _
    · rfl

theorem digitsValue_digitChar {n d : ℕ} (hd : d < 10) :
    digitsValue n [UInt8.ofNat d.digitChar.toNat] = some (10 * n + d) := by
  have hdigit : ∀ d < 10, (48 ≤ UInt8.ofNat (Nat.digitChar d).toNat ∧
      UInt8.ofNat (Nat.digitChar d).toNat ≤ 57) ∧
      (UInt8.ofNat (Nat.digitChar d).toNat).toNat - 48 = d := by decide
  obtain ⟨hrange, hvalue⟩ := hdigit d hd
  rw [digitsValue, if_pos hrange, hvalue]
  rfl

theorem digitsValue_decimal (n : ℕ) : digitsValue 0 (decimal n) = some n := by
  induction n using Nat.strongRecOn with
  | ind n ih =>
    by_cases hn : n < 10
    · rw [decimal, Nat.toDigits_of_lt_base hn]
      simpa using digitsValue_digitChar (n := 0) hn
    · rw [decimal, Nat.toDigits_of_base_le (by omega) (by omega), List.map_append,
        digitsValue_append]
      have hdiv := ih (n / 10) (by omega)
      rw [decimal] at hdiv
      rw [hdiv]
      refine (digitsValue_digitChar (Nat.mod_lt n (by omega))).trans ?_
      rw [Nat.div_add_mod]

/-- An `int` is read back. -/
theorem lexicalCastInt_decimal {n : ℕ} (h : n ≤ 2147483647) :
    lexicalCastInt (decimal n) = some (n : ℤ) := by
  have hvalue := digitsValue_decimal n
  unfold lexicalCastInt
  split
  -- a sign is not a digit
  · next s hs => simp [hs, digitsValue] at hvalue
  · next s hs => simp [hs, digitsValue] at hvalue
  · have hne : decimal n ≠ [] := by
      simp [decimal, Nat.toDigits_ne_nil]
    rw [intValue, if_neg hne, hvalue]
    simp only [Option.bind_some, Bool.false_eq_true, if_false]
    rw [if_pos (by omega)]

theorem le_of_intValue {neg : Bool} {s : Bytes} {x : ℤ} (h : intValue neg s = some x) :
    x ≤ 2147483647 := by
  by_cases hs : s = []
  · rw [intValue, if_pos hs] at h
    cases h
  rw [intValue, if_neg hs] at h
  obtain ⟨n, -, hn⟩ := Option.bind_eq_some_iff.1 h
  dsimp only at hn
  generalize (if neg = true then -(n : ℤ) else n) = y at hn
  split_ifs at hn with hrange
  obtain rfl := Option.some.inj hn
  exact hrange.2

theorem le_of_lexicalCastInt {s : Bytes} {x : ℤ} (h : lexicalCastInt s = some x) :
    x ≤ 2147483647 := by
  unfold lexicalCastInt at h
  split at h
  all_goals exact le_of_intValue h

/-- **A number is determined by its decimal form.** -/
theorem decimal_injective : Function.Injective decimal := by
  intro m n h
  have hm := digitsValue_decimal m
  rw [h, digitsValue_decimal n] at hm
  exact (Option.some.inj hm).symm

/-- `evmc::hex` of one nibble. -/
def hexDigit (n : UInt8) : UInt8 := if n < 10 then 48 + n else 87 + n

/-- `evmc::hex`: two lower-case digits a byte. -/
def hex (bs : Bytes) : Bytes :=
  bs.flatMap fun b : UInt8 => [hexDigit (b >>> 4), hexDigit (b &&& 15)]

/-- `evmc::internal::from_hex_digit`. -/
def fromHexDigit (h : UInt8) : Option UInt8 :=
  if 48 ≤ h ∧ h ≤ 57 then some (h - 48)
  else if 97 ≤ h ∧ h ≤ 102 then some (h - 97 + 10)
  else if 65 ≤ h ∧ h ≤ 70 then some (h - 65 + 10)
  else none

/-- The loop of `evmc::from_hex`, from position `i` on and with the last high nibble.  An `x` after
a leading zero is skipped. -/
def fromHexLoop : ℕ → Option UInt8 → Bytes → Option Bytes
  | i, _, [] => if i % 2 = 0 then some [] else none
  | i, hi, h :: s =>
    match fromHexDigit h with
    | none => if i = 1 ∧ hi = some 0 ∧ h = 120 then fromHexLoop (i + 1) hi s else none
    | some v =>
      if i % 2 = 0 then fromHexLoop (i + 1) (some (v <<< 4)) s
      else (fromHexLoop (i + 1) hi s).map ((hi.getD 0 ||| v) :: ·)

/-- `evmc::from_hex<T>`: the digits are written from the middle of an array of zeros on, such that
they end with it. -/
def fromHex (n : ℕ) (s : Bytes) : Option (FixedBytes n) :=
  let s := match s with
    | 48 :: 120 :: t => t
    | _ => s
  if n < s.length / 2 then none
  else
    (fromHexLoop 0 none s).map fun bs =>
      ⟨(List.replicate (n - s.length / 2) 0 ++ bs ++ List.replicate n 0).take n, by
        simp; omega⟩

/-- Both digits of a byte are read back. -/
theorem fromHexDigit_hexDigit (b : UInt8) :
    fromHexDigit (hexDigit (b >>> 4)) = some (b >>> 4) ∧
      fromHexDigit (hexDigit (b &&& 15)) = some (b &&& 15) ∧
      (b >>> 4) <<< 4 ||| (b &&& 15) = b := by
  have hall : ∀ n < 256,
      fromHexDigit (hexDigit (UInt8.ofNat n >>> 4)) = some (UInt8.ofNat n >>> 4) ∧
      fromHexDigit (hexDigit (UInt8.ofNat n &&& 15)) = some (UInt8.ofNat n &&& 15) ∧
      (UInt8.ofNat n >>> 4) <<< 4 ||| (UInt8.ofNat n &&& 15) = UInt8.ofNat n := by decide +kernel
  simpa using hall b.toNat b.toNat_lt

theorem fromHexLoop_hex (bs : Bytes) {i : ℕ} (hi : i % 2 = 0) (hi₀ : Option UInt8) :
    fromHexLoop i hi₀ (hex bs) = some bs := by
  induction bs generalizing i hi₀ with
  | nil => simp [hex, fromHexLoop, hi]
  | cons b bs ih =>
    obtain ⟨hhigh, hlow, hb⟩ := fromHexDigit_hexDigit b
    change fromHexLoop i hi₀ (hexDigit (b >>> 4) :: hexDigit (b &&& 15) :: hex bs) = _
    rw [fromHexLoop, hhigh]
    dsimp only
    rw [if_pos hi, fromHexLoop, hlow]
    dsimp only
    rw [if_neg (by omega), ih (by omega)]
    simp [hb]

theorem length_hex (bs : Bytes) : (hex bs).length = 2 * bs.length := by
  induction bs with
  | nil => rfl
  | cons b bs ih =>
    change (hex bs).length + 2 = _
    rw [ih, List.length_cons]
    omega

/-- **A hexadecimal string is read back.** -/
theorem fromHex_hex {n : ℕ} (t : FixedBytes n) : fromHex n (hex t.bytes) = some t := by
  have hlen : (hex t.bytes).length / 2 = n := by
    rw [length_hex, t.size]
    omega
  -- `x` is not a digit, so there is no prefix to skip
  have hnot0x : ∀ s, hex t.bytes ≠ 48 :: 120 :: s := by
    intro s hs
    cases hbs : t.bytes with
    | nil => cases hbs ▸ hs
    | cons b bs =>
      have hx := (fromHexDigit_hexDigit b).2.1
      rw [hbs] at hs
      rw [(List.cons.inj (List.cons.inj hs).2).1] at hx
      cases hx
  unfold fromHex
  dsimp only
  split
  · next heq =>
    split at heq
    · next s hs => exact absurd hs (hnot0x s)
    · omega
  · have hloop : fromHexLoop 0 none (hex t.bytes) = some t.bytes :=
      fromHexLoop_hex t.bytes (i := 0) rfl none
    simp only [hlen, hloop, Option.map_some, Option.some.injEq]
    apply FixedBytes.ext
    simp [t.size]

/-- So it is with the prefix `0x`. -/
theorem fromHex_0x_hex {n : ℕ} (t : FixedBytes n) :
    fromHex n (48 :: 120 :: hex t.bytes) = some t := by
  have hlen : (hex t.bytes).length / 2 = n := by
    rw [length_hex, t.size]
    omega
  have hloop : fromHexLoop 0 none (hex t.bytes) = some t.bytes :=
    fromHexLoop_hex t.bytes (i := 0) rfl none
  unfold fromHex
  change (if n < (hex t.bytes).length / 2 then none else
    (fromHexLoop 0 none (hex t.bytes)).map _) = _
  rw [if_neg (by omega), hloop, Option.map_some]
  congr 1
  apply FixedBytes.ext
  simp [hlen, t.size]

/-- `evmc::address(uint64_t)` of a sign-extended `int`, as `makeAddress` converts it. -/
def makeAddress (x : Int32) : Address :=
  ⟨List.replicate 12 0 ++ be64 x.toInt64.toUInt64, by simp [be64]⟩

/-- `hashToString`. -/
def hashToString (h : Hash256) : Bytes := hex h.bytes

/-- `addressToString`. -/
def addressToString (a : Address) : Bytes := hex a.bytes

theorem addressToString_injective : Function.Injective addressToString := by
  intro a b h
  have ha := fromHex_hex a
  rw [show hex a.bytes = hex b.bytes from h, fromHex_hex b] at ha
  exact (Option.some.inj ha).symm

theorem be64_injective : Function.Injective be64 := by
  intro x y h
  simp only [be64, List.map_cons, List.map_nil, List.cons.injEq, and_true] at h
  obtain ⟨h₇, h₆, h₅, h₄, h₃, h₂, h₁, h₀⟩ := h
  -- the bytes are the digits to the base 256
  replace h₇ := congrArg UInt8.toNat h₇
  replace h₆ := congrArg UInt8.toNat h₆
  replace h₅ := congrArg UInt8.toNat h₅
  replace h₄ := congrArg UInt8.toNat h₄
  replace h₃ := congrArg UInt8.toNat h₃
  replace h₂ := congrArg UInt8.toNat h₂
  replace h₁ := congrArg UInt8.toNat h₁
  replace h₀ := congrArg UInt8.toNat h₀
  simp [Nat.shiftRight_eq_div_pow] at h₀ h₁ h₂ h₃ h₄ h₅ h₆ h₇
  have hx := x.toNat_lt
  have hy := y.toNat_lt
  apply UInt64.toNat_inj.1
  omega

/-- Different numbers make different addresses. -/
theorem makeAddress_injective : Function.Injective makeAddress := by
  intro x y h
  have hbe : be64 x.toInt64.toUInt64 = be64 y.toInt64.toUInt64 :=
    List.append_cancel_left (congrArg FixedBytes.bytes h)
  simpa using congrArg (fun z => z.toInt64.toInt32) (be64_injective hbe)

/-! ### Machine integers -/

/-- The value of an `int` after a wrapping operation. -/
def int32 (x : ℤ) : ℤ := x.bmod (2 ^ 32)

/-- An `int` as a `size_t`. -/
def toSizeT (x : ℤ) : ℕ := (x % 2 ^ 64).toNat

theorem int32_of_lt {x : ℤ} (h₀ : 0 ≤ x) (h : x < 2 ^ 31) : int32 x = x :=
  Int.bmod_eq_of_le (by omega) (by omega)

theorem toSizeT_of_lt {x : ℤ} (h₀ : 0 ≤ x) (h : x < 2 ^ 31) : (toSizeT x : ℤ) = x := by
  unfold toSizeT
  omega

end WeakChain
