import WeakChain.Core.Bytes
import WeakChain.Evm.Division
import Mathlib.Data.List.Induction
import Mathlib.Tactic.NormNum
import Mathlib.Tactic.Ring

/-!
# Words of 256 bits

The arithmetic that the bundled machine takes from `intx`, by way of the 64-bit words of a word
(`limb`), and the three instructions that work on these themselves.

* `shl_eq`, `shr_eq`, `slt_eq`, `toNat_exp`, `udivrem_eq`, `sdivrem_eq`, `toNat_addmod`,
  `toNat_mulmod`, `countSignificantBytes_le_iff` : the algorithms of `intx` compute what their names
  say.
* `signextend_eq`, `byte_eq`, `sar_eq` : so do the three instructions.
* `load_store`, `store_load`, `truncAddress_load` : words, their bytes and addresses.
-/

namespace WeakChain

namespace Evm

/-- `uint256`. -/
abbrev Word := BitVec 256

namespace Intx

/-- `x[i]`: the 64-bit words of a word, the lowest first. -/
def limb (x : Word) (i : ℕ) : BitVec 64 := x.extractLsb' (64 * i) 64

/-- A word from its 64-bit words. -/
def ofLimbs (f : ℕ → BitVec 64) : Word := (f 3 ++ f 2) ++ (f 1 ++ f 0)

/-- `static_cast<size_t>` and `static_cast<uint64_t>`. -/
def toSize (x : Word) : ℕ := (limb x 0).toNat

theorem getLsbD_limb (x : Word) (i : ℕ) {j : ℕ} (hj : j < 64) :
    (limb x i).getLsbD j = x.getLsbD (64 * i + j) := by
  simp [limb, hj]

theorem getLsbD_ofLimbs (f : ℕ → BitVec 64) {q r : ℕ} (hq : q < 4) (hr : r < 64) :
    (ofLimbs f).getLsbD (64 * q + r) = (f q).getLsbD r := by
  simp only [ofLimbs, BitVec.getLsbD_append]
  obtain rfl | rfl | rfl | rfl : q = 0 ∨ q = 1 ∨ q = 2 ∨ q = 3 := by omega
  · rw [if_pos (by omega), if_pos (by omega), Nat.mul_zero, Nat.zero_add]
  · rw [if_pos (by omega), if_neg (by omega), show 64 * 1 + r - 64 = r by omega]
  · rw [if_neg (by omega), if_pos (by omega), show 64 * 2 + r - (64 + 64) = r by omega]
  · rw [if_neg (by omega), if_neg (by omega), show 64 * 3 + r - (64 + 64) - 64 = r by omega]

/-- A word is made of its words of 64 bits. -/
theorem eq_ofLimbs {x : Word} {f : ℕ → BitVec 64} (h : ∀ i < 4, limb x i = f i) :
    x = ofLimbs f := by
  refine BitVec.eq_of_getLsbD_eq fun j hj => ?_
  have hdiv : j = 64 * (j / 64) + j % 64 := (Nat.div_add_mod j 64).symm
  have hmod : j % 64 < 64 := Nat.mod_lt _ (by norm_num)
  have hlt : j / 64 < 4 := by omega
  rw [hdiv, getLsbD_ofLimbs f hlt hmod, ← h _ hlt, getLsbD_limb x _ hmod]

theorem toNat_limb (x : Word) (i : ℕ) : (limb x i).toNat = x.toNat / 2 ^ (64 * i) % 2 ^ 64 := by
  rw [limb, BitVec.extractLsb'_toNat, Nat.shiftRight_eq_div_pow]

theorem toSize_of_lt {x : Word} (h : x.toNat < 2 ^ 64) : toSize x = x.toNat := by
  rw [toSize, toNat_limb]
  omega

/-! ### Shifts and comparisons -/

/-- `operator<<(uint256, uint64_t)`, by halves of 128 bits. -/
def shlBy (x : Word) (shift : ℕ) : Word :=
  if 256 ≤ shift then 0
  else
    let xlo := x.extractLsb' 0 128
    if shift < 128 then
      let lo := xlo <<< shift
      let xhi := x.extractLsb' 128 128
      let rshift := 128 - shift
      -- two shifts, since one by 128 is not allowed
      let loOverflow := (xlo >>> (rshift - 1)) >>> 1
      let hi := (xhi <<< shift) ||| loOverflow
      hi ++ lo
    else
      let hi := xlo <<< (shift - 128)
      hi ++ (0 : BitVec 128)

/-- `operator>>(uint256, uint64_t)`. -/
def shrBy (x : Word) (shift : ℕ) : Word :=
  if 256 ≤ shift then 0
  else
    let xhi := x.extractLsb' 128 128
    if shift < 128 then
      let hi := xhi >>> shift
      let xlo := x.extractLsb' 0 128
      let lshift := 128 - shift
      let hiOverflow := (xhi <<< (lshift - 1)) <<< 1
      let lo := (xlo >>> shift) ||| hiOverflow
      hi ++ lo
    else
      let lo := xhi >>> (shift - 128)
      (0 : BitVec 128) ++ lo

/-- What is left of the number of places if it is not a 64-bit one. -/
def highWordsFold (shift : Word) : BitVec 64 := limb shift 1 ||| limb shift 2 ||| limb shift 3

/-- `operator<<(uint256, uint256)`. -/
def shl (x shift : Word) : Word := if highWordsFold shift ≠ 0 then 0 else shlBy x (toSize shift)

/-- `operator>>(uint256, uint256)`. -/
def shr (x shift : Word) : Word := if highWordsFold shift ≠ 0 then 0 else shrBy x (toSize shift)

/-- `slt`. -/
def slt (x y : Word) : Bool :=
  let xNeg := (limb x 3).slt 0
  let yNeg := (limb y 3).slt 0
  if xNeg ^^ yNeg then xNeg else x.ult y

theorem getLsbD_halves (hi lo : BitVec 128) (i : ℕ) :
    (hi ++ lo : Word).getLsbD i = if i < 128 then lo.getLsbD i else hi.getLsbD (i - 128) :=
  BitVec.getLsbD_append

theorem shlBy_eq (x : Word) (shift : ℕ) : shlBy x shift = x <<< shift := by
  apply BitVec.eq_of_getLsbD_eq
  intro i hi
  rw [shlBy, BitVec.getLsbD_shiftLeft]
  split_ifs with h₁ h₂
  · simp [show i < shift by omega]
  · rw [getLsbD_halves]
    simp only [BitVec.getLsbD_shiftLeft, BitVec.getLsbD_or,
      BitVec.getLsbD_ushiftRight, BitVec.getLsbD_extractLsb']
    by_cases hlo : i < 128
    · simp [hlo, hi, show i - shift < 128 by omega]
    · -- from the high half, and what has left the low one
      by_cases hs : i - 128 < shift
      · have hlow : 128 - shift - 1 + (1 + (i - 128)) = i - shift := by omega
        simp [hlo, hi, hs, hlow, show i - 128 < 128 by omega, show ¬i < shift by omega,
          show i - shift < 128 by omega]
      · have hhigh : 128 + (i - 128 - shift) = i - shift := by omega
        simp [hlo, hi, hs, hhigh, show i - 128 < 128 by omega, show ¬i < shift by omega,
          show i - 128 - shift < 128 by omega,
          show ¬128 - shift - 1 + (1 + (i - 128)) < 128 by omega]
  · rw [getLsbD_halves]
    simp only [BitVec.getLsbD_shiftLeft, BitVec.getLsbD_extractLsb']
    by_cases hlo : i < 128
    · simp [hlo, show i < shift by omega]
    · by_cases hs : i < shift
      · simp [hlo, hs, show i - 128 < shift - 128 by omega]
      · have hidx : i - 128 - (shift - 128) = i - shift := by omega
        simp [hlo, hi, hs, hidx, show i - 128 < 128 by omega, show ¬i - 128 < shift - 128 by omega,
          show i - shift < 128 by omega]

theorem shrBy_eq (x : Word) (shift : ℕ) : shrBy x shift = x >>> shift := by
  apply BitVec.eq_of_getLsbD_eq
  intro i hi
  rw [shrBy, BitVec.getLsbD_ushiftRight]
  split_ifs with h₁ h₂
  · rw [BitVec.getLsbD_of_ge x (shift + i) (by omega)]
    simp
  · rw [getLsbD_halves]
    simp only [BitVec.getLsbD_shiftLeft, BitVec.getLsbD_or,
      BitVec.getLsbD_ushiftRight, BitVec.getLsbD_extractLsb']
    by_cases hlo : i < 128
    · -- from the low half, and what has left the high one
      by_cases hs : shift + i < 128
      · have hnone : 1 ≤ i → i - 1 < 128 - shift - 1 := by omega
        simp [hlo, hs]
        intro h
        omega
      · have hidx : 128 + (i - 1 - (128 - shift - 1)) = shift + i := by omega
        simp [hlo, hs, hidx, show ¬i < 1 by omega, show i - 1 < 128 by omega,
          show ¬i - 1 < 128 - shift - 1 by omega, show i - 1 - (128 - shift - 1) < 128 by omega]
    · have hidx : 128 + (shift + (i - 128)) = shift + i := by omega
      by_cases hs : shift + i < 256
      · simp [hlo, hidx, show shift + (i - 128) < 128 by omega]
      · rw [BitVec.getLsbD_of_ge x (shift + i) (by omega)]
        simp [hlo, show ¬shift + (i - 128) < 128 by omega]
  · rw [getLsbD_halves]
    simp only [BitVec.getLsbD_ushiftRight, BitVec.getLsbD_extractLsb']
    have hidx : 128 + (shift - 128 + i) = shift + i := by omega
    by_cases hs : shift + i < 256
    · simp [hidx, show i < 128 by omega, show shift - 128 + i < 128 by omega]
    · rw [BitVec.getLsbD_of_ge x (shift + i) (by omega)]
      simp [show ¬shift - 128 + i < 128 by omega]

theorem highWordsFold_eq_zero_iff (x : Word) : highWordsFold x = 0 ↔ x.toNat < 2 ^ 64 := by
  have hx := x.isLt
  change limb x 1 ||| limb x 2 ||| limb x 3 = 0#64 ↔ _
  rw [BitVec.or_eq_zero_iff, BitVec.or_eq_zero_iff, ← BitVec.toNat_inj, ← BitVec.toNat_inj,
    ← BitVec.toNat_inj, toNat_limb, toNat_limb, toNat_limb, BitVec.toNat_ofNat]
  omega

theorem shl_eq (x shift : Word) : shl x shift = x <<< shift.toNat := by
  rw [shl]
  split_ifs with h
  · have := mt (highWordsFold_eq_zero_iff shift).2 h
    rw [BitVec.shiftLeft_eq_zero (by omega)]
    rfl
  · rw [not_not, highWordsFold_eq_zero_iff] at h
    rw [shlBy_eq, toSize_of_lt h]

theorem shr_eq (x shift : Word) : shr x shift = x >>> shift.toNat := by
  rw [shr]
  split_ifs with h
  · have := mt (highWordsFold_eq_zero_iff shift).2 h
    rw [BitVec.ushiftRight_eq_zero (by omega)]
    rfl
  · rw [not_not, highWordsFold_eq_zero_iff] at h
    rw [shrBy_eq, toSize_of_lt h]

theorem limb_slt_zero (x : Word) : (limb x 3).slt 0 = x.msb := by
  have hmsb : (limb x 3).slt 0 = (limb x 3).msb := by
    simp [BitVec.slt_zero_eq_msb]
  rw [hmsb, BitVec.msb_eq_getLsbD_last, BitVec.msb_eq_getLsbD_last, limb]
  simp

theorem slt_eq (x y : Word) : slt x y = x.slt y := by
  have hx := x.msb_eq_decide
  have hy := y.msb_eq_decide
  simp only [slt, limb_slt_zero]
  rw [BitVec.slt_eq_ult]
  cases hxm : x.msb <;> cases hym : y.msb
  · simp
  · simp [hxm, hym] at hx hy ⊢
    simp [BitVec.ult]
    omega
  · simp [hxm, hym] at hx hy ⊢
    simp [BitVec.ult]
    omega
  · simp

/-! ### Powers -/

/-- The loop of `exp`. -/
def expLoop : ℕ → Word → Word → Word → Word
  | 0, result, _, _ => result
  | n + 1, result, base, exponent =>
    if exponent ≠ 0 then
      expLoop n (if exponent &&& 1 ≠ 0 then result * base else result) (base * base)
        (shr exponent 1)
    else result

/-- `exp`.  The exponent has 256 bits. -/
def exp (base exponent : Word) : Word :=
  if base = 2 then shl 1 exponent else expLoop 256 1 base exponent

theorem and_one_ne_zero_iff (x : Word) : x &&& 1 ≠ 0 ↔ x.toNat % 2 = 1 := by
  rw [Ne, ← BitVec.toNat_inj, BitVec.toNat_and]
  simp [Nat.and_one_is_mod]

theorem mul_pow_mod (a b n m : ℕ) : a * (b % m) ^ n % m = a * b ^ n % m := by
  rw [Nat.mul_mod, ← Nat.pow_mod, ← Nat.mul_mod]

theorem toNat_expLoop {n : ℕ} (result base exponent : Word) (hn : exponent.toNat < 2 ^ n) :
    (expLoop n result base exponent).toNat =
      result.toNat * base.toNat ^ exponent.toNat % 2 ^ 256 := by
  induction n generalizing result base exponent with
  | zero =>
    have hzero : exponent.toNat = 0 := by omega
    rw [expLoop, hzero, pow_zero, mul_one, Nat.mod_eq_of_lt result.isLt]
  | succ n ih =>
    rw [expLoop]
    have hhalf : (shr exponent 1).toNat = exponent.toNat / 2 := by
      rw [shr_eq]
      simp [Nat.shiftRight_eq_div_pow]
    split_ifs with hne hodd
    · have hsum : exponent.toNat = 2 * (exponent.toNat / 2) + 1 := by
        have := (and_one_ne_zero_iff exponent).1 hodd
        omega
      rw [ih _ _ _ (by rw [hhalf]; omega), hhalf, BitVec.toNat_mul, BitVec.toNat_mul, mul_pow_mod,
        Nat.mod_mul_mod]
      conv_rhs => rw [hsum, pow_succ, pow_mul, pow_two]
      ring_nf
    · have hsum : exponent.toNat = 2 * (exponent.toNat / 2) := by
        have := mt (and_one_ne_zero_iff exponent).2 hodd
        omega
      rw [ih _ _ _ (by rw [hhalf]; omega), hhalf, BitVec.toNat_mul, mul_pow_mod]
      conv_rhs => rw [hsum, pow_mul, pow_two]
    · have hzero : exponent.toNat = 0 := by simpa using congrArg BitVec.toNat (not_not.1 hne)
      rw [hzero, pow_zero, mul_one, Nat.mod_eq_of_lt result.isLt]

/-- **`exp` is the power**, modulo 2^256. -/
theorem toNat_exp (base exponent : Word) :
    (exp base exponent).toNat = base.toNat ^ exponent.toNat % 2 ^ 256 := by
  rw [exp]
  split_ifs with h
  · have hone : (1 : Word).toNat = 1 := rfl
    have htwo : (2 : Word).toNat = 2 := rfl
    rw [shl_eq, h, BitVec.toNat_shiftLeft, Nat.shiftLeft_eq, hone, htwo, one_mul]
  · rw [toNat_expLoop _ _ _ exponent.isLt]
    simp

/-! ### Division -/

/-- `udivrem`, of numbers with `m` and `n` words of 64 bits: the quotient and the remainder. -/
def udivrem (m n u v : ℕ) : ℕ × ℕ :=
  let p := Division.udivrem (Division.words m u) (Division.words n v)
  (Division.number p.1, Division.number p.2)

theorem udivrem_eq {m n u v : ℕ} (hu : u < 2 ^ (64 * m)) (hv : v < 2 ^ (64 * n)) (hne : v ≠ 0) :
    udivrem m n u v = (u / v, u % v) := by
  have hv' := Division.value_words hv
  obtain ⟨⟨-, -, hq⟩, -, -, hr⟩ := Division.isWords_udivrem (Division.digits_words m u)
    (Division.digits_words n v) (by rw [hv']; exact_mod_cast hne)
  rw [Division.value_words hu, hv'] at hq hr
  rw [udivrem, Division.number, Division.number, hq, hr]
  exact Prod.ext (Int.toNat_natCast (u / v)) (Int.toNat_natCast (u % v))

/-- `sdivrem`. -/
def sdivrem (u v : Word) : Word × Word :=
  let signMask : Word := 1#256 <<< 255
  let uIsNeg := u &&& signMask != 0
  let vIsNeg := v &&& signMask != 0
  let uAbs := if uIsNeg then -u else u
  let vAbs := if vIsNeg then -v else v
  let qIsNeg := uIsNeg ^^ vIsNeg
  let res := udivrem 4 4 uAbs.toNat vAbs.toNat
  let quot := BitVec.ofNat 256 res.1
  let rem := BitVec.ofNat 256 res.2
  (if qIsNeg then -quot else quot, if uIsNeg then -rem else rem)

theorem and_signMask_ne_zero (x : Word) : (x &&& 1#256 <<< 255 != 0) = x.msb := by
  rw [← BitVec.twoPow_eq, BitVec.and_twoPow, BitVec.msb_eq_getLsbD_last]
  cases h : x.getLsbD 255
  · simp
  · simp

theorem sdivrem_eq {u v : Word} (hv : v ≠ 0) : sdivrem u v = (u.sdiv v, u.srem v) := by
  have hne : (if v.msb then -v else v).toNat ≠ 0 := by
    split_ifs
    · exact fun h => hv (BitVec.neg_eq_zero_iff.1 (BitVec.eq_of_toNat_eq h))
    · exact fun h => hv (BitVec.eq_of_toNat_eq h)
  simp only [sdivrem, and_signMask_ne_zero]
  rw [udivrem_eq (BitVec.isLt _) (BitVec.isLt _) hne, BitVec.sdiv_eq, BitVec.srem_eq]
  have hudiv : ∀ x y : Word, BitVec.ofNat 256 (x.toNat / y.toNat) = x.udiv y := fun x y =>
    BitVec.eq_of_toNat_eq (by
      rw [BitVec.toNat_ofNat, Nat.mod_eq_of_lt (lt_of_le_of_lt (Nat.div_le_self _ _) x.isLt)]
      simp)
  have humod : ∀ x y : Word, BitVec.ofNat 256 (x.toNat % y.toNat) = x % y := fun x y =>
    BitVec.eq_of_toNat_eq (by
      rw [BitVec.toNat_ofNat, Nat.mod_eq_of_lt (lt_of_le_of_lt (Nat.mod_le _ _) x.isLt)]
      simp)
  cases u.msb <;> cases v.msb <;> simp only [hudiv, humod] <;> simp

/-- `subc`: the difference, and whether something was borrowed. -/
def subc (x y : Word) : Word × Bool := (x - y, x.ult y)

/-- `addc`: the sum, and the carry. -/
def addc (x y : Word) : Word × Bool := (x + y, decide (2 ^ 256 ≤ x.toNat + y.toNat))

/-- `addmod`. -/
def addmod (x y mod : Word) : Word :=
  if limb mod 3 ≠ 0 ∧ limb x 3 ≤ limb mod 3 ∧ limb y 3 ≤ limb mod 3 then
    -- the fast path: `x` and `y` are at most slightly bigger than `mod`
    let xd := subc x mod
    let xn := if !xd.2 then xd.1 else x
    let yd := subc y mod
    let yn := if !yd.2 then yd.1 else y
    let a := addc xn yn
    let b := subc a.1 mod
    if a.2 || !b.2 then b.1 else a.1
  else
    let s := addc x y
    BitVec.ofNat 256 (udivrem 5 4 (s.2.toNat * 2 ^ 256 + s.1.toNat) mod.toNat).2

/-- `mulmod`. -/
def mulmod (x y mod : Word) : Word :=
  BitVec.ofNat 256 (udivrem 8 4 (x.toNat * y.toNat) mod.toNat).2

/-- What is at most slightly bigger than `mod` is less than twice as big. -/
theorem lt_two_mul_of_limb {x mod : Word} (hm : limb mod 3 ≠ 0) (hx : limb x 3 ≤ limb mod 3) :
    x.toNat < 2 * mod.toNat := by
  rw [Ne, ← BitVec.toNat_inj, toNat_limb] at hm
  rw [BitVec.le_def, toNat_limb, toNat_limb] at hx
  have hxlt := x.isLt
  have hmlt := mod.isLt
  simp at hm
  omega

theorem subc_snd (x y : Word) : (subc x y).2 = decide (x.toNat < y.toNat) := rfl

theorem toNat_normalize {x mod : Word} (hx : x.toNat < 2 * mod.toNat) :
    (if !(subc x mod).2 then (subc x mod).1 else x).toNat = x.toNat % mod.toNat := by
  by_cases hlt : x.toNat < mod.toNat
  · have hb : (subc x mod).2 = true := by simp [subc_snd, hlt]
    rw [hb, Nat.mod_eq_of_lt hlt]
    rfl
  · have hb : (subc x mod).2 = false := by simp [subc_snd, hlt]
    have hle : mod.toNat ≤ x.toNat := not_lt.1 hlt
    rw [hb, Nat.mod_eq_sub_mod hle, Nat.mod_eq_of_lt (by omega)]
    exact BitVec.toNat_sub_of_le (BitVec.le_def.2 hle)

/-- One subtraction is enough for a sum of two reduced words. -/
theorem toNat_addc_subc {x y mod : Word} (hx : x.toNat < mod.toNat) (hy : y.toNat < mod.toNat) :
    (if (addc x y).2 || !(subc (addc x y).1 mod).2 then (subc (addc x y).1 mod).1
      else (addc x y).1).toNat = (x.toNat + y.toNat) % mod.toNat := by
  have hmlt := mod.isLt
  have hsum : (addc x y).1.toNat = (x.toNat + y.toNat) % 2 ^ 256 := BitVec.toNat_add x y
  have hcond : ((addc x y).2 || !(subc (addc x y).1 mod).2) =
      decide (mod.toNat ≤ x.toNat + y.toNat) := by
    rw [subc_snd, hsum, Bool.eq_iff_iff]
    simp [addc]
    omega
  rw [hcond]
  by_cases hge : mod.toNat ≤ x.toNat + y.toNat
  · have hdiff : (subc (addc x y).1 mod).1.toNat = x.toNat + y.toNat - mod.toNat := by
      rw [subc, BitVec.toNat_sub, hsum]
      omega
    simp only [hge, decide_true, if_true]
    rw [hdiff, Nat.mod_eq_sub_mod hge, Nat.mod_eq_of_lt (by omega)]
  · simp only [hge, decide_false, Bool.false_eq_true, if_false]
    rw [hsum, Nat.mod_eq_of_lt (by omega), Nat.mod_eq_of_lt (by omega)]

/-- **`addmod` does not overflow**, on the fast path either. -/
theorem toNat_addmod {x y mod : Word} (hmod : mod ≠ 0) :
    (addmod x y mod).toNat = (x.toNat + y.toNat) % mod.toNat := by
  have hpos : 0 < mod.toNat := by
    rw [Nat.pos_iff_ne_zero]
    exact fun h => hmod (BitVec.eq_of_toNat_eq (by simpa using h))
  rw [addmod]
  split_ifs with hfast
  · obtain ⟨hm, hx, hy⟩ := hfast
    have hxn := toNat_normalize (lt_two_mul_of_limb hm hx)
    have hyn := toNat_normalize (lt_two_mul_of_limb hm hy)
    dsimp only
    generalize (if !(subc x mod).2 then (subc x mod).1 else x) = xn at hxn ⊢
    generalize (if !(subc y mod).2 then (subc y mod).1 else y) = yn at hyn ⊢
    rw [toNat_addc_subc (hxn ▸ Nat.mod_lt _ hpos) (hyn ▸ Nat.mod_lt _ hpos), hxn, hyn,
      ← Nat.add_mod]
  · have hsum : (addc x y).2.toNat * 2 ^ 256 + (addc x y).1.toNat = x.toNat + y.toNat := by
      have hx := x.isLt
      have hy := y.isLt
      simp only [addc, BitVec.toNat_add]
      by_cases h : 2 ^ 256 ≤ x.toNat + y.toNat
      · simp only [h, decide_true, Bool.toNat_true]
        omega
      · simp only [h, decide_false, Bool.toNat_false]
        omega
    have hx := x.isLt
    have hy := y.isLt
    dsimp only
    rw [hsum, udivrem_eq (by omega) mod.isLt hpos.ne', BitVec.toNat_ofNat,
      Nat.mod_eq_of_lt (lt_trans (Nat.mod_lt _ hpos) mod.isLt)]

theorem toNat_mulmod {x y mod : Word} (hmod : mod ≠ 0) :
    (mulmod x y mod).toNat = x.toNat * y.toNat % mod.toNat := by
  have hpos : 0 < mod.toNat := by
    rw [Nat.pos_iff_ne_zero]
    exact fun h => hmod (BitVec.eq_of_toNat_eq (by simpa using h))
  have hmul : x.toNat * y.toNat < 2 ^ (64 * 8) := by
    calc x.toNat * y.toNat < 2 ^ 256 * 2 ^ 256 := Nat.mul_lt_mul'' x.isLt y.isLt
      _ = 2 ^ (64 * 8) := by rw [← pow_add]
  rw [mulmod, udivrem_eq hmul mod.isLt hpos.ne', BitVec.toNat_ofNat,
    Nat.mod_eq_of_lt (lt_trans (Nat.mod_lt _ hpos) mod.isLt)]

/-! ### Significant bytes -/

/-- `clz`, by `std::countl_zero`. -/
def clz (x : BitVec 64) : ℕ := if x = 0 then 64 else 63 - x.toNat.log2

/-- `count_significant_words`. -/
def countSignificantWords (x : Word) : ℕ :=
  if limb x 3 ≠ 0 then 4
  else if limb x 2 ≠ 0 then 3
  else if limb x 1 ≠ 0 then 2
  else if limb x 0 ≠ 0 then 1
  else 0

/-- `count_significant_bytes`. -/
def countSignificantBytes (x : Word) : ℕ :=
  let w := countSignificantWords x
  if w ≠ 0 then (64 - clz (limb x (w - 1)) + 7) / 8 + (w - 1) * 8 else 0

theorem limb_ne_zero_iff (x : Word) (i : ℕ) :
    limb x i ≠ 0 ↔ x.toNat / 2 ^ (64 * i) % 2 ^ 64 ≠ 0 := by
  rw [Ne, ← BitVec.toNat_inj, toNat_limb]
  rfl

/-- The highest word that is not zero. -/
theorem countSignificantWords_spec (x : Word) :
    x.toNat < 2 ^ (64 * countSignificantWords x) ∧
      (countSignificantWords x ≠ 0 → limb x (countSignificantWords x - 1) ≠ 0) := by
  have hx := x.isLt
  have h₀ := limb_ne_zero_iff x 0
  have h₁ := limb_ne_zero_iff x 1
  have h₂ := limb_ne_zero_iff x 2
  have h₃ := limb_ne_zero_iff x 3
  rw [countSignificantWords]
  split_ifs with c₃ c₂ c₁ c₀
  · exact ⟨hx, fun _ => c₃⟩
  · refine ⟨?_, fun _ => c₂⟩
    have := mt h₃.2 c₃
    omega
  · refine ⟨?_, fun _ => c₁⟩
    have := mt h₃.2 c₃
    have := mt h₂.2 c₂
    omega
  · refine ⟨?_, fun _ => c₀⟩
    have := mt h₃.2 c₃
    have := mt h₂.2 c₂
    have := mt h₁.2 c₁
    omega
  · refine ⟨?_, fun h => absurd rfl h⟩
    have := mt h₃.2 c₃
    have := mt h₂.2 c₂
    have := mt h₁.2 c₁
    have := mt h₀.2 c₀
    omega

/-- **`count_significant_bytes` is the least number of bytes** that the word fits into. -/
theorem countSignificantBytes_le_iff (x : Word) (n : ℕ) :
    countSignificantBytes x ≤ n ↔ x.toNat < 2 ^ (8 * n) := by
  obtain ⟨hlt, hne⟩ := countSignificantWords_spec x
  rw [countSignificantBytes]
  generalize countSignificantWords x = w at hlt hne ⊢
  split_ifs with hw
  · obtain ⟨j, rfl⟩ := Nat.exists_eq_succ_of_ne_zero hw
    rw [Nat.succ_sub_one]
    have hl := hne hw
    rw [Nat.succ_sub_one] at hl
    have hl0 : (limb x j).toNat ≠ 0 := fun h => hl (BitVec.eq_of_toNat_eq (by simpa using h))
    have hllt : (limb x j).toNat.log2 < 64 := (Nat.log2_lt hl0).2 (limb x j).isLt
    have hx0 : x.toNat ≠ 0 := by
      intro h
      rw [toNat_limb, h] at hl0
      simp at hl0
    have hlimb : (limb x j).toNat = x.toNat / 2 ^ (64 * j) := by
      rw [toNat_limb, Nat.mod_eq_of_lt]
      rw [Nat.div_lt_iff_lt_mul (Nat.two_pow_pos _), ← pow_add]
      exact lt_of_lt_of_eq hlt (by congr 1; omega)
    have hlog : x.toNat.log2 = 64 * j + (limb x j).toNat.log2 := by
      obtain ⟨hle, hlt'⟩ := (Nat.log2_eq_iff hl0).1 rfl
      rw [Nat.log2_eq_iff hx0]
      rw [hlimb, Nat.le_div_iff_mul_le (Nat.two_pow_pos _), ← pow_add, add_comm] at hle
      rw [hlimb, Nat.div_lt_iff_lt_mul (Nat.two_pow_pos _), ← pow_add] at hlt'
      rw [hlimb]
      exact ⟨hle, lt_of_lt_of_eq hlt' (by congr 1; omega)⟩
    rw [clz, if_neg hl, ← Nat.log2_lt hx0, hlog]
    omega
  · have : x.toNat = 0 := by
      simp at hw
      simpa [hw] using hlt
    simp [this]

/-! ### The instructions on 64-bit words -/

/-- `signextend`, with the sign in byte `ext`. -/
def signextend (ext x : Word) : Word :=
  if ext < 31 then
    let e := toSize ext
    let signWordIndex := e / 8
    let signWord := limb x signWordIndex
    let signByteOffset := e % 8 * 8
    let signByte : BitVec 8 := (signWord >>> signByteOffset).setWidth 8
    let sextByte : BitVec 64 := signByte.signExtend 64
    let sext := sextByte <<< signByteOffset
    let signMask := BitVec.allOnes 64 <<< signByteOffset
    let value := signWord &&& ~~~signMask
    -- all zeros or all ones, for the words above
    let signEx := sextByte.sshiftRight 8
    ofLimbs fun i =>
      if i < signWordIndex then limb x i
      else if i = signWordIndex then sext ||| value
      else signEx
  else x

theorem getLsbD_sext {w v : ℕ} (b : BitVec w) {j : ℕ} (hj : j < v) (hw : 0 < w) :
    (b.signExtend v).getLsbD j = b.getLsbD (min j (w - 1)) := by
  rw [BitVec.getLsbD_signExtend]
  by_cases h : j < w
  · simp [h, hj, show min j (w - 1) = j by omega]
  · simp [h, hj, show min j (w - 1) = w - 1 by omega, BitVec.msb_eq_getLsbD_last]

/-- **`signextend` extends the sign** of the lowest bytes of a word. -/
theorem signextend_eq {ext x : Word} (hext : ext.toNat < 31) :
    signextend ext x = (x.setWidth (8 * (ext.toNat + 1))).signExtend 256 := by
  have hlt : ext < 31 := BitVec.lt_def.2 hext
  have he : toSize ext = ext.toNat := toSize_of_lt (by omega)
  rw [signextend, if_pos hlt, he]
  generalize ext.toNat = e at hext
  apply BitVec.eq_of_getLsbD_eq
  intro i hi
  rw [getLsbD_sext _ hi (by omega), BitVec.getLsbD_setWidth]
  -- bit `r` of the word `q`
  obtain ⟨q, r, hq, hr, rfl⟩ : ∃ q r, q < 4 ∧ r < 64 ∧ i = 64 * q + r :=
    ⟨i / 64, i % 64, by omega, by omega, by omega⟩
  rw [getLsbD_ofLimbs _ hq hr]
  have hsign : ∀ j, j < 64 →
      (((limb x (e / 8) >>> (e % 8 * 8)).setWidth 8).signExtend 64).getLsbD j =
        x.getLsbD (8 * e + min j 7) := by
    intro j hj
    have hidx : e % 8 * 8 + min j 7 < 64 := by omega
    rw [getLsbD_sext _ hj (by omega), BitVec.getLsbD_setWidth, BitVec.getLsbD_ushiftRight,
      getLsbD_limb _ _ hidx, show 64 * (e / 8) + (e % 8 * 8 + min j 7) = 8 * e + min j 7 by omega]
    simp
  split_ifs with h₁ h₂
  · rw [getLsbD_limb _ _ hr, show min (64 * q + r) (8 * (e + 1) - 1) = 64 * q + r by omega]
    simp
    omega
  · subst h₂
    rw [BitVec.getLsbD_or, BitVec.getLsbD_shiftLeft, BitVec.getLsbD_and, BitVec.getLsbD_not,
      BitVec.getLsbD_shiftLeft, getLsbD_limb _ _ hr, BitVec.getLsbD_allOnes]
    by_cases hlow : r < e % 8 * 8
    · rw [show min (64 * (e / 8) + r) (8 * (e + 1) - 1) = 64 * (e / 8) + r by omega]
      simp [hlow, hr]
      omega
    · rw [hsign _ (by omega), show 8 * e + min (r - e % 8 * 8) 7 =
        min (64 * (e / 8) + r) (8 * (e + 1) - 1) by omega]
      simp [hlow, hr, show r - e % 8 * 8 < 64 by omega]
  · have hlast : min (64 * q + r) (8 * (e + 1) - 1) = 8 * e + 7 := by omega
    rw [hlast, BitVec.getLsbD_sshiftRight, BitVec.msb_eq_getLsbD_last, hsign 63 (by omega)]
    by_cases hr' : 8 + r < 64
    · rw [if_pos hr', hsign _ hr', show min (8 + r) 7 = 7 by omega]
      simp [hr, show 8 * e + 7 < 8 * (e + 1) by omega]
    · rw [if_neg hr']
      simp [hr, show 8 * e + 7 < 8 * (e + 1) by omega]

/-- The bytes of a word, from the highest on. -/
def byteAt (x : Word) (i : ℕ) : BitVec 8 := x.extractLsb' (8 * (31 - i)) 8

/-- `byte`. -/
def byte (n x : Word) : Word :=
  let nValid := n < 32
  let byteMask : BitVec 64 := if nValid then 0xff else 0
  let index := 31 - toSize n % 32
  let word := limb x (index / 8)
  let byteIndex := index % 8
  let byte := (word >>> (byteIndex * 8)) &&& byteMask
  byte.setWidth 256

theorem byte_eq (n x : Word) :
    byte n x = if n.toNat < 32 then (byteAt x n.toNat).setWidth 256 else 0 := by
  rw [byte]
  have hlt : n < 32 ↔ n.toNat < 32 := BitVec.lt_def
  simp only [hlt]
  split_ifs with h
  · have hn : toSize n % 32 = n.toNat := by
      rw [toSize_of_lt (by omega)]
      omega
    rw [hn]
    apply BitVec.eq_of_getLsbD_eq
    intro i hi
    rw [BitVec.getLsbD_setWidth, BitVec.getLsbD_and, BitVec.getLsbD_ushiftRight,
      BitVec.getLsbD_setWidth, byteAt, BitVec.getLsbD_extractLsb']
    rw [show (0xff : BitVec 64) = (BitVec.allOnes 8).setWidth 64 by rfl, BitVec.getLsbD_setWidth,
      BitVec.getLsbD_allOnes]
    by_cases hi8 : i < 8
    · have hidx : 64 * ((31 - n.toNat) / 8) + ((31 - n.toNat) % 8 * 8 + i) =
          8 * (31 - n.toNat) + i := by omega
      rw [getLsbD_limb _ _ (by omega), hidx]
      simp [hi, hi8, show i < 64 by omega]
    · simp [hi8]
  · simp

/-- `sar`. -/
def sar (y x : Word) : Word :=
  let isNeg := (limb x 3).slt 0
  let signMask : Word := if isNeg then BitVec.allOnes 256 else 0
  let maskShift := if y < 256 then 256 - toSize y else 0
  shr x y ||| shlBy signMask maskShift

theorem sar_eq (y x : Word) : sar y x = x.sshiftRight y.toNat := by
  rw [sar, limb_slt_zero, shr_eq, shlBy_eq]
  have hlt : y < 256 ↔ y.toNat < 256 := BitVec.lt_def
  apply BitVec.eq_of_getLsbD_eq
  intro i hi
  simp only [hlt]
  rw [BitVec.getLsbD_or, BitVec.getLsbD_ushiftRight, BitVec.getLsbD_shiftLeft,
    BitVec.getLsbD_sshiftRight]
  -- the mask reaches down to the bit `256 - y`
  have hmask : ∀ j, (if x.msb then BitVec.allOnes 256 else 0 : Word).getLsbD j =
      (decide (j < 256) && x.msb) := by
    intro j
    cases x.msb
    · simp
    · rw [if_pos rfl, BitVec.getLsbD_allOnes, Bool.and_true]
  rw [hmask]
  by_cases hy : y.toNat < 256
  · rw [if_pos hy, toSize_of_lt (by omega)]
    by_cases hs : y.toNat + i < 256
    · simp [hs, hi, show i < 256 - y.toNat by omega]
    · rw [BitVec.getLsbD_of_ge x _ (by omega)]
      simp [hs, hi, show ¬i < 256 - y.toNat by omega, show i - (256 - y.toNat) < 256 by omega]
  · rw [if_neg hy, BitVec.getLsbD_of_ge x _ (by omega)]
    simp [show ¬y.toNat + i < 256 by omega, hi]

/-! ### Bytes -/

/-- The number with some bytes, the highest first. -/
def beValue (bs : Bytes) : ℕ := bs.foldl (fun n b => n * 256 + b.toNat) 0

/-- The lowest `n` bytes of a number, the highest of them first. -/
def beBytes : ℕ → ℕ → Bytes
  | 0, _ => []
  | n + 1, x => beBytes n (x / 256) ++ [UInt8.ofNat x]

@[simp] theorem length_beBytes (n x : ℕ) : (beBytes n x).length = n := by
  induction n generalizing x with
  | zero => rfl
  | succ n ih => simp [beBytes, ih]

theorem beValue_concat (bs : Bytes) (b : UInt8) :
    beValue (bs ++ [b]) = beValue bs * 256 + b.toNat := by
  simp [beValue]

theorem beValue_append (bs cs : Bytes) :
    beValue (bs ++ cs) = beValue bs * 256 ^ cs.length + beValue cs := by
  induction cs using List.reverseRecOn with
  | nil => simp [beValue]
  | append_singleton cs b ih =>
    rw [← List.append_assoc, beValue_concat, ih, beValue_concat, List.length_append,
      List.length_singleton, pow_succ]
    ring

theorem beValue_lt (bs : Bytes) : beValue bs < 256 ^ bs.length := by
  induction bs using List.reverseRecOn with
  | nil => simp [beValue]
  | append_singleton bs b ih =>
    have hb := b.toNat_lt
    rw [beValue_concat, List.length_append, List.length_singleton, pow_succ]
    omega

theorem beValue_beBytes (n x : ℕ) : beValue (beBytes n x) = x % 256 ^ n := by
  induction n generalizing x with
  | zero => simp [beBytes, beValue, Nat.mod_one]
  | succ n ih =>
    rw [beBytes, beValue_concat, ih, pow_succ', Nat.mod_mul, UInt8.toNat_ofNat']
    omega

theorem beBytes_beValue {n : ℕ} {bs : Bytes} (h : bs.length = n) :
    beBytes n (beValue bs) = bs := by
  induction bs using List.reverseRecOn generalizing n with
  | nil =>
    subst h
    rfl
  | append_singleton bs b ih =>
    subst h
    have hb := b.toNat_lt
    rw [List.length_append, List.length_singleton, beBytes, beValue_concat]
    have hhigh : (beValue bs * 256 + b.toNat) / 256 = beValue bs := by omega
    rw [hhigh, ih rfl]
    congr 2
    apply UInt8.toNat_inj.1
    rw [UInt8.toNat_ofNat']
    omega

/-- `intx::be::load<uint256>`. -/
def load (bs : Bytes) : Word := BitVec.ofNat 256 (beValue bs)

/-- `intx::be::store<bytes32>`. -/
def store (x : Word) : Bytes32 := ⟨beBytes 32 x.toNat, length_beBytes 32 _⟩

/-- `intx::be::trunc<address>`. -/
def truncAddress (x : Word) : Address := ⟨beBytes 20 x.toNat, length_beBytes 20 _⟩

@[simp] theorem store_bytes (x : Word) : (store x).bytes = beBytes 32 x.toNat := rfl

@[simp] theorem truncAddress_bytes (x : Word) :
    (truncAddress x).bytes = beBytes 20 x.toNat := rfl

theorem beValue_store (x : Word) : beValue (store x).bytes = x.toNat := by
  have hlt : x.toNat < 256 ^ 32 := lt_of_lt_of_eq x.isLt (by norm_num)
  exact (beValue_beBytes 32 x.toNat).trans (Nat.mod_eq_of_lt hlt)

theorem toNat_load {bs : Bytes} (h : bs.length ≤ 32) : (load bs).toNat = beValue bs := by
  have hlt : beValue bs < 2 ^ 256 :=
    calc beValue bs < 256 ^ bs.length := beValue_lt bs
      _ ≤ 256 ^ 32 := Nat.pow_le_pow_right (by norm_num) h
      _ = 2 ^ 256 := by norm_num
  rw [load, BitVec.toNat_ofNat, Nat.mod_eq_of_lt hlt]

theorem beValue_div_mod (xs ys zs : Bytes) :
    beValue (xs ++ ys ++ zs) / 256 ^ zs.length % 256 ^ ys.length = beValue ys := by
  have hpos : 0 < 256 ^ zs.length := by positivity
  rw [beValue_append, mul_comm, Nat.mul_add_div hpos, Nat.div_eq_of_lt (beValue_lt zs),
    Nat.add_zero, beValue_append, Nat.mul_add_mod_self_right, Nat.mod_eq_of_lt (beValue_lt ys)]

/-- The words of 64 bits of a word that is read, of eight bytes each; the highest may have fewer. -/
theorem limb_load {xs ys zs : Bytes} {i : ℕ} (hlen : (xs ++ ys ++ zs).length ≤ 32)
    (hzs : zs.length = 8 * i) (hys : ys.length = 8 ∨ xs = [] ∧ ys.length ≤ 8) :
    limb (load (xs ++ ys ++ zs)) i = BitVec.ofNat 64 (beValue ys) := by
  apply BitVec.eq_of_toNat_eq
  have hpow : 2 ^ (64 * i) = 256 ^ zs.length := by
    rw [hzs, pow_mul, pow_mul]
    norm_num
  have hpow8 : 256 ^ 8 = 2 ^ 64 := by norm_num
  rw [toNat_limb, toNat_load hlen, hpow, BitVec.toNat_ofNat]
  rcases hys with h8 | ⟨rfl, hle⟩
  · rw [← hpow8, ← h8, beValue_div_mod, Nat.mod_eq_of_lt (beValue_lt ys)]
  · have hlt : beValue ys < 2 ^ 64 :=
      (beValue_lt ys).trans_le (hpow8 ▸ Nat.pow_le_pow_right (by norm_num) hle)
    have hdiv : beValue ([] ++ ys ++ zs) / 256 ^ zs.length = beValue ys := by
      have hpos : 0 < 256 ^ zs.length := by positivity
      rw [List.nil_append, beValue_append, mul_comm, Nat.mul_add_div hpos,
        Nat.div_eq_of_lt (beValue_lt zs), Nat.add_zero]
    rw [hdiv]

/-- The words above the bytes are zero. -/
theorem limb_load_of_le {bs : Bytes} {i : ℕ} (hlen : bs.length ≤ 32) (hi : bs.length ≤ 8 * i) :
    limb (load bs) i = 0 := by
  apply BitVec.eq_of_toNat_eq
  have hlt : beValue bs < 2 ^ (64 * i) :=
    calc beValue bs < 256 ^ bs.length := beValue_lt bs
      _ ≤ 256 ^ (8 * i) := Nat.pow_le_pow_right (by norm_num) hi
      _ = 2 ^ (64 * i) := by rw [pow_mul, pow_mul]; norm_num
  rw [toNat_limb, toNat_load hlen, Nat.div_eq_of_lt hlt]
  rfl

/-- A word is read back. -/
theorem load_store (x : Word) : load (store x).bytes = x := by
  apply BitVec.eq_of_toNat_eq
  rw [toNat_load (store x).size.le, beValue_store]

/-- Bytes are read back. -/
theorem store_load (b : Bytes32) : store (load b.bytes) = b := by
  apply FixedBytes.ext
  rw [store_bytes, toNat_load b.size.le, beBytes_beValue b.size]

/-- An address is read back. -/
theorem truncAddress_load (a : Address) : truncAddress (load a.bytes) = a := by
  apply FixedBytes.ext
  rw [truncAddress_bytes, toNat_load (by rw [a.size]; norm_num), beBytes_beValue a.size]

end Intx

end Evm

end WeakChain
