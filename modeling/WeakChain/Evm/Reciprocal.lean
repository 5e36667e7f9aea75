import Mathlib.Algebra.Order.Ring.Abs
import WeakChain.Lib.LongDivision

/-!
# Division by a reciprocal

The divisions of `intx` that make one word of a quotient: of two words by one, and of three words by
two.  They multiply with a reciprocal of the divisor, which itself is found by approximation.

A word is a number; the value of an expression of 64 bits is taken modulo `2^64` (`u64`).

* `isReciprocal_reciprocal2by1`, `isReciprocal_reciprocal3by2` : the reciprocals are right.
* `udivrem2by1_spec`, `udivrem3by2_spec` : so are the quotients and the remainders.
-/

namespace WeakChain

namespace Evm

namespace Division

open LongDivision

/-- The base. -/
def radix : ℤ := 2 ^ 64

/-- The value of an expression of 32 bits. -/
def u32 (x : ℤ) : ℤ := x % 2 ^ 32

/-- The value of an expression of 64 bits. -/
def u64 (x : ℤ) : ℤ := x % radix

/-- The value of an expression of 128 bits. -/
def u128 (x : ℤ) : ℤ := x % radix ^ 2

theorem radix_pos : 0 < radix := by decide

theorem u64_eq {x : ℤ} (h : 0 ≤ x) (h' : x < radix) : u64 x = x := Int.emod_eq_of_lt h h'

theorem u32_eq {x : ℤ} (h : 0 ≤ x) (h' : x < 2 ^ 32) : u32 x = x := Int.emod_eq_of_lt h h'

theorem u64_nonneg (x : ℤ) : 0 ≤ u64 x := Int.emod_nonneg _ radix_pos.ne'

theorem u64_lt (x : ℤ) : u64 x < radix := Int.emod_lt_of_pos _ radix_pos

/-- `|`. -/
def lor (x y : ℤ) : ℤ := ((x.toNat ||| y.toNat : ℕ) : ℤ)

/-- Of numbers whose bits are apart, it is the sum. -/
theorem lor_eq {x y : ℤ} {i : ℕ} (hx : 0 ≤ x) (hy : 0 ≤ y) (hy' : y < 2 ^ i) :
    lor (x * 2 ^ i) y = x * 2 ^ i + y := by
  lift x to ℕ using hx
  lift y to ℕ using hy
  have hlt : y < 2 ^ i := by exact_mod_cast hy'
  have hshift : ((x : ℤ) * 2 ^ i).toNat = x <<< i := by
    rw [Nat.shiftLeft_eq]
    exact_mod_cast Int.toNat_natCast (x * 2 ^ i)
  rw [lor, hshift, Int.toNat_natCast, ← Nat.shiftLeft_add_eq_or_of_lt hlt, Nat.shiftLeft_eq]
  push_cast
  rfl

/-! ### Reciprocals -/

/-- `reciprocal_table_item`. -/
def reciprocalTableItem (d9 : ℤ) : ℤ := 0x7fd00 / lor 0x100 d9

/-- `d40`: the highest 40 bits of the divisor, and one more. -/
def d40 (d : ℤ) : ℤ := d / 2 ^ 24 + 1

/-- `v1` of `reciprocal_2by1`. -/
def reciprocalV1 (d : ℤ) : ℤ :=
  let d9 := d / 2 ^ 55
  let v0 := reciprocalTableItem (d9 - 256)
  u32 (u32 (v0 * 2 ^ 11) - u32 (u64 (u32 (v0 * v0) * d40 d) / 2 ^ 40) - 1)

/-- `v2`. -/
def reciprocalV2 (d : ℤ) : ℤ :=
  let v1 := reciprocalV1 d
  u64 (v1 * 2 ^ 13 + u64 (v1 * u64 (0x1000000000000000 - v1 * d40 d)) / 2 ^ 47)

/-- `v3`. -/
def reciprocalV3 (d : ℤ) : ℤ :=
  let v2 := reciprocalV2 d
  let d0 := d % 2
  let d63 := d / 2 + d0
  let e := u64 ((if d0 = 1 then v2 / 2 else 0) - v2 * d63)
  u64 (v2 * e / radix / 2 + v2 * 2 ^ 31)

/-- `reciprocal_2by1`. -/
def reciprocal2by1 (d : ℤ) : ℤ :=
  let v3 := reciprocalV3 d
  u64 (v3 - u128 (v3 * d + d) / radix - d)

section Reciprocal

variable {d : ℤ}

/-- The first approximation, by the highest nine bits, which is looked up. -/
theorem abs_error_zero {d9 d40 v0 : ℤ} (h9 : 256 ≤ d9) (h9' : d9 < 512) (hlt : d9 * 2 ^ 31 < d40)
    (hle : d40 ≤ (d9 + 1) * 2 ^ 31) (hv0 : v0 = 0x7fd00 / d9) :
    0 < v0 ∧ v0 ≤ 2045 ∧ -(1278 * 2 ^ 31) ≤ 2 ^ 50 - v0 * d40 ∧
      2 ^ 50 - v0 * d40 ≤ 1278 * 2 ^ 31 := by
  have hpos : 0 < d9 := by linarith
  have h₁ : d9 * v0 ≤ 0x7fd00 := hv0 ▸ Int.mul_ediv_self_le hpos.ne'
  have h₂ : 0x7fd00 < d9 * v0 + d9 := by
    rw [hv0]
    exact Int.lt_mul_ediv_self_add hpos
  have hv0pos : 0 < v0 := by nlinarith
  refine ⟨hv0pos, by nlinarith, ?_, ?_⟩
  · nlinarith [mul_le_mul_of_nonneg_left hle hv0pos.le]
  · nlinarith [mul_lt_mul_of_pos_left hlt hv0pos]

/-- The second one. -/
theorem error_one {d40 v0 t : ℤ} (hd40 : 0 < d40) (hd40' : d40 ≤ 2 ^ 40)
    (he : -(1278 * 2 ^ 31) ≤ 2 ^ 50 - v0 * d40) (he' : 2 ^ 50 - v0 * d40 ≤ 1278 * 2 ^ 31)
    (ht : t = v0 * v0 * d40 / 2 ^ 40) :
    0 < 2 ^ 60 - (v0 * 2 ^ 11 - t - 1) * d40 ∧
      2 ^ 60 - (v0 * 2 ^ 11 - t - 1) * d40 ≤ 29 * 2 ^ 38 := by
  have h₁ : 2 ^ 40 * t ≤ v0 * v0 * d40 := ht ▸ Int.mul_ediv_self_le (by norm_num)
  have h₂ : v0 * v0 * d40 < 2 ^ 40 * t + 2 ^ 40 := by
    rw [ht]
    exact Int.lt_mul_ediv_self_add (by norm_num)
  have herror : 2 ^ 40 * (2 ^ 60 - (v0 * 2 ^ 11 - t - 1) * d40) =
      (2 ^ 50 - v0 * d40) ^ 2 + (2 ^ 40 * t + 2 ^ 40 - v0 * v0 * d40) * d40 := by ring
  have hsq : (2 ^ 50 - v0 * d40) ^ 2 ≤ (1278 * 2 ^ 31) ^ 2 := sq_le_sq' he he'
  have hrest : (2 ^ 40 * t + 2 ^ 40 - v0 * v0 * d40) * d40 ≤ 2 ^ 40 * d40 :=
    mul_le_mul_of_nonneg_right (by linarith) hd40.le
  have hrest' : 0 < (2 ^ 40 * t + 2 ^ 40 - v0 * v0 * d40) * d40 :=
    mul_pos (by linarith) hd40
  constructor
  · nlinarith [sq_nonneg (2 ^ 50 - v0 * d40)]
  · nlinarith

/-- The third one, by 40 bits. -/
theorem error_two {d d40 v1 v2 g : ℤ} (hd : 0 < d) (hd40 : 2 ^ 39 < d40) (hg : 0 < g)
    (hg' : g ≤ 2 ^ 24) (hdg : d = 2 ^ 24 * d40 - g) (he : 0 < 2 ^ 60 - v1 * d40)
    (he' : 2 ^ 60 - v1 * d40 ≤ 29 * 2 ^ 38) (hv1 : 0 < v1)
    (hv2 : v2 = v1 * 2 ^ 13 + v1 * (2 ^ 60 - v1 * d40) / 2 ^ 47) :
    v1 < 2 ^ 21 ∧ 0 < 2 ^ 97 - v2 * d ∧ 2 ^ 97 - v2 * d ≤ 437 * 2 ^ 54 + d := by
  have hv1' : v1 < 2 ^ 21 := by
    by_contra h
    nlinarith
  generalize he₁ : 2 ^ 60 - v1 * d40 = e₁ at *
  have h₁ : 2 ^ 47 * (v1 * e₁ / 2 ^ 47) ≤ v1 * e₁ := Int.mul_ediv_self_le (by norm_num)
  have h₂ : v1 * e₁ < 2 ^ 47 * (v1 * e₁ / 2 ^ 47) + 2 ^ 47 := Int.lt_mul_ediv_self_add (by norm_num)
  generalize v1 * e₁ / 2 ^ 47 = h at *
  have herror : 2 ^ 47 * (2 ^ 97 - v2 * d) =
      2 ^ 24 * e₁ ^ 2 + (2 ^ 60 + e₁) * (v1 * g) + (v1 * e₁ - 2 ^ 47 * h) * d := by
    rw [hv2, ← he₁, hdg]
    ring
  have hsq : e₁ ^ 2 ≤ (29 * 2 ^ 38) ^ 2 := pow_le_pow_left₀ he.le he' 2
  have hv1g : v1 * g ≤ 2 ^ 21 * 2 ^ 24 := mul_le_mul hv1'.le hg' hg.le (by norm_num)
  have hv1g' : 0 < v1 * g := mul_pos hv1 hg
  have hmid : (2 ^ 60 + e₁) * (v1 * g) ≤ (2 ^ 60 + 29 * 2 ^ 38) * (2 ^ 21 * 2 ^ 24) :=
    mul_le_mul (by linarith) hv1g hv1g'.le (by norm_num)
  have hmid' : 0 < (2 ^ 60 + e₁) * (v1 * g) := mul_pos (by linarith) hv1g'
  have hrest : (v1 * e₁ - 2 ^ 47 * h) * d ≤ 2 ^ 47 * d :=
    mul_le_mul_of_nonneg_right (by linarith) hd.le
  have hrest' : 0 ≤ (v1 * e₁ - 2 ^ 47 * h) * d := mul_nonneg (by linarith) hd.le
  refine ⟨hv1', ?_, ?_⟩
  · nlinarith [sq_nonneg e₁]
  · nlinarith

/-- The fourth one. -/
theorem error_three {d v2 v3 e : ℤ} (hd : 2 ^ 63 ≤ d) (hd' : d < 2 ^ 64)
    (he : 0 < 2 ^ 97 - v2 * d) (he' : 2 ^ 97 - v2 * d ≤ 437 * 2 ^ 54 + d) (hv2 : 0 ≤ v2)
    (heq : e = (2 ^ 97 - v2 * d) / 2) (hv3 : v3 = v2 * e / 2 ^ 65 + v2 * 2 ^ 31) :
    0 < 2 ^ 128 - v3 * d ∧ 2 ^ 128 - v3 * d ≤ 2 * d := by
  generalize he₂ : 2 ^ 97 - v2 * d = e₂ at *
  obtain ⟨π, hπ, hπ', hπe⟩ : ∃ π : ℤ, 0 ≤ π ∧ π ≤ 1 ∧ e₂ = 2 * e + π :=
    ⟨e₂ % 2, by omega, by omega, by omega⟩
  have h₁ : 2 ^ 65 * (v2 * e / 2 ^ 65) ≤ v2 * e := Int.mul_ediv_self_le (by norm_num)
  have h₂ : v2 * e < 2 ^ 65 * (v2 * e / 2 ^ 65) + 2 ^ 65 := Int.lt_mul_ediv_self_add (by norm_num)
  generalize v2 * e / 2 ^ 65 = h at *
  have herror : 2 ^ 66 * (2 ^ 128 - v3 * d) =
      e₂ ^ 2 + π * (v2 * d) + 2 * (v2 * e - 2 ^ 65 * h) * d := by
    have hv2d : v2 * d = 2 ^ 97 - e₂ := by linarith
    rw [hv3]
    have : 2 ^ 66 * (2 ^ 128 - (h + v2 * 2 ^ 31) * d) =
        2 ^ 194 - (v2 * d) * (2 ^ 97 + 2 * e) + 2 * (v2 * e - 2 ^ 65 * h) * d := by ring
    rw [this, hv2d, hπe]
    ring
  have hπv : 0 ≤ π * (v2 * d) := mul_nonneg hπ (mul_nonneg hv2 (by linarith))
  have hπv' : π * (v2 * d) ≤ 1 * (v2 * d) :=
    mul_le_mul_of_nonneg_right hπ' (mul_nonneg hv2 (by linarith))
  have hrest : 2 * (v2 * e - 2 ^ 65 * h) * d ≤ 2 ^ 66 * d :=
    mul_le_mul_of_nonneg_right (by linarith) (by linarith)
  have hrest' : 0 ≤ 2 * (v2 * e - 2 ^ 65 * h) * d := mul_nonneg (by linarith) (by linarith)
  have hsq : e₂ ^ 2 ≤ (437 * 2 ^ 54 + d) ^ 2 := pow_le_pow_left₀ he.le he' 2
  constructor
  · nlinarith [mul_pos he he]
  · nlinarith [mul_nonneg (sub_nonneg.2 hd) (sub_nonneg.2 hd'.le)]

theorem reciprocalV1_spec (hd : 2 ^ 63 ≤ d) (hd' : d < 2 ^ 64) :
    0 < reciprocalV1 d ∧ 0 < 2 ^ 60 - reciprocalV1 d * d40 d ∧
      2 ^ 60 - reciprocalV1 d * d40 d ≤ 29 * 2 ^ 38 := by
  have hd40 : 2 ^ 39 < d40 d ∧ d40 d ≤ 2 ^ 40 ∧ d / 2 ^ 55 * 2 ^ 31 < d40 d ∧
      d40 d ≤ (d / 2 ^ 55 + 1) * 2 ^ 31 := by
    unfold d40
    omega
  have hv0 : reciprocalTableItem (d / 2 ^ 55 - 256) = 0x7fd00 / (d / 2 ^ 55) := by
    rw [reciprocalTableItem, show (0x100 : ℤ) = 1 * 2 ^ 8 by norm_num,
      lor_eq zero_le_one (by omega) (by omega)]
    congr 1
    ring
  obtain ⟨hpos, hle, he, he'⟩ :=
    abs_error_zero (by omega) (by omega) hd40.2.2.1 hd40.2.2.2 hv0
  generalize hv : reciprocalTableItem (d / 2 ^ 55 - 256) = v0 at *
  obtain ⟨h₁, h₂⟩ := error_one (by linarith) hd40.2.1 he he' rfl
  have hsq : v0 * v0 ≤ 2045 * 2045 := mul_le_mul hle hle hpos.le (by norm_num)
  have hsq' : 0 < v0 * v0 := mul_pos hpos hpos
  have hprod : v0 * v0 * d40 d ≤ 2045 * 2045 * 2 ^ 40 :=
    mul_le_mul hsq hd40.2.1 (by linarith) (by norm_num)
  have hprod' : 0 < v0 * v0 * d40 d := mul_pos hsq' (by linarith)
  have hv1 : 0 < v0 * 2 ^ 11 - v0 * v0 * d40 d / 2 ^ 40 - 1 := by
    by_contra h
    nlinarith
  have heq : reciprocalV1 d = v0 * 2 ^ 11 - v0 * v0 * d40 d / 2 ^ 40 - 1 := by
    rw [reciprocalV1, hv]
    rw [u32_eq hsq'.le (by linarith), u64_eq hprod'.le (by unfold radix; linarith),
      u32_eq (x := v0 * v0 * d40 d / 2 ^ 40) (by omega) (by omega),
      u32_eq (x := v0 * 2 ^ 11) (by omega) (by omega), u32_eq (by omega) (by omega)]
  rw [heq]
  exact ⟨hv1, h₁, h₂⟩

theorem reciprocalV2_spec (hd : 2 ^ 63 ≤ d) (hd' : d < 2 ^ 64) :
    0 < reciprocalV2 d ∧ 0 < 2 ^ 97 - reciprocalV2 d * d ∧
      2 ^ 97 - reciprocalV2 d * d ≤ 437 * 2 ^ 54 + d := by
  obtain ⟨hv1, he, he'⟩ := reciprocalV1_spec hd hd'
  have hd40 : 2 ^ 39 < d40 d ∧ 0 < 2 ^ 24 * d40 d - d ∧ 2 ^ 24 * d40 d - d ≤ 2 ^ 24 := by
    unfold d40
    omega
  have hdg : d = 2 ^ 24 * d40 d - (2 ^ 24 * d40 d - d) := by ring
  obtain ⟨hlt, h₁, h₂⟩ := error_two (by linarith) hd40.1 hd40.2.1 hd40.2.2 hdg he he' hv1 rfl
  have hprod : reciprocalV1 d * (2 ^ 60 - reciprocalV1 d * d40 d) ≤ 2 ^ 21 * (29 * 2 ^ 38) :=
    mul_le_mul hlt.le he' he.le (by norm_num)
  have hprod' : 0 < reciprocalV1 d * (2 ^ 60 - reciprocalV1 d * d40 d) := mul_pos hv1 he
  have heq : reciprocalV2 d = reciprocalV1 d * 2 ^ 13 +
      reciprocalV1 d * (2 ^ 60 - reciprocalV1 d * d40 d) / 2 ^ 47 := by
    have hconst : (0x1000000000000000 : ℤ) = 2 ^ 60 := by norm_num
    rw [reciprocalV2]
    rw [hconst, u64_eq (x := 2 ^ 60 - _) he.le (by unfold radix; linarith),
      u64_eq hprod'.le (by unfold radix; linarith), u64_eq (by omega) (by unfold radix; omega)]
  rw [heq]
  exact ⟨by omega, h₁, h₂⟩

theorem reciprocalV3_spec (hd : 2 ^ 63 ≤ d) (hd' : d < 2 ^ 64) :
    0 < 2 ^ 128 - (reciprocalV3 d + radix) * d ∧
      2 ^ 128 - (reciprocalV3 d + radix) * d ≤ 2 * d ∧ 0 ≤ reciprocalV3 d := by
  obtain ⟨hv2, he, he'⟩ := reciprocalV2_spec hd hd'
  obtain ⟨h₁, h₂⟩ := error_three hd hd' he he' hv2.le rfl rfl
  generalize hv : reciprocalV2 d = v2 at *
  generalize hE : (2 ^ 97 - v2 * d) / 2 = e at *
  -- half the error, computed without the highest bits
  have heq : u64 ((if d % 2 = 1 then v2 / 2 else 0) - v2 * (d / 2 + d % 2)) = e := by
    have hmul : v2 * d = 2 * (v2 * (d / 2)) + v2 * (d % 2) := by
      conv_lhs => rw [← Int.mul_ediv_add_emod d 2]
      ring
    have hshift : (if d % 2 = 1 then v2 / 2 else 0) - v2 * (d / 2 + d % 2) =
        e + radix * (-2 ^ 32) := by
      rw [mul_add]
      unfold radix
      rcases Int.emod_two_eq d with h | h
      · rw [h] at hmul ⊢
        rw [if_neg (by norm_num)]
        omega
      · rw [h] at hmul ⊢
        rw [if_pos rfl]
        omega
    rw [hshift, u64, Int.add_mul_emod_self_left]
    exact Int.emod_eq_of_lt (by omega) (by unfold radix; omega)
  have hdiv : v2 * e / radix / 2 = v2 * e / 2 ^ 65 := by
    rw [Int.ediv_ediv_of_nonneg radix_pos.le]
    rfl
  generalize hv3 : v2 * e / 2 ^ 65 + v2 * 2 ^ 31 = v3 at *
  have hlt : v3 < 2 * radix := by
    unfold radix
    by_contra h
    nlinarith
  have hge : radix ≤ v3 := by
    unfold radix
    by_contra h
    nlinarith
  have heq' : reciprocalV3 d = v3 - radix := by
    rw [reciprocalV3, hv]
    rw [heq, hdiv, hv3, u64, ← Int.sub_emod_right, Int.emod_eq_of_lt (by linarith) (by linarith)]
  rw [heq', sub_add_cancel]
  exact ⟨h₁, h₂, by linarith⟩

/-- **The reciprocal of a word.** -/
theorem isReciprocal_reciprocal2by1 (hd : 2 ^ 63 ≤ d) (hd' : d < 2 ^ 64) :
    IsReciprocal radix (radix ^ 2) d (reciprocal2by1 d) := by
  obtain ⟨h₁, h₂, h₃⟩ := reciprocalV3_spec hd hd'
  generalize hv : reciprocalV3 d = v3 at *
  have hsq : radix ^ 2 = 2 ^ 128 := by norm_num [radix]
  have hdr : d < radix := hd'
  -- the error is no more than twice the divisor; if it is more than once, one is added
  have hsum : v3 * d + d = radix * (radix - d) + (d - (radix ^ 2 - (v3 + radix) * d)) := by ring
  rw [← hsq] at h₁ h₂
  generalize he : radix ^ 2 - (v3 + radix) * d = e at *
  have hu128 : u128 (v3 * d + d) = v3 * d + d := by
    refine Int.emod_eq_of_lt (add_nonneg (mul_nonneg h₃ (by linarith)) (by linarith)) ?_
    nlinarith
  have heq : reciprocal2by1 d = u64 (v3 - (d - e) / radix) := by
    rw [reciprocal2by1, hv]
    rw [hu128, hsum, add_comm (radix * _), Int.add_mul_ediv_left _ _ radix_pos.ne', u64, u64,
      ← Int.sub_emod_right (v3 - (d - e) / radix)]
    congr 1
    ring
  have hB : radix ^ 2 ≤ 2 * radix * d := by
    unfold radix
    linarith
  rcases le_or_gt e d with hle | hgt
  · have hdiv : (d - e) / radix = 0 := Int.ediv_eq_zero_of_lt (by linarith) (by linarith)
    have hrec : IsReciprocal radix (radix ^ 2) d v3 := ⟨by linarith, by linarith⟩
    rwa [heq, hdiv, sub_zero, u64_eq h₃ (hrec.lt_base (by linarith) hB)]
  · have hdiv : (d - e) / radix = -1 := by
      rw [Int.ediv_eq_iff_of_pos radix_pos]
      constructor <;> linarith
    have hrec : IsReciprocal radix (radix ^ 2) d (v3 + 1) := ⟨by linarith, by linarith⟩
    rwa [heq, hdiv, sub_neg_eq_add, u64_eq (by linarith) (hrec.lt_base (by linarith) hB)]

end Reciprocal

/-- `reciprocal_3by2`, to begin with: `v` and `p`. -/
def reciprocal3by2Low (d₁ d₀ : ℤ) : ℤ × ℤ :=
  let v := reciprocal2by1 d₁
  let p := u64 (u64 (d₁ * v) + d₀)
  if p < d₀ then
    let vp := if d₁ ≤ p then (u64 (u64 (v - 1) - 1), u64 (p - d₁)) else (u64 (v - 1), p)
    (vp.1, u64 (vp.2 - d₁))
  else (v, p)

/-- `reciprocal_3by2`. -/
def reciprocal3by2 (d₁ d₀ : ℤ) : ℤ :=
  let vp := reciprocal3by2Low d₁ d₀
  let v := vp.1
  let t := v * d₀
  let p := u64 (vp.2 + t / radix)
  if p < t / radix then
    let v := u64 (v - 1)
    if d₁ ≤ p ∧ (d₁ < p ∨ d₀ ≤ t % radix) then u64 (v - 1) else v
  else v

section Reciprocal

variable {d₁ d₀ : ℤ}

theorem radix_le_two_mul {d : ℤ} (hd : 2 ^ 63 ≤ d) : radix ≤ 2 * d := by
  unfold radix
  linarith

theorem emod_radix_eq {x k : ℤ} (h : radix * k ≤ x) (h' : x < radix * k + radix) :
    u64 x = x - radix * k := by
  rw [u64, ← Int.sub_mul_emod_self_left x radix k]
  exact Int.emod_eq_of_lt (by linarith) (by linarith)

theorem pos_of_sq_le {v : ℤ} (hd₁ : 0 < d₁) (hd₁' : d₁ < radix) (hd₀' : d₀ < radix)
    (h : radix ^ 2 ≤ (radix + v) * d₁ + d₀) : 0 < v := by
  by_contra hv
  have hle : (radix + v) * d₁ ≤ radix * d₁ :=
    mul_le_mul_of_nonneg_right (by linarith) hd₁.le
  nlinarith [radix_pos]

/-- So far, the reciprocal is that of `d₁`, with `d₀` added once. -/
theorem reciprocal3by2Low_spec (hd₁ : 2 ^ 63 ≤ d₁) (hd₁' : d₁ < radix) (hd₀ : 0 ≤ d₀)
    (hd₀' : d₀ < radix) :
    let vp := reciprocal3by2Low d₁ d₀
    (0 ≤ vp.1 ∧ vp.1 < radix) ∧ (0 ≤ vp.2 ∧ vp.2 < radix) ∧
      (radix + vp.1) * d₁ + d₀ = radix ^ 2 - radix + vp.2 ∧
      radix ^ 2 ≤ (radix + vp.1) * d₁ + d₀ + d₁ := by
  have hrec := isReciprocal_reciprocal2by1 hd₁ hd₁'
  have hpos : 0 < d₁ := by linarith
  have htwo := radix_le_two_mul hd₁
  have hv := hrec.nonneg hpos (by nlinarith [radix_pos])
  have hv' := hrec.lt_base hpos (by nlinarith [radix_pos])
  obtain ⟨h₁, h₂⟩ := hrec
  rw [reciprocal3by2Low]
  generalize reciprocal2by1 d₁ = v at *
  have hmod : u64 (u64 (d₁ * v) + d₀) = u64 ((radix + v) * d₁ + d₀) := by
    rw [u64, u64, u64, Int.emod_add_emod, ← Int.add_mul_emod_self_left (d₁ * v + d₀) radix d₁]
    congr 1
    ring
  simp only [hmod]
  generalize hx : (radix + v) * d₁ + d₀ = x at *
  rcases lt_or_ge x (radix ^ 2) with hlt | hge
  · have hp : u64 x = x - radix * (radix - 1) := emod_radix_eq (by linarith) (by linarith)
    have hle : ¬x - radix * (radix - 1) < d₀ := by linarith
    rw [hp, if_neg hle]
    exact ⟨⟨hv, hv'⟩, ⟨by linarith, by linarith⟩, by linarith, by linarith⟩
  · have hp : u64 x = x - radix * radix := emod_radix_eq (by linarith) (by linarith)
    have hlt : x - radix * radix < d₀ := by linarith
    rw [hp, if_pos hlt]
    split_ifs with h
    · -- the divisor is taken away twice
      have hv₁ : 0 < v - 1 := pos_of_sq_le hpos hd₁' hd₀' (by linarith)
      dsimp only
      rw [u64_eq (x := v - 1) (by linarith) (by linarith), u64_eq (by linarith) (by linarith),
        u64_eq (x := x - radix * radix - d₁) (by linarith) (by linarith),
        emod_radix_eq (k := -1) (by linarith) (by linarith)]
      exact ⟨⟨by linarith, by linarith⟩, ⟨by linarith, by linarith⟩, by linarith, by linarith⟩
    · have hv₀ : 0 < v := pos_of_sq_le hpos hd₁' hd₀' (by linarith)
      dsimp only
      rw [u64_eq (x := v - 1) (by linarith) (by linarith),
        emod_radix_eq (k := -1) (by linarith) (by linarith)]
      exact ⟨⟨by linarith, by linarith⟩, ⟨by linarith, by linarith⟩, by linarith, by linarith⟩

/-- **The reciprocal of two words.** -/
theorem isReciprocal_reciprocal3by2 (hd₁ : 2 ^ 63 ≤ d₁) (hd₁' : d₁ < radix) (hd₀ : 0 ≤ d₀)
    (hd₀' : d₀ < radix) :
    IsReciprocal radix (radix ^ 3) (d₁ * radix + d₀) (reciprocal3by2 d₁ d₀) := by
  obtain ⟨⟨hv, hv'⟩, ⟨hp, hp'⟩, heq, hle⟩ := reciprocal3by2Low_spec hd₁ hd₁' hd₀ hd₀'
  rw [reciprocal3by2]
  generalize (reciprocal3by2Low d₁ d₀).1 = v at *
  generalize (reciprocal3by2Low d₁ d₀).2 = p at *
  have hrad := radix_pos
  have htwo := radix_le_two_mul hd₁
  have ht : radix * (v * d₀ / radix) + v * d₀ % radix = v * d₀ := Int.mul_ediv_add_emod _ _
  have ht₀ : 0 ≤ v * d₀ % radix := u64_nonneg _
  have ht₀' : v * d₀ % radix < radix := u64_lt _
  have ht₁ : 0 ≤ v * d₀ / radix := Int.ediv_nonneg (mul_nonneg hv hd₀) hrad.le
  have ht₁' : v * d₀ / radix < radix := Int.ediv_lt_of_lt_mul hrad (by nlinarith)
  generalize v * d₀ / radix = t₁ at *
  generalize v * d₀ % radix = t₀ at *
  have hprod : (radix + v) * (d₁ * radix + d₀) =
      radix ^ 3 - radix ^ 2 + (p + t₁) * radix + t₀ := by
    linear_combination radix * heq - ht
  have hnonneg : ∀ w, IsReciprocal radix (radix ^ 3) (d₁ * radix + d₀) w → 0 ≤ w :=
    fun w hw => hw.nonneg (by nlinarith) (by nlinarith)
  dsimp only
  rcases lt_or_ge (p + t₁) radix with hlt | hge
  · rw [u64_eq (by linarith) hlt, if_neg (by linarith)]
    constructor <;> nlinarith
  · rw [emod_radix_eq (x := p + t₁) (k := 1) (by linarith) (by linarith), if_pos (by linarith)]
    generalize hp₁ : p + t₁ - radix * 1 = p₁ at *
    have hprod' : (radix + v) * (d₁ * radix + d₀) = radix ^ 3 + (p₁ * radix + t₀) := by
      rw [hprod, ← hp₁]
      ring
    split_ifs with hc
    · -- the divisor is taken away twice
      have hge : d₁ * radix + d₀ ≤ p₁ * radix + t₀ := by
        rcases hc.2 with h | h <;> nlinarith
      have hrec : IsReciprocal radix (radix ^ 3) (d₁ * radix + d₀) (v - 1 - 1) := by
        constructor <;> nlinarith
      have hv₂ := hnonneg _ hrec
      rwa [u64_eq (x := v - 1) (by linarith) (by linarith), u64_eq hv₂ (by linarith)]
    · have hlt : p₁ * radix + t₀ < d₁ * radix + d₀ := by
        rcases lt_or_ge p₁ d₁ with h | h
        · nlinarith
        · obtain ⟨h₁, h₂⟩ := not_or.1 (fun h' => hc ⟨h, h'⟩)
          nlinarith
      have hrec : IsReciprocal radix (radix ^ 3) (d₁ * radix + d₀) (v - 1) := by
        constructor <;> nlinarith
      rwa [u64_eq (hnonneg _ hrec) (by linarith)]

end Reciprocal

/-! ### Digits of a quotient -/

/-- The end of both: a quotient and a remainder modulo `B`, which is high if the quotient is too
large, are corrected. -/
def adjust (B d q r : ℤ) (high : Bool) : ℤ × ℤ :=
  let p := if high then (u64 (q - 1), (r + d) % B) else (q, r)
  if d ≤ p.2 then (u64 (p.1 + 1), (p.2 - d) % B) else p

/-- `udivrem_2by1`. -/
def udivrem2by1 (u₁ u₀ d v : ℤ) : ℤ × ℤ :=
  let q := u128 (v * u₁ + (u₁ * radix + u₀))
  let q₁ := u64 (q / radix + 1)
  let q₀ := q % radix
  let r := u64 (u₀ - u64 (q₁ * d))
  adjust radix d q₁ r (q₀ < r)

/-- `udivrem_3by2`; the remainder, of two words, is one number. -/
def udivrem3by2 (u₂ u₁ u₀ d₁ d₀ v : ℤ) : ℤ × ℤ :=
  let d := d₁ * radix + d₀
  let q := u128 (v * u₂ + (u₂ * radix + u₁))
  let q₁ := q / radix
  let q₀ := q % radix
  let r₁ := u64 (u₁ - u64 (q₁ * d₁))
  let t := d₀ * q₁
  let r := u128 (u128 (r₁ * radix + u₀ - t) - d)
  adjust (radix ^ 2) d (u64 (q₁ + 1)) r (q₀ ≤ r / radix)

/-- The quotient may wrap around on the way. -/
theorem adjust_eq (B d c q r : ℤ) :
    adjust B d (u64 q) r (c ≤ r) = (u64 (correct B d c q r).1, (correct B d c q r).2) := by
  simp only [adjust, correct, u64, decide_eq_true_eq]
  split_ifs <;> simp

theorem u64_sub_mul (x q d : ℤ) : u64 (x - u64 (u64 q * d)) = u64 (x - q * d) := by
  simp [u64, Int.sub_emod, Int.mul_emod]

theorem quotient_bounds {N d q r : ℤ} (hN : 0 ≤ N) (hlt : N < d * radix) (hr : 0 ≤ r) (hr' : r < d)
    (h : q * d + r = N) : 0 ≤ q ∧ q < radix := by
  constructor
  · by_contra hq
    nlinarith
  · by_contra hq
    nlinarith

/-- **Two words by one.** -/
theorem udivrem2by1_spec {u₁ u₀ d v : ℤ} (hd : 2 ^ 63 ≤ d) (hd' : d < radix)
    (hv : IsReciprocal radix (radix ^ 2) d v) (hu₁ : 0 ≤ u₁) (hu : u₁ < d) (hu₀ : 0 ≤ u₀)
    (hu₀' : u₀ < radix) :
    let p := udivrem2by1 u₁ u₀ d v
    (0 ≤ p.1 ∧ p.1 < radix) ∧ (0 ≤ p.2 ∧ p.2 < d) ∧ p.1 * d + p.2 = u₁ * radix + u₀ := by
  have hrad := radix_pos
  have hpos : 0 < d := by linarith
  have htwo := radix_le_two_mul hd
  have hv₀ := hv.nonneg hpos (by nlinarith)
  have hlt : (radix + v) * u₁ + u₀ < radix ^ 2 := by nlinarith [hv.lt]
  have hnonneg : 0 ≤ (radix + v) * u₁ + u₀ := by positivity
  have hu128 : u128 (v * u₁ + (u₁ * radix + u₀)) = (radix + v) * u₁ + u₀ := by
    rw [u128, ← Int.emod_eq_of_lt hnonneg hlt]
    congr 1
    ring
  have hq : (radix + v) * u₁ + u₀ = ((radix + v) * u₁ + u₀) / radix * radix +
      ((radix + v) * u₁ + u₀) % radix := (Int.ediv_mul_add_emod _ _).symm
  have hq₀ : 0 ≤ ((radix + v) * u₁ + u₀) % radix := u64_nonneg _
  have hq₀' : ((radix + v) * u₁ + u₀) % radix < radix := u64_lt _
  rw [udivrem2by1]
  simp only [hu128]
  generalize ((radix + v) * u₁ + u₀) / radix = q₁ at *
  generalize ((radix + v) * u₁ + u₀) % radix = q₀ at *
  have hr : u64 (u₀ - u64 (u64 (q₁ + 1) * d)) = (u₁ * radix + u₀ - (q₁ + 1) * d) % radix := by
    rw [u64_sub_mul, u64, ← Int.add_mul_emod_self_right (u₀ - (q₁ + 1) * d) u₁ radix]
    congr 1
    ring
  obtain ⟨h₁, h₂, h₃⟩ := estimate_two hpos hd' hv hu₁ hu hu₀ hu₀' hq₀ hq₀' hq
  obtain ⟨hrem, hrem', heq⟩ :=
    correct_spec (q := q₁ + 1) hpos hd' htwo h₁ h₂ h₃ (by linarith)
  rw [add_sub_cancel] at heq
  obtain ⟨hquot, hquot'⟩ := quotient_bounds (by positivity) (by nlinarith) hrem hrem' heq
  have hhigh : decide (q₀ < u64 (u₀ - u64 (u64 (q₁ + 1) * d))) =
      decide (q₀ + 1 ≤ u64 (u₀ - u64 (u64 (q₁ + 1) * d))) :=
    decide_eq_decide.2 Int.add_one_le_iff.symm
  rw [hhigh, adjust_eq, hr, u64_eq hquot hquot']
  exact ⟨⟨hquot, hquot'⟩, ⟨hrem, hrem'⟩, heq⟩

/-- **Three words by two.** -/
theorem udivrem3by2_spec {u₂ u₁ u₀ d₁ d₀ v : ℤ} (hd₁ : 2 ^ 63 ≤ d₁) (hd₁' : d₁ < radix)
    (hd₀ : 0 ≤ d₀) (hd₀' : d₀ < radix)
    (hv : IsReciprocal radix (radix ^ 3) (d₁ * radix + d₀) v) (hu₂ : 0 ≤ u₂) (hu₁ : 0 ≤ u₁)
    (hu₁' : u₁ < radix) (hu : u₂ * radix + u₁ < d₁ * radix + d₀) (hu₀ : 0 ≤ u₀)
    (hu₀' : u₀ < radix) :
    let p := udivrem3by2 u₂ u₁ u₀ d₁ d₀ v
    (0 ≤ p.1 ∧ p.1 < radix) ∧ (0 ≤ p.2 ∧ p.2 < d₁ * radix + d₀) ∧
      p.1 * (d₁ * radix + d₀) + p.2 = u₂ * radix ^ 2 + u₁ * radix + u₀ := by
  have hrad := radix_pos
  have htwo := radix_le_two_mul hd₁
  have hd : radix ≤ d₁ * radix + d₀ := by nlinarith
  have hd' : d₁ * radix + d₀ < radix ^ 2 := by nlinarith
  have hpos : 0 < d₁ * radix + d₀ := by linarith
  have hv₀ := hv.nonneg hpos (by nlinarith)
  have hlt : (radix + v) * u₂ + u₁ < radix ^ 2 := by
    have hle : (radix + v) * (u₂ * radix + u₁) ≤ (radix + v) * (d₁ * radix + d₀) :=
      mul_le_mul_of_nonneg_left hu.le (by linarith)
    have hle' : radix * ((radix + v) * u₂ + u₁) ≤ (radix + v) * (u₂ * radix + u₁) := by
      nlinarith [mul_nonneg hv₀ hu₁]
    refine lt_of_mul_lt_mul_left ?_ hrad.le
    calc radix * ((radix + v) * u₂ + u₁) < radix ^ 3 := by linarith [hv.lt]
      _ = radix * radix ^ 2 := by ring
  have hnonneg : 0 ≤ (radix + v) * u₂ + u₁ := by positivity
  have hu128 : u128 (v * u₂ + (u₂ * radix + u₁)) = (radix + v) * u₂ + u₁ := by
    rw [u128, ← Int.emod_eq_of_lt hnonneg hlt]
    congr 1
    ring
  have hq : (radix + v) * u₂ + u₁ = ((radix + v) * u₂ + u₁) / radix * radix +
      ((radix + v) * u₂ + u₁) % radix := (Int.ediv_mul_add_emod _ _).symm
  have hq₀ : 0 ≤ ((radix + v) * u₂ + u₁) % radix := u64_nonneg _
  have hq₀' : ((radix + v) * u₂ + u₁) % radix < radix := u64_lt _
  rw [udivrem3by2]
  simp only [hu128]
  generalize ((radix + v) * u₂ + u₁) / radix = q₁ at *
  generalize ((radix + v) * u₂ + u₁) % radix = q₀ at *
  have hr : u128 (u128 (u64 (u₁ - u64 (q₁ * d₁)) * radix + u₀ - d₀ * q₁) - (d₁ * radix + d₀)) =
      (u₂ * radix ^ 2 + u₁ * radix + u₀ - (q₁ + 1) * (d₁ * radix + d₀)) % radix ^ 2 := by
    have hr₁ : u64 (u₁ - u64 (q₁ * d₁)) =
        u₁ - q₁ * d₁ - radix * ((u₁ - q₁ * d₁) / radix) := by
      rw [u64, u64, Int.sub_emod_emod, Int.emod_def]
    rw [hr₁, u128, u128, Int.emod_sub_emod, ← Int.sub_mul_emod_self_left
      (u₂ * radix ^ 2 + u₁ * radix + u₀ - (q₁ + 1) * (d₁ * radix + d₀)) (radix ^ 2)
      (u₂ + (u₁ - q₁ * d₁) / radix)]
    congr 1
    ring
  obtain ⟨h₁, h₂, h₃⟩ := estimate_three hrad hd hd' hv₀ hv hu₂ hu₁ hu₁' hu hu₀ hu₀' hq₀ hq₀' hq
  obtain ⟨hrem, hrem', heq⟩ :=
    correct_spec (q := q₁ + 1) hpos hd' (by nlinarith) h₁ h₂ h₃ (by nlinarith)
  rw [add_sub_cancel] at heq
  obtain ⟨hquot, hquot'⟩ := quotient_bounds (by positivity) (by nlinarith) hrem hrem' heq
  have hhigh : ∀ r, decide (q₀ ≤ r / radix) = decide (q₀ * radix ≤ r) :=
    fun r => decide_eq_decide.2 (Int.le_ediv_iff_mul_le hrad)
  rw [hhigh, adjust_eq, hr, u64_eq hquot hquot']
  exact ⟨⟨hquot, hquot'⟩, ⟨hrem, hrem'⟩, heq⟩

end Division

end Evm

end WeakChain
