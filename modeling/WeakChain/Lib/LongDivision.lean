import Mathlib.Algebra.Order.Ring.Int
import Mathlib.Tactic.Linarith
import Mathlib.Tactic.LinearCombination
import Mathlib.Tactic.Ring

/-!
# Long division

Division of numbers with many digits, by a divisor that is normalized (its highest digit is at least
half the base), with the help of a reciprocal.

* `divide_spec` : a division digit by digit divides, if each of its steps does.
* `estimate_two`, `estimate_three` : a quotient that is estimated with the reciprocal of a divisor
  of one or two digits is hardly wrong, and `correct_spec` : two corrections make it right.
* `digit_of_eq`, `digit_of_lt` : the digit of a quotient is found from the two highest digits of the
  divisor.
-/

namespace WeakChain

namespace LongDivision

variable {β : ℤ}

/-! ### Digits -/

/-- The number with some digits, the lowest first. -/
def value (β : ℤ) : List ℤ → ℤ
  | [] => 0
  | x :: xs => x + β * value β xs

/-- Each of them is a digit. -/
def Digits (β : ℤ) (xs : List ℤ) : Prop := ∀ x ∈ xs, 0 ≤ x ∧ x < β

theorem digits_cons {x : ℤ} {xs : List ℤ} :
    Digits β (x :: xs) ↔ (0 ≤ x ∧ x < β) ∧ Digits β xs := List.forall_mem_cons

theorem digits_append {xs ys : List ℤ} :
    Digits β (xs ++ ys) ↔ Digits β xs ∧ Digits β ys := List.forall_mem_append

theorem value_append (xs ys : List ℤ) :
    value β (xs ++ ys) = value β xs + β ^ xs.length * value β ys := by
  induction xs with
  | nil => simp [value]
  | cons x xs ih =>
    rw [List.cons_append, value, value, ih, List.length_cons, pow_succ]
    ring

theorem value_replicate_zero (n : ℕ) : value β (List.replicate n 0) = 0 := by
  induction n with
  | zero => rfl
  | succ n ih => rw [List.replicate_succ, value, ih, mul_zero, add_zero]

theorem Digits.value_nonneg (hβ : 0 < β) {xs : List ℤ} (h : Digits β xs) : 0 ≤ value β xs := by
  induction xs with
  | nil => exact le_rfl
  | cons x xs ih =>
    obtain ⟨hx, hxs⟩ := digits_cons.1 h
    exact add_nonneg hx.1 (mul_nonneg hβ.le (ih hxs))

theorem Digits.value_lt {xs : List ℤ} (hβ : 0 < β) (h : Digits β xs) :
    value β xs < β ^ xs.length := by
  induction xs with
  | nil => simp [value]
  | cons x xs ih =>
    obtain ⟨hx, hxs⟩ := digits_cons.1 h
    rw [value, List.length_cons, pow_succ]
    nlinarith [ih hxs]

/-! ### Digit by digit -/

/-- A division that makes one digit of the quotient after another, the highest first. -/
def divide {ρ : Type} (step : ℤ → ρ → ℤ × ρ) : List ℤ → ρ → List ℤ × ρ
  | [], r => ([], r)
  | x :: xs, r =>
    let p := divide step xs r
    let q := step x p.2
    (q.1 :: p.1, q.2)

/-- A remainder. -/
structure Remainder {ρ : Type} (V : ℤ) (val : ρ → ℤ) (ok : ρ → Prop) (r : ρ) : Prop where
  ok : ok r
  nonneg : 0 ≤ val r
  lt : val r < V

/-- A step of a division. -/
def IsStep {ρ : Type} (β V : ℤ) (val : ρ → ℤ) (ok : ρ → Prop) (step : ℤ → ρ → ℤ × ρ) : Prop :=
  ∀ x r, 0 ≤ x → x < β → Remainder V val ok r → (0 ≤ (step x r).1 ∧ (step x r).1 < β) ∧
    Remainder V val ok (step x r).2 ∧
    val r * β + x = (step x r).1 * V + val (step x r).2

/-- **The steps of a division divide.** -/
theorem divide_spec {ρ : Type} {V : ℤ} {val : ρ → ℤ} {ok : ρ → Prop} {step : ℤ → ρ → ℤ × ρ}
    (h : IsStep β V val ok step) {xs : List ℤ} (hxs : Digits β xs) {r : ρ}
    (hr : Remainder V val ok r) : Digits β (divide step xs r).1 ∧
      (divide step xs r).1.length = xs.length ∧ Remainder V val ok (divide step xs r).2 ∧
      value β xs + β ^ xs.length * val r =
        value β (divide step xs r).1 * V + val (divide step xs r).2 := by
  induction xs with
  | nil => exact ⟨hxs, rfl, hr, by simp [divide, value]⟩
  | cons x xs ih =>
    obtain ⟨hx, hxs⟩ := digits_cons.1 hxs
    obtain ⟨hqs, hlen, hr', heq⟩ := ih hxs
    obtain ⟨hq, hr'', hstep⟩ := h x _ hx.1 hx.2 hr'
    refine ⟨digits_cons.2 ⟨hq, hqs⟩, congrArg (· + 1) hlen, hr'', ?_⟩
    rw [divide]
    dsimp only
    rw [value, value, List.length_cons, pow_succ]
    linear_combination β * heq + hstep

/-! ### Reciprocals -/

/-- `v` stands for the quotient of `B` and `d`, which is `v` more than the base. -/
structure IsReciprocal (β B d v : ℤ) : Prop where
  lt : (β + v) * d < B
  le : B ≤ (β + v) * d + d

theorem IsReciprocal.nonneg {B d v : ℤ} (h : IsReciprocal β B d v) (hd : 0 < d) (hB : β * d < B) :
    0 ≤ v := by
  by_contra hv
  have := h.le
  nlinarith

theorem IsReciprocal.lt_base {B d v : ℤ} (h : IsReciprocal β B d v) (hd : 0 < d)
    (hB : B ≤ 2 * β * d) : v < β := by
  have := h.lt
  by_contra hv
  nlinarith

/-- **The quotient of two digits by one**, estimated with the reciprocal. -/
theorem estimate_two {d v u₁ u₀ q₁ q₀ : ℤ} (hd : 0 < d) (hdβ : d < β)
    (hv : IsReciprocal β (β ^ 2) d v) (hu₁ : 0 ≤ u₁) (hu : u₁ < d) (hu₀ : 0 ≤ u₀) (hu₀' : u₀ < β)
    (hq₀ : 0 ≤ q₀) (hq₀' : q₀ < β) (hq : (β + v) * u₁ + u₀ = q₁ * β + q₀) :
    -d ≤ u₁ * β + u₀ - (q₁ + 1) * d ∧ q₀ + 1 - β ≤ u₁ * β + u₀ - (q₁ + 1) * d ∧
      (u₁ * β + u₀ - (q₁ + 1) * d < β - d ∨ u₁ * β + u₀ - (q₁ + 1) * d < q₀ + 1) := by
  obtain ⟨hv, hv'⟩ := hv
  have hr : β * (u₁ * β + u₀ - (q₁ + 1) * d) =
      u₁ * (β ^ 2 - (β + v) * d) + u₀ * (β - d) + q₀ * d - β * d := by
    linear_combination d * hq
  generalize u₁ * β + u₀ - (q₁ + 1) * d = r at hr ⊢
  have hk₀ : 0 ≤ u₁ * (β ^ 2 - (β + v) * d) := mul_nonneg hu₁ (by linarith)
  have hk : u₁ * (β ^ 2 - (β + v) * d) ≤ u₁ * d := mul_le_mul_of_nonneg_left (by linarith) hu₁
  have h₀ : 0 ≤ u₀ * (β - d) := mul_nonneg hu₀ (by linarith)
  have hgt : q₀ - β < r := by nlinarith
  refine ⟨?_, by linarith, ?_⟩
  · nlinarith [mul_nonneg hq₀ hd.le]
  · by_contra h
    obtain ⟨h₁, h₂⟩ := not_or.1 h
    nlinarith [mul_le_mul_of_nonneg_left (not_lt.1 h₁) (sub_nonneg.2 hdβ.le),
      mul_le_mul_of_nonneg_left (not_lt.1 h₂) hd.le]

/-- **The quotient of three digits by two**, estimated with the reciprocal. -/
theorem estimate_three {d v u₂ u₁ u₀ q₁ q₀ : ℤ} (hβ : 0 < β) (hd : β ≤ d) (hdβ : d < β ^ 2)
    (hv₀ : 0 ≤ v) (hv : IsReciprocal β (β ^ 3) d v) (hu₂ : 0 ≤ u₂) (hu₁ : 0 ≤ u₁) (hu₁' : u₁ < β)
    (hu : u₂ * β + u₁ < d) (hu₀ : 0 ≤ u₀) (hu₀' : u₀ < β) (hq₀ : 0 ≤ q₀) (hq₀' : q₀ < β)
    (hq : (β + v) * u₂ + u₁ = q₁ * β + q₀) :
    -d ≤ u₂ * β ^ 2 + u₁ * β + u₀ - (q₁ + 1) * d ∧
      q₀ * β - β ^ 2 ≤ u₂ * β ^ 2 + u₁ * β + u₀ - (q₁ + 1) * d ∧
      (u₂ * β ^ 2 + u₁ * β + u₀ - (q₁ + 1) * d < β ^ 2 - d ∨
        u₂ * β ^ 2 + u₁ * β + u₀ - (q₁ + 1) * d < q₀ * β) := by
  obtain ⟨hv, hv'⟩ := hv
  have hr : β * (u₂ * β ^ 2 + u₁ * β + u₀ - (q₁ + 1) * d) =
      u₂ * (β ^ 3 - (β + v) * d) + u₁ * (β ^ 2 - d) + u₀ * β + q₀ * d - β * d := by
    linear_combination d * hq
  generalize u₂ * β ^ 2 + u₁ * β + u₀ - (q₁ + 1) * d = r at hr ⊢
  have hk₀ : 0 < β ^ 3 - (β + v) * d := by linarith
  have hk : β ^ 3 - (β + v) * d ≤ d := by linarith
  have hkβ : β ^ 3 - (β + v) * d ≤ β * (β ^ 2 - d) := by nlinarith
  generalize β ^ 3 - (β + v) * d = k at *
  have h₂ : 0 ≤ u₂ * k := mul_nonneg hu₂ hk₀.le
  have h₁ : 0 ≤ u₁ * (β ^ 2 - d) := mul_nonneg hu₁ (by linarith)
  have h₀ : 0 ≤ u₀ * β := mul_nonneg hu₀ hβ.le
  have hq₀d : 0 ≤ q₀ * d := mul_nonneg hq₀ (by linarith)
  refine ⟨?_, ?_, ?_⟩
  · nlinarith
  · have : 0 ≤ (β - q₀) * (β ^ 2 - d) := mul_nonneg (by linarith) (by linarith)
    nlinarith
  · by_contra h
    obtain ⟨hc₁, hc₂⟩ := not_or.1 h
    -- the sum is greatest where `u₁` is
    have hu₂k : β * (u₂ * k) ≤ (d - 1 - u₁) * k := by nlinarith
    have hu₁k : u₁ * (β * (β ^ 2 - d) - k) ≤ (β - 1) * (β * (β ^ 2 - d) - k) :=
      mul_le_mul_of_nonneg_right (by linarith) (by linarith)
    have hdk : (d - β) * k ≤ (d - β) * d := mul_le_mul_of_nonneg_left hk (by linarith)
    have hu₀β : β * (u₀ * β) ≤ β ^ 2 * (β - 1) := by nlinarith
    have hr' : β ^ 2 * r ≤ (β ^ 2 - d) ^ 2 - β ^ 2 + β * (q₀ * d) := by nlinarith
    have e₁ := mul_le_mul_of_nonneg_left (not_lt.1 hc₁) (sub_nonneg.2 hdβ.le)
    have e₂ := mul_le_mul_of_nonneg_left (not_lt.1 hc₂) (by linarith : 0 ≤ d)
    nlinarith

/-! ### Corrections -/

/-- A quotient and a remainder modulo `B`, corrected: first if the remainder reaches `c`, which
means that it is less than zero, then if it reaches the divisor. -/
def correct (B d c q r : ℤ) : ℤ × ℤ :=
  let p := if c ≤ r then (q - 1, (r + d) % B) else (q, r)
  if d ≤ p.2 then (p.1 + 1, (p.2 - d) % B) else p

/-- **Two corrections make it right.** -/
theorem correct_spec {B d c q r : ℤ} (hd : 0 < d) (hdB : d < B) (hB : B ≤ 2 * d) (hr : -d ≤ r)
    (hcr : c - B ≤ r) (hlt : r < B - d ∨ r < c) (hc : c ≤ B) :
    0 ≤ (correct B d c q (r % B)).2 ∧ (correct B d c q (r % B)).2 < d ∧
      (correct B d c q (r % B)).1 * d + (correct B d c q (r % B)).2 = q * d + r := by
  rcases lt_or_ge r 0 with hneg | hnonneg
  · have hmod : r % B = r + B := by
      rw [← Int.add_emod_right, Int.emod_eq_of_lt (by linarith) (by linarith)]
    have hmod' : (r + B + d) % B = r + d := by
      rw [add_right_comm, Int.add_emod_right, Int.emod_eq_of_lt (by linarith) (by linarith)]
    have hle : c ≤ r + B := by linarith
    have hlt : ¬d ≤ r + d := by linarith
    simp only [correct, hmod, if_pos hle, hmod', if_neg hlt]
    exact ⟨by linarith, by linarith, by ring⟩
  · have hmod : r % B = r := by
      rw [Int.emod_eq_of_lt hnonneg]
      rcases hlt with h | h <;> linarith
    rcases le_or_gt c r with hle | hgt
    · -- the first correction is taken back
      have hlt' := hlt.resolve_right (not_lt.2 hle)
      have hmod' : (r + d) % B = r + d := Int.emod_eq_of_lt (by linarith) (by linarith)
      have hle' : d ≤ r + d := by linarith
      simp only [correct, hmod, if_pos hle, hmod', if_pos hle', add_sub_cancel_right]
      exact ⟨hnonneg, by linarith, by ring⟩
    · simp only [correct, hmod, if_neg (not_le.2 hgt)]
      split_ifs with h
      · dsimp only
        rw [Int.emod_eq_of_lt (by linarith) (by linarith)]
        exact ⟨by linarith, by linarith, by ring⟩
      · exact ⟨hnonneg, not_le.1 h, rfl⟩

/-! ### A digit of the quotient -/

section Digit

/- The divisor `d * P + v` has the two highest digits `d`; and the number that it divides has the
highest digits `u * β + u₀`, the first two of which are `u`. -/
variable {P d v u u₀ w : ℤ}

/-- They are no more than those of the divisor. -/
theorem top_le (hβ : 0 < β) (hP : 0 < P) (hv : v < P) (hu₀ : 0 ≤ u₀) (hw : 0 ≤ w)
    (hlt : u * β * P + u₀ * P + w < (d * P + v) * β) : u ≤ d := by
  by_contra h
  have hu₀P : 0 ≤ u₀ * P := mul_nonneg hu₀ hP.le
  have hle : (d + 1) * (β * P) ≤ u * (β * P) :=
    mul_le_mul_of_nonneg_right (by linarith) (by positivity)
  nlinarith

/-- If they are those of the divisor, the digit is the greatest one. -/
theorem digit_of_eq (hd : β ≤ d) (hP : 0 < P) (hv₀ : 0 ≤ v) (hv : v < P) (hβ : 0 < β)
    (hu₀ : 0 ≤ u₀) (hw : 0 ≤ w) (hlt : d * β * P + u₀ * P + w < (d * P + v) * β) :
    0 ≤ d * β * P + u₀ * P + w - (β - 1) * (d * P + v) ∧
      d * β * P + u₀ * P + w - (β - 1) * (d * P + v) < d * P + v := by
  have hβv : β * v ≤ β * P := mul_le_mul_of_nonneg_left hv.le hβ.le
  have hdP : β * P ≤ d * P := mul_le_mul_of_nonneg_right hd hP.le
  have hu₀P : 0 ≤ u₀ * P := mul_nonneg hu₀ hP.le
  constructor <;> nlinarith

/-- If not, the quotient by the two digits is at most one too large. -/
theorem digit_of_lt {q r : ℤ} (hd : β ^ 2 ≤ 2 * d) (hβ : 2 ≤ β) (hP : 0 < P) (hv₀ : 0 ≤ v)
    (hv : v < P) (hw : 0 ≤ w) (hw' : w < P) (hr : 0 ≤ r) (hr' : r < d) (hq : 0 ≤ q)
    (hq' : q < β) : r * P + w - q * v < d * P + v ∧ 0 ≤ r * P + w - q * v + (d * P + v) := by
  have hqv : 0 ≤ q * v := mul_nonneg hq hv₀
  have hrP : 0 ≤ r * P := mul_nonneg hr hP.le
  constructor
  · nlinarith [mul_le_mul_of_nonneg_right (Int.add_one_le_iff.2 hr') hP.le]
  · have hle : q * v ≤ (β - 1) * v := mul_le_mul_of_nonneg_right (by linarith) hv₀
    have hβP : (β - 1) * v ≤ d * P := by
      have h₁ : (β - 1) * v ≤ (β - 1) * P := mul_le_mul_of_nonneg_left hv.le (by linarith)
      have h₂ : (β - 1) * P ≤ d * P := mul_le_mul_of_nonneg_right (by nlinarith) hP.le
      linarith
    linarith

end Digit

end LongDivision

end WeakChain
