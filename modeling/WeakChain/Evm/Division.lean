import Mathlib.Data.List.GetD
import WeakChain.Evm.Reciprocal

/-!
# Division of words

`udivrem` of `intx`: long division by words of 64 bits.  The divisor is normalized, and the digits
of the quotient are found with the reciprocal of its highest word, or of its two highest words.

* `isDigit_knuthDigit` : a digit of the quotient by three words or more is right.
* `normalized_normalize` : what is divided are multiples of the numbers, by the same power of two.
* `isWords_udivrem` : the quotient and the remainder are right.
-/

namespace WeakChain

namespace Evm

namespace Division

open LongDivision

/-! ### Long subtraction and addition -/

/-- `subc`; a carry is a number. -/
def subc (x y carry : ℤ) : ℤ × ℤ :=
  let d := u64 (x - y)
  (u64 (d - carry), if x < y ∨ d < carry then 1 else 0)

/-- `addc`. -/
def addc (x y carry : ℤ) : ℤ × ℤ :=
  let s := u64 (x + y)
  let t := u64 (s + carry)
  (t, if s < x ∨ t < s then 1 else 0)

/-- `add`, from some carry on. -/
def add : List ℤ → List ℤ → ℤ → List ℤ × ℤ
  | x :: xs, y :: ys, carry =>
    let s := addc x y carry
    let rest := add xs ys s.2
    (s.1 :: rest.1, rest.2)
  | _, _, carry => ([], carry)

/-- One word of `submul`: with the word, what is borrowed. -/
def submulWord (multiplier x y borrow : ℤ) : ℤ × ℤ :=
  let s := u64 (x - borrow)
  let p := y * multiplier
  let borrow := u64 (p / radix + if x < s then 1 else 0)
  let r := u64 (s - p % radix)
  (r, u64 (borrow + if s < r then 1 else 0))

/-- `submul`, from some borrow on. -/
def submul (multiplier : ℤ) : List ℤ → List ℤ → ℤ → List ℤ × ℤ
  | x :: xs, y :: ys, borrow =>
    let r := submulWord multiplier x y borrow
    let rest := submul multiplier xs ys r.2
    (r.1 :: rest.1, rest.2)
  | _, _, borrow => ([], borrow)

theorem subc_spec {x y c : ℤ} (hx : 0 ≤ x) (hx' : x < radix) (hy : 0 ≤ y) (hy' : y < radix)
    (hc : 0 ≤ c ∧ c ≤ 1) : (0 ≤ (subc x y c).1 ∧ (subc x y c).1 < radix) ∧
      (0 ≤ (subc x y c).2 ∧ (subc x y c).2 ≤ 1) ∧
      x - y - c = (subc x y c).1 - radix * (subc x y c).2 := by
  simp only [subc, u64, radix] at *
  split_ifs <;> omega

theorem addc_spec {x y c : ℤ} (hx : 0 ≤ x) (hx' : x < radix) (hy : 0 ≤ y) (hy' : y < radix)
    (hc : 0 ≤ c ∧ c ≤ 1) : (0 ≤ (addc x y c).1 ∧ (addc x y c).1 < radix) ∧
      (0 ≤ (addc x y c).2 ∧ (addc x y c).2 ≤ 1) ∧
      x + y + c = (addc x y c).1 + radix * (addc x y c).2 := by
  simp only [addc, u64, radix] at *
  split_ifs <;> omega

theorem submulWord_spec {m x y b : ℤ} (hm : 0 ≤ m) (hm' : m < radix) (hx : 0 ≤ x)
    (hx' : x < radix) (hy : 0 ≤ y) (hy' : y < radix) (hb : 0 ≤ b ∧ b < radix) :
    let r := submulWord m x y b
    (0 ≤ r.1 ∧ r.1 < radix) ∧ (0 ≤ r.2 ∧ r.2 < radix) ∧ x - b - y * m = r.1 - radix * r.2 := by
  have hp : y * m ≤ (radix - 1) * (radix - 1) :=
    mul_le_mul (by linarith) (by linarith) hm (by linarith [radix_pos])
  have hp' : 0 ≤ y * m := mul_nonneg hy hm
  simp only [submulWord, u64, radix] at *
  generalize y * m = p at *
  split_ifs <;> omega

theorem submul_spec {m : ℤ} (hm : 0 ≤ m) (hm' : m < radix) {xs ys : List ℤ} {b : ℤ}
    (hxs : Digits radix xs) (hys : Digits radix ys) (hlen : xs.length = ys.length)
    (hb : 0 ≤ b ∧ b < radix) :
    let r := submul m xs ys b
    Digits radix r.1 ∧ r.1.length = xs.length ∧ (0 ≤ r.2 ∧ r.2 < radix) ∧
      value radix xs - b - value radix ys * m = value radix r.1 - radix ^ xs.length * r.2 := by
  induction xs generalizing ys b with
  | nil =>
    obtain rfl := List.eq_nil_of_length_eq_zero hlen.symm
    exact ⟨hxs, rfl, hb, by simp [submul, value]⟩
  | cons x xs ih =>
    obtain _ | ⟨y, ys⟩ := ys
    · cases hlen
    · obtain ⟨hx, hxs⟩ := digits_cons.1 hxs
      obtain ⟨hy, hys⟩ := digits_cons.1 hys
      obtain ⟨hr, hb', hword⟩ := submulWord_spec hm hm' hx.1 hx.2 hy.1 hy.2 hb
      obtain ⟨hrs, hlen', hb'', hrest⟩ := ih hxs hys (Nat.succ.inj hlen) hb'
      refine ⟨digits_cons.2 ⟨hr, hrs⟩, congrArg (· + 1) hlen', hb'', ?_⟩
      rw [submul]
      dsimp only
      rw [value, value, value, List.length_cons, pow_succ]
      linear_combination hword + radix * hrest

theorem add_spec {xs ys : List ℤ} {c : ℤ} (hxs : Digits radix xs) (hys : Digits radix ys)
    (hlen : xs.length = ys.length) (hc : 0 ≤ c ∧ c ≤ 1) :
    let s := add xs ys c
    Digits radix s.1 ∧ s.1.length = xs.length ∧ (0 ≤ s.2 ∧ s.2 ≤ 1) ∧
      value radix xs + value radix ys + c = value radix s.1 + radix ^ xs.length * s.2 := by
  induction xs generalizing ys c with
  | nil =>
    obtain rfl := List.eq_nil_of_length_eq_zero hlen.symm
    exact ⟨hxs, rfl, hc, by simp [add, value]⟩
  | cons x xs ih =>
    obtain _ | ⟨y, ys⟩ := ys
    · cases hlen
    · obtain ⟨hx, hxs⟩ := digits_cons.1 hxs
      obtain ⟨hy, hys⟩ := digits_cons.1 hys
      obtain ⟨hs, hc', hword⟩ := addc_spec hx.1 hx.2 hy.1 hy.2 hc
      obtain ⟨hss, hlen', hc'', hrest⟩ := ih hxs hys (Nat.succ.inj hlen) hc'
      refine ⟨digits_cons.2 ⟨hs, hss⟩, congrArg (· + 1) hlen', hc'', ?_⟩
      rw [add]
      dsimp only
      rw [value, value, value, List.length_cons, pow_succ]
      linear_combination hword + radix * hrest

/-! ### Long division -/

/-- The end of `udivrem_knuth`'s loop: the digit for the words `ws`, `u₀`, `u₁` and `u₂` of the
numerator, and what is left of them, of which the highest word is not read again. -/
def knuthDigit (ws ds : List ℤ) (u₂ u₁ u₀ d₁ d₀ v : ℤ) : ℤ × List ℤ :=
  if u₁ = d₀ ∧ u₂ = d₁ then
    let qhat := radix - 1
    (qhat, (submul qhat (ws ++ [u₀, u₁]) (ds ++ [d₀, d₁]) 0).1)
  else
    let qr := udivrem3by2 u₂ u₁ u₀ d₁ d₀ v
    let s := submul qr.1 ws ds 0
    let c₀ := subc (qr.2 % radix) s.2 0
    let c₁ := subc (qr.2 / radix) c₀.2 0
    if c₁.2 ≠ 0 then
      let a := add (s.1 ++ [c₀.1]) (ds ++ [d₀]) 0
      (u64 (qr.1 - 1), a.1 ++ [u64 (c₁.1 + u64 (d₁ + a.2))])
    else (qr.1, s.1 ++ [c₀.1, c₁.1])

theorem value_append_one (xs : List ℤ) (a : ℤ) :
    value radix (xs ++ [a]) = a * radix ^ xs.length + value radix xs := by
  rw [value_append]
  simp [value]
  ring

theorem value_append_two (xs : List ℤ) (a b : ℤ) :
    value radix (xs ++ [a, b]) = (b * radix + a) * radix ^ xs.length + value radix xs := by
  rw [value_append]
  simp [value]
  ring

theorem value_append_three (xs : List ℤ) (a b c : ℤ) :
    value radix (xs ++ [a, b, c]) = (c * radix + b) * radix * radix ^ xs.length +
      a * radix ^ xs.length + value radix xs := by
  rw [value_append]
  simp [value]
  ring

/-- Numbers that are the same modulo `M` are the same. -/
theorem eq_of_add_mul {a b M k : ℤ} (h : a = b + M * k) (ha : 0 ≤ a) (ha' : a < M) (hb : 0 ≤ b)
    (hb' : b < M) : a = b := by
  rw [← Int.emod_eq_of_lt ha ha', h, Int.add_mul_emod_self_left, Int.emod_eq_of_lt hb hb']

section Knuth

variable {ws ds : List ℤ} {u₂ u₁ u₀ d₁ d₀ v : ℤ}

theorem digits_append_one {xs : List ℤ} {a : ℤ} (hxs : Digits radix xs)
    (ha : 0 ≤ a ∧ a < radix) : Digits radix (xs ++ [a]) :=
  digits_append.2 ⟨hxs, by simpa [Digits] using ha⟩

theorem digits_singleton {a : ℤ} (ha : 0 ≤ a ∧ a < radix) : Digits radix [a] :=
  digits_append_one (List.forall_mem_nil _) ha

theorem value_singleton (a : ℤ) : value radix [a] = a := by
  rw [value, value, mul_zero, add_zero]

theorem digits_append_two {xs : List ℤ} {a b : ℤ} (hxs : Digits radix xs)
    (ha : 0 ≤ a ∧ a < radix) (hb : 0 ≤ b ∧ b < radix) : Digits radix (xs ++ [a, b]) :=
  digits_append.2 ⟨hxs, by simpa [Digits] using ⟨ha, hb⟩⟩

theorem value_lt_of_length {xs : List ℤ} {n : ℕ} (hxs : Digits radix xs)
    (hlen : xs.length = n + 2) : value radix xs < radix ^ 2 * radix ^ n := by
  have hlt := hxs.value_lt radix_pos
  rw [hlen, pow_add] at hlt
  linarith

/-- A digit of the quotient. -/
def IsDigit (ws ds : List ℤ) (u₂ u₁ u₀ d₁ d₀ : ℤ) (p : ℤ × List ℤ) : Prop :=
  (0 ≤ p.1 ∧ p.1 < radix) ∧ (Digits radix p.2 ∧ p.2.length = ds.length + 2) ∧
    (value radix p.2 < value radix (ds ++ [d₀, d₁])) ∧
    value radix (ws ++ [u₀, u₁, u₂]) = p.1 * value radix (ds ++ [d₀, d₁]) + value radix p.2

theorem isDigit_max (hws : Digits radix ws) (hds : Digits radix ds)
    (hlen : ws.length = ds.length) (hu₀ : 0 ≤ u₀ ∧ u₀ < radix)
    (hd₁ : 2 ^ 63 ≤ d₁ ∧ d₁ < radix) (hd₀ : 0 ≤ d₀ ∧ d₀ < radix)
    (hlt : value radix (ws ++ [u₀, d₀, d₁]) < value radix (ds ++ [d₀, d₁]) * radix) :
    IsDigit ws ds d₁ d₀ u₀ d₁ d₀
      (radix - 1, (submul (radix - 1) (ws ++ [u₀, d₀]) (ds ++ [d₀, d₁]) 0).1) := by
  have hrad := radix_pos
  have hP : 0 < radix ^ ws.length := pow_pos hrad _
  have hw := hws.value_nonneg hrad
  have hd := hds.value_nonneg hrad
  have hd' := hds.value_lt hrad
  have hdds := digits_append_two hds hd₀ ⟨by linarith, hd₁.2⟩
  have hV : value radix (ds ++ [d₀, d₁]) < radix ^ 2 * radix ^ ws.length :=
    value_lt_of_length hdds (by simp [hlen])
  obtain ⟨hr, hrlen, -, hsub⟩ := submul_spec (m := radix - 1) (by linarith) (by linarith)
    (digits_append_two hws hu₀ hd₀) hdds (by simp [hlen]) (b := 0) ⟨le_rfl, hrad⟩
  have hr' := value_lt_of_length hr (n := ws.length) (by simp [hrlen])
  have hr'' := hr.value_nonneg hrad
  rw [← hlen] at hd'
  rw [value_append_three, value_append_two, ← hlen] at hlt
  have hβ : radix ≤ d₁ * radix + d₀ := by nlinarith
  obtain ⟨hdigit, hdigit'⟩ := digit_of_eq hβ hP hd hd' hrad hu₀.1 hw hlt
  rw [value_append_two, value_append_two, ← hlen, List.length_append, List.length_cons,
    List.length_singleton, pow_add] at hsub
  rw [value_append_two, ← hlen] at hV
  -- what the subtraction leaves is right modulo the words that it goes through
  have heq := eq_of_add_mul (k := (submul (radix - 1) (ws ++ [u₀, d₀]) (ds ++ [d₀, d₁]) 0).2 - d₁)
    (by linear_combination -hsub) hr'' hr' hdigit (hdigit'.trans hV)
  refine ⟨⟨by linarith, by linarith⟩, ⟨hr, by simp [hrlen, hlen]⟩, ?_⟩
  rw [value_append_two, value_append_three, ← hlen, heq]
  exact ⟨hdigit', by ring⟩

/-- The digit, which may be one too large, and what is left, if it is not less than zero. -/
theorem isDigit_sub (hws : Digits radix ws) (hds : Digits radix ds)
    (hlen : ws.length = ds.length) (hd₁ : 2 ^ 63 ≤ d₁ ∧ d₁ < radix) (hd₀ : 0 ≤ d₀ ∧ d₀ < radix)
    {q r : ℤ} (hq : 0 ≤ q ∧ q < radix) (hr : 0 ≤ r ∧ r < d₁ * radix + d₀)
    (hqr : q * (d₁ * radix + d₀) + r = u₂ * radix ^ 2 + u₁ * radix + u₀) :
    let s := submul q ws ds 0
    let c₀ := subc (r % radix) s.2 0
    let c₁ := subc (r / radix) c₀.2 0
    IsDigit ws ds u₂ u₁ u₀ d₁ d₀
      (if c₁.2 ≠ 0 then
        let a := add (s.1 ++ [c₀.1]) (ds ++ [d₀]) 0
        (u64 (q - 1), a.1 ++ [u64 (c₁.1 + u64 (d₁ + a.2))])
      else (q, s.1 ++ [c₀.1, c₁.1])) := by
  have hrad := radix_pos
  have hP : 0 < radix ^ ws.length := pow_pos hrad _
  have hw := hws.value_nonneg hrad
  have hw' := hws.value_lt hrad
  have hd := hds.value_nonneg hrad
  have hd' := hds.value_lt hrad
  have htwo := radix_le_two_mul hd₁.1
  have hdds := digits_append_two hds hd₀ ⟨by linarith, hd₁.2⟩
  have hV : value radix (ds ++ [d₀, d₁]) < radix ^ 2 * radix ^ ws.length :=
    value_lt_of_length hdds (by simp [hlen])
  have hr₁ : 0 ≤ r / radix := Int.ediv_nonneg hr.1 hrad.le
  have hr₁' : r / radix < radix := Int.ediv_lt_of_lt_mul hrad (by nlinarith)
  have hr₁₀ : radix * (r / radix) + r % radix = r := Int.mul_ediv_add_emod _ _
  have hr₀ : 0 ≤ r % radix := u64_nonneg _
  have hr₀' : r % radix < radix := u64_lt _
  rw [← hlen] at hd'
  obtain ⟨hlt, hge⟩ := digit_of_lt (by nlinarith) (by unfold radix; norm_num) hP hd hd' hw hw'
    hr.1 hr.2 hq.1 hq.2
  intro s c₀ c₁
  obtain ⟨hs, hslen, ho, hsub⟩ := submul_spec hq.1 hq.2 hws hds hlen (b := 0) ⟨le_rfl, hrad⟩
  obtain ⟨hc₀, hk₀, hsub₀⟩ :=
    subc_spec (c := 0) hr₀ hr₀' ho.1 ho.2 ⟨le_rfl, zero_le_one⟩
  obtain ⟨hc₁, hk₁, hsub₁⟩ :=
    subc_spec (c := 0) hr₁ hr₁' hk₀.1 (by linarith) ⟨le_rfl, zero_le_one⟩
  change Digits radix s.1 at hs
  change s.1.length = ws.length at hslen
  change value radix ws - 0 - _ = value radix s.1 - radix ^ ws.length * s.2 at hsub
  change 0 ≤ c₀.1 ∧ c₀.1 < radix at hc₀
  change r % radix - s.2 - 0 = c₀.1 - radix * c₀.2 at hsub₀
  change 0 ≤ c₁.1 ∧ c₁.1 < radix at hc₁
  change 0 ≤ c₁.2 ∧ c₁.2 ≤ 1 at hk₁
  change r / radix - c₀.2 - 0 = c₁.1 - radix * c₁.2 at hsub₁
  clear_value s c₀ c₁
  -- what the subtractions leave
  have hleft : r * radix ^ ws.length + value radix ws - q * value radix ds =
      (c₁.1 * radix + c₀.1) * radix ^ ws.length + value radix s.1 -
        radix ^ 2 * radix ^ ws.length * c₁.2 := by
    linear_combination hsub + radix ^ ws.length * hsub₀ +
      radix * radix ^ ws.length * hsub₁ - radix ^ ws.length * hr₁₀
  have hsc := digits_append_two hs hc₀ hc₁
  have hval := value_append_two s.1 c₀.1 c₁.1
  have hnonneg := hsc.value_nonneg hrad
  have hlt' := value_lt_of_length (n := ws.length) hsc (by simp [hslen])
  rw [hslen] at hval
  rw [hval] at hnonneg hlt'
  rcases eq_or_ne c₁.2 0 with hk | hk
  · rw [if_neg (not_not.2 hk)]
    refine ⟨hq, ⟨hsc, by simp [hslen, hlen]⟩, ?_⟩
    rw [hk, mul_zero, sub_zero] at hleft
    rw [hval, value_append_two, value_append_three, ← hlen, ← hleft]
    exact ⟨hlt, by linear_combination -radix ^ ws.length * hqr⟩
  · -- too much was taken away: the divisor is added, but for its highest word in one go
    have hk : c₁.2 = 1 := by omega
    rw [if_pos (by rw [hk]; exact one_ne_zero)]
    obtain ⟨ha, halen, hka, hadd⟩ := add_spec (c := 0) (digits_append_one hs hc₀)
      (digits_append_one hds hd₀) (by simp [hslen, hlen]) ⟨le_rfl, zero_le_one⟩
    rw [hk, mul_one] at hleft
    have hq₀ : 0 < q := by
      by_contra h
      obtain rfl : q = 0 := by linarith
      linarith [mul_nonneg hr.1 hP.le]
    dsimp only
    generalize add (s.1 ++ [c₀.1]) (ds ++ [d₀]) 0 = a at *
    have htopWord : u64 (c₁.1 + u64 (d₁ + a.2)) =
        c₁.1 + (d₁ + a.2) - radix * ((c₁.1 + (d₁ + a.2)) / radix) := by
      rw [u64, u64, Int.add_emod_emod, Int.emod_def]
    have hat := digits_append_one (a := u64 (c₁.1 + u64 (d₁ + a.2))) ha ⟨u64_nonneg _, u64_lt _⟩
    have hatlen : (a.1 ++ [u64 (c₁.1 + u64 (d₁ + a.2))]).length = ws.length + 2 := by
      simp [halen, hslen]
    have hval' := value_append_one a.1 (u64 (c₁.1 + u64 (d₁ + a.2)))
    have hlt'' := value_lt_of_length hat hatlen
    rw [halen, List.length_append, List.length_singleton, hslen, pow_succ] at hval'
    rw [value_append_one, value_append_one, hslen, List.length_append, List.length_singleton,
      hslen, pow_succ, ← hlen] at hadd
    rw [value_append_two, ← hlen] at hV
    have heq := eq_of_add_mul (k := 1 - (c₁.1 + (d₁ + a.2)) / radix)
      (a := value radix (a.1 ++ [u64 (c₁.1 + u64 (d₁ + a.2))]))
      (b := r * radix ^ ws.length + value radix ws - q * value radix ds +
        ((d₁ * radix + d₀) * radix ^ ws.length + value radix ds))
      (by
        rw [hval', htopWord]
        linear_combination -hadd - hleft)
      (hat.value_nonneg hrad) hlt'' hge (by linarith)
    refine ⟨?_, ⟨hat, by rw [hatlen, hlen]⟩, ?_⟩
    · rw [u64_eq (by linarith) (by linarith)]
      exact ⟨by linarith, by linarith⟩
    · rw [heq, u64_eq (by linarith) (by linarith), value_append_two, value_append_three, ← hlen]
      exact ⟨by linarith, by linear_combination -radix ^ ws.length * hqr⟩

/-- **A digit of the quotient.** -/
theorem isDigit_knuthDigit (hws : Digits radix ws) (hds : Digits radix ds)
    (hlen : ws.length = ds.length) (hu₂ : 0 ≤ u₂) (hu₁ : 0 ≤ u₁ ∧ u₁ < radix)
    (hu₀ : 0 ≤ u₀ ∧ u₀ < radix) (hd₁ : 2 ^ 63 ≤ d₁ ∧ d₁ < radix) (hd₀ : 0 ≤ d₀ ∧ d₀ < radix)
    (hv : IsReciprocal radix (radix ^ 3) (d₁ * radix + d₀) v)
    (hlt : value radix (ws ++ [u₀, u₁, u₂]) < value radix (ds ++ [d₀, d₁]) * radix) :
    IsDigit ws ds u₂ u₁ u₀ d₁ d₀ (knuthDigit ws ds u₂ u₁ u₀ d₁ d₀ v) := by
  have hrad := radix_pos
  have hw := hws.value_nonneg hrad
  have hd' := hds.value_lt hrad
  have htop : u₂ * radix + u₁ ≤ d₁ * radix + d₀ := by
    rw [value_append_three, value_append_two, ← hlen] at hlt
    rw [← hlen] at hd'
    exact top_le hrad (pow_pos hrad ws.length) hd' hu₀.1 hw hlt
  rw [knuthDigit]
  split_ifs with heq
  · obtain ⟨rfl, rfl⟩ := heq
    exact isDigit_max hws hds hlen hu₀ hd₁ hd₀ hlt
  · have hne : u₂ * radix + u₁ ≠ d₁ * radix + d₀ := by
      simp only [radix] at *
      omega
    obtain ⟨hq, hr, hqr⟩ := udivrem3by2_spec hd₁.1 hd₁.2 hd₀.1 hd₀.2 hv hu₂ hu₁.1 hu₁.2
      (lt_of_le_of_ne htop hne) hu₀.1 hu₀.2
    exact isDigit_sub hws hds hlen hd₁ hd₀ hq hr hqr

end Knuth

/-! ### Normalization -/

/-- The number of significant words among the first ones. -/
def significantWords (u : List ℤ) : ℕ → ℕ
  | 0 => 0
  | m + 1 => if u.getD m 0 = 0 then significantWords u m else m + 1

/-- `clz_nonzero`. -/
def clzNonzero (x : ℤ) : ℕ := 63 - Nat.log2 x.toNat

/-- Words, shifted to the left by less than a word, where some word comes before them. -/
def shlWords (shift : ℕ) : List ℤ → ℤ → List ℤ
  | [], _ => []
  | x :: xs, prev =>
    lor (u64 (x * 2 ^ shift)) (prev / 2 ^ (64 - shift)) :: shlWords shift xs x

/-- Words, shifted to the right. -/
def shrWords (shift : ℕ) : List ℤ → List ℤ
  | [] => []
  | [x] => [x / 2 ^ shift]
  | x :: y :: ys =>
    (if shift ≠ 0 then lor (x / 2 ^ shift) (u64 (y * 2 ^ (64 - shift))) else x) ::
      shrWords shift (y :: ys)

/-- `normalized_div_args`. -/
structure NormalizedDivArgs where
  divisor : List ℤ
  numerator : List ℤ
  numDivisorWords : ℕ
  numNumeratorWords : ℕ
  shift : ℕ

/-- `normalize`.  If no word of the numerator is significant, the word before the first is read,
which does not change what is divided. -/
def normalize (u v : List ℤ) : NormalizedDivArgs :=
  let m := significantWords u u.length
  let n := significantWords v v.length
  let shift := clzNonzero (v.getD (n - 1) 0)
  let vn := if shift ≠ 0 then shlWords shift v 0 else v
  let un := if shift ≠ 0 then shlWords shift (u ++ [0]) 0 else u ++ [0]
  { divisor := vn
    numerator := un
    numDivisorWords := n
    numNumeratorWords :=
      if un.getD m 0 ≠ 0 ∨ vn.getD (n - 1) 0 ≤ un.getD (m - 1) 0 then m + 1 else m
    shift := shift }

section Normalize

theorem significantWords_le (u : List ℤ) (m : ℕ) : significantWords u m ≤ m := by
  induction m with
  | zero => exact le_rfl
  | succ m ih =>
    rw [significantWords]
    split_ifs
    · exact ih.trans (Nat.le_succ m)
    · exact le_rfl

theorem take_succ_getD {xs : List ℤ} {k : ℕ} (h : k < xs.length) :
    xs.take (k + 1) = xs.take k ++ [xs.getD k 0] := by
  rw [List.getD_eq_getElem _ _ h, List.take_succ_eq_append_getElem h]

theorem value_take_significantWords {u : List ℤ} {m : ℕ} (hm : m ≤ u.length) :
    value radix (u.take (significantWords u m)) = value radix (u.take m) := by
  induction m with
  | zero => rfl
  | succ m ih =>
    rw [significantWords]
    split_ifs with h
    · rw [ih (by omega), take_succ_getD (by omega), value_append_one, h, zero_mul, zero_add]
    · rfl

theorem getD_significantWords {u : List ℤ} {m : ℕ} (h : 0 < significantWords u m) :
    u.getD (significantWords u m - 1) 0 ≠ 0 := by
  induction m with
  | zero => cases h
  | succ m ih =>
    rw [significantWords] at h ⊢
    split_ifs at h ⊢ with h'
    · exact ih h
    · exact h'

theorem clzNonzero_spec {x : ℤ} (hx : 0 < x) (hx' : x < radix) :
    clzNonzero x ≤ 63 ∧ 2 ^ 63 ≤ x * 2 ^ clzNonzero x ∧ x + 1 ≤ 2 ^ (64 - clzNonzero x) := by
  lift x to ℕ using hx.le
  have hpos : x ≠ 0 := by omega
  have hlog : Nat.log2 x < 64 := (Nat.log2_lt hpos).2 (by unfold radix at hx'; omega)
  rw [clzNonzero, Int.toNat_natCast]
  refine ⟨Nat.sub_le _ _, ?_, ?_⟩
  · have hle : 2 ^ 63 ≤ x * 2 ^ (63 - Nat.log2 x) := by
      calc 2 ^ 63 = 2 ^ Nat.log2 x * 2 ^ (63 - Nat.log2 x) := by rw [← pow_add]; congr 1; omega
        _ ≤ _ := Nat.mul_le_mul_right _ (Nat.log2_self_le hpos)
    exact_mod_cast hle
  · have hlt : x < 2 ^ (64 - (63 - Nat.log2 x)) := by
      rw [show 64 - (63 - Nat.log2 x) = Nat.log2 x + 1 by omega]
      exact Nat.lt_log2_self
    exact_mod_cast hlt

theorem digits_take {xs : List ℤ} (h : Digits radix xs) (n : ℕ) : Digits radix (xs.take n) :=
  fun x hx => h x (List.mem_of_mem_take hx)

theorem digits_drop {xs : List ℤ} (h : Digits radix xs) (n : ℕ) : Digits radix (xs.drop n) :=
  fun x hx => h x (List.mem_of_mem_drop hx)

theorem getD_digit {xs : List ℤ} (h : Digits radix xs) (n : ℕ) :
    0 ≤ xs.getD n 0 ∧ xs.getD n 0 < radix := by
  rcases lt_or_ge n xs.length with hn | hn
  · rw [List.getD_eq_getElem _ _ hn]
    exact h _ (List.getElem_mem hn)
  · rw [List.getD_eq_default _ _ hn]
    exact ⟨le_rfl, radix_pos⟩

/-- The words that a number does not reach are zero. -/
theorem value_take_drop {xs : List ℤ} (h : Digits radix xs) {n : ℕ}
    (hlt : value radix xs < radix ^ n) :
    value radix (xs.take n) = value radix xs ∧ value radix (xs.drop n) = 0 := by
  have hrad := radix_pos
  have heq := @value_append radix (xs.take n) (xs.drop n)
  rw [List.take_append_drop, List.length_take] at heq
  have htake := (digits_take h n).value_nonneg hrad
  have hdrop := (digits_drop h n).value_nonneg hrad
  have hzero : value radix (xs.drop n) = 0 := by
    rcases le_or_gt n xs.length with hn | hn
    · rw [min_eq_left hn] at heq
      by_contra hne
      have : radix ^ n * 1 ≤ radix ^ n * value radix (xs.drop n) :=
        mul_le_mul_of_nonneg_left (by omega) (pow_pos hrad n).le
      linarith
    · rw [List.drop_eq_nil_of_le hn.le]
      rfl
  exact ⟨by rw [heq, hzero, mul_zero, add_zero], hzero⟩

theorem two_pow_mul_two_pow {s : ℕ} (hs : s ≤ 63) : (2 : ℤ) ^ (64 - s) * 2 ^ s = radix := by
  rw [← pow_add, Nat.sub_add_cancel (by omega)]
  rfl

/-- Words that are shifted to the left are multiplied, but for what leaves them. -/
theorem shlWords_spec {s : ℕ} (hs : s ≤ 63) {xs : List ℤ} (hxs : Digits radix xs) {prev : ℤ}
    (hprev : 0 ≤ prev ∧ prev < radix) :
    Digits radix (shlWords s xs prev) ∧ (shlWords s xs prev).length = xs.length ∧
      ∃ k, value radix (shlWords s xs prev) =
        value radix xs * 2 ^ s + prev / 2 ^ (64 - s) + radix ^ xs.length * k := by
  induction xs generalizing prev with
  | nil => exact ⟨hxs, rfl, -(prev / 2 ^ (64 - s)), by simp [shlWords, value]⟩
  | cons x xs ih =>
    obtain ⟨hx, hxs⟩ := digits_cons.1 hxs
    obtain ⟨hd, hlen, k, hk⟩ := ih hxs hx
    have hrad := two_pow_mul_two_pow hs
    have hpow : (0 : ℤ) < 2 ^ (64 - s) := by positivity
    have hin : 0 ≤ prev / 2 ^ (64 - s) := Int.ediv_nonneg hprev.1 hpow.le
    have hin' : prev / 2 ^ (64 - s) < 2 ^ s :=
      Int.ediv_lt_of_lt_mul hpow (by rw [mul_comm, hrad]; exact hprev.2)
    have hword : u64 (x * 2 ^ s) = x % 2 ^ (64 - s) * 2 ^ s := by
      rw [u64, ← hrad, mul_comm x, mul_comm (2 ^ (64 - s)),
        Int.mul_emod_mul_of_pos _ _ (by positivity), mul_comm]
    have hout : x = 2 ^ (64 - s) * (x / 2 ^ (64 - s)) + x % 2 ^ (64 - s) :=
      (Int.mul_ediv_add_emod _ _).symm
    have hmod : 0 ≤ x % 2 ^ (64 - s) := Int.emod_nonneg _ hpow.ne'
    have hmod' : x % 2 ^ (64 - s) < 2 ^ (64 - s) := Int.emod_lt_of_pos _ hpow
    have hlor : lor (u64 (x * 2 ^ s)) (prev / 2 ^ (64 - s)) =
        x % 2 ^ (64 - s) * 2 ^ s + prev / 2 ^ (64 - s) := by
      rw [hword, lor_eq hmod hin hin']
    rw [shlWords, hlor]
    refine ⟨digits_cons.2 ⟨⟨by positivity, ?_⟩, hd⟩, congrArg (· + 1) hlen, k, ?_⟩
    · nlinarith
    · rw [value, value, hk, List.length_cons, pow_succ, add_mul]
      generalize x / 2 ^ (64 - s) = h at *
      generalize x % 2 ^ (64 - s) = l at *
      rw [hout]
      linear_combination -h * hrad

theorem lor_comm (x y : ℤ) : lor x y = lor y x := by
  rw [lor, lor, Nat.or_comm]

/-- Words that are shifted to the right are divided. -/
theorem shrWords_spec {s : ℕ} (hs : s ≤ 63) {xs : List ℤ} (hxs : Digits radix xs) :
    Digits radix (shrWords s xs) ∧ (shrWords s xs).length = xs.length ∧
      value radix (shrWords s xs) = value radix xs / 2 ^ s := by
  have hrad := two_pow_mul_two_pow hs
  have hpow : (0 : ℤ) < 2 ^ s := by positivity
  induction xs with
  | nil => exact ⟨hxs, rfl, by simp [shrWords, value]⟩
  | cons x xs ih =>
    obtain ⟨hx, hxs⟩ := digits_cons.1 hxs
    have hlow : 0 ≤ x / 2 ^ s := Int.ediv_nonneg hx.1 hpow.le
    obtain _ | ⟨y, ys⟩ := xs
    · refine ⟨digits_cons.2 ⟨⟨hlow, ?_⟩, hxs⟩, rfl, by simp [shrWords, value]⟩
      exact (Int.ediv_le_self _ hx.1).trans_lt hx.2
    · obtain ⟨hd, hlen, hval⟩ := ih hxs
      have hlow' : x / 2 ^ s < 2 ^ (64 - s) :=
        Int.ediv_lt_of_lt_mul hpow (by rw [hrad]; exact hx.2)
      have hhigh : 0 ≤ y % 2 ^ s := Int.emod_nonneg _ hpow.ne'
      have hhigh' : y % 2 ^ s < 2 ^ s := Int.emod_lt_of_pos _ hpow
      have hword : (if s ≠ 0 then lor (x / 2 ^ s) (u64 (y * 2 ^ (64 - s))) else x) =
          y % 2 ^ s * 2 ^ (64 - s) + x / 2 ^ s := by
        split_ifs with h
        · rw [u64, ← hrad, mul_comm y, Int.mul_emod_mul_of_pos _ _ (by positivity),
            mul_comm (2 ^ (64 - s)), lor_comm, lor_eq hhigh hlow hlow']
        · obtain rfl : s = 0 := not_not.1 h
          simp
      rw [shrWords, hword]
      refine ⟨digits_cons.2 ⟨⟨by positivity, by nlinarith⟩, hd⟩, congrArg (· + 1) hlen, ?_⟩
      have hmod : value radix (y :: ys) % 2 ^ s = y % 2 ^ s := by
        rw [value, show radix * value radix ys = 2 ^ s * (2 ^ (64 - s) * value radix ys) by
          rw [← hrad]; ring, Int.add_mul_emod_self_left]
      have hdiv := Int.mul_ediv_add_emod (value radix (y :: ys)) (2 ^ s)
      have hsum : value radix (x :: y :: ys) =
          x + 2 ^ s * (2 ^ (64 - s) * value radix (y :: ys)) := by
        rw [value, ← hrad]
        ring
      rw [hsum, Int.add_mul_ediv_left _ _ hpow.ne', value, hval, ← hmod]
      linear_combination 2 ^ (64 - s) * hdiv - (value radix (y :: ys) / 2 ^ s) * hrad

/-- As `normalize` shifts them. -/
theorem normalizedWords_spec {s : ℕ} (hs : s ≤ 63) {xs : List ℤ} (hxs : Digits radix xs)
    (hlt : value radix xs * 2 ^ s < radix ^ xs.length) :
    let ys := if s ≠ 0 then shlWords s xs 0 else xs
    Digits radix ys ∧ ys.length = xs.length ∧ value radix ys = value radix xs * 2 ^ s := by
  intro ys
  have hys : Digits radix ys ∧ ys.length = xs.length ∧
      ∃ k, value radix ys = value radix xs * 2 ^ s + radix ^ xs.length * k := by
    by_cases h : s = 0
    · subst h
      exact ⟨hxs, rfl, 0, by simp [ys]⟩
    · have hspec := shlWords_spec hs hxs ⟨le_rfl, radix_pos⟩
      rw [Int.zero_ediv, add_zero] at hspec
      rwa [show ys = shlWords s xs 0 from if_pos h]
  obtain ⟨hd, hlen, k, hk⟩ := hys
  have hlt' := hd.value_lt radix_pos
  rw [hlen] at hlt'
  exact ⟨hd, hlen, eq_of_add_mul hk (hd.value_nonneg radix_pos) hlt'
    (mul_nonneg (hxs.value_nonneg radix_pos) (by positivity)) hlt⟩

/-- What `normalize` provides. -/
structure Normalized (u v : List ℤ) (na : NormalizedDivArgs) : Prop where
  shift_le : na.shift ≤ 63
  divisor : Digits radix na.divisor
  numerator : Digits radix na.numerator
  pos : 0 < na.numDivisorWords
  divisor_le : na.numDivisorWords ≤ na.divisor.length
  numerator_le : na.numNumeratorWords ≤ na.numerator.length
  divisor_length : na.divisor.length = v.length
  numerator_length : na.numerator.length = u.length + 1
  value_divisor : value radix (na.divisor.take na.numDivisorWords) = value radix v * 2 ^ na.shift
  value_numerator :
    value radix (na.numerator.take na.numNumeratorWords) = value radix u * 2 ^ na.shift
  value_rest : value radix (na.numerator.drop na.numNumeratorWords) = 0
  high : 2 ^ 63 ≤ na.divisor.getD (na.numDivisorWords - 1) 0
  top : 0 < na.numNumeratorWords →
    na.numerator.getD (na.numNumeratorWords - 1) 0 < na.divisor.getD (na.numDivisorWords - 1) 0

/-- A number and its highest word. -/
theorem value_bounds {xs : List ℤ} (h : Digits radix xs) {k : ℕ} (hk : k < xs.length) :
    xs.getD k 0 * radix ^ k ≤ value radix (xs.take (k + 1)) ∧
      value radix (xs.take (k + 1)) < (xs.getD k 0 + 1) * radix ^ k := by
  have hlow := (digits_take h k).value_nonneg radix_pos
  have hlow' := (digits_take h k).value_lt radix_pos
  rw [take_succ_getD hk, value_append_one, List.length_take, min_eq_left hk.le] at *
  constructor <;> linarith

theorem normalize_divisor {v : List ℤ} (hv : Digits radix v) {n : ℕ}
    (hn : significantWords v v.length = n + 1) :
    let s := clzNonzero (v.getD n 0)
    let vn := if s ≠ 0 then shlWords s v 0 else v
    s ≤ 63 ∧ (Digits radix vn ∧ vn.length = v.length ∧ n < v.length) ∧
      value radix (vn.take (n + 1)) = value radix v * 2 ^ s ∧ 2 ^ 63 ≤ vn.getD n 0 := by
  intro s vn
  have hpow : 0 < radix ^ n := pow_pos radix_pos n
  have hval : value radix (v.take (n + 1)) = value radix v := by
    rw [← hn, value_take_significantWords le_rfl, List.take_length]
  have hlen : n < v.length := by
    have := significantWords_le v v.length
    omega
  have htop := getD_significantWords (hn ▸ Nat.succ_pos n : 0 < significantWords v v.length)
  rw [hn, Nat.add_sub_cancel] at htop
  have hdigit := getD_digit hv n
  obtain ⟨hs, hge, hle⟩ := clzNonzero_spec (lt_of_le_of_ne hdigit.1 htop.symm) hdigit.2
  change s ≤ 63 at hs
  change 2 ^ 63 ≤ v.getD n 0 * 2 ^ s at hge
  change v.getD n 0 + 1 ≤ 2 ^ (64 - s) at hle
  obtain ⟨hlow, hup⟩ := value_bounds hv hlen
  rw [hval] at hlow hup
  have hlt : value radix v * 2 ^ s < radix ^ (n + 1) := by
    calc value radix v * 2 ^ s < (v.getD n 0 + 1) * radix ^ n * 2 ^ s :=
          mul_lt_mul_of_pos_right hup (by positivity)
      _ ≤ 2 ^ (64 - s) * radix ^ n * 2 ^ s := by gcongr
      _ = radix ^ (n + 1) := by
          rw [pow_succ, ← two_pow_mul_two_pow hs]
          ring
  have hlt' : value radix v * 2 ^ s < radix ^ v.length :=
    hlt.trans_le (pow_le_pow_right₀ (by unfold radix; norm_num) hlen)
  obtain ⟨hd, hdlen, hvn⟩ := normalizedWords_spec hs hv hlt'
  change Digits radix vn at hd
  change vn.length = v.length at hdlen
  change value radix vn = _ at hvn
  have htake : value radix (vn.take (n + 1)) = value radix v * 2 ^ s := by
    rw [(value_take_drop hd (by rwa [hvn])).1, hvn]
  refine ⟨hs, ⟨hd, hdlen, hlen⟩, htake, ?_⟩
  have hup' := (value_bounds hd (hdlen ▸ hlen)).2
  rw [htake] at hup'
  have hge' : 2 ^ 63 * radix ^ n ≤ value radix v * 2 ^ s := by
    calc 2 ^ 63 * radix ^ n ≤ v.getD n 0 * 2 ^ s * radix ^ n := by gcongr
      _ = v.getD n 0 * radix ^ n * 2 ^ s := by ring
      _ ≤ value radix v * 2 ^ s := by gcongr
  exact Int.lt_add_one_iff.1 (lt_of_mul_lt_mul_right (hge'.trans_lt hup') hpow.le)

theorem normalize_numerator {u : List ℤ} (hu : Digits radix u) {s : ℕ} (hs : s ≤ 63) :
    let m := significantWords u u.length
    let un := if s ≠ 0 then shlWords s (u ++ [0]) 0 else u ++ [0]
    (Digits radix un ∧ un.length = u.length + 1 ∧ m ≤ u.length) ∧
      value radix (un.take (m + 1)) = value radix u * 2 ^ s ∧
      value radix (un.drop (m + 1)) = 0 ∧ un.getD m 0 < 2 ^ 63 := by
  intro m un
  have hm : m ≤ u.length := significantWords_le u _
  have hpow : 0 < radix ^ m := pow_pos radix_pos m
  have hs' : (2 : ℤ) ^ s ≤ 2 ^ 63 := pow_le_pow_right₀ (by norm_num) hs
  have hval : value radix (u.take m) = value radix u := by
    rw [value_take_significantWords le_rfl, List.take_length]
  have hlt := (digits_take hu m).value_lt radix_pos
  rw [hval, List.length_take, min_eq_left hm] at hlt
  have hzero : value radix (u ++ [0]) = value radix u := by
    rw [value_append_one, zero_mul, zero_add]
  have hlt' : value radix u * 2 ^ s < radix ^ m * 2 ^ s :=
    mul_lt_mul_of_pos_right hlt (by positivity)
  have hlt'' : value radix u * 2 ^ s < radix ^ (m + 1) := by
    refine hlt'.trans_le ?_
    rw [pow_succ]
    exact mul_le_mul_of_nonneg_left (hs'.trans (by unfold radix; norm_num)) hpow.le
  have hlen : (u ++ [0]).length = u.length + 1 := List.length_append
  obtain ⟨hd, hdlen, hun⟩ := normalizedWords_spec hs
    (digits_append_one hu ⟨le_rfl, radix_pos⟩) (by
      rw [hzero, hlen]
      exact hlt''.trans_le (pow_le_pow_right₀ (by unfold radix; norm_num) (by omega)))
  change Digits radix un at hd
  change un.length = (u ++ [0]).length at hdlen
  change value radix un = _ at hun
  rw [hzero] at hun
  rw [hlen] at hdlen
  obtain ⟨htake, hdrop⟩ := value_take_drop hd (by rwa [hun] : value radix un < radix ^ (m + 1))
  rw [hun] at htake
  refine ⟨⟨hd, hdlen, hm⟩, htake, hdrop, ?_⟩
  have hlow := (value_bounds hd (by omega : m < un.length)).1
  rw [htake] at hlow
  exact (lt_of_mul_lt_mul_right (hlow.trans_lt (by linarith)) hpow.le).trans_le hs'

/-- **`normalize`** multiplies both numbers with a power of two. -/
theorem normalized_normalize {u v : List ℤ} (hu : Digits radix u) (hv : Digits radix v)
    (hne : value radix v ≠ 0) : Normalized u v (normalize u v) := by
  obtain ⟨n, hn⟩ : ∃ n, significantWords v v.length = n + 1 := by
    refine Nat.exists_eq_succ_of_ne_zero fun h => hne ?_
    rw [← List.take_length (l := v), ← value_take_significantWords le_rfl, h]
    rfl
  obtain ⟨hs, ⟨hd, hdlen, hnlt⟩, hvn, hhigh⟩ := normalize_divisor hv hn
  obtain ⟨⟨hu', hulen, hm⟩, hun, hrest, htop⟩ := normalize_numerator hu hs
  simp only [normalize, hn, Nat.add_sub_cancel]
  generalize (if clzNonzero (v.getD n 0) ≠ 0 then shlWords (clzNonzero (v.getD n 0)) v 0 else v) =
    vn at *
  generalize (if clzNonzero (v.getD n 0) ≠ 0 then shlWords (clzNonzero (v.getD n 0)) (u ++ [0]) 0
    else u ++ [0]) = un at *
  generalize significantWords u u.length = m at *
  have hnle : n + 1 ≤ vn.length := by omega
  have hlen : m < un.length := by omega
  split_ifs with h
  · exact ⟨hs, hd, hu', n.succ_pos, hnle, hlen, hdlen, hulen, hvn, hun, hrest, hhigh,
      fun _ => htop.trans_le hhigh⟩
  · obtain ⟨hzero, hlt⟩ := not_or.1 h
    rw [not_not] at hzero
    have htake : value radix (un.take m) = value radix (un.take (m + 1)) := by
      rw [take_succ_getD hlen, value_append_one, hzero, zero_mul, zero_add]
    have hdrop : value radix (un.drop m) = 0 := by
      rw [List.drop_eq_getElem_cons hlen, value, hrest, mul_zero, add_zero,
        ← List.getD_eq_getElem _ 0 hlen, hzero]
    exact ⟨hs, hd, hu', n.succ_pos, hnle, hlen.le, hdlen, hulen, hvn, htake.trans hun, hdrop,
      hhigh, fun _ => not_le.1 hlt⟩

end Normalize

/-! ### Quotient and remainder -/

/-- A step of `udivrem_knuth`: the next word of the numerator is `x`, and the words above it that
are still there are `r`. -/
def knuthStep (d : List ℤ) (v x : ℤ) (r : List ℤ) : ℤ × List ℤ :=
  let dlen := d.length
  let u := x :: r
  knuthDigit (u.take (dlen - 2)) (d.take (dlen - 2)) (u.getD dlen 0) (u.getD (dlen - 1) 0)
    (u.getD (dlen - 2) 0) (d.getD (dlen - 1) 0) (d.getD (dlen - 2) 0) v

/-- `udivrem_by1`: the quotient is where the numerator was. -/
def udivremBy1 (u : List ℤ) (len : ℕ) (d : ℤ) : List ℤ × ℤ :=
  let reciprocal := reciprocal2by1 d
  let p := divide (fun x rem => udivrem2by1 rem x d reciprocal) (u.take (len - 1))
    (u.getD (len - 1) 0)
  (p.1 ++ 0 :: u.drop len, p.2)

/-- `udivrem_by2`. -/
def udivremBy2 (u : List ℤ) (len : ℕ) (d₁ d₀ : ℤ) : List ℤ × ℤ :=
  let reciprocal := reciprocal3by2 d₁ d₀
  let p := divide (fun x rem => udivrem3by2 (rem / radix) (rem % radix) x d₁ d₀ reciprocal)
    (u.take (len - 2)) (u.getD (len - 1) 0 * radix + u.getD (len - 2) 0)
  (p.1 ++ 0 :: 0 :: u.drop len, p.2)

/-- `udivrem_knuth`. -/
def udivremKnuth (u : List ℤ) (ulen : ℕ) (d : List ℤ) : List ℤ × List ℤ :=
  let dlen := d.length
  let reciprocal := reciprocal3by2 (d.getD (dlen - 1) 0) (d.getD (dlen - 2) 0)
  divide (knuthStep d reciprocal) (u.take (ulen - dlen)) ((u.take ulen).drop (ulen - dlen))

/-- `static_cast<uint<N>>`, with `n` words. -/
def castWords (n : ℕ) (xs : List ℤ) : List ℤ := (xs ++ List.replicate n 0).take n

/-- `udivrem`. -/
def udivrem (u v : List ℤ) : List ℤ × List ℤ :=
  let na := normalize u v
  let m := na.numNumeratorWords
  let n := na.numDivisorWords
  if m ≤ n then (List.replicate u.length 0, castWords v.length u)
  else if n = 1 then
    let p := udivremBy1 na.numerator m (na.divisor.getD 0 0)
    (castWords u.length p.1, castWords v.length [p.2 / 2 ^ na.shift])
  else if n = 2 then
    let p := udivremBy2 na.numerator m (na.divisor.getD 1 0) (na.divisor.getD 0 0)
    let r := p.2 / 2 ^ na.shift
    (castWords u.length p.1, castWords v.length [r % radix, r / radix])
  else
    let p := udivremKnuth na.numerator m (na.divisor.take n)
    (castWords u.length p.1, castWords v.length (shrWords na.shift p.2))

section Udivrem

variable {u v : List ℤ} {len : ℕ}

theorem digits_replicate_zero (n : ℕ) : Digits radix (List.replicate n 0) := by
  intro x hx
  rw [List.eq_of_mem_replicate hx]
  exact ⟨le_rfl, radix_pos⟩

/-- The words of a number, as many as `n`. -/
def IsWords (n : ℕ) (x : ℤ) (xs : List ℤ) : Prop :=
  Digits radix xs ∧ xs.length = n ∧ value radix xs = x

theorem isWords_castWords {xs : List ℤ} (hxs : Digits radix xs) {n : ℕ}
    (hlt : value radix xs < radix ^ n) : IsWords n (value radix xs) (castWords n xs) := by
  have hd := digits_append.2 ⟨hxs, digits_replicate_zero n⟩
  have hval : value radix (xs ++ List.replicate n 0) = value radix xs := by
    rw [value_append, value_replicate_zero, mul_zero, add_zero]
  refine ⟨digits_take hd n, by simp [castWords], ?_⟩
  rw [castWords, (value_take_drop hd (by rwa [hval])).1, hval]

theorem isStep_udivrem2by1 {d : ℤ} (hd : 2 ^ 63 ≤ d ∧ d < radix) :
    IsStep radix d id (fun _ => True)
      (fun x rem => udivrem2by1 rem x d (reciprocal2by1 d)) := by
  intro x r hx hx' hr
  obtain ⟨hq, hrem, heq⟩ := udivrem2by1_spec hd.1 hd.2 (isReciprocal_reciprocal2by1 hd.1 hd.2)
    hr.nonneg hr.lt hx hx'
  exact ⟨hq, ⟨trivial, hrem.1, hrem.2⟩, heq.symm⟩

theorem isStep_udivrem3by2 {d₁ d₀ : ℤ} (hd₁ : 2 ^ 63 ≤ d₁ ∧ d₁ < radix)
    (hd₀ : 0 ≤ d₀ ∧ d₀ < radix) :
    IsStep radix (d₁ * radix + d₀) id (fun _ => True)
      (fun x rem => udivrem3by2 (rem / radix) (rem % radix) x d₁ d₀ (reciprocal3by2 d₁ d₀)) := by
  intro x r hx hx' hr
  have hsum : r / radix * radix + r % radix = r := Int.ediv_mul_add_emod _ _
  have hlt : r / radix * radix + r % radix < d₁ * radix + d₀ := hsum.trans_lt hr.lt
  obtain ⟨hq, hrem, heq⟩ := udivrem3by2_spec hd₁.1 hd₁.2 hd₀.1 hd₀.2
    (isReciprocal_reciprocal3by2 hd₁.1 hd₁.2 hd₀.1 hd₀.2) (Int.ediv_nonneg hr.nonneg radix_pos.le)
    (u64_nonneg r) (u64_lt r) hlt hx hx'
  refine ⟨hq, ⟨trivial, hrem.1, hrem.2⟩, ?_⟩
  refine Eq.trans ?_ heq.symm
  change r * radix + x = r / radix * radix ^ 2 + r % radix * radix + x
  linear_combination -radix * hsum

/-- What is divided is `D`, by `V`. -/
def IsQuotient (N V : ℤ) (n : ℕ) (q : List ℤ) (r : ℤ) : Prop :=
  Digits radix q ∧ value radix q < radix ^ n ∧ (0 ≤ r ∧ r < V) ∧ N = value radix q * V + r

theorem IsQuotient.append {N V : ℤ} {n : ℕ} {q zs : List ℤ} {r : ℤ} (hq : Digits radix q)
    (hlen : q.length = n) (hzs : Digits radix zs) (hzero : value radix zs = 0)
    (hr : 0 ≤ r ∧ r < V) (heq : N = value radix q * V + r) : IsQuotient N V n (q ++ zs) r := by
  have hval : value radix (q ++ zs) = value radix q := by
    rw [value_append, hzero, mul_zero, add_zero]
  refine ⟨digits_append.2 ⟨hq, hzs⟩, ?_, hr, by rw [hval, heq]⟩
  rw [hval, ← hlen]
  exact hq.value_lt radix_pos

theorem digits_zero_cons {xs : List ℤ} (h : Digits radix xs) : Digits radix (0 :: xs) :=
  digits_cons.2 ⟨⟨le_rfl, radix_pos⟩, h⟩

theorem value_zero_cons {xs : List ℤ} (h : value radix xs = 0) : value radix (0 :: xs) = 0 := by
  rw [value, h, mul_zero, add_zero]

theorem udivremBy1_spec {un : List ℤ} (hun : Digits radix un) (hpos : 0 < len)
    (hlen : len ≤ un.length) {d : ℤ} (hd : 2 ^ 63 ≤ d ∧ d < radix)
    (htop : un.getD (len - 1) 0 < d) (hrest : value radix (un.drop len) = 0) :
    IsQuotient (value radix (un.take len)) d (len - 1) (udivremBy1 un len d).1
      (udivremBy1 un len d).2 := by
  obtain ⟨n, rfl⟩ : ∃ n, len = n + 1 := ⟨len - 1, by omega⟩
  have hdigit := getD_digit hun n
  obtain ⟨hq, hqlen, hr, heq⟩ := divide_spec (isStep_udivrem2by1 hd) (digits_take hun n)
    (r := un.getD n 0) ⟨trivial, hdigit.1, htop⟩
  rw [List.length_take, min_eq_left (by omega)] at hqlen heq
  refine IsQuotient.append hq hqlen (digits_zero_cons (digits_drop hun _))
    (value_zero_cons hrest) ⟨hr.nonneg, hr.lt⟩ (Eq.trans ?_ heq)
  rw [take_succ_getD (by omega), value_append_one, List.length_take, min_eq_left (by omega), id]
  ring

theorem take_add_two_getD {xs : List ℤ} {k : ℕ} (h : k + 1 < xs.length) :
    xs.take (k + 2) = xs.take k ++ [xs.getD k 0, xs.getD (k + 1) 0] := by
  rw [take_succ_getD h, take_succ_getD (by omega), List.append_assoc]
  rfl

theorem udivremBy2_spec {un : List ℤ} (hun : Digits radix un) (hpos : 1 < len)
    (hlen : len ≤ un.length) {d₁ d₀ : ℤ} (hd₁ : 2 ^ 63 ≤ d₁ ∧ d₁ < radix)
    (hd₀ : 0 ≤ d₀ ∧ d₀ < radix) (htop : un.getD (len - 1) 0 < d₁)
    (hrest : value radix (un.drop len) = 0) :
    IsQuotient (value radix (un.take len)) (d₁ * radix + d₀) (len - 2) (udivremBy2 un len d₁ d₀).1
      (udivremBy2 un len d₁ d₀).2 := by
  obtain ⟨n, rfl⟩ : ∃ n, len = n + 2 := ⟨len - 2, by omega⟩
  have hdigit₁ := getD_digit hun (n + 1)
  have hdigit₀ := getD_digit hun n
  have hrad := radix_pos
  have hlt : un.getD (n + 1) 0 * radix + un.getD n 0 < d₁ * radix + d₀ := by
    change un.getD (n + 1) 0 < d₁ at htop
    nlinarith
  obtain ⟨hq, hqlen, hr, heq⟩ := divide_spec (isStep_udivrem3by2 hd₁ hd₀) (digits_take hun n)
    (r := un.getD (n + 1) 0 * radix + un.getD n 0)
    ⟨trivial, add_nonneg (mul_nonneg hdigit₁.1 hrad.le) hdigit₀.1, hlt⟩
  rw [List.length_take, min_eq_left (by omega)] at hqlen heq
  refine IsQuotient.append hq hqlen
    (digits_zero_cons (digits_zero_cons (digits_drop hun _)))
    (value_zero_cons (value_zero_cons hrest)) ⟨hr.nonneg, hr.lt⟩ (Eq.trans ?_ heq)
  rw [take_add_two_getD (by omega), value_append_two, List.length_take, min_eq_left (by omega), id]
  ring

/-- The words of a remainder. -/
def Below (n : ℕ) (r : List ℤ) : Prop := Digits radix r ∧ r.length = n

theorem isStep_knuthStep {d : List ℤ} (hd : Digits radix d) (hlen : 2 ≤ d.length)
    (hhigh : 2 ^ 63 ≤ d.getD (d.length - 1) 0) :
    IsStep radix (value radix d) (value radix) (Below d.length)
      (knuthStep d (reciprocal3by2 (d.getD (d.length - 1) 0) (d.getD (d.length - 2) 0))) := by
  intro x r hx hx' hr
  obtain ⟨n, hn⟩ : ∃ n, d.length = n + 2 := ⟨d.length - 2, by omega⟩
  have hu : Digits radix (x :: r) := digits_cons.2 ⟨⟨hx, hx'⟩, hr.ok.1⟩
  have hulen : (x :: r).length = n + 3 := by simp [hr.ok.2, hn]
  have hsplit : x :: r = (x :: r).take n ++
      [(x :: r).getD n 0, (x :: r).getD (n + 1) 0, (x :: r).getD (n + 2) 0] := by
    conv_lhs => rw [← List.take_length (l := x :: r), hulen]
    rw [take_succ_getD (by omega), take_add_two_getD (by omega), List.append_assoc]
    rfl
  have hsplit' : d = d.take n ++ [d.getD n 0, d.getD (n + 1) 0] := by
    conv_lhs => rw [← List.take_length (l := d), hn]
    rw [take_add_two_getD (by omega)]
  have hval : value radix (x :: r) = value radix r * radix + x := by
    rw [value]
    ring
  have hlt : value radix (x :: r) < value radix d * radix := by
    nlinarith [hr.lt, radix_pos]
  rw [hsplit] at hlt hval
  rw [knuthStep]
  simp only [hn, Nat.add_sub_cancel, Nat.add_succ_sub_one] at hhigh ⊢
  have hdtop := getD_digit hd (n + 1)
  have hdlow := getD_digit hd n
  have htaken : (d.take n).length = n := by
    rw [List.length_take, hn, min_eq_left (by omega)]
  have htaken' : ((x :: r).take n).length = (d.take n).length := by
    rw [List.length_take, hulen, htaken, min_eq_left (by omega)]
  obtain ⟨hq, ⟨hdigits, hlen'⟩, hless, heq⟩ :=
    isDigit_knuthDigit (digits_take hu n) (digits_take hd n) htaken'
      (getD_digit hu (n + 2)).1 (getD_digit hu (n + 1)) (getD_digit hu n) ⟨hhigh, hdtop.2⟩ hdlow
      (isReciprocal_reciprocal3by2 hhigh hdtop.2 hdlow.1 hdlow.2) (by rwa [← hsplit'])
  rw [← hsplit'] at hless heq
  rw [htaken] at hlen'
  exact ⟨hq, ⟨⟨hdigits, hlen'⟩, hdigits.value_nonneg radix_pos, hless⟩, hval.symm.trans heq⟩

/-- Of numbers with as many words, that with the lower top word is less. -/
theorem value_lt_of_top {xs ys : List ℤ} (hxs : Digits radix xs) (hys : Digits radix ys) {k : ℕ}
    (hlen : xs.length = k + 1) (hlen' : ys.length = k + 1) (h : xs.getD k 0 < ys.getD k 0) :
    value radix xs < value radix ys := by
  have hx := (value_bounds hxs (k := k) (by omega)).2
  have hy := (value_bounds hys (k := k) (by omega)).1
  rw [← hlen, List.take_length] at hx
  rw [← hlen', List.take_length] at hy
  have hle : (xs.getD k 0 + 1) * radix ^ k ≤ ys.getD k 0 * radix ^ k :=
    mul_le_mul_of_nonneg_right h (pow_pos radix_pos k).le
  linarith

theorem udivremKnuth_spec {un : List ℤ} (hun : Digits radix un) {d : List ℤ} (hd : Digits radix d)
    (hpos : 2 ≤ d.length) (hlen : d.length ≤ len) (hlen' : len ≤ un.length)
    (hhigh : 2 ^ 63 ≤ d.getD (d.length - 1) 0)
    (htop : un.getD (len - 1) 0 < d.getD (d.length - 1) 0) :
    let p := udivremKnuth un len d
    Below d.length p.2 ∧ IsQuotient (value radix (un.take len)) (value radix d) (len - d.length) p.1
      (value radix p.2) := by
  have hlow := digits_drop (digits_take hun len) (len - d.length)
  have hlowlen : ((un.take len).drop (len - d.length)).length = d.length := by
    rw [List.length_drop, List.length_take, min_eq_left hlen']
    omega
  have htop' : ((un.take len).drop (len - d.length)).getD (d.length - 1) 0 =
      un.getD (len - 1) 0 := by
    simp only [List.getD_eq_getElem?_getD, List.getElem?_drop]
    rw [List.getElem?_take_of_lt (by omega),
      show len - d.length + (d.length - 1) = len - 1 by omega]
  have hless : value radix ((un.take len).drop (len - d.length)) < value radix d :=
    value_lt_of_top hlow hd (k := d.length - 1) (by omega) (by omega) (by rwa [htop'])
  obtain ⟨hq, hqlen, hr, heq⟩ := divide_spec (isStep_knuthStep hd hpos hhigh)
    (digits_take hun (len - d.length)) ⟨⟨hlow, hlowlen⟩, hlow.value_nonneg radix_pos, hless⟩
  rw [List.length_take, min_eq_left (by omega)] at hqlen heq
  have hsplit : value radix (un.take len) = value radix (un.take (len - d.length)) +
      radix ^ (len - d.length) * value radix ((un.take len).drop (len - d.length)) := by
    conv_lhs => rw [← List.take_append_drop (len - d.length) (un.take len)]
    rw [value_append, List.take_take, min_eq_left (by omega), List.length_take,
      min_eq_left (by omega)]
  have hquot := IsQuotient.append hq hqlen (List.forall_mem_nil _) rfl ⟨hr.nonneg, hr.lt⟩
    (hsplit.trans heq)
  rw [List.append_nil] at hquot
  exact ⟨hr.ok, hquot⟩

/-- The numbers were multiplied, and what is left is divided again. -/
theorem IsQuotient.div_mod {N V : ℤ} {n s : ℕ} {q : List ℤ} {r : ℤ} (hV : 0 < V)
    (h : IsQuotient (N * 2 ^ s) (V * 2 ^ s) n q r) :
    value radix q = N / V ∧ r / 2 ^ s = N % V := by
  obtain ⟨-, -, ⟨hr, hr'⟩, heq⟩ := h
  have hpow : (0 : ℤ) < 2 ^ s := by positivity
  have hrem : r = 2 ^ s * (N - value radix q * V) := by linear_combination -heq
  have hnonneg : 0 ≤ N - value radix q * V := by
    by_contra hneg
    nlinarith
  have hlt : N - value radix q * V < V := by
    by_contra hge
    nlinarith
  have hdiv : value radix q = N / V :=
    ((Int.ediv_eq_iff_of_pos hV).2 ⟨by linarith, by linarith⟩).symm
  refine ⟨hdiv, ?_⟩
  rw [hrem, Int.mul_ediv_cancel_left _ hpow.ne', hdiv, Int.emod_def, mul_comm V]

theorem Normalized.lt {na : NormalizedDivArgs} (h : Normalized u v na)
    (hle : na.numNumeratorWords ≤ na.numDivisorWords) : value radix u < value radix v := by
  obtain ⟨n, hn⟩ : ∃ n, na.numDivisorWords = n + 1 :=
    Nat.exists_eq_succ_of_ne_zero h.pos.ne'
  have hpow : (0 : ℤ) < 2 ^ na.shift := by positivity
  have hnle := h.divisor_le
  have hmle := h.numerator_le
  refine lt_of_mul_lt_mul_right ?_ hpow.le
  rw [← h.value_numerator, ← h.value_divisor]
  rcases hle.lt_or_eq with hlt | heq
  · have hnum := (digits_take h.numerator na.numNumeratorWords).value_lt radix_pos
    have hdiv := (value_bounds h.divisor (k := n) (by omega)).1
    rw [List.length_take, min_eq_left hmle] at hnum
    have hhigh := h.high
    rw [hn, Nat.add_sub_cancel] at hhigh
    rw [hn]
    calc value radix (na.numerator.take na.numNumeratorWords) < radix ^ na.numNumeratorWords := hnum
      _ ≤ radix ^ n := pow_le_pow_right₀ (by unfold radix; norm_num) (by omega)
      _ ≤ na.divisor.getD n 0 * radix ^ n :=
          le_mul_of_one_le_left (pow_pos radix_pos n).le (by linarith)
      _ ≤ _ := hdiv
  · have htop := h.top (heq ▸ h.pos)
    rw [heq] at htop ⊢
    refine value_lt_of_top (k := n) (digits_take h.numerator _) (digits_take h.divisor _)
      (by rw [List.length_take]; omega) (by rw [List.length_take]; omega) ?_
    rw [hn, Nat.add_sub_cancel] at htop
    rw [hn]
    simp only [List.getD_eq_getElem?_getD] at htop ⊢
    rwa [List.getElem?_take_of_lt (by omega), List.getElem?_take_of_lt (by omega)]

/-- **`udivrem` divides.** -/
theorem isWords_udivrem (hu : Digits radix u) (hv : Digits radix v) (hne : value radix v ≠ 0) :
    IsWords u.length (value radix u / value radix v) (udivrem u v).1 ∧
      IsWords v.length (value radix u % value radix v) (udivrem u v).2 := by
  have hrad := radix_pos
  have hna := normalized_normalize hu hv hne
  have hV : 0 < value radix v := lt_of_le_of_ne (hv.value_nonneg hrad) hne.symm
  have hremainder : ∀ xs, Digits radix xs → value radix xs = value radix u % value radix v →
      IsWords v.length (value radix u % value radix v) (castWords v.length xs) := by
    intro xs hxs heq
    rw [← heq]
    refine isWords_castWords hxs ?_
    rw [heq]
    exact (Int.emod_lt_of_pos _ hV).trans (hv.value_lt hrad)
  simp only [udivrem]
  generalize normalize u v = na at *
  have hquotient : ∀ q r, IsQuotient (value radix u * 2 ^ na.shift) (value radix v * 2 ^ na.shift)
      (na.numNumeratorWords - na.numDivisorWords) q r →
      IsWords u.length (value radix u / value radix v) (castWords u.length q) ∧
        r / 2 ^ na.shift = value radix u % value radix v := by
    intro q r h
    have hm := hna.numerator_le
    have hpos := hna.pos
    rw [hna.numerator_length] at hm
    obtain ⟨hdiv, hmod⟩ := h.div_mod hV
    refine ⟨hdiv ▸ isWords_castWords h.1 (h.2.1.trans_le ?_), hmod⟩
    exact pow_le_pow_right₀ (by unfold radix; norm_num) (by omega)
  have hdle := hna.divisor_le
  have hpos := hna.pos
  have hrem : 0 ≤ value radix u % value radix v := Int.emod_nonneg _ hne
  have hsmall : value radix u % value radix v < radix ^ na.numDivisorWords := by
    have hlt := (digits_take hna.divisor na.numDivisorWords).value_lt hrad
    rw [hna.value_divisor, List.length_take, min_eq_left hdle] at hlt
    calc value radix u % value radix v < value radix v := Int.emod_lt_of_pos _ hV
      _ ≤ value radix v * 2 ^ na.shift :=
          le_mul_of_one_le_right hV.le (one_le_pow₀ (by norm_num))
      _ < _ := hlt
  split_ifs with hle h₁ h₂
  · have hlt := hna.lt hle
    have hu₀ := hu.value_nonneg hrad
    have hmod : value radix u = value radix u % value radix v := (Int.emod_eq_of_lt hu₀ hlt).symm
    rw [Int.ediv_eq_zero_of_lt hu₀ hlt]
    exact ⟨⟨digits_replicate_zero _, List.length_replicate, value_replicate_zero _⟩,
      hremainder u hu hmod⟩
  · have hone : value radix (na.divisor.take 1) = na.divisor.getD 0 0 := by
      rw [take_succ_getD (by omega), List.take_zero, List.nil_append, value_singleton]
    have hhigh := hna.high
    have htop := hna.top (by omega)
    have hval := hna.value_divisor
    rw [h₁, Nat.sub_self] at hhigh htop
    rw [h₁, hone] at hval
    have hspec := udivremBy1_spec hna.numerator (by omega) hna.numerator_le
      ⟨hhigh, (getD_digit hna.divisor 0).2⟩ htop hna.value_rest
    rw [hna.value_numerator, ← h₁] at hspec
    rw [h₁, pow_one] at hsmall
    obtain ⟨hq, hr⟩ := hquotient _ _ (by rwa [← hval])
    exact ⟨hq, hremainder _ (digits_singleton (hr.symm ▸ ⟨hrem, hsmall⟩))
      ((value_singleton _).trans hr)⟩
  · have htwo : value radix (na.divisor.take 2) =
        na.divisor.getD 1 0 * radix + na.divisor.getD 0 0 := by
      rw [take_add_two_getD (by omega), value_append_two, List.take_zero, List.length_nil, pow_zero,
        mul_one, value, add_zero]
    have hhigh := hna.high
    have htop := hna.top (by omega)
    have hval := hna.value_divisor
    rw [h₂, show 2 - 1 = 1 from rfl] at hhigh htop
    rw [h₂, htwo] at hval
    have hspec := udivremBy2_spec hna.numerator (by omega) hna.numerator_le
      ⟨hhigh, (getD_digit hna.divisor 1).2⟩ (getD_digit hna.divisor 0) htop hna.value_rest
    rw [hna.value_numerator, ← h₂] at hspec
    rw [h₂, sq] at hsmall
    obtain ⟨hq, hr⟩ := hquotient _ _ (by rwa [← hval])
    rw [hr]
    refine ⟨hq, hremainder _ (digits_cons.2 ⟨⟨u64_nonneg _, u64_lt _⟩, digits_singleton
      ⟨Int.ediv_nonneg hrem hrad.le, Int.ediv_lt_of_lt_mul hrad hsmall⟩⟩) ?_⟩
    rw [value, value_singleton, Int.emod_add_mul_ediv]
  · have hdlen : (na.divisor.take na.numDivisorWords).length = na.numDivisorWords := by
      rw [List.length_take, min_eq_left hdle]
    have hget : (na.divisor.take na.numDivisorWords).getD (na.numDivisorWords - 1) 0 =
        na.divisor.getD (na.numDivisorWords - 1) 0 := by
      simp only [List.getD_eq_getElem?_getD]
      rw [List.getElem?_take_of_lt (by omega)]
    obtain ⟨hbelow, hspec⟩ := udivremKnuth_spec hna.numerator
      (digits_take hna.divisor na.numDivisorWords) (by omega) (by omega) hna.numerator_le
      (by rw [hdlen, hget]; exact hna.high) (by rw [hdlen, hget]; exact hna.top (by omega))
    rw [hna.value_numerator, hna.value_divisor, hdlen] at hspec
    obtain ⟨hq, hr⟩ := hquotient _ _ hspec
    obtain ⟨hdigits, -, hshr⟩ := shrWords_spec hna.shift_le hbelow.1
    exact ⟨hq, hremainder _ hdigits (hshr.trans hr)⟩

/-- The quotient and the remainder add up, whatever the number of words. -/
theorem udivrem_exact (hu : Digits radix u) (hv : Digits radix v) (hne : value radix v ≠ 0) :
    ((udivrem u v).1.length = u.length ∧ Digits radix (udivrem u v).1) ∧
      ((udivrem u v).2.length = v.length ∧ Digits radix (udivrem u v).2) ∧
      value radix u =
        value radix (udivrem u v).1 * value radix v + value radix (udivrem u v).2 ∧
      value radix (udivrem u v).2 < value radix v := by
  obtain ⟨⟨hq, hqlen, hqval⟩, hr, hrlen, hrval⟩ := isWords_udivrem hu hv hne
  have hpos : 0 < value radix v := lt_of_le_of_ne (hv.value_nonneg radix_pos) hne.symm
  rw [hqval, hrval]
  exact ⟨⟨hqlen, hq⟩, ⟨hrlen, hr⟩, (Int.ediv_mul_add_emod _ _).symm, Int.emod_lt_of_pos _ hpos⟩

/-- A divisor of three words, for which the first digit of the quotient is estimated as
`2 ^ 64 - 1` and corrected to `2 ^ 64 - 2`. -/
theorem udivrem_exact_three :
    let u : List ℤ := [0, 0, 2 ^ 63, 2 ^ 63 - 1]
    let v : List ℤ := [1, 0, 2 ^ 63]
    ((udivrem u v).1.length = 4 ∧ Digits radix (udivrem u v).1) ∧
      ((udivrem u v).2.length = 3 ∧ Digits radix (udivrem u v).2) ∧
      value radix u =
        value radix (udivrem u v).1 * value radix v + value radix (udivrem u v).2 ∧
      value radix (udivrem u v).2 < value radix v := by
  intro u v
  have hu : Digits radix u := by
    simp [u, Digits, radix]
  have hv : Digits radix v := by
    simp [v, Digits, radix]
  exact udivrem_exact hu hv (by decide)

end Udivrem

/-! ### Numbers and their words -/

/-- The lowest words of a number. -/
def words : ℕ → ℕ → List ℤ
  | 0, _ => []
  | n + 1, x => (x % 2 ^ 64 : ℕ) :: words n (x / 2 ^ 64)

/-- The number with some words. -/
def number (xs : List ℤ) : ℕ := (value radix xs).toNat

theorem digits_words (n x : ℕ) : Digits radix (words n x) := by
  induction n generalizing x with
  | zero => exact List.forall_mem_nil _
  | succ n ih =>
    have hlt : x % 2 ^ 64 < 2 ^ 64 := Nat.mod_lt _ (by norm_num)
    refine digits_cons.2 ⟨⟨Int.natCast_nonneg _, ?_⟩, ih _⟩
    unfold radix
    exact_mod_cast hlt

theorem value_words {n x : ℕ} (h : x < 2 ^ (64 * n)) : value radix (words n x) = x := by
  induction n generalizing x with
  | zero =>
    obtain rfl : x = 0 := by simpa using h
    rfl
  | succ n ih =>
    have hlt : x / 2 ^ 64 < 2 ^ (64 * n) := by
      rw [Nat.div_lt_iff_lt_mul (by norm_num), ← pow_add]
      exact h
    rw [words, value, ih hlt]
    unfold radix
    exact_mod_cast Nat.mod_add_div x (2 ^ 64)

end Division

end Evm

end WeakChain
