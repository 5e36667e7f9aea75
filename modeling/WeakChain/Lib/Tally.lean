import Mathlib.Data.Finset.Card
import Mathlib.Data.Finset.Dedup
import Mathlib.Tactic.Ring

/-!
# Tallies that are cleared when they fire

A *tally* collects the set of voters of one proposal.  When the set reaches the threshold `x` the
tally *fires* and is cleared, so a voter who votes again afterwards starts a new set.

* `Tally.exists_honest` : a tally whose threshold exceeds the number of faulty voters has an
  honest voter when it fires.
* `Tally.Ledger` : the books of a tally.  As long as nobody votes again after the set with the first
  vote has been cleared, every firing uses up `x` voters for good (`Tally.Ledger.vote`), so that a
  tally with fewer than `2 * x` voters fires at most once (`Tally.Ledger.le_one`).
-/

namespace WeakChain

namespace Tally

open Finset

variable {α : Type*} [DecidableEq α]

/-- Count the vote of `e`: the remaining set of voters, and whether the tally fired. -/
def vote (x : ℕ) (s : Finset α) (e : α) : Finset α × Bool :=
  if x ≤ (insert e s).card then (∅, true) else (insert e s, false)

theorem vote_of_le {x : ℕ} {s : Finset α} {e : α} (h : x ≤ (insert e s).card) :
    vote x s e = (∅, true) :=
  if_pos h

theorem vote_of_lt {x : ℕ} {s : Finset α} {e : α} (h : (insert e s).card < x) :
    vote x s e = (insert e s, false) :=
  if_neg (by omega)

theorem vote_subset (x : ℕ) (s : Finset α) (e : α) : (vote x s e).1 ⊆ insert e s := by
  unfold vote
  split_ifs <;> simp

theorem le_of_fired {x : ℕ} {s : Finset α} {e : α} (h : (vote x s e).2 = true) :
    x ≤ (insert e s).card := by
  by_contra hc
  rw [vote_of_lt (by omega)] at h
  cases h

/-- A tally that fires has counted a voter outside any smaller set. -/
theorem exists_honest {x : ℕ} {s faulty : Finset α} {e : α} (h : (vote x s e).2 = true)
    (hx : faulty.card < x) : ∃ v ∈ insert e s, v ∉ faulty :=
  exists_mem_notMem_of_card_lt_card (hx.trans_le (le_of_fired h))

/-- The books of a tally with threshold `x` that has fired `k` times: the voters it has counted so
far pay for the firings and for the present set `s`. -/
structure Ledger (x k : ℕ) (s voters : Finset α) : Prop where
  /-- The present voters have been counted. -/
  subset : s ⊆ voters
  /-- The tally would have fired otherwise. -/
  lt : s.card < x
  /-- Every firing used up `x` voters. -/
  card_le : x * k + s.card ≤ voters.card

namespace Ledger

variable {x k : ℕ} {s voters : Finset α} {e : α}

omit [DecidableEq α] in
theorem empty (hx : 0 < x) : Ledger x 0 (∅ : Finset α) ∅ := ⟨subset_rfl, by simpa, by simp⟩

/-- **Votes are spent.**  The vote of a *new* voter keeps the books, whether the tally fires or
not. -/
theorem vote (h : Ledger x k s voters) (he : e ∉ voters) :
    Ledger x (k + (vote x s e).2.toNat) (Tally.vote x s e).1 (insert e voters) := by
  have hins := card_insert_of_notMem fun hs => he (h.subset hs)
  have hlt := h.lt
  have hle := h.card_le
  by_cases hx : x ≤ (insert e s).card
  · rw [vote_of_le hx]
    refine ⟨empty_subset _, by simp; omega, ?_⟩
    simp only [Bool.toNat_true, card_empty, Nat.mul_add, Nat.mul_one, Nat.add_zero]
    rw [card_insert_of_notMem he]
    omega
  · rw [vote_of_lt (by omega)]
    refine ⟨insert_subset_insert e h.subset, not_le.1 hx, ?_⟩
    simp only [Bool.toNat_false, Nat.add_zero]
    rw [card_insert_of_notMem he]
    omega

/-- A vote that is still in the present set changes nothing. -/
theorem vote_mem (h : Ledger x k s voters) (he : e ∈ s) : Tally.vote x s e = (s, false) := by
  rw [vote_of_lt (by rw [insert_eq_of_mem he]; exact h.lt), insert_eq_of_mem he]

omit [DecidableEq α] in
/-- With fewer than `2 * x` voters the tally fires at most once. -/
theorem le_one (h : Ledger x k s voters) (hv : voters.card < 2 * x) : k ≤ 1 := by
  by_contra hk
  have : x * 2 ≤ x * k := Nat.mul_le_mul_left x (by omega)
  have := h.card_le
  omega

end Ledger

/-- The members of a list other than one of them are at most one fewer than its length. -/
theorem card_erase_toFinset_le {l : List α} {p : α} (hp : p ∈ l) :
    (l.toFinset.erase p).card ≤ l.length - 1 := by
  rw [card_erase_of_mem (List.mem_toFinset.2 hp)]
  have := List.toFinset_card_le l
  omega

end Tally

end WeakChain
