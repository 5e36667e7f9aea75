import Mathlib.Data.List.Basic
import Mathlib.Data.Int.Notation
import Mathlib.Tactic.SplitIfs

/-!
# Searching through a memory

An iterator is a position in the memory, and nothing keeps it inside the list that it came from.  So
a program with iterators runs on the list and on what lies around it (`memory`), and it leaves
behind which iterators it has formed and which it has read (`Trace`).  It has stayed in bounds if
all of the first are inside the list or at its end, and all of the second are inside
(`Trace.Within`).

* `find_fst`, `Trace.Within.find` : a search that starts in the list ends there, at the first
  element it looks for or at the end, and stays in bounds.
* `find_fst_of_lt` : one that starts behind the end leaves the list behind.
-/

namespace WeakChain

namespace Search

variable {α β : Type*}

/-- The elements of a list at their places, and what lies around them. -/
def memory (s : List α) (around : ℤ → α) (i : ℤ) : α :=
  if 0 ≤ i then s.getD i.toNat (around i) else around i

/-- What has been done with iterators. -/
structure Trace where
  /-- The iterators that have been formed. -/
  formed : List ℤ
  /-- Those that have been read. -/
  reads : List ℤ

/-- Form an iterator. -/
def Trace.form (t : Trace) (i : ℤ) : Trace := { t with formed := t.formed ++ [i] }

/-- Read an iterator. -/
def Trace.read (t : Trace) (i : ℤ) : Trace := { t with reads := t.reads ++ [i] }

/-- All iterators are inside a list with `n` elements or at its end, and those that have been read
are inside. -/
structure Trace.Within (t : Trace) (n : ℕ) : Prop where
  formed : ∀ i ∈ t.formed, 0 ≤ i ∧ i ≤ n
  reads : ∀ i ∈ t.reads, 0 ≤ i ∧ i < n

/-- `for (; first != last; ++first) if (*first == value) return first; return last;`, with at most
`fuel` steps; nothing if it is still running. -/
def find [DecidableEq α] (m : ℤ → α) (last : ℤ) (value : α) (fuel : ℕ) (first : ℤ) (t : Trace) :
    Option ℤ × Trace :=
  if first = last then (some last, t)
  else if m first = value then (some first, t.read first)
  else
    match fuel with
    | 0 => (none, t.read first)
    | fuel + 1 => find m last value fuel (first + 1) ((t.read first).form (first + 1))

/-- The `n` elements from `first` on. -/
def copy (m : ℤ → α) : ℕ → ℤ → Trace → List α × Trace
  | 0, _, t => ([], t)
  | n + 1, first, t =>
    let r := copy m n (first + 1) ((t.read first).form (first + 1))
    (m first :: r.1, r.2)

/-- Go on with the result, if there is one. -/
def andThen (r : Option α × Trace) (f : α → Trace → Option β × Trace) : Option β × Trace :=
  match r.1 with
  | none => (none, r.2)
  | some a => f a r.2

theorem memory_of_lt {s : List α} {p : ℕ} (h : p < s.length) (around : ℤ → α) :
    memory s around p = s[p] := by
  rw [memory, if_pos (Int.natCast_nonneg p), Int.toNat_natCast, List.getD_eq_getElem?_getD,
    List.getElem?_eq_getElem h, Option.getD_some]

theorem memory_of_le {s : List α} {i : ℤ} (h : s.length ≤ i) (around : ℤ → α) :
    memory s around i = around i := by
  rw [memory, if_pos (by omega), List.getD_eq_getElem?_getD, List.getElem?_eq_none (by omega),
    Option.getD_none]

theorem andThen_of_eq_some {r : Option α × Trace} {a : α} (h : r.1 = some a)
    (f : α → Trace → Option β × Trace) : andThen r f = f a r.2 := by
  rw [andThen, h]

theorem andThen_of_eq_none {r : Option α × Trace} (h : r.1 = none)
    (f : α → Trace → Option β × Trace) : andThen r f = (none, r.2) := by
  rw [andThen, h]

theorem formed_andThen {r : Option α × Trace} {f : α → Trace → Option β × Trace} {i : ℤ}
    (h : i ∈ r.2.formed) (hf : ∀ a, i ∈ (f a r.2).2.formed) : i ∈ (andThen r f).2.formed := by
  unfold andThen
  split
  · exact h
  · exact hf _

namespace Trace

variable {t : Trace} {n : ℕ}

@[simp] theorem mem_formed_form {i j : ℤ} : j ∈ (t.form i).formed ↔ j ∈ t.formed ∨ j = i := by
  rw [form, List.mem_append, List.mem_singleton]

@[simp] theorem formed_read (i : ℤ) : (t.read i).formed = t.formed := rfl

namespace Within

theorem form (h : t.Within n) {i : ℤ} (h₀ : 0 ≤ i) (hn : i ≤ n) : (t.form i).Within n where
  formed j hj := by
    rcases mem_formed_form.1 hj with hj | rfl
    · exact h.formed j hj
    · exact ⟨h₀, hn⟩
  reads := h.reads

theorem read (h : t.Within n) {i : ℤ} (h₀ : 0 ≤ i) (hn : i < n) : (t.read i).Within n where
  formed := h.formed
  reads j hj := by
    rcases List.mem_append.1 hj with hj | hj
    · exact h.reads j hj
    · obtain rfl := List.mem_singleton.1 hj
      exact ⟨h₀, hn⟩

theorem andThen {r : Option α × Trace} {f : α → Trace → Option β × Trace} (h : r.2.Within n)
    (hf : ∀ a, r.1 = some a → (f a r.2).2.Within n) : (andThen r f).2.Within n := by
  unfold Search.andThen
  split
  · exact h
  · next a ha => exact hf a ha

/-- A search from a place in the list stays in bounds. -/
theorem find [DecidableEq α] (h : t.Within n) (m : ℤ → α) (value : α) (fuel : ℕ) {first : ℤ}
    (h₀ : 0 ≤ first) (hn : first ≤ n) : (find m n value fuel first t).2.Within n := by
  induction fuel generalizing first t with
  | zero =>
    rw [Search.find]
    split_ifs with hend hvalue
    · exact h
    · exact h.read h₀ (by omega)
    · exact h.read h₀ (by omega)
  | succ fuel ih =>
    rw [Search.find]
    split_ifs with hend hvalue
    · exact h
    · exact h.read h₀ (by omega)
    · exact ih ((h.read h₀ (by omega)).form (by omega) (by omega)) (by omega) (by omega)

/-- So does copying elements of the list. -/
theorem copy (h : t.Within n) (m : ℤ → α) {k : ℕ} {first : ℤ} (h₀ : 0 ≤ first)
    (hn : first + k ≤ n) : (copy m k first t).2.Within n := by
  induction k generalizing first t with
  | zero => exact h
  | succ k ih =>
    rw [Search.copy]
    exact ih ((h.read h₀ (by omega)).form (by omega) (by omega)) (by omega) (by omega)

end Within

end Trace

theorem formed_find [DecidableEq α] {m : ℤ → α} {last : ℤ} {value : α} {fuel : ℕ} {first i : ℤ}
    {t : Trace} (h : i ∈ t.formed) : i ∈ (find m last value fuel first t).2.formed := by
  induction fuel generalizing first t with
  | zero =>
    rw [find]
    split_ifs
    · exact h
    · exact h
    · exact h
  | succ fuel ih =>
    rw [find]
    split_ifs
    · exact h
    · exact h
    · exact ih (Trace.mem_formed_form.2 (.inl h))

theorem formed_copy {m : ℤ → α} {k : ℕ} {first i : ℤ} {t : Trace} (h : i ∈ t.formed) :
    i ∈ (copy m k first t).2.formed := by
  induction k generalizing first t with
  | zero => exact h
  | succ k ih => exact ih (Trace.mem_formed_form.2 (.inl h))

/-- **Where a search ends.**  From a place in the list it goes to the first element that it looks
for, or to the end of the list. -/
theorem find_fst [DecidableEq α] (s : List α) (around : ℤ → α) (value : α) (fuel : ℕ) {p : ℕ}
    (hp : p ≤ s.length) (t : Trace) :
    (find (memory s around) s.length value fuel p t).1 =
      if (s.drop p).idxOf value ≤ fuel then some ((p + (s.drop p).idxOf value : ℕ) : ℤ)
      else none := by
  induction fuel generalizing p t with
  | zero =>
    rcases Nat.eq_or_lt_of_le hp with rfl | hlt
    · simp [find]
    · rw [find, if_neg (by omega), memory_of_lt hlt, List.drop_eq_getElem_cons hlt]
      by_cases hvalue : s[p] = value
      · rw [if_pos hvalue, List.idxOf_cons_eq _ hvalue, if_pos (Nat.le_refl 0), Nat.add_zero]
      · rw [if_neg hvalue, List.idxOf_cons_ne _ hvalue, if_neg (Nat.not_succ_le_zero _)]
  | succ fuel ih =>
    rcases Nat.eq_or_lt_of_le hp with rfl | hlt
    · simp [find]
    · rw [find, if_neg (by omega), memory_of_lt hlt, List.drop_eq_getElem_cons hlt]
      by_cases hvalue : s[p] = value
      · rw [if_pos hvalue, List.idxOf_cons_eq _ hvalue, if_pos (Nat.zero_le _), Nat.add_zero]
      · have hnext := ih (p := p + 1) hlt ((t.read p).form (p + 1))
        rw [Int.natCast_succ] at hnext
        rw [if_neg hvalue, List.idxOf_cons_ne _ hvalue, hnext, Nat.succ_add_eq_add_succ]
        simp only [Nat.succ_le_succ_iff]

/-- A search that starts behind the end goes on until it finds something there. -/
theorem find_fst_of_lt [DecidableEq α] {m : ℤ → α} {last first : ℤ} {value : α} (fuel : ℕ)
    (h : last < first) (hm : ∀ i, first ≤ i → m i ≠ value) (t : Trace) :
    (find m last value fuel first t).1 = none := by
  induction fuel generalizing first t with
  | zero => rw [find, if_neg (by omega), if_neg (hm first (Int.le_refl _))]
  | succ fuel ih =>
    rw [find, if_neg (by omega), if_neg (hm first (Int.le_refl _))]
    exact ih (by omega) (fun i hi => hm i (by omega)) _

theorem copy_fst (s : List α) (around : ℤ → α) {k p : ℕ} (h : p + k ≤ s.length) (t : Trace) :
    (copy (memory s around) k p t).1 = (s.drop p).take k := by
  induction k generalizing p t with
  | zero => rfl
  | succ k ih =>
    have hlt : p < s.length := by omega
    have hnext := ih (p := p + 1) (by omega) ((t.read p).form (p + 1))
    rw [Int.natCast_succ] at hnext
    rw [copy, memory_of_lt hlt, List.drop_eq_getElem_cons hlt, List.take_succ_cons]
    exact congrArg _ hnext

end Search

end WeakChain
