import Mathlib.Data.List.Pairwise
import Mathlib.Tactic.SplitIfs

/-!
# Stages that are passed in order

Runners pass the stages `0, 1, 2, …`, each at its own pace, and every stage lists those that have
passed it.  If nobody takes a stage before all who started earlier have taken it, then every stage
is passed in the order of the starts: its list is a beginning of that order, and all of it once
everybody has passed (`Pipeline.passed_isPrefix`, `Pipeline.passed_eq`).
-/

namespace WeakChain

/-- A runner, and the stage it is at: it has passed those before. -/
structure Runner (α : Type*) where
  item : α
  stage : ℕ
  deriving DecidableEq

namespace Pipeline

variable {α : Type*} {l : List (Runner α)} {i k : ℕ} {r : Runner α}

/-- Those that have passed the stage `k`, in the order of the starts. -/
def passed (k : ℕ) (l : List (Runner α)) : List α :=
  (l.filter fun r => k < r.stage).map Runner.item

/-- The runner number `i` passes a stage. -/
def advance (l : List (Runner α)) (i : ℕ) : List (Runner α) :=
  l.modify i fun r => { r with stage := r.stage + 1 }

/-- Nobody is ahead of those that started earlier. -/
def InOrder (l : List (Runner α)) : Prop :=
  l.Pairwise fun a b => b.stage ≤ a.stage

/-- All who started earlier have passed the stage that the runner number `i` is at. -/
def Next (l : List (Runner α)) (i : ℕ) : Prop :=
  ∀ r ∈ l[i]?, ∀ r' ∈ l.take i, r.stage < r'.stage

instance : Decidable (Next l i) :=
  inferInstanceAs (Decidable (∀ r ∈ l[i]?, ∀ r' ∈ l.take i, r.stage < r'.stage))

@[simp] theorem passed_nil : passed k ([] : List (Runner α)) = [] := rfl

theorem passed_append (l₁ l₂ : List (Runner α)) :
    passed k (l₁ ++ l₂) = passed k l₁ ++ passed k l₂ := by
  simp [passed]

theorem passed_cons :
    passed k (r :: l) = if k < r.stage then r.item :: passed k l else passed k l := by
  by_cases h : k < r.stage <;> simp [passed, h]

theorem passed_eq_nil (h : ∀ r ∈ l, r.stage ≤ k) : passed k l = [] := by
  rw [passed, List.map_eq_nil_iff, List.filter_eq_nil_iff]
  intro r hr
  simpa using h r hr

/-- A stage that everybody has passed. -/
theorem passed_eq (h : ∀ r ∈ l, k < r.stage) : passed k l = l.map Runner.item := by
  rw [passed, List.filter_eq_self.2]
  simpa using h

/-- **A stage is passed in the order of the starts.** -/
theorem passed_isPrefix (h : InOrder l) : passed k l <+: l.map Runner.item := by
  induction l with
  | nil => exact List.prefix_rfl
  | cons r l ih =>
    rw [InOrder, List.pairwise_cons] at h
    rw [passed_cons]
    split_ifs with hr
    · exact (List.prefix_cons_inj _).2 (ih h.2)
    · rw [passed_eq_nil fun r' hr' => Nat.le_trans (h.1 r' hr') (Nat.le_of_not_lt hr)]
      exact List.nil_prefix

/-- The list around the runner number `i`. -/
theorem exists_eq_of_getElem? (h : l[i]? = some r) :
    ∃ l₁ l₂, l = l₁ ++ r :: l₂ ∧ l.take i = l₁ ∧
      advance l i = l₁ ++ { r with stage := r.stage + 1 } :: l₂ := by
  obtain ⟨hi, rfl⟩ := List.getElem?_eq_some_iff.1 h
  refine ⟨l.take i, l.drop (i + 1), ?_, rfl, ?_⟩
  · rw [← List.drop_eq_getElem_cons hi, List.take_append_drop]
  · rw [advance, List.modify_eq_take_cons_drop hi]

theorem map_item_advance : (advance l i).map Runner.item = l.map Runner.item := by
  cases h : l[i]? with
  | none => rw [advance, List.modify_eq_self (by simpa using h)]
  | some r =>
    obtain ⟨l₁, l₂, hl, -, hl'⟩ := exists_eq_of_getElem? h
    rw [hl', hl]
    simp

theorem passed_advance_of_ne (h : l[i]? = some r) (hk : k ≠ r.stage) :
    passed k (advance l i) = passed k l := by
  obtain ⟨l₁, l₂, hl, -, hl'⟩ := exists_eq_of_getElem? h
  rw [hl', hl]
  have hiff : k < r.stage + 1 ↔ k < r.stage := by omega
  simp [passed_append, passed_cons, hiff]

theorem passed_advance_self (hord : InOrder l) (h : l[i]? = some r) :
    passed r.stage (advance l i) = passed r.stage l ++ [r.item] := by
  obtain ⟨l₁, l₂, hl, -, hl'⟩ := exists_eq_of_getElem? h
  have htail : passed r.stage l₂ = [] := by
    rw [hl, InOrder, List.pairwise_append, List.pairwise_cons] at hord
    exact passed_eq_nil hord.2.1.1
  rw [hl', hl]
  simp [passed_append, passed_cons, htail]

namespace InOrder

theorem append (h : InOrder l) (a : α) : InOrder (l ++ [⟨a, 0⟩]) := by
  rw [InOrder, List.pairwise_append]
  exact ⟨h, List.pairwise_singleton .., by simp⟩

/-- Whoever does not overtake keeps the order. -/
theorem advance (h : InOrder l) (hi : Next l i) : InOrder (advance l i) := by
  cases hr : l[i]? with
  | none =>
    rw [Pipeline.advance, List.modify_eq_self (by simpa using hr)]
    exact h
  | some r =>
    obtain ⟨l₁, l₂, hl, htake, hl'⟩ := exists_eq_of_getElem? hr
    have hfirst := hi r hr
    rw [htake] at hfirst
    rw [hl']
    rw [hl, InOrder, List.pairwise_append, List.pairwise_cons] at h
    rw [InOrder, List.pairwise_append, List.pairwise_cons]
    refine ⟨h.1, ⟨fun r' hr' => Nat.le_succ_of_le (h.2.1.1 r' hr'), h.2.1.2⟩, ?_⟩
    intro a ha b hb
    rcases List.mem_cons.1 hb with rfl | hb
    · exact hfirst a ha
    · exact h.2.2 a ha b (List.mem_cons_of_mem _ hb)

end InOrder

end Pipeline

end WeakChain
