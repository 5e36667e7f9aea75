import Mathlib.Data.List.Forall2

/-!
# Lists of computations that may fail

`List.mapM` runs a computation on every element of a list.  In `Except` it stops at the first one
that fails, and otherwise every result is at its place (`forall₂_of_mapM_eq_ok`).
-/

namespace WeakChain

namespace Traverse

universe u v w

/-- Computations that undo what has been done to the elements. -/
theorem mapM_map_eq_pure {m : Type u → Type v} [Monad m] [LawfulMonad m] {α : Type w} {β γ : Type u}
    {f : β → m γ} {g : α → β} {h : α → γ} (hfg : ∀ x, f (g x) = pure (h x)) (xs : List α) :
    (xs.map g).mapM f = pure (xs.map h) := by
  induction xs with
  | nil => rfl
  | cons x xs ih => rw [List.map_cons, List.mapM_cons, hfg, ih, pure_bind, pure_bind, List.map_cons]

variable {α : Type u} {β : Type v}

theorem isSome_mapM_iff {f : α → Option β} {xs : List α} :
    (xs.mapM f).isSome = true ↔ ∀ x ∈ xs, (f x).isSome = true := by
  induction xs with
  | nil => simp
  | cons x xs ih =>
    rw [List.mapM_cons, List.forall_mem_cons, ← ih]
    cases f x with
    | none => simp
    | some y => cases xs.mapM f <;> simp

variable {ε : Type w} {f : α → Except ε β} {xs : List α}

theorem mapM_eq_error_iff : (∃ e, xs.mapM f = .error e) ↔ ∃ x ∈ xs, ∃ e, f x = .error e := by
  induction xs with
  | nil => exact iff_of_false (fun ⟨e, he⟩ => nomatch he) (by simp)
  | cons x xs ih =>
    simp only [List.mem_cons, exists_eq_or_imp, ← ih, List.mapM_cons]
    cases f x with
    | error e => exact iff_of_true ⟨e, rfl⟩ (.inl ⟨e, rfl⟩)
    | ok y => cases xs.mapM f <;> simp [bind, Except.bind, pure, Except.pure]

/-- If nothing fails, every element is turned into the one at its place. -/
theorem forall₂_of_mapM_eq_ok {ys : List β} (h : xs.mapM f = .ok ys) :
    List.Forall₂ (fun x y => f x = .ok y) xs ys := by
  induction xs generalizing ys with
  | nil =>
    obtain rfl := Except.ok.inj h
    exact .nil
  | cons x xs ih =>
    rw [List.mapM_cons] at h
    cases hx : f x with
    | error e =>
      rw [hx] at h
      cases h
    | ok z =>
      cases hxs : xs.mapM f with
      | error e =>
        rw [hx, hxs] at h
        cases h
      | ok zs =>
        rw [hx, hxs] at h
        obtain rfl := Except.ok.inj h
        exact .cons hx (ih hxs)

theorem mem_of_mapM_eq_ok {ys : List β} (h : xs.mapM f = .ok ys) {y : β} :
    y ∈ ys ↔ ∃ x ∈ xs, f x = .ok y := by
  have hall := forall₂_of_mapM_eq_ok h
  clear h
  induction hall with
  | nil => simp
  | cons hx _ ih =>
    simp only [List.mem_cons, exists_eq_or_imp, hx, Except.ok.injEq, ih]
    exact or_congr_left eq_comm

end Traverse

end WeakChain
