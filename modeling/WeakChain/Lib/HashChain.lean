import Mathlib.Data.List.Induction

/-!
# Chains of hashes

A list is hashed one element after the other, each together with the hash so far; it begins with a
given hash.  Such a chain can be cut anywhere: what is hashed before the cut is the hash that the
rest begins with.  If there are no collisions among what is hashed, this is the only way in which
two chains can end with the same hash (`HashChain.hash_eq_hash_iff`); so chains of the same length
have hashed the same (`HashChain.eq_of_hash_eq`).
-/

namespace WeakChain

namespace HashChain

variable {α β : Type*} (f : α → β → β)

/-- The hash at the end of the chain. -/
def hash (h : β) (xs : List α) : β := xs.foldl (fun h x => f x h) h

/-- What is hashed: each element with the hash so far. -/
def inputs : β → List α → List (α × β)
  | _, [] => []
  | h, x :: xs => (x, h) :: inputs (f x h) xs

/-- No two of these have the same hash. -/
def CollisionFree (ps : List (α × β)) : Prop :=
  ∀ p ∈ ps, ∀ q ∈ ps, f p.1 p.2 = f q.1 q.2 → p = q

variable {f} {h h' : β} {xs ys : List α} {ps qs : List (α × β)}

theorem CollisionFree.subset (hfree : CollisionFree f ps) (hsub : qs ⊆ ps) : CollisionFree f qs :=
  fun p hp q hq => hfree p (hsub hp) q (hsub hq)

@[simp] theorem hash_append : hash f h (xs ++ ys) = hash f (hash f h xs) ys :=
  List.foldl_append

@[simp] theorem inputs_append :
    inputs f h (xs ++ ys) = inputs f h xs ++ inputs f (hash f h xs) ys := by
  induction xs generalizing h with
  | nil => rfl
  | cons x xs ih =>
    rw [List.cons_append, inputs, ih]
    rfl

/-- A chain of which the other one is the end, and that leads to where the other one begins. -/
def Continues (f : α → β → β) (h : β) (xs : List α) (h' : β) (ys : List α) : Prop :=
  ∃ l, xs = l ++ ys ∧ hash f h l = h'

theorem Continues.hash_eq (hc : Continues f h xs h' ys) : hash f h xs = hash f h' ys := by
  obtain ⟨l, rfl, rfl⟩ := hc
  exact hash_append

theorem continues_concat {x : α} :
    Continues f h (xs ++ [x]) h' (ys ++ [x]) ↔ Continues f h xs h' ys := by
  constructor
  · rintro ⟨l, hl, hh⟩
    rw [← List.append_assoc] at hl
    exact ⟨l, List.append_cancel_right hl, hh⟩
  · rintro ⟨l, rfl, hh⟩
    exact ⟨l, List.append_assoc _ _ _, hh⟩

theorem continues_nil : Continues f h xs h' [] ↔ hash f h xs = h' := by
  constructor
  · exact Continues.hash_eq
  · intro hh
    exact ⟨xs, (List.append_nil xs).symm, hh⟩

/-- **Two chains end with the same hash** if and only if one is the end of the other. -/
theorem hash_eq_hash_iff (hfree : CollisionFree f (inputs f h xs ++ inputs f h' ys)) :
    hash f h xs = hash f h' ys ↔ Continues f h xs h' ys ∨ Continues f h' ys h xs := by
  constructor
  · -- the last elements agree, and so do the hashes before them
    intro heq
    induction xs using List.reverseRecOn generalizing ys with
    | nil => exact .inr (continues_nil.2 heq.symm)
    | append_singleton xs x ih =>
      rcases List.eq_nil_or_concat ys with rfl | ⟨ys, y, rfl⟩
      · exact .inl (continues_nil.2 heq)
      · rw [List.concat_eq_append] at hfree heq ⊢
        have hx : (x, hash f h xs) = (y, hash f h' ys) :=
          hfree _ (by simp [inputs]) _ (by simp [inputs]) (by simpa [hash] using heq)
        obtain ⟨rfl, hrest⟩ := Prod.mk.inj hx
        rw [continues_concat, continues_concat]
        refine ih (hfree.subset fun p hp => ?_) hrest
        rcases List.mem_append.1 hp with hp | hp
        · simp [hp]
        · simp [hp]
  · rintro (hc | hc)
    · exact hc.hash_eq
    · exact hc.hash_eq.symm

/-- Chains of the same length with the same hash begin with the same hash and are the same. -/
theorem eq_of_hash_eq (hfree : CollisionFree f (inputs f h xs ++ inputs f h' ys))
    (hlen : xs.length = ys.length) (heq : hash f h xs = hash f h' ys) : h = h' ∧ xs = ys := by
  rcases (hash_eq_hash_iff hfree).1 heq with ⟨l, rfl, rfl⟩ | ⟨l, rfl, rfl⟩
  · have hl : l = [] := by simpa using hlen
    subst hl
    exact ⟨rfl, rfl⟩
  · have hl : l = [] := by simpa using hlen
    subst hl
    exact ⟨rfl, rfl⟩

end HashChain

end WeakChain
