import Mathlib.Data.Finmap

/-!
# A map that is written key by key

What a map holds after a list of writes, none of which is ever undone: a key has the value of the
last write to it (`Writes.lookup_concat`), a key that only ever gets one value has that value
whatever is written around it (`Writes.lookup_of_unique`), and the keys are the old ones and those
written (`Writes.mem_apply`).
-/

namespace WeakChain

/-- Write a list of keys and values, in order. -/
def Writes.apply {α β : Type*} [DecidableEq α] (db : Finmap fun _ : α => β) (ws : List (α × β)) :
    Finmap fun _ : α => β :=
  ws.foldl (fun db w => db.insert w.1 w.2) db

namespace Writes

variable {α β : Type*} [DecidableEq α] {db : Finmap fun _ : α => β} {ws : List (α × β)}

@[simp] theorem apply_nil : apply db [] = db := rfl

@[simp] theorem apply_cons (w : α × β) : apply db (w :: ws) = apply (db.insert w.1 w.2) ws := rfl

theorem apply_append (ws' : List (α × β)) : apply db (ws ++ ws') = apply (apply db ws) ws' :=
  List.foldl_append

/-- The last write to a key is the one that counts. -/
theorem lookup_concat (k : α) (v : β) : (apply db (ws ++ [(k, v)])).lookup k = some v := by
  rw [apply_append]
  exact Finmap.lookup_insert _

/-- A key that is written, and always with the same value, has that value. -/
theorem lookup_of_unique {k : α} {v : β} (hmem : (k, v) ∈ ws) (h : ∀ v', (k, v') ∈ ws → v' = v) :
    (apply db ws).lookup k = some v := by
  induction ws using List.reverseRecOn with
  | nil => cases hmem
  | append_singleton ws w ih =>
    obtain ⟨k', v'⟩ := w
    by_cases hk : k' = k
    · subst hk
      obtain rfl := h v' (by simp)
      exact lookup_concat _ _
    · -- the last write is to another key
      have hmem' : (k, v) ∈ ws := by
        rcases List.mem_append.1 hmem with hmem | hmem
        · exact hmem
        · cases List.mem_singleton.1 hmem
          exact absurd rfl hk
      rw [apply_append, ← ih hmem' fun u hu => h u (List.mem_append_left _ hu)]
      exact Finmap.lookup_insert_of_ne _ fun he => hk he.symm

/-- A key that is not written keeps its value. -/
theorem lookup_of_notMem {k : α} (h : ∀ v, (k, v) ∉ ws) :
    (apply db ws).lookup k = db.lookup k := by
  induction ws generalizing db with
  | nil => rfl
  | cons w ws ih =>
    have hne : k ≠ w.1 := by
      rintro rfl
      exact h w.2 List.mem_cons_self
    have hrest : ∀ v, (k, v) ∉ ws := fun v hv => h v (List.mem_cons_of_mem _ hv)
    rw [apply_cons, ih hrest, Finmap.lookup_insert_of_ne _ hne]

theorem mem_apply {k : α} : k ∈ apply db ws ↔ k ∈ db ∨ k ∈ ws.map Prod.fst := by
  induction ws generalizing db with
  | nil => simp
  | cons w ws ih =>
    rw [apply_cons, ih, Finmap.mem_insert, List.map_cons, List.mem_cons]
    tauto

end Writes

end WeakChain
