import Mathlib.Data.List.Basic

/-!
# Batches

A batch is a list of tasks.  `exec s t` is what task `t` returns in state `s`, and `apply s r` the
state after the result `r` has been applied.  Executed *in sequence*, each task sees what the tasks
before it have done; executed *on a snapshot*, all of them see the state before the batch, and the
results are applied afterwards.

The two return the same if and only if no task is disturbed (`results_eq_iff`), and then they end in
the same state (`sequential_eq_snapshot`).  A task that only looks at what the tasks before it leave
alone is not disturbed (`undisturbed_of_frame`).
-/

namespace WeakChain

namespace Batch

variable {S T R : Type*} (exec : S → T → R) (apply : S → R → S)

/-- Execute the tasks in sequence: the state afterwards, and the results. -/
def sequential : S → List T → S × List R
  | s, [] => (s, [])
  | s, t :: ts =>
    let r := sequential (apply s (exec s t)) ts
    (r.1, exec s t :: r.2)

/-- Execute the tasks on the snapshot `pre`, and apply the results to `s`. -/
def snapshot (pre s : S) (ts : List T) : S × List R :=
  ((ts.map (exec pre)).foldl apply s, ts.map (exec pre))

/-- Every task returns the same on the snapshot and after the results before it have been
applied. -/
def Undisturbed (pre : S) : S → List T → Prop
  | _, [] => True
  | s, t :: ts => exec s t = exec pre t ∧ Undisturbed pre (apply s (exec pre t)) ts

variable {exec apply} {pre s : S} {ts : List T}

theorem sequential_eq_snapshot (h : Undisturbed exec apply pre s ts) :
    sequential exec apply s ts = snapshot exec apply pre s ts := by
  induction ts generalizing s with
  | nil => rfl
  | cons t ts ih =>
    obtain ⟨ht, hts⟩ := h
    have hrec := ih hts
    simp only [sequential, ht, hrec]
    rfl

theorem undisturbed_of_results (h : (sequential exec apply s ts).2 = ts.map (exec pre)) :
    Undisturbed exec apply pre s ts := by
  induction ts generalizing s with
  | nil => trivial
  | cons t ts ih =>
    obtain ⟨ht, hts⟩ := List.cons.inj h
    exact ⟨ht, ih (ht ▸ hts)⟩

/-- The results are the same if and only if no task is disturbed. -/
theorem results_eq_iff :
    (sequential exec apply s ts).2 = (snapshot exec apply pre s ts).2 ↔
      Undisturbed exec apply pre s ts :=
  ⟨undisturbed_of_results, fun h => by rw [sequential_eq_snapshot h]⟩

/-- The frame rule.  `same t s s'` says that the two states look the same to `t`. -/
theorem undisturbed_of_frame (same : T → S → S → Prop)
    (hexec : ∀ t s s', same t s s' → exec s t = exec s' t)
    (hframe : ts.Pairwise fun u t => ∀ s, same t s pre → same t (apply s (exec pre u)) pre)
    (h : ∀ t ∈ ts, same t s pre) : Undisturbed exec apply pre s ts := by
  induction ts generalizing s with
  | nil => trivial
  | cons t ts ih =>
    obtain ⟨ht, hts⟩ := List.pairwise_cons.1 hframe
    refine ⟨hexec t s pre (h t List.mem_cons_self), ih hts ?_⟩
    intro u hu
    exact ht u hu s (h u (List.mem_cons_of_mem _ hu))

end Batch

end WeakChain
