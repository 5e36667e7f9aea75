import Mathlib.Tactic.SplitIfs

/-!
# Executable transition systems and their runs

The protocols and machines of this development are *event systems*: a state, a set of events
that may happen in it, and a function that computes the next state.  Runs are unbounded and
nothing is assumed about the order of events, so a network that delays, reorders or loses
messages is a system whose deliveries are events like any other.

## Main definitions

* `Sys S L` : initial states, enabled events, and the effect of an event.
* `Sys.Reach` : the states some run reaches.
* `Sys.only C` : the same system, restricted to the events that satisfy `C` where they happen.
* `Sys.exec` : the (computable) state after a list of events, if all of them are enabled.

`Sys.Reach.invariant` is the induction principle every safety theorem uses, and
`Sys.reach_of_exec` turns an evaluated event list into a reachable state.
-/

namespace WeakChain

/-- A system with states `S` and events `L`. -/
structure Sys (S : Type*) (L : Type*) where
  /-- The states a run may start in. -/
  init : S → Prop
  /-- `enabled s l` : the event `l` may happen in `s`. -/
  enabled : S → L → Prop
  /-- The state after the event. -/
  act : S → L → S

namespace Sys

variable {S L : Type*} (A : Sys S L)

/-- The states reached by runs from the initial states. -/
inductive Reach : S → Prop
  | init {s : S} (h : A.init s) : Reach s
  | act {s : S} {l : L} (h : Reach s) (hl : A.enabled s l) : Reach (A.act s l)

/-- The runs all of whose events satisfy `C` in the state where they happen. -/
def only (C : S → L → Prop) : Sys S L where
  init := A.init
  enabled s l := A.enabled s l ∧ C s l
  act := A.act

variable {A}

namespace Reach

/-- **Invariants hold along every run**: what holds initially, and is kept by every enabled
event of a reachable state, holds of every reachable state. -/
theorem invariant {I : S → Prop} (h₀ : ∀ s, A.init s → I s)
    (hact : ∀ s l, A.Reach s → I s → A.enabled s l → I (A.act s l)) {s : S}
    (h : A.Reach s) : I s := by
  induction h with
  | init h => exact h₀ _ h
  | act h hl ih => exact hact _ _ h ih hl

/-- A restricted run is a run. -/
theorem of_only {C : S → L → Prop} {s : S} (h : (A.only C).Reach s) : A.Reach s := by
  induction h with
  | init h => exact .init h
  | act _ hl ih => exact .act ih hl.1

/-- One more event of a restricted run. -/
theorem act_only {C : S → L → Prop} {s : S} {l : L} (h : (A.only C).Reach s) (hl : A.enabled s l)
    (hC : C s l) : (A.only C).Reach (A.act s l) :=
  Reach.act (A := A.only C) h ⟨hl, hC⟩

/-- A run restricted by `C` is restricted by everything `C` implies. -/
theorem only_mono {C D : S → L → Prop} (hCD : ∀ s l, C s l → D s l) {s : S}
    (h : (A.only C).Reach s) : (A.only D).Reach s := by
  induction h with
  | init h => exact .init h
  | act _ hl ih => exact .act ih ⟨hl.1, hCD _ _ hl.2⟩

end Reach

instance {C : S → L → Prop} [∀ s l, Decidable (A.enabled s l)] [∀ s l, Decidable (C s l)] (s : S)
    (l : L) : Decidable ((A.only C).enabled s l) :=
  inferInstanceAs (Decidable (A.enabled s l ∧ C s l))

section Exec

variable (A) [∀ s l, Decidable (A.enabled s l)]

/-- The state after the events `ls`, or `none` if one of them is not enabled. -/
def exec : S → List L → Option S
  | s, [] => some s
  | s, l :: ls => if A.enabled s l then exec (A.act s l) ls else none

variable {A}

theorem reach_of_exec {s s' : S} {ls : List L} (h : A.Reach s) (he : A.exec s ls = some s') :
    A.Reach s' := by
  induction ls generalizing s with
  | nil =>
    simp only [exec, Option.some.injEq] at he
    exact he ▸ h
  | cons l ls ih =>
    simp only [exec] at he
    split_ifs at he with hl
    exact ih (.act h hl) he

/-- A run that can be evaluated reaches a state with what the evaluation shows. -/
theorem exists_reach_of_exec {s : S} {P : S → Prop} [DecidablePred P] (h : A.init s)
    (ls : List L) (he : (A.exec s ls).any (fun s' => decide (P s')) = true) :
    ∃ s', A.Reach s' ∧ P s' := by
  obtain ⟨s', hs', hP⟩ := (Option.any_eq_true _ _).1 he
  exact ⟨s', reach_of_exec (.init h) hs', of_decide_eq_true hP⟩

end Exec

end Sys

end WeakChain
