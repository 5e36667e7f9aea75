import Mathlib.Order.Basic

/-!
# Programs that ask questions

A `Dialogue` is a program that computes a value, asks its surroundings questions on the way, and may
leave early.  What it asks and how it leaves is said by `Meets`: under some `Terms` every question
is one that may be asked, every early exit is one that may be taken, and the value satisfies a
postcondition, as long as the answers are among those that may be relied on.

* `meets_bind` : the rule of sequencing.
* `Meets.iterate` : the rule of loops, for invariants.
* `Meets.iterate_exits` : a loop that makes progress and is given enough turns leaves.
* `Agree.iterate` : loops that do the same as long as an invariant holds.
-/

namespace WeakChain

/-- A program that returns an `α` or leaves with an `ε`, and asks questions `q : Q`, the answer to
which has the type `A q`. -/
inductive Dialogue (Q : Type) (A : Q → Type) (ε α : Type)
  | ret (a : α)
  | exit (e : ε)
  | ask (q : Q) (k : A q → Dialogue Q A ε α)

namespace Dialogue

variable {Q : Type} {A : Q → Type} {ε α β : Type}

/-- One after the other. -/
def bind : Dialogue Q A ε α → (α → Dialogue Q A ε β) → Dialogue Q A ε β
  | .ret a, f => f a
  | .exit e, _ => .exit e
  | .ask q k, f => .ask q fun x => (k x).bind f

instance : Monad (Dialogue Q A ε) where
  pure := .ret
  bind := bind

/-- Leave. -/
def leave (e : ε) : Dialogue Q A ε α := .exit e

/-- Ask a question. -/
def question (q : Q) : Dialogue Q A ε (A q) := .ask q .ret

@[simp] theorem ret_bind (a : α) (f : α → Dialogue Q A ε β) : (.ret a >>= f) = f a := rfl

@[simp] theorem pure_eq (a : α) : (pure a : Dialogue Q A ε α) = .ret a := rfl

@[simp] theorem exit_bind (e : ε) (f : α → Dialogue Q A ε β) : (.exit e >>= f) = .exit e := rfl

@[simp] theorem leave_bind (e : ε) (f : α → Dialogue Q A ε β) : (leave e >>= f) = .exit e := rfl

@[simp] theorem ask_bind (q : Q) (k : A q → Dialogue Q A ε α) (f : α → Dialogue Q A ε β) :
    (.ask q k >>= f) = .ask q fun x => k x >>= f := rfl

@[simp] theorem question_bind (q : Q) (f : A q → Dialogue Q A ε β) :
    (question q >>= f) = .ask q f := rfl

/-- The same program, if it does not leave, up to `n` times. -/
def iterate (f : α → Dialogue Q A ε α) : ℕ → α → Dialogue Q A ε α
  | 0, a => .ret a
  | n + 1, a => f a >>= iterate f n

/-! ### Terms -/

/-- What a program may do, and what it may rely on. -/
structure Terms (Q : Type) (A : Q → Type) (ε : Type) where
  /-- The questions that may be asked. -/
  question : Q → Prop
  /-- The answers that may be relied on. -/
  answer : ∀ q, A q → Prop
  /-- The exits that may be taken. -/
  exit : ε → Prop

variable {t : Terms Q A ε} {post post' : α → Prop}

/-- A program keeps to the terms, and what it returns satisfies the postcondition. -/
def Meets (t : Terms Q A ε) (post : α → Prop) : Dialogue Q A ε α → Prop
  | .ret a => post a
  | .exit e => t.exit e
  | .ask q k => t.question q ∧ ∀ x, t.answer q x → (k x).Meets t post

@[simp] theorem meets_ret {a : α} : (.ret a : Dialogue Q A ε α).Meets t post ↔ post a := Iff.rfl

@[simp] theorem meets_exit {e : ε} :
    (.exit e : Dialogue Q A ε α).Meets t post ↔ t.exit e := Iff.rfl

@[simp] theorem meets_leave {e : ε} :
    (leave e : Dialogue Q A ε α).Meets t post ↔ t.exit e := Iff.rfl

@[simp] theorem meets_ask {q : Q} {k : A q → Dialogue Q A ε α} :
    (.ask q k : Dialogue Q A ε α).Meets t post ↔
      t.question q ∧ ∀ x, t.answer q x → (k x).Meets t post := Iff.rfl

@[simp] theorem meets_question {q : Q} {post : A q → Prop} :
    (question q : Dialogue Q A ε (A q)).Meets t post ↔
      t.question q ∧ ∀ x, t.answer q x → post x := Iff.rfl

/-- **The rule of sequencing.** -/
@[simp] theorem meets_bind {x : Dialogue Q A ε α} {f : α → Dialogue Q A ε β} {post : β → Prop} :
    (x >>= f).Meets t post ↔ x.Meets t fun a => (f a).Meets t post := by
  induction x with
  | ret a => rfl
  | exit e => rfl
  | ask q k ih => exact and_congr_right fun _ => forall₂_congr fun x _ => ih x

/-- **The rule of consequence.** -/
theorem Meets.imp {x : Dialogue Q A ε α} (h : x.Meets t post) (hpost : ∀ a, post a → post' a) :
    x.Meets t post' := by
  induction x with
  | ret a => exact hpost a h
  | exit e => exact h
  | ask q k ih => exact ⟨h.1, fun x hx => ih x (h.2 x hx)⟩

/-- Other exits may be allowed. -/
theorem Meets.imp_exit {x : Dialogue Q A ε α} (h : x.Meets t post) {exit' : ε → Prop}
    (hexit : ∀ e, t.exit e → exit' e) : x.Meets { t with exit := exit' } post := by
  induction x with
  | ret a => exact h
  | exit e => exact hexit e h
  | ask q k ih => exact ⟨h.1, fun x hx => ih x (h.2 x hx)⟩

/-- First something that satisfies a postcondition, then something that needs it. -/
theorem Meets.bind {x : Dialogue Q A ε α} {f : α → Dialogue Q A ε β} {post' : β → Prop}
    (h : x.Meets t post) (hf : ∀ a, post a → (f a).Meets t post') : (x >>= f).Meets t post' :=
  meets_bind.2 (h.imp hf)

/-- One of two things, and then something that needs what both of them give. -/
theorem Meets.ite_bind {c : Prop} [Decidable c] {x y : Dialogue Q A ε α}
    {f : α → Dialogue Q A ε β} {post' : β → Prop} (h : (if c then x else y).Meets t post)
    (hf : ∀ a, post a → (f a).Meets t post') :
    (if c then x >>= f else y >>= f).Meets t post' := by
  split_ifs with hc
  · rw [if_pos hc] at h
    exact h.bind hf
  · rw [if_neg hc] at h
    exact h.bind hf

/-! ### Loops -/

/-- **The rule of loops**: what a turn keeps, all turns keep. -/
theorem Meets.iterate {f : α → Dialogue Q A ε α} {I : α → Prop}
    (h : ∀ a, I a → (f a).Meets t I) (n : ℕ) {a : α} (ha : I a) :
    (Dialogue.iterate f n a).Meets t I := by
  induction n generalizing a with
  | zero => exact ha
  | succ n ih => exact (h a ha).bind fun b hb => ih hb

/-- **The rule of loops that end**: if a turn that does not leave makes a measure smaller, and there
are more turns than the measure says, then the loop leaves. -/
theorem Meets.iterate_exits {f : α → Dialogue Q A ε α} {I : α → Prop} (μ : α → ℕ)
    (h : ∀ a, I a → (f a).Meets t fun b => I b ∧ μ b < μ a) {n : ℕ} {a : α} (ha : I a)
    (hn : μ a < n) : (Dialogue.iterate f n a).Meets t fun _ => False := by
  induction n generalizing a with
  | zero => exact absurd hn (Nat.not_lt_zero _)
  | succ n ih => exact (h a ha).bind fun b hb => ih hb.1 (by have := hb.2; omega)

/-! ### Agreement -/

/-- Two programs do the same, if the answers are among those that may be relied on. -/
inductive Agree (R : ∀ q, A q → Prop) : Dialogue Q A ε α → Dialogue Q A ε α → Prop
  | ret (a : α) : Agree R (.ret a) (.ret a)
  | exit (e : ε) : Agree R (.exit e) (.exit e)
  | ask (q : Q) {k k' : A q → Dialogue Q A ε α} (h : ∀ x, R q x → Agree R (k x) (k' x)) :
      Agree R (.ask q k) (.ask q k')

section Agree

variable {R : ∀ q, A q → Prop}

theorem Agree.refl (x : Dialogue Q A ε α) : Agree R x x := by
  induction x with
  | ret a => exact .ret a
  | exit e => exact .exit e
  | ask q k ih => exact .ask q fun x _ => ih x

/-- Two things that do the same, one after the other. -/
theorem Agree.bind {x y : Dialogue Q A ε α} {f g : α → Dialogue Q A ε β}
    (h : Agree t.answer x y) (hx : x.Meets t post)
    (hfg : ∀ a, post a → Agree t.answer (f a) (g a)) : Agree t.answer (x >>= f) (y >>= g) := by
  induction h with
  | ret a => exact hfg a hx
  | exit e => exact .exit e
  | ask q _ ih => exact .ask q fun x hxq => ih x hxq (hx.2 x hxq)

/-- Something after a program, that does nothing where the program leads. -/
theorem Meets.agree_bind {x : Dialogue Q A ε α} {f : α → Dialogue Q A ε α} (h : x.Meets t post)
    (hf : ∀ a, post a → f a = .ret a) : Agree t.answer (x >>= f) x := by
  induction x with
  | ret a =>
    rw [ret_bind, hf a h]
    exact .ret a
  | exit e => exact .exit e
  | ask q k ih => exact .ask q fun x hx => ih x (h.2 x hx)

/-- **The rule of loops that do the same**, where an invariant holds. -/
theorem Agree.iterate {f g : α → Dialogue Q A ε α} {I : α → Prop}
    (hI : ∀ a, I a → (f a).Meets t I) (h : ∀ a, I a → Agree t.answer (f a) (g a)) (n : ℕ) {a : α}
    (ha : I a) : Agree t.answer (Dialogue.iterate f n a) (Dialogue.iterate g n a) := by
  induction n generalizing a with
  | zero => exact .refl _
  | succ n ih => exact (h a ha).bind (hI a ha) fun b hb => ih hb

end Agree

/-! ### Questions -/

/-- The terms that say what may be asked, and nothing else. -/
def Terms.asking (P : Q → Prop) : Terms Q A ε := ⟨P, fun _ _ => True, fun _ => True⟩

/-- All questions are of a kind, whatever the answers are. -/
def Asks (P : Q → Prop) (x : Dialogue Q A ε α) : Prop := x.Meets (.asking P) fun _ => True

section Asks

variable {P : Q → Prop}

@[simp, grind ←] theorem asks_ret {a : α} : (.ret a : Dialogue Q A ε α).Asks P := trivial

@[simp, grind ←] theorem asks_exit {e : ε} : (.exit e : Dialogue Q A ε α).Asks P := trivial

@[simp] theorem asks_ask {q : Q} {k : A q → Dialogue Q A ε α} :
    (.ask q k : Dialogue Q A ε α).Asks P ↔ P q ∧ ∀ x, (k x).Asks P :=
  and_congr_right fun _ => forall_congr' fun _ => forall_prop_of_true trivial

@[grind ←] theorem Asks.bind {x : Dialogue Q A ε α} {f : α → Dialogue Q A ε β} (h : x.Asks P)
    (hf : ∀ a, (f a).Asks P) : (x >>= f).Asks P := Meets.bind h fun a _ => hf a

/-- One of two things, and then another. -/
theorem Asks.ite_bind {c : Prop} [Decidable c] {x y : Dialogue Q A ε α} {f : α → Dialogue Q A ε β}
    (hx : x.Asks P) (hy : y.Asks P) (hf : ∀ a, (f a).Asks P) :
    (if c then x >>= f else y >>= f).Asks P := by
  split
  · exact hx.bind hf
  · exact hy.bind hf

theorem Asks.iterate {f : α → Dialogue Q A ε α} (h : ∀ a, (f a).Asks P) (n : ℕ) (a : α) :
    (Dialogue.iterate f n a).Asks P := Meets.iterate (fun a _ => h a) n trivial

end Asks

end Dialogue

end WeakChain
