import Mathlib.Data.List.Basic
import Mathlib.Tactic.SplitIfs

/-!
# Texts of keys and values

`key=value&key=value` and the like: a text with two separators, one of which stands between a key
and its value and the other one between two entries (`Text`).  To split such a text at both
separators at once gives the keys and the values in turn, but it forgets which separator was where.

* `Text.splitOnP_eq` : **what the pieces of a text are.**
* `text_iff` : a list of characters is such a text if and only if its separators alternate
  (`Alternating`), and then its entries are the pieces two by two.
-/

namespace WeakChain

namespace KeyValues

section Pairs

variable {β : Type*}

/-- Keys and values in turn. -/
def flat (kvs : List (β × β)) : List β := kvs.flatMap fun kv => [kv.1, kv.2]

/-- The elements of a list two by two. -/
def pairs : List β → List (β × β)
  | k :: v :: ps => (k, v) :: pairs ps
  | _ => []

@[simp] theorem flat_nil : flat ([] : List (β × β)) = [] := rfl

@[simp] theorem flat_cons (kv : β × β) (kvs : List (β × β)) :
    flat (kv :: kvs) = kv.1 :: kv.2 :: flat kvs := rfl

@[simp] theorem pairs_flat (kvs : List (β × β)) : pairs (flat kvs) = kvs := by
  induction kvs with
  | nil => rfl
  | cons kv kvs ih => rw [flat_cons, pairs, ih]

theorem flat_pairs {ps : List β} (h : ps.length % 2 = 0) : flat (pairs ps) = ps := by
  induction ps using pairs.induct with
  | case1 k v ps ih =>
    rw [List.length_cons, List.length_cons] at h
    rw [pairs, flat_cons, ih (by omega)]
  | case2 ps hps =>
    rcases ps with _ | ⟨k, _ | ⟨v, ps⟩⟩
    · rfl
    · cases h
    · exact absurd rfl (hps k v ps)

end Pairs

variable {α : Type*}

/-- There is one more piece than there are separators. -/
theorem length_splitOnP (p : α → Bool) (s : List α) :
    (s.splitOnP p).length = (s.filter p).length + 1 := by
  induction s with
  | nil => rfl
  | cons c s ih =>
    rw [List.splitOnP_cons_eq_if_modifyHead, List.filter_cons]
    split_ifs
    · rw [List.length_cons, List.length_cons, ih]
    · rw [List.length_modifyHead, ih]

variable [DecidableEq α] (eq amp : α)

/-- One of the separators. -/
def isSep (c : α) : Bool := c = eq || c = amp

@[simp] theorem isSep_eq : isSep eq amp eq = true := by simp [isSep]

@[simp] theorem isSep_amp : isSep eq amp amp = true := by simp [isSep]

/-- There is no separator in a text. -/
def NoSep (s : List α) : Prop := ∀ c ∈ s, isSep eq amp c = false

/-- The text of some entries, of which there is at least one. -/
inductive Text : List α → List (List α × List α) → Prop
  | one {k v : List α} (hk : NoSep eq amp k) (hv : NoSep eq amp v) : Text (k ++ eq :: v) [(k, v)]
  | cons {k v s : List α} {kvs : List (List α × List α)} (hk : NoSep eq amp k)
      (hv : NoSep eq amp v) (hs : Text s kvs) : Text (k ++ eq :: (v ++ amp :: s)) ((k, v) :: kvs)

/-- The separators of the text of some entries. -/
def Alternating : List α → Prop
  | [] => False
  | [c] => c = eq
  | c :: d :: cs => c = eq ∧ d = amp ∧ Alternating cs

instance decidableAlternating : DecidablePred (Alternating eq amp)
  | [] => inferInstanceAs (Decidable False)
  | [c] => inferInstanceAs (Decidable (c = eq))
  | c :: d :: cs =>
    have := decidableAlternating cs
    inferInstanceAs (Decidable (c = eq ∧ d = amp ∧ Alternating eq amp cs))

variable {eq amp} {s : List α} {kvs : List (List α × List α)}

theorem NoSep.filter_eq_nil (h : NoSep eq amp s) : s.filter (isSep eq amp) = [] :=
  List.filter_eq_nil_iff.2 fun c hc => by simp [h c hc]

theorem noSep_of_filter (h : ∀ c ∈ s, ¬isSep eq amp c = true) : NoSep eq amp s :=
  fun c hc => Bool.eq_false_iff.2 (h c hc)

/-- **The pieces of a text** are its keys and its values in turn. -/
theorem Text.splitOnP_eq (h : Text eq amp s kvs) : s.splitOnP (isSep eq amp) = flat kvs := by
  induction h with
  | one hk hv =>
    rw [List.splitOnP_append_cons_of_forall_mem hk _ (isSep_eq _ _),
      List.splitOnP_eq_singleton hv]
    rfl
  | cons hk hv _ ih =>
    rw [List.splitOnP_append_cons_of_forall_mem hk _ (isSep_eq _ _),
      List.splitOnP_append_cons_of_forall_mem hv _ (isSep_amp _ _), ih]
    rfl

theorem Text.alternating (h : Text eq amp s kvs) :
    Alternating eq amp (s.filter (isSep eq amp)) := by
  induction h with
  | one hk hv => simp [hk.filter_eq_nil, hv.filter_eq_nil, Alternating]
  | cons hk hv _ ih => simpa [hk.filter_eq_nil, hv.filter_eq_nil, Alternating] using ih

/-- A list of characters whose separators alternate is taken apart at the first two of them. -/
theorem exists_text {cs : List α} (halt : Alternating eq amp cs)
    (hs : s.filter (isSep eq amp) = cs) : ∃ kvs, Text eq amp s kvs := by
  induction cs using Alternating.induct generalizing s with
  | case1 => exact halt.elim
  | case2 c =>
    obtain rfl : c = eq := halt
    obtain ⟨k, v, rfl, hk, -, hv⟩ := List.filter_eq_cons_iff.1 hs
    exact ⟨_, .one (noSep_of_filter hk) (noSep_of_filter (List.filter_eq_nil_iff.1 hv))⟩
  | case3 c d cs ih =>
    obtain ⟨rfl, rfl, halt⟩ := halt
    obtain ⟨k, s, rfl, hk, -, hs⟩ := List.filter_eq_cons_iff.1 hs
    obtain ⟨v, s, rfl, hv, -, hs⟩ := List.filter_eq_cons_iff.1 hs
    obtain ⟨kvs, htext⟩ := ih halt hs
    exact ⟨_, .cons (noSep_of_filter hk) (noSep_of_filter hv) htext⟩

/-- **Which texts there are, and of which entries.** -/
theorem text_iff : Text eq amp s kvs ↔
    Alternating eq amp (s.filter (isSep eq amp)) ∧ kvs = pairs (s.splitOnP (isSep eq amp)) := by
  constructor
  · intro h
    exact ⟨h.alternating, by rw [h.splitOnP_eq, pairs_flat]⟩
  · rintro ⟨halt, rfl⟩
    obtain ⟨kvs, h⟩ := exists_text halt rfl
    rwa [h.splitOnP_eq, pairs_flat]

/-- A text has an even number of pieces. -/
theorem Text.length_splitOnP (h : Text eq amp s kvs) :
    (s.splitOnP (isSep eq amp)).length % 2 = 0 := by
  rw [h.splitOnP_eq, flat, List.length_flatMap]
  simp

end KeyValues

end WeakChain
