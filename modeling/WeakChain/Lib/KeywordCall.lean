import Mathlib.Data.List.Induction
import Mathlib.Data.List.Nodup

/-!
# Calls by keyword

The parameters of a function (`Signature`) as Python has them, and what a call binds that gives a
name to every argument, such as `f(**kwargs)`.  The arguments are taken one by one; at the end every
parameter without a default has to have a value.

* `Signature.bind_eq_ok_iff` : which calls bind all parameters, and what is bound then.
* `Signature.bind_eq_ok_self_iff` : the same for a call all of whose arguments are parameters.
-/

namespace WeakChain

/-- The parameters of a function. -/
structure Signature (ν : Type*) where
  /-- Those that are given by position only. -/
  posonlyargs : List ν
  /-- Those that are given by position or by name. -/
  args : List ν
  /-- How many of these two have a default; they are the last ones. -/
  defaults : ℕ
  /-- The one that takes the other positions. -/
  vararg : Option ν
  /-- Those that are given by name only, and whether they have a default. -/
  kwonlyargs : List (ν × Bool)
  /-- The one that takes the other names. -/
  kwarg : Option ν

/-- Why a call is refused. -/
inductive CallError (ν : Type*)
  /-- No parameter has this name. -/
  | unexpected (k : ν)
  /-- A parameter is given twice. -/
  | multiple (k : ν)
  /-- Some parameters are not given. -/
  | missing (ks : List ν)

/-- What a call has bound. -/
structure Bound (ν α : Type*) where
  /-- The parameters. -/
  locals : List (ν × α)
  /-- What is in the one for the other names. -/
  extra : List (ν × α)

namespace Signature

variable {ν α : Type*} (s : Signature ν)

/-- The names of all parameters. -/
def params : List ν :=
  s.posonlyargs ++ s.args ++ s.vararg.toList ++ s.kwonlyargs.map Prod.fst ++ s.kwarg.toList

/-- The parameters that can be given by name. -/
def named : List ν := s.args ++ s.kwonlyargs.map Prod.fst

/-- The parameters without a default that cannot be given by name. -/
def requiredPosonlyargs : List ν :=
  s.posonlyargs.take (s.posonlyargs.length + s.args.length - s.defaults)

/-- The parameters without a default that can be given by name. -/
def requiredNamed : List ν :=
  s.args.take (s.args.length - s.defaults) ++
    (s.kwonlyargs.filter fun k => !k.2).map Prod.fst

variable {s} in
theorem nodup_named (h : s.params.Nodup) : s.named.Nodup := by
  have hargs : s.args.Sublist (s.posonlyargs ++ s.args ++ s.vararg.toList) :=
    (List.sublist_append_right _ _).trans (List.sublist_append_left _ _)
  exact h.sublist ((hargs.append (List.Sublist.refl _)).trans (List.sublist_append_left _ _))

theorem requiredNamed_subset : s.requiredNamed ⊆ s.named := by
  refine List.append_subset.2 ⟨fun k hk => ?_, fun k hk => ?_⟩
  · exact List.mem_append_left _ (List.mem_of_mem_take hk)
  · obtain ⟨p, hp, rfl⟩ := List.mem_map.1 hk
    exact List.mem_append_right _ (List.mem_map_of_mem (List.mem_of_mem_filter hp))

variable {s} in
/-- The parameters of `args` are all that has to be given by name if the others that can be given so
have a default. -/
theorem requiredNamed_subset_args_iff (h : s.params.Nodup) :
    s.requiredNamed ⊆ s.args ↔ ∀ k ∈ s.kwonlyargs, k.2 = true := by
  have hdisjoint : s.args.Disjoint (s.kwonlyargs.map Prod.fst) :=
    List.disjoint_of_nodup_append (nodup_named h)
  constructor
  · intro hsubset k hk
    by_contra hdefault
    have hrequired : k.1 ∈ s.requiredNamed :=
      List.mem_append_right _
        (List.mem_map_of_mem (List.mem_filter.2 ⟨hk, by simpa using hdefault⟩))
    exact hdisjoint (hsubset hrequired) (List.mem_map_of_mem hk)
  · intro hdefault
    refine List.append_subset.2 ⟨fun k hk => List.mem_of_mem_take hk, fun k hk => ?_⟩
    obtain ⟨p, hp, rfl⟩ := List.mem_map.1 hk
    obtain ⟨hp, hfalse⟩ := List.mem_filter.1 hp
    simp [hdefault p hp] at hfalse

variable [DecidableEq ν]

/-- Take one argument. -/
def bindKeyword (b : Bound ν α) (kw : ν × α) : Except (CallError ν) (Bound ν α) :=
  if kw.1 ∈ s.named then
    if kw.1 ∈ b.locals.map Prod.fst then .error (.multiple kw.1)
    else .ok { b with locals := b.locals ++ [kw] }
  else if s.kwarg.isSome then
    if kw.1 ∈ b.extra.map Prod.fst then .error (.multiple kw.1)
    else .ok { b with extra := b.extra ++ [kw] }
  else .error (.unexpected kw.1)

/-- The parameters that have no value yet. -/
def missing (b : Bound ν α) : List ν :=
  s.requiredPosonlyargs ++ s.requiredNamed.filter fun k => k ∉ b.locals.map Prod.fst

/-- A call with these keywords. -/
def bind (kws : List (ν × α)) : Except (CallError ν) (Bound ν α) := do
  let b ← kws.foldlM s.bindKeyword ⟨[], []⟩
  match s.missing b with
  | [] => .ok b
  | ks => .error (.missing ks)

/-- The arguments that are parameters, and the others. -/
def split (kws : List (ν × α)) : Bound ν α :=
  ⟨kws.filter fun kw => kw.1 ∈ s.named, kws.filter fun kw => kw.1 ∉ s.named⟩

/-- Every argument is given once, and something takes it. -/
structure Fits (kws : List (ν × α)) : Prop where
  nodup : (kws.map Prod.fst).Nodup
  taken : ∀ k ∈ kws.map Prod.fst, k ∈ s.named ∨ s.kwarg.isSome = true

omit [DecidableEq ν] in
theorem mem_map_fst_filter {P : ν → Prop} [DecidablePred P] {kws : List (ν × α)} {k : ν} :
    k ∈ (kws.filter fun kw => P kw.1).map Prod.fst ↔ k ∈ kws.map Prod.fst ∧ P k := by
  simp only [List.mem_map, List.mem_filter, decide_eq_true_eq]
  constructor
  · rintro ⟨kw, ⟨hkw, hk⟩, rfl⟩
    exact ⟨⟨kw, hkw, rfl⟩, hk⟩
  · rintro ⟨⟨kw, hkw, rfl⟩, hk⟩
    exact ⟨kw, ⟨hkw, hk⟩, rfl⟩

variable {s} {kws : List (ν × α)} {b : Bound ν α}

theorem mem_locals_split {k : ν} :
    k ∈ (s.split kws).locals.map Prod.fst ↔ k ∈ kws.map Prod.fst ∧ k ∈ s.named :=
  mem_map_fst_filter

theorem mem_extra_split {k : ν} :
    k ∈ (s.split kws).extra.map Prod.fst ↔ k ∈ kws.map Prod.fst ∧ k ∉ s.named :=
  mem_map_fst_filter (P := (· ∉ s.named))

theorem split_concat_of_mem {kw : ν × α} (h : kw.1 ∈ s.named) :
    s.split (kws ++ [kw]) = ⟨(s.split kws).locals ++ [kw], (s.split kws).extra⟩ := by
  simp [split, h]

theorem split_concat_of_notMem {kw : ν × α} (h : kw.1 ∉ s.named) :
    s.split (kws ++ [kw]) = ⟨(s.split kws).locals, (s.split kws).extra ++ [kw]⟩ := by
  simp [split, h]

/-- One more argument. -/
theorem bindKeyword_split_eq_ok_iff {kw : ν × α} :
    s.bindKeyword (s.split kws) kw = .ok b ↔
      kw.1 ∉ kws.map Prod.fst ∧ (kw.1 ∈ s.named ∨ s.kwarg.isSome = true) ∧
        b = s.split (kws ++ [kw]) := by
  simp only [bindKeyword, mem_locals_split, mem_extra_split]
  split_ifs with hnamed hmem hkwarg hmem
  · exact iff_of_false nofun fun h => h.1 hmem.1
  · rw [split_concat_of_mem hnamed, Except.ok.injEq, eq_comm]
    exact ⟨fun h => ⟨fun hk => hmem ⟨hk, hnamed⟩, .inl hnamed, h⟩, fun h => h.2.2⟩
  · exact iff_of_false nofun fun h => h.1 hmem.1
  · rw [split_concat_of_notMem hnamed, Except.ok.injEq, eq_comm]
    exact ⟨fun h => ⟨fun hk => hmem ⟨hk, hnamed⟩, .inr hkwarg, h⟩, fun h => h.2.2⟩
  · exact iff_of_false nofun fun h => h.2.1.elim hnamed hkwarg

omit [DecidableEq ν] in
theorem fits_concat_iff {kw : ν × α} :
    s.Fits (kws ++ [kw]) ↔ s.Fits kws ∧ kw.1 ∉ kws.map Prod.fst ∧
      (kw.1 ∈ s.named ∨ s.kwarg.isSome = true) := by
  have hmap : (kws ++ [kw]).map Prod.fst = kws.map Prod.fst ++ [kw.1] := by simp
  constructor
  · rintro ⟨hnodup, htaken⟩
    rw [hmap] at hnodup htaken
    have hne := List.disjoint_of_nodup_append hnodup
    exact ⟨⟨hnodup.of_append_left, fun k hk => htaken k (List.mem_append_left _ hk)⟩,
      fun hmem => hne hmem (List.mem_singleton_self _),
      htaken kw.1 (List.mem_append_right _ (List.mem_singleton_self _))⟩
  · rintro ⟨⟨hnodup, htaken⟩, hnew, htake⟩
    constructor
    · rw [hmap]
      exact List.Nodup.append hnodup (List.nodup_singleton _) (by simpa using hnew)
    · intro k hk
      rw [hmap] at hk
      rcases List.mem_append.1 hk with hk | hk
      · exact htaken k hk
      · rwa [List.mem_singleton.1 hk]

/-- What the arguments leave, if all of them are taken. -/
theorem foldlM_bindKeyword_eq_ok_iff :
    kws.foldlM s.bindKeyword ⟨[], []⟩ = .ok b ↔ s.Fits kws ∧ b = s.split kws := by
  induction kws using List.reverseRecOn generalizing b with
  | nil =>
    have hfits : s.Fits ([] : List (ν × α)) := ⟨List.nodup_nil, nofun⟩
    constructor
    · intro h
      cases h
      exact ⟨hfits, rfl⟩
    · rintro ⟨-, rfl⟩
      rfl
  | append_singleton kws kw ih =>
    have hconcat : (kws ++ [kw]).foldlM s.bindKeyword ⟨[], []⟩ =
        kws.foldlM s.bindKeyword ⟨[], []⟩ >>= fun b => s.bindKeyword b kw := by
      rw [List.foldlM_append]
      simp
    rw [hconcat, fits_concat_iff]
    cases hprefix : kws.foldlM s.bindKeyword ⟨[], []⟩ with
    | error e =>
      have hnot : ¬s.Fits kws := fun hfits => by
        rw [ih.2 ⟨hfits, rfl⟩] at hprefix
        cases hprefix
      exact iff_of_false nofun fun h => hnot h.1.1
    | ok b' =>
      obtain ⟨hfits, rfl⟩ := ih.1 hprefix
      exact bindKeyword_split_eq_ok_iff.trans
        ⟨fun ⟨hnew, htake, h⟩ => ⟨⟨hfits, hnew, htake⟩, h⟩,
          fun ⟨⟨_, hnew, htake⟩, h⟩ => ⟨hnew, htake, h⟩⟩

theorem missing_split_eq_nil_iff :
    s.missing (s.split kws) = [] ↔
      s.requiredPosonlyargs = [] ∧ s.requiredNamed ⊆ kws.map Prod.fst := by
  rw [missing, List.append_eq_nil_iff, List.filter_eq_nil_iff]
  refine and_congr_right fun _ => forall_congr' fun k => forall_congr' fun hk => ?_
  simp only [mem_locals_split, decide_eq_true_eq, not_not, and_iff_left_iff_imp]
  exact fun _ => s.requiredNamed_subset hk

/-- **Calls by keyword.**  A call binds all parameters if and only if every argument is given once
and something takes it, every parameter that cannot be given by name has a default, and the others
have one or are given. -/
theorem bind_eq_ok_iff :
    s.bind kws = .ok b ↔ s.Fits kws ∧ s.requiredPosonlyargs = [] ∧
      s.requiredNamed ⊆ kws.map Prod.fst ∧ b = s.split kws := by
  rw [bind]
  cases hfold : kws.foldlM s.bindKeyword ⟨[], []⟩ with
  | error e =>
    have hnot : ¬s.Fits kws := fun hfits => by
      rw [foldlM_bindKeyword_eq_ok_iff.2 ⟨hfits, rfl⟩] at hfold
      cases hfold
    exact iff_of_false nofun fun h => hnot h.1
  | ok b' =>
    obtain ⟨hfits, rfl⟩ := foldlM_bindKeyword_eq_ok_iff.1 hfold
    change (match s.missing (s.split kws) with
      | [] => Except.ok (s.split kws)
      | ks => Except.error (CallError.missing ks)) = .ok b ↔ _
    cases hmissing : s.missing (s.split kws) with
    | nil =>
      obtain ⟨hposonly, hnamed⟩ := missing_split_eq_nil_iff.1 hmissing
      rw [Except.ok.injEq, eq_comm]
      exact ⟨fun h => ⟨hfits, hposonly, hnamed, h⟩, fun h => h.2.2.2⟩
    | cons k ks =>
      refine iff_of_false nofun fun h => ?_
      rw [missing_split_eq_nil_iff.2 ⟨h.2.1, h.2.2.1⟩] at hmissing
      cases hmissing

/-- A call all of whose arguments are parameters. -/
theorem bind_eq_ok_self_iff :
    s.bind kws = .ok ⟨kws, []⟩ ↔ (kws.map Prod.fst).Nodup ∧ kws.map Prod.fst ⊆ s.named ∧
      s.requiredPosonlyargs = [] ∧ s.requiredNamed ⊆ kws.map Prod.fst := by
  rw [bind_eq_ok_iff]
  constructor
  · rintro ⟨hfits, hposonly, hnamed, hsplit⟩
    refine ⟨hfits.nodup, fun k hk => ?_, hposonly, hnamed⟩
    -- nothing is left for other names
    by_contra hnot
    have hextra := mem_extra_split.2 ⟨hk, hnot⟩
    rw [← hsplit] at hextra
    cases hextra
  · rintro ⟨hnodup, hsubset, hposonly, hnamed⟩
    refine ⟨⟨hnodup, fun k hk => .inl (hsubset hk)⟩, hposonly, hnamed, ?_⟩
    have hall : ∀ kw ∈ kws, kw.1 ∈ s.named := fun kw hkw => hsubset (List.mem_map_of_mem hkw)
    rw [split, List.filter_eq_self.2 fun kw hkw => decide_eq_true (hall kw hkw),
      List.filter_eq_nil_iff.2 fun kw hkw => by simpa using hall kw hkw]

end Signature

end WeakChain
