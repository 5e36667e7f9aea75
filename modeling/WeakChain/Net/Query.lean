import WeakChain.Core.Bytes
import WeakChain.Lib.HashMap
import WeakChain.Lib.KeyValues
import Mathlib.Data.List.TakeWhile

/-!
# The parameters of a request

The target of a `GET` request may carry parameters, as in `/get_receipt?hash=12`.
`parse_query_param` cuts them off the target, splits them at `=` and `&` at once, and takes the
pieces two by two, so it cannot know which separator was where.

`conforms_iff` says for which targets it accepts exactly the texts of keys and values.
-/

namespace WeakChain

namespace WeakHttp

open KeyValues

/-- `is_any_of("=&")`. -/
abbrev isAnyOf : UInt8 → Bool := isSep 61 38

/-- The loop of `parse_query_param` over the pieces; nothing if a key comes again. -/
def insertAll : HashMap Bytes Bytes → List Bytes → Option (HashMap Bytes Bytes)
  | m, k :: v :: ps => if m.contains k then none else insertAll (m.set k v) ps
  | m, _ => some m

/-- `parse_query_param`: the target afterwards, and the parameters. -/
def parseQueryParam (s : Bytes) : Bytes × Option (HashMap Bytes Bytes) :=
  match s.findIdx? (· = 63) with
  | none => (s, none)
  | some i =>
    if i = s.length - 1 then (s.take i, none)
    else
      let v := (s.drop (i + 1)).splitOnP isAnyOf
      if v.length % 2 ≠ 0 then (s.take i, none) else (s.take i, insertAll .empty v)

/-- What comes after the first question mark, if there is one. -/
def queryOf (s : Bytes) : Bytes := (s.dropWhile (· ≠ 63)).tail

/-- The target has these parameters. -/
def HasQuery (s : Bytes) (kvs : List (Bytes × Bytes)) : Prop :=
  ∃ target q, 63 ∉ target ∧ s = target ++ 63 :: q ∧ Text 61 38 q kvs

/-- A map is returned if and only if the target has parameters with different keys, and then it has
these entries; and the target is cut off at the first question mark. -/
structure Conforms (s : Bytes) : Prop where
  map : ∀ m, (parseQueryParam s).2 = some m ↔ HasQuery s m.entries
  target : ∀ target q, 63 ∉ target → s = target ++ 63 :: q → (parseQueryParam s).1 = target

/-! ### The pieces -/

@[simp] theorem insertAll_nil (m : HashMap Bytes Bytes) : insertAll m [] = some m := rfl

/-- The pieces make a map of exactly these entries, if their keys are new and different. -/
theorem insertAll_flat {m m' : HashMap Bytes Bytes} {kvs : List (Bytes × Bytes)} :
    insertAll m (flat kvs) = some m' ↔ m'.entries = m.entries ++ kvs := by
  induction kvs generalizing m with
  | nil =>
    rw [List.append_nil, flat_nil, insertAll_nil, Option.some.injEq, eq_comm]
    exact ⟨congrArg _, HashMap.ext⟩
  | cons kv kvs ih =>
    rw [flat_cons, insertAll]
    by_cases hk : kv.1 ∈ m.keys
    · rw [if_pos (HashMap.contains_eq_true_iff.2 hk)]
      refine iff_of_false nofun fun h => ?_
      -- the key would occur twice
      have hnodup := m'.nodup
      rw [h, List.map_append, List.map_cons] at hnodup
      exact (List.nodup_append.1 hnodup).2.2 _ hk _ List.mem_cons_self rfl
    · rw [if_neg fun h => hk (HashMap.contains_eq_true_iff.1 h), ih,
        HashMap.entries_set_of_notMem _ hk, List.append_assoc]
      rfl

/-- What is made of the parameters. -/
def parseQuery (q : Bytes) : Option (HashMap Bytes Bytes) :=
  let v := q.splitOnP isAnyOf
  if v.length % 2 ≠ 0 then none else insertAll .empty v

theorem parseQuery_eq_some_iff {q : Bytes} {m : HashMap Bytes Bytes} :
    parseQuery q = some m ↔ (q.splitOnP isAnyOf).length % 2 = 0 ∧
      m.entries = pairs (q.splitOnP isAnyOf) := by
  rw [parseQuery]
  split_ifs with hodd
  · exact iff_of_false nofun fun h => hodd h.1
  · have heven : (q.splitOnP isAnyOf).length % 2 = 0 := not_not.1 hodd
    nth_rewrite 1 [← flat_pairs heven]
    rw [insertAll_flat, and_iff_right heven]
    rfl

/-! ### The target -/

theorem parseQueryParam_of_notMem {s : Bytes} (h : 63 ∉ s) : parseQueryParam s = (s, none) := by
  have hidx : s.findIdx? (· = 63) = none :=
    List.findIdx?_eq_none_iff.2 fun c hc => decide_eq_false fun heq => h (heq ▸ hc)
  rw [parseQueryParam, hidx]

theorem parseQueryParam_append {target : Bytes} (h : 63 ∉ target) (q : Bytes) :
    parseQueryParam (target ++ 63 :: q) = (target, parseQuery q) := by
  have hnone : target.findIdx? (· = 63) = none :=
    List.findIdx?_eq_none_iff.2 fun c hc => decide_eq_false fun heq => h (heq ▸ hc)
  have hidx : (target ++ 63 :: q).findIdx? (· = 63) = some target.length := by
    rw [List.findIdx?_append, hnone]
    simp [List.findIdx?_cons]
  have htake : (target ++ 63 :: q).take target.length = target := List.take_left
  have hdrop : (target ++ 63 :: q).drop (target.length + 1) = q := by
    rw [← List.drop_drop, List.drop_left]
    rfl
  rw [parseQueryParam, hidx]
  dsimp only
  rw [htake, hdrop, parseQuery]
  split_ifs with hlast hodd
  · rfl
  -- without parameters there is one piece, and it is empty
  · have hq : q = [] := by simpa using hlast
    rw [hq] at hodd
    exact absurd (by decide) hodd
  · rfl
  · rfl

theorem queryOf_append {target : Bytes} (h : 63 ∉ target) (q : Bytes) :
    queryOf (target ++ 63 :: q) = q := by
  have hall : ∀ c ∈ target, (decide (c ≠ 63)) = true := fun c hc =>
    decide_eq_true fun heq => h (heq ▸ hc)
  rw [queryOf, List.dropWhile_append_of_pos hall]
  rfl

theorem hasQuery_append_iff {target q : Bytes} (h : 63 ∉ target) {kvs : List (Bytes × Bytes)} :
    HasQuery (target ++ 63 :: q) kvs ↔ Text 61 38 q kvs := by
  constructor
  · rintro ⟨target', q', h', heq, htext⟩
    have hq := congrArg queryOf heq
    rw [queryOf_append h, queryOf_append h'] at hq
    rwa [hq]
  · intro htext
    exact ⟨target, q, h, rfl, htext⟩

/-- A target without a question mark has no parameters, and none are read. -/
theorem conforms_of_notMem {s : Bytes} (hs : 63 ∉ s) : Conforms s := by
  refine ⟨fun m => ?_, fun target q _ heq => ?_⟩
  · rw [parseQueryParam_of_notMem hs]
    refine iff_of_false nofun ?_
    rintro ⟨target, q, -, rfl, -⟩
    exact hs (by simp)
  · exact absurd (by simp [heq]) hs

theorem conforms_append_iff {target q : Bytes} (htarget : 63 ∉ target) :
    Conforms (target ++ 63 :: q) ↔
      (q.filter isAnyOf).length % 2 = 0 ∨
        ¬((pairs (q.splitOnP isAnyOf)).map Prod.fst).Nodup ∨
        Alternating 61 38 (q.filter isAnyOf) := by
  have hlen := length_splitOnP isAnyOf q
  constructor
  · intro h
    by_contra hnot
    push Not at hnot
    obtain ⟨hodd, hnodup, halt⟩ := hnot
    -- the pieces make a map, but they are those of no text
    have hparse := (h.map ⟨_, hnodup⟩).1 (by
      rw [parseQueryParam_append htarget]
      exact parseQuery_eq_some_iff.2 ⟨by omega, rfl⟩)
    exact halt ((hasQuery_append_iff htarget).1 hparse).alternating
  · intro h
    refine ⟨fun m => ?_, fun target' q' h' heq => ?_⟩
    · rw [parseQueryParam_append htarget, hasQuery_append_iff htarget, parseQuery_eq_some_iff,
        text_iff]
      refine and_congr_left fun hm => ?_
      constructor
      · intro heven
        rcases h with h | h | h
        · omega
        · exact absurd (hm ▸ m.nodup) h
        · exact h
      · intro halt
        exact (text_iff.2 ⟨halt, hm⟩).length_splitOnP
    · rw [heq, parseQueryParam_append h']

/-- **Which targets are read as they should be.**  For every target: a map is returned exactly for a
text of keys and values with different keys, and it has these entries, and the target is cut off at
the question mark, if and only if the separators of the parameters are even in number (as they are
if there are none), or a key comes twice, or the separators are `=` and `&` in turn. -/
theorem conforms_iff (s : Bytes) : Conforms s ↔
    ((queryOf s).filter isAnyOf).length % 2 = 0 ∨
      ¬((pairs ((queryOf s).splitOnP isAnyOf)).map Prod.fst).Nodup ∨
      Alternating 61 38 ((queryOf s).filter isAnyOf) := by
  by_cases hs : 63 ∈ s
  · obtain ⟨target, q, rfl, htarget⟩ := List.eq_append_cons_of_mem hs
    rw [queryOf_append htarget]
    exact conforms_append_iff htarget
  · have hquery : queryOf s = [] := by
      have hall : ∀ c ∈ s, (decide (c ≠ 63)) = true := fun c hc =>
        decide_eq_true fun heq => hs (heq ▸ hc)
      rw [queryOf, List.dropWhile_eq_nil_iff.2 hall]
      rfl
    exact iff_of_true (conforms_of_notMem hs) (.inl (by rw [hquery]; rfl))

/-- `/a?a&b` has a parameter without a value, and is read as `a=b`. -/
theorem not_conforms :
    let s := ascii "/a?a&b"
    (∃ m, (parseQueryParam s).2 = some m ∧ m.entries = [(ascii "a", ascii "b")]) ∧
      (∀ kvs, ¬HasQuery s kvs) ∧ ¬Conforms s := by
  intro s
  have hquery : ∀ kvs, ¬HasQuery s kvs := by
    intro kvs h
    have htext : Text 61 38 (ascii "a&b") kvs :=
      (hasQuery_append_iff (by decide : 63 ∉ ascii "/a")).1 h
    exact absurd htext.alternating (by decide)
  have hparse : (parseQueryParam s).2 = some ⟨[(ascii "a", ascii "b")], by decide⟩ := by
    decide +kernel
  exact ⟨⟨_, hparse, rfl⟩, hquery, fun h => hquery _ ((h.map _).1 hparse)⟩

end WeakHttp

end WeakChain
