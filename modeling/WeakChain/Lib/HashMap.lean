import Mathlib.Data.List.Induction
import Mathlib.Data.List.Nodup
import Mathlib.Data.List.Perm.Basic

/-!
# Hash maps

A hash map (`std::unordered_map`) is the list of its entries, in the order in which the keys were
inserted.  A loop over the map visits the entries in an order that depends on these keys and on the
hash function; the parameter `HashOrder` stands for it.

* `Entries.find?` : the value of a key in a list of entries.
* `HashMap.find?_set` : what a map with a new entry contains.
* `HashMap.map` : a map with other values, with the laws by which it commutes with the operations,
  so that programs over maps that differ in some values only can be compared.
-/

namespace WeakChain

/-! ### Lists of entries -/

namespace Entries

variable {κ ν : Type*} [DecidableEq κ]

/-- The value of a key, from the first entry that has it. -/
def find? (es : List (κ × ν)) (k : κ) : Option ν := (es.find? fun e => e.1 = k).map Prod.snd

theorem find?_append (es es' : List (κ × ν)) (k : κ) :
    find? (es ++ es') k = (find? es k).or (find? es' k) := by
  simp only [find?, List.find?_append]
  cases es.find? (fun e => e.1 = k) <;> rfl

theorem find?_singleton (k : κ) (v : ν) (x : κ) :
    find? [(k, v)] x = if k = x then some v else none := by
  by_cases h : k = x
  · simp [find?, h]
  · simp [find?, h]

/-- An entry that is there if its value is. -/
theorem find?_toList {α : Type*} (y : Option α) (f : α → ν) (k x : κ) :
    find? (y.map fun y => (k, f y)).toList x = if k = x then y.map f else none := by
  cases y with
  | none => exact (ite_self _).symm
  | some y => exact find?_singleton k (f y) x

/-- An entry that is there under a condition. -/
theorem find?_ite (p : Prop) [Decidable p] (k : κ) (v : ν) (x : κ) :
    find? (if p then [(k, v)] else []) x = if p ∧ k = x then some v else none := by
  by_cases hp : p
  · simp [hp, find?_singleton]
  · simp [hp, find?]

end Entries

/-! ### Maps -/

/-- The order of iteration over the keys of a map, from the order in which they were inserted. -/
class HashOrder (κ : Type*) where
  /-- The keys as a loop visits them. -/
  iterate : List κ → List κ
  /-- It visits each key once. -/
  perm : ∀ ks, (iterate ks).Perm ks

/-- A loop that visits the keys in the order of insertion. -/
@[reducible] def HashOrder.insertion (κ : Type*) : HashOrder κ := ⟨id, fun _ => .refl _⟩

/-- A map from `κ` to `ν`. -/
structure HashMap (κ ν : Type*) where
  /-- The entries, in the order of insertion. -/
  entries : List (κ × ν)
  /-- A key occurs once. -/
  nodup : (entries.map Prod.fst).Nodup

namespace HashMap

variable {κ ν μ : Type*}

@[ext] theorem ext {m n : HashMap κ ν} (h : m.entries = n.entries) : m = n := by
  cases m; cases n; cases h; rfl

instance [DecidableEq κ] [DecidableEq ν] : DecidableEq (HashMap κ ν) := fun m n =>
  decidable_of_iff (m.entries = n.entries) ⟨ext, fun h => h ▸ rfl⟩

/-- The empty map. -/
def empty : HashMap κ ν := ⟨[], List.nodup_nil⟩

/-- The keys, in the order of insertion. -/
def keys (m : HashMap κ ν) : List κ := m.entries.map Prod.fst

variable [DecidableEq κ]

/-- The value of a key. -/
def find? (m : HashMap κ ν) (k : κ) : Option ν :=
  (m.entries.find? fun e => e.1 = k).map Prod.snd

/-- `contains`. -/
def contains (m : HashMap κ ν) (k : κ) : Bool := (m.find? k).isSome

/-- Set the value of a key in a list of entries. -/
def setEntry (k : κ) (v : ν) : List (κ × ν) → List (κ × ν)
  | [] => [(k, v)]
  | e :: es => if e.1 = k then (k, v) :: es else e :: setEntry k v es

theorem map_fst_setEntry (k : κ) (v : ν) (es : List (κ × ν)) :
    (setEntry k v es).map Prod.fst =
      if k ∈ es.map Prod.fst then es.map Prod.fst else es.map Prod.fst ++ [k] := by
  induction es with
  | nil => simp [setEntry]
  | cons e es ih =>
    by_cases h : e.1 = k
    · simp [setEntry, h]
    · simp only [setEntry, if_neg h, List.map_cons, ih, List.mem_cons, Ne.symm h, false_or]
      split_ifs <;> rfl

/-- `m[k] = v`. -/
def set (m : HashMap κ ν) (k : κ) (v : ν) : HashMap κ ν where
  entries := setEntry k v m.entries
  nodup := by
    rw [map_fst_setEntry]
    split_ifs with h
    · exact m.nodup
    · exact List.nodup_append.2 ⟨m.nodup, List.nodup_singleton k, fun a ha b hb hab =>
        h (List.mem_singleton.1 hb ▸ hab ▸ ha)⟩

/-- The entries, as a loop visits them. -/
def toList [HashOrder κ] (m : HashMap κ ν) : List (κ × ν) :=
  (HashOrder.iterate m.keys).filterMap fun k => (m.find? k).map (Prod.mk k)

/-! ### What a map contains -/

theorem find?_setEntry (k : κ) (v : ν) (es : List (κ × ν)) (x : κ) :
    Entries.find? (setEntry k v es) x = if x = k then some v else Entries.find? es x := by
  unfold Entries.find?
  induction es with
  | nil => by_cases h : x = k <;> simp [setEntry, h, Ne.symm]
  | cons e es ih =>
    by_cases he : e.1 = k
    · by_cases h : x = k
      · simp [setEntry, he, h]
      · simp [setEntry, he, h, Ne.symm h]
    · by_cases h : e.1 = x
      · have hx : x ≠ k := h ▸ he
        simp [setEntry, h, hx]
      · simp [setEntry, he, h, ih]

/-- What a map with a new entry contains. -/
theorem find?_set (m : HashMap κ ν) (k : κ) (v : ν) (x : κ) :
    (m.set k v).find? x = if x = k then some v else m.find? x :=
  find?_setEntry k v m.entries x

theorem contains_eq_true_iff {m : HashMap κ ν} {k : κ} : m.contains k = true ↔ k ∈ m.keys := by
  rw [contains, find?, Option.isSome_map, List.find?_isSome, keys, List.mem_map]
  simp

/-- A new key comes last. -/
theorem entries_set_of_notMem {m : HashMap κ ν} {k : κ} (v : ν) (h : k ∉ m.keys) :
    (m.set k v).entries = m.entries ++ [(k, v)] := by
  have hset (es : List (κ × ν)) (hes : k ∉ es.map Prod.fst) :
      setEntry k v es = es ++ [(k, v)] := by
    induction es with
    | nil => rfl
    | cons e es ih =>
      rw [List.map_cons, List.mem_cons, not_or] at hes
      rw [setEntry, if_neg (Ne.symm hes.1), ih hes.2]
      rfl
  exact hset m.entries h

theorem mem_keys_of_find? {m : HashMap κ ν} {k : κ} {v : ν} (h : m.find? k = some v) :
    k ∈ m.keys := by
  obtain ⟨e, he, -⟩ := Option.map_eq_some_iff.1 h
  have hk : e.1 = k := by simpa using List.find?_some he
  exact List.mem_map.2 ⟨e, List.mem_of_find?_eq_some he, hk⟩

/-- A loop visits exactly the entries. -/
theorem mem_toList [HashOrder κ] {m : HashMap κ ν} {k : κ} {v : ν} :
    (k, v) ∈ m.toList ↔ m.find? k = some v := by
  rw [toList, List.mem_filterMap]
  constructor
  · rintro ⟨x, -, hx⟩
    obtain ⟨u, hu, heq⟩ := Option.map_eq_some_iff.1 hx
    obtain ⟨rfl, rfl⟩ := Prod.mk.inj heq
    exact hu
  · intro h
    refine ⟨k, (HashOrder.perm m.keys).mem_iff.2 (mem_keys_of_find? h), ?_⟩
    rw [h, Option.map_some]

theorem find?_of_mem_keys {m : HashMap κ ν} {k : κ} (h : k ∈ m.keys) :
    ∃ v, m.find? k = some v :=
  Option.isSome_iff_exists.1 (contains_eq_true_iff.2 h)

/-- A loop visits every key once. -/
theorem nodup_keys_toList [HashOrder κ] (m : HashMap κ ν) : (m.toList.map Prod.fst).Nodup := by
  have hkeys : m.toList.map Prod.fst = HashOrder.iterate m.keys := by
    rw [toList, List.map_filterMap]
    refine (List.filterMap_congr fun k hk => ?_).trans List.filterMap_some
    obtain ⟨v, hv⟩ := find?_of_mem_keys ((HashOrder.perm m.keys).mem_iff.1 hk)
    rw [hv]
    rfl
  rw [hkeys]
  exact (HashOrder.perm m.keys).nodup_iff.2 m.nodup

theorem find?_of_mem {m : HashMap κ ν} {e : κ × ν} (he : e ∈ m.entries) :
    m.find? e.1 = some e.2 := by
  have hsome : (m.entries.find? fun e' => e'.1 = e.1).isSome = true :=
    List.find?_isSome.2 ⟨e, he, decide_eq_true rfl⟩
  obtain ⟨e', he'⟩ := Option.isSome_iff_exists.1 hsome
  have hkey : e'.1 = e.1 := by simpa using List.find?_some he'
  have heq := List.inj_on_of_nodup_map m.nodup (List.mem_of_find?_eq_some he') he hkey
  rw [find?, he', heq, Option.map_some]

theorem find?_eq_some_iff {m : HashMap κ ν} {k : κ} {v : ν} :
    m.find? k = some v ↔ (k, v) ∈ m.entries := by
  constructor
  · intro h
    obtain ⟨e, he, rfl⟩ := Option.map_eq_some_iff.1 h
    have hk : e.1 = k := by simpa using List.find?_some he
    exact hk ▸ List.mem_of_find?_eq_some he
  · exact find?_of_mem

/-- Two maps with the same keys, in the same order, and the same values are the same. -/
theorem ext_find? {m n : HashMap κ ν} (hkeys : m.keys = n.keys)
    (h : ∀ k, m.find? k = n.find? k) : m = n := by
  have hentries : ∀ l : HashMap κ ν,
      l.entries = l.keys.filterMap fun k => (l.find? k).map (Prod.mk k) := by
    intro l
    rw [keys, List.filterMap_map]
    refine List.filterMap_some.symm.trans (List.filterMap_congr fun e he => ?_)
    rw [Function.comp_apply, find?_of_mem he, Option.map_some]
  apply ext
  rw [hentries m, hentries n, hkeys]
  simp only [h]

/-! ### Many entries -/

/-- Set the values of some keys, in order. -/
def setAll (m : HashMap κ ν) (ws : List (κ × ν)) : HashMap κ ν :=
  ws.foldl (fun m w => m.set w.1 w.2) m

/-- The last value that is set for a key. -/
def lastValue (ws : List (κ × ν)) (k : κ) : Option ν :=
  (ws.reverse.find? fun w => w.1 = k).map Prod.snd

theorem find?_setAll (m : HashMap κ ν) (ws : List (κ × ν)) (k : κ) :
    (m.setAll ws).find? k = (lastValue ws k).or (m.find? k) := by
  induction ws using List.reverseRecOn with
  | nil => rfl
  | append_singleton ws w ih =>
    have hlast : lastValue (ws ++ [w]) k = if k = w.1 then some w.2 else lastValue ws k := by
      by_cases hk : k = w.1
      · simp [lastValue, hk]
      · simp [lastValue, hk, Ne.symm hk]
    have hset : m.setAll (ws ++ [w]) = (m.setAll ws).set w.1 w.2 := by
      rw [setAll, List.foldl_append]
      rfl
    rw [hset, find?_set, hlast]
    split_ifs with hk
    · rfl
    · exact ih

theorem lastValue_isSome {ws : List (κ × ν)} {w : κ × ν} (h : w ∈ ws) :
    (lastValue ws w.1).isSome = true := by
  rw [lastValue, Option.isSome_map, List.find?_isSome]
  exact ⟨w, List.mem_reverse.2 h, decide_eq_true rfl⟩

theorem keys_set_of_find? {m : HashMap κ ν} {k : κ} (v : ν) (h : k ∈ m.keys) :
    (m.set k v).keys = m.keys := by
  rw [keys, set, map_fst_setEntry]
  exact if_pos h

theorem keys_setAll {m : HashMap κ ν} {ws : List (κ × ν)} (h : ∀ w ∈ ws, w.1 ∈ m.keys) :
    (m.setAll ws).keys = m.keys := by
  induction ws generalizing m with
  | nil => rfl
  | cons w ws ih =>
    have hset := keys_set_of_find? w.2 (h w List.mem_cons_self)
    refine (ih fun w' hw' => ?_).trans hset
    rw [hset]
    exact h w' (List.mem_cons_of_mem _ hw')

/-- Many entries change nothing if and only if the last value of each key is the one it had. -/
theorem setAll_eq_self_iff {m : HashMap κ ν} {ws : List (κ × ν)} :
    m.setAll ws = m ↔ ∀ k v, lastValue ws k = some v → m.find? k = some v := by
  constructor
  · intro h k v hv
    rw [← h, find?_setAll, hv]
    rfl
  · intro h
    apply ext_find?
    · refine keys_setAll fun w hw => ?_
      obtain ⟨v, hv⟩ := Option.isSome_iff_exists.1 (lastValue_isSome hw)
      exact mem_keys_of_find? (h w.1 v hv)
    · intro k
      rw [find?_setAll]
      cases hv : lastValue ws k with
      | none => rfl
      | some v => exact (h k v hv).symm

/-- Any entries make the empty map another one. -/
theorem setAll_empty_eq_iff {ws : List (κ × ν)} :
    (empty : HashMap κ ν).setAll ws = empty ↔ ws = [] := by
  constructor
  · intro h
    by_contra hne
    obtain ⟨w, hw⟩ := List.exists_mem_of_ne_nil ws hne
    obtain ⟨v, hv⟩ := Option.isSome_iff_exists.1 (lastValue_isSome hw)
    cases setAll_eq_self_iff.1 h w.1 v hv
  · rintro rfl
    rfl

/-- The entries, as a loop visits them, make the map again. -/
theorem find?_setAll_toList [HashOrder κ] (m : HashMap κ ν) (k : κ) :
    (empty.setAll m.toList).find? k = m.find? k := by
  have hempty : (empty : HashMap κ ν).find? k = none := rfl
  rw [find?_setAll, hempty, Option.or_none, lastValue]
  cases he : m.toList.reverse.find? fun w => w.1 = k with
  | some e =>
    have hkey : e.1 = k := by simpa using List.find?_some he
    have hmem : (k, e.2) ∈ m.toList := hkey ▸ List.mem_reverse.1 (List.mem_of_find?_eq_some he)
    rw [mem_toList.1 hmem]
    rfl
  | none =>
    cases hv : m.find? k with
    | none => rfl
    | some v =>
      have hmem := List.mem_reverse.2 (mem_toList.2 hv)
      simpa using List.find?_eq_none.1 he _ hmem

/-! ### Other values -/

omit [DecidableEq κ] in
/-- Change the values. -/
def map (f : κ → ν → μ) (m : HashMap κ ν) : HashMap κ μ where
  entries := m.entries.map fun e => (e.1, f e.1 e.2)
  nodup := by simpa [Function.comp_def] using m.nodup

omit [DecidableEq κ] in
@[simp] theorem keys_map (f : κ → ν → μ) (m : HashMap κ ν) : (m.map f).keys = m.keys := by
  simp [keys, map, Function.comp_def]

theorem find?_map_entries (f : κ → ν → μ) (es : List (κ × ν)) (k : κ) :
    ((es.map fun e => (e.1, f e.1 e.2)).find? fun e => e.1 = k).map Prod.snd =
      ((es.find? fun e => e.1 = k).map Prod.snd).map (f k) := by
  induction es with
  | nil => rfl
  | cons e es ih =>
    by_cases h : e.1 = k
    · simp [h]
    · simpa [h] using ih

@[simp] theorem find?_map (f : κ → ν → μ) (m : HashMap κ ν) (k : κ) :
    (m.map f).find? k = (m.find? k).map (f k) :=
  find?_map_entries f m.entries k

@[simp] theorem contains_map (f : κ → ν → μ) (m : HashMap κ ν) (k : κ) :
    (m.map f).contains k = m.contains k := by
  simp [contains]

theorem map_setEntry (f : κ → ν → μ) (k : κ) (v : ν) (es : List (κ × ν)) :
    (setEntry k v es).map (fun e => (e.1, f e.1 e.2)) =
      setEntry k (f k v) (es.map fun e => (e.1, f e.1 e.2)) := by
  induction es with
  | nil => rfl
  | cons e es ih =>
    by_cases h : e.1 = k
    · simp [setEntry, h]
    · simpa [setEntry, h] using ih

theorem map_set (f : κ → ν → μ) (m : HashMap κ ν) (k : κ) (v : ν) :
    (m.set k v).map f = (m.map f).set k (f k v) :=
  ext (map_setEntry f k v m.entries)

theorem setEntry_map_congr {f g : κ → ν → μ} {k : κ} (h : ∀ x, x ≠ k → f x = g x) (u : μ)
    {es : List (κ × ν)} (hes : (es.map Prod.fst).Nodup) :
    setEntry k u (es.map fun e => (e.1, f e.1 e.2)) =
      setEntry k u (es.map fun e => (e.1, g e.1 e.2)) := by
  induction es with
  | nil => rfl
  | cons e es ih =>
    obtain ⟨hnot, hes⟩ := List.nodup_cons.1 hes
    by_cases hk : e.1 = k
    · -- the key occurs only here, so it does not matter what the others do to it
      have hrest : (es.map fun e => (e.1, f e.1 e.2)) = es.map fun e => (e.1, g e.1 e.2) :=
        List.map_congr_left fun e' he' => by
          rw [h e'.1 fun heq => hnot (hk ▸ heq ▸ List.mem_map_of_mem he')]
      simp [setEntry, hk, hrest]
    · simpa [setEntry, hk, h e.1 hk] using ih hes

/-- Before a key is set, its value may be changed in any way. -/
theorem set_map_congr {f g : κ → ν → μ} {k : κ} (h : ∀ x, x ≠ k → f x = g x) (m : HashMap κ ν)
    (u : μ) : (m.map f).set k u = (m.map g).set k u :=
  ext (setEntry_map_congr h u m.nodup)

theorem toList_map [HashOrder κ] (f : κ → ν → μ) (m : HashMap κ ν) :
    (m.map f).toList = m.toList.map fun e => (e.1, f e.1 e.2) := by
  simp only [toList, keys_map, find?_map, List.map_filterMap, Option.map_map]
  rfl

end HashMap

end WeakChain
