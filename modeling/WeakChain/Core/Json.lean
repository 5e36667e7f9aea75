import Mathlib.Data.List.Nodup
import Mathlib.Data.List.Perm.Basic
import WeakChain.Core.External
import WeakChain.Lib.HashMap

/-!
# JSON objects

What the operations of `boost::json` do to the entries of an object: `at_assign` says what is found
in it after an assignment, and `keys_erase` which keys are left when one is erased.
-/

namespace WeakChain

namespace Json

/-- The keys of an object. -/
def keys (o : List (Bytes × Json)) : List Bytes := o.map Prod.fst

variable (o : List (Bytes × Json)) (k : Bytes) (v : Json)

theorem contains_iff : contains o k = true ↔ k ∈ keys o := by
  simp [contains, keys]

theorem contains_eq : contains o k = ((Json.object o).at k).isSome := by
  rw [contains, Json.at, Option.isSome_map, List.isSome_find?]

/-- An object is a list of entries. -/
theorem at_object : (Json.object o).at k = Entries.find? o k := rfl

theorem at_emplace (k' : Bytes) :
    (Json.object (emplace o k v)).at k' =
      if k' = k then some (((Json.object o).at k).getD v) else (Json.object o).at k' := by
  rw [emplace, contains_eq]
  cases h : (Json.object o).at k with
  | some v' =>
    rw [Option.isSome_some, if_pos rfl]
    split_ifs with hk
    · rw [hk, h, Option.getD_some]
    · rfl
  | none =>
    -- the new entry is the last one
    have hnone : o.find? (fun kv => kv.1 = k) = none := Option.map_eq_none_iff.1 h
    rw [Option.isSome_none, if_neg Bool.false_ne_true]
    by_cases hk : k' = k
    · subst hk
      simp [Json.at, List.find?_append, hnone]
    · have hne : ¬k = k' := fun heq => hk heq.symm
      simp [Json.at, List.find?_append, hk, hne]

theorem at_set (k' : Bytes) :
    (Json.object (set o k v)).at k' =
      if k' = k then ((Json.object o).at k).map (fun _ => v) else (Json.object o).at k' := by
  -- no key changes
  have hkey : ((fun kv : Bytes × Json => decide (kv.1 = k')) ∘ fun kv =>
      if kv.1 = k then (k, v) else kv) = fun kv => decide (kv.1 = k') := by
    funext kv
    simp only [Function.comp_apply]
    split_ifs with hkv
    · rw [hkv]
    · rfl
  simp only [Json.at, set, List.find?_map, hkey]
  by_cases hk : k' = k
  · subst hk
    rw [if_pos rfl]
    cases hfind : o.find? fun kv => kv.1 = k' with
    | none => rfl
    | some kv => simp [show kv.1 = k' by simpa using List.find?_some hfind]
  · rw [if_neg hk]
    cases hfind : o.find? fun kv => kv.1 = k' with
    | none => rfl
    | some kv =>
      have hkv : ¬kv.1 = k := by
        rw [show kv.1 = k' by simpa using List.find?_some hfind]
        exact hk
      simp [hkv]

/-- What is found in an object after an assignment. -/
theorem at_assign (k' : Bytes) :
    (Json.object (assign o k v)).at k' = if k' = k then some v else (Json.object o).at k' := by
  rw [assign, at_set, at_emplace, if_pos rfl, at_emplace]
  split_ifs <;> rfl

theorem keys_assign :
    keys (assign o k v) = if k ∈ keys o then keys o else keys o ++ [k] := by
  have hset (o : List (Bytes × Json)) : keys (set o k v) = keys o := by
    rw [keys, keys, set, List.map_map]
    refine List.map_congr_left fun kv _ => ?_
    by_cases hk : kv.1 = k
    · simp [hk]
    · simp [hk]
  rw [assign, hset, emplace, apply_ite keys]
  simp only [contains_iff]
  split_ifs
  · rfl
  · simp [keys]

/-- A new key comes last. -/
theorem assign_of_notMem (h : k ∉ keys o) : assign o k v = o ++ [(k, v)] := by
  have hset : set o k v = o := by
    refine (List.map_congr_left fun kv hkv => ?_).trans (List.map_id o)
    exact if_neg fun heq : kv.1 = k => h (heq ▸ List.mem_map_of_mem hkv)
  rw [assign, emplace, if_neg fun hk => h ((contains_iff o k).1 hk), set, List.map_append]
  exact congrArg₂ (· ++ ·) hset (by simp)

theorem nodup_keys_assign (h : (keys o).Nodup) : (keys (assign o k v)).Nodup := by
  rw [keys_assign]
  split_ifs with hk
  · exact h
  · exact h.append (List.nodup_singleton _) (List.disjoint_singleton.2 hk)

/-- The keys that are left when one is erased. -/
theorem keys_erase : (keys (erase o k)).Perm ((keys o).erase k) := by
  have hidx : (keys o).idxOf? k = o.findIdx? fun kv => kv.1 = k := by
    rw [keys, List.idxOf?, List.findIdx?_map]
    exact congrArg (o.findIdx? ·) (funext fun kv => beq_eq_decide kv.1 k)
  rw [List.erase_eq_eraseIdx, hidx, erase]
  cases hi : o.findIdx? fun kv => kv.1 = k with
  | none => exact .refl _
  | some i =>
    obtain ⟨hlt, -⟩ := List.findIdx?_eq_some_iff_getElem.1 hi
    rcases List.eq_nil_or_concat o with rfl | ⟨l, last, rfl⟩
    · cases hlt
    · rw [List.concat_eq_append, List.getLast?_concat]
      dsimp only
      rw [keys, keys, List.eraseIdx_map]
      refine List.Perm.map _ ?_
      rcases Nat.lt_succ_iff_lt_or_eq.1 (by simpa using hlt : i < l.length + 1) with hl | rfl
      · -- the last entry goes to the place of the erased one
        rw [List.set_append_left _ _ hl, List.dropLast_concat, List.eraseIdx_append_of_lt_length hl]
        exact (List.set_perm_cons_eraseIdx hl last).trans (List.perm_append_singleton last _).symm
      · -- it is the erased one
        simp [List.eraseIdx_append_of_length_le]

end Json

end WeakChain
