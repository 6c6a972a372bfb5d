import Mathlib

/-! Ordered finite maps with their lookup lemmas stated by equality of keys. -/

set_option linter.unusedSectionVars false

namespace LeanBbg

open Std

/-- A finite map over an ordered key type, iterated in key order. -/
abbrev OrdMap (K V : Type) [Ord K] := ExtTreeMap K V compare

namespace OrdMap

variable {K V : Type} [Ord K] [TransOrd K] [LawfulEqOrd K]

theorem getElem?_insert [DecidableEq K] (m : OrdMap K V) (k a : K) (v : V) :
    (m.insert k v)[a]? = if k = a then some v else m[a]? := by
  rw [ExtTreeMap.getElem?_insert]
  simp only [Std.compare_eq_iff_eq]

theorem getElem?_erase [DecidableEq K] (m : OrdMap K V) (k a : K) :
    (m.erase k)[a]? = if k = a then none else m[a]? := by
  rw [ExtTreeMap.getElem?_erase]
  simp only [Std.compare_eq_iff_eq]

theorem contains_eq_isSome (m : OrdMap K V) (k : K) : m.contains k = m[k]?.isSome :=
  ExtTreeMap.contains_eq_isSome_getElem?

theorem mem_toList (m : OrdMap K V) {k : K} {v : V} : (k, v) ∈ m.toList ↔ m[k]? = some v :=
  ExtTreeMap.mem_toList_iff_getElem?_eq_some

theorem nodup_keys (m : OrdMap K V) : (m.toList.map Prod.fst).Nodup := by
  rw [ExtTreeMap.map_fst_toList_eq_keys]
  exact ExtTreeMap.nodup_keys

/-- A list with distinct keys and the records of the map is a permutation of it. -/
theorem perm_toList (m : OrdMap K V) {l : List (K × V)} (hnodup : (l.map Prod.fst).Nodup)
    (hmem : ∀ k v, (k, v) ∈ l ↔ m[k]? = some v) : l.Perm m.toList := by
  refine (List.perm_ext_iff_of_nodup hnodup.of_map m.nodup_keys.of_map).mpr ?_
  rintro ⟨k, v⟩
  rw [hmem, mem_toList]

/-- An insertion lists the new record beside those of the other keys. -/
theorem toList_insert_perm (m : OrdMap K V) (k : K) (v : V) :
    (m.insert k v).toList.Perm ((k, v) :: (m.erase k).toList) := by
  classical
  symm
  refine perm_toList _ ?_ fun a w => ?_
  · rw [List.map_cons, List.nodup_cons]
    refine ⟨fun hmem => ?_, nodup_keys _⟩
    obtain ⟨⟨a, w⟩, hentry, rfl⟩ := List.mem_map.mp hmem
    rw [mem_toList, getElem?_erase, if_pos rfl] at hentry
    cases hentry
  · rw [List.mem_cons, mem_toList, getElem?_erase, getElem?_insert, Prod.mk.injEq]
    split_ifs with hk
    · simp [hk, eq_comm]
    · simp [Ne.symm hk]

theorem insert_of_getElem? {m : OrdMap K V} {k : K} {v : V} (h : m[k]? = some v) : m.insert k v = m := by
  classical
  refine ExtTreeMap.ext_getElem? fun a => ?_
  rw [getElem?_insert]
  split_ifs with hk
  · rw [← hk, h]
  · rfl

theorem erase_of_getElem? {m : OrdMap K V} {k : K} (h : m[k]? = none) : m.erase k = m := by
  classical
  refine ExtTreeMap.ext_getElem? fun a => ?_
  rw [getElem?_erase]
  split_ifs with hk
  · rw [← hk, h]
  · rfl

/-- Make the entry at a key the given one. -/
def put (m : OrdMap K V) (k : K) : Option V → OrdMap K V
  | some v => m.insert k v
  | none => m.erase k

theorem getElem?_put [DecidableEq K] (m : OrdMap K V) (k a : K) (v : Option V) :
    (m.put k v)[a]? = if k = a then v else m[a]? := by
  cases v with
  | none => exact getElem?_erase m k a
  | some v => exact getElem?_insert m k a v

/-- Make the entries at a list of keys the given ones. -/
def putAll (m : OrdMap K V) (l : List (K × Option V)) : OrdMap K V := l.foldl (fun m e => m.put e.1 e.2) m

theorem getElem?_putAll_of_not_mem {m : OrdMap K V} {l : List (K × Option V)} {k : K} (h : k ∉ l.map Prod.fst) :
    (m.putAll l)[k]? = m[k]? := by
  classical
  induction l generalizing m with
  | nil => rfl
  | cons e l ih =>
      rw [List.map_cons, List.mem_cons, not_or] at h
      refine (ih h.2).trans ?_
      rw [getElem?_put, if_neg (Ne.symm h.1)]

theorem getElem?_putAll_of_mem {m : OrdMap K V} {l : List (K × Option V)} (hnodup : (l.map Prod.fst).Nodup) {k : K}
    {v : Option V} (h : (k, v) ∈ l) : (m.putAll l)[k]? = v := by
  classical
  induction l generalizing m with
  | nil => cases h
  | cons e l ih =>
      rw [List.map_cons, List.nodup_cons] at hnodup
      rcases List.mem_cons.mp h with rfl | h
      · refine (getElem?_putAll_of_not_mem hnodup.1).trans ?_
        rw [getElem?_put, if_pos rfl]
      · exact ih hnodup.2 h

theorem size_put_le (m : OrdMap K V) (k : K) (v : Option V) : (m.put k v).size ≤ m.size + 1 := by
  cases v with
  | none => exact Nat.le_succ_of_le ExtTreeMap.size_erase_le
  | some v => exact ExtTreeMap.size_insert_le

theorem size_putAll_le (m : OrdMap K V) (l : List (K × Option V)) : (m.putAll l).size ≤ m.size + l.length := by
  induction l generalizing m with
  | nil => exact Nat.le_refl _
  | cons e l ih =>
      have hput := size_put_le m e.1 e.2
      have hrest := ih (m.put e.1 e.2)
      rw [List.length_cons]
      change (putAll (m.put e.1 e.2) l).size ≤ _
      omega

/-- The map of a list of entries. -/
def ofEntries (l : List (K × V)) : OrdMap K V := l.foldr (fun e m => m.insert e.1 e.2) ∅

/-- When no key has two values in the list, its map has exactly the entries of the list. -/
theorem getElem?_ofEntries {l : List (K × V)} (h : ∀ k v v', (k, v) ∈ l → (k, v') ∈ l → v = v') {k : K} {v : V} :
    (ofEntries l)[k]? = some v ↔ (k, v) ∈ l := by
  classical
  induction l with
  | nil => simp [ofEntries]
  | cons e l ih =>
      have hrest := ih fun k v v' hv hv' => h k v v' (List.mem_cons_of_mem _ hv) (List.mem_cons_of_mem _ hv')
      have hcons : (ofEntries (e :: l))[k]? = if e.1 = k then some e.2 else (ofEntries l)[k]? :=
        getElem?_insert (ofEntries l) e.1 k e.2
      rw [hcons]
      split_ifs with heq
      · subst heq
        rw [Option.some_inj]
        constructor
        · rintro rfl
          exact List.mem_cons_self ..
        · exact fun hmem => h e.1 e.2 v (List.mem_cons_self ..) hmem
      · rw [hrest, List.mem_cons]
        exact ⟨.inr, fun hmem => hmem.resolve_left fun he => heq (by rw [← he])⟩

theorem getElem?_ofEntries_of_nodup {l : List (K × V)} (h : (l.map Prod.fst).Nodup) {k : K} {v : V} :
    (ofEntries l)[k]? = some v ↔ (k, v) ∈ l :=
  getElem?_ofEntries fun _ _ _ hv hv' => (Prod.mk.inj (List.inj_on_of_nodup_map h hv hv' rfl)).2

/-- How many records of a map satisfy a predicate on their values. -/
def countVals (p : V → Bool) (m : OrdMap K V) : Nat := m.toList.countP fun e => p e.2

/-- The count splits into one record and those of the other keys. -/
theorem countVals_eq (p : V → Bool) (m : OrdMap K V) (k : K) :
    m.countVals p = countVals p (m.erase k) + if m[k]?.any p then 1 else 0 := by
  cases hget : m[k]? with
  | none =>
      rw [erase_of_getElem? hget]
      rfl
  | some v =>
      have hperm := toList_insert_perm m k v
      rw [insert_of_getElem? hget] at hperm
      rw [countVals, hperm.countP_eq, List.countP_cons]
      rfl

/-- The sum of a measure of the values. -/
def sumVals (f : V → Nat) (m : OrdMap K V) : Nat := (m.toList.map fun e => f e.2).sum

theorem sumVals_insert (f : V → Nat) (m : OrdMap K V) (k : K) (v : V) :
    sumVals f (m.insert k v) = f v + sumVals f (m.erase k) :=
  ((toList_insert_perm m k v).map _).sum_eq

/-- The sum splits into one record and those of the other keys. -/
theorem sumVals_eq (f : V → Nat) (m : OrdMap K V) (k : K) :
    m.sumVals f = (m[k]?.map f).getD 0 + sumVals f (m.erase k) := by
  cases hget : m[k]? with
  | none =>
      rw [erase_of_getElem? hget]
      exact (Nat.zero_add _).symm
  | some v =>
      have hinsert := sumVals_insert f m k v
      rwa [insert_of_getElem? hget] at hinsert

end OrdMap

end LeanBbg
