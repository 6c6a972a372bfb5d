import LeanBbg.LibMap

/-! A vector of keyed entries with an index of its positions. Entries are pushed, overwritten in place and
removed by moving the last one into the gap. -/

set_option linter.unusedSectionVars false

namespace LeanBbg

open Std

namespace OrdMap

variable {K V : Type} [Ord K] [TransOrd K] [LawfulEqOrd K] [DecidableEq K]

theorem contains_insert (m : OrdMap K V) (k a : K) (v : V) :
    (m.insert k v).contains a = if k = a then true else m.contains a := by
  rw [contains_eq_isSome, getElem?_insert, contains_eq_isSome]
  split_ifs <;> rfl

theorem contains_erase (m : OrdMap K V) (k a : K) :
    (m.erase k).contains a = if k = a then false else m.contains a := by
  rw [contains_eq_isSome, getElem?_erase, contains_eq_isSome]
  split_ifs <;> rfl

end OrdMap

namespace Slots

variable {K V α : Type} [Ord K] [TransOrd K] [LawfulEqOrd K] [DecidableEq K]

/-- `swap_remove`: the last entry takes the place of the one that goes. -/
def swapRemove (l : List α) (i : Nat) : List α :=
  match l.getLast? with
  | none => []
  | some last => (l.set i last).dropLast

theorem swapRemove_concat (l : List α) (last : α) (i : Nat) :
    swapRemove (l ++ [last]) i = l.set i last := by
  rw [swapRemove, List.getLast?_concat]
  dsimp only
  rw [List.set_append]
  split_ifs with hi
  · rw [List.dropLast_concat]
  · rw [List.set_eq_of_length_le (Nat.not_lt.mp hi)]
    cases hgap : i - l.length with
    | zero => rw [List.set_cons_zero, List.dropLast_concat]
    | succ n => rw [List.set_cons_succ, List.set_nil, List.dropLast_concat]

theorem perm_set {l : List α} {i : Nat} {old : α} (h : l[i]? = some old) (new : α) :
    (old :: l.set i new).Perm (new :: l) := by
  induction l generalizing i with
  | nil => cases h
  | cons a l ih =>
      cases i with
      | zero =>
          obtain rfl := Option.some_inj.mp h
          exact List.Perm.swap ..
      | succ i =>
          rw [List.getElem?_cons_succ] at h
          calc (old :: a :: l.set i new).Perm (a :: old :: l.set i new) := List.Perm.swap ..
            List.Perm _ (a :: new :: l) := (ih h).cons a
            List.Perm _ (new :: a :: l) := List.Perm.swap ..

/-- A removal takes out the entry at the position and no other. -/
theorem perm_swapRemove {l : List α} {i : Nat} {x : α} (h : l[i]? = some x) : l.Perm (x :: swapRemove l i) := by
  rcases List.eq_nil_or_concat l with rfl | ⟨l, last, rfl⟩
  · cases h
  · rw [List.concat_eq_append] at h ⊢
    rw [swapRemove_concat]
    by_cases hi : i < l.length
    · rw [List.getElem?_append_left hi] at h
      exact (List.perm_append_singleton last l).trans (perm_set h last).symm
    · have hlast : i = l.length := by
        have hlt : i < (l ++ [last]).length := (List.getElem?_eq_some_iff.mp h).1
        rw [List.length_append, List.length_singleton] at hlt
        omega
      subst hlast
      rw [List.getElem?_concat_length] at h
      obtain rfl := Option.some_inj.mp h
      rw [List.set_eq_of_length_le (Nat.le_refl _)]
      exact List.perm_append_singleton last l

/-- The index knows the position of every entry, and of nothing else. -/
def Indexed (positions : OrdMap K Nat) (l : List (K × V)) : Prop :=
  ∀ (k : K) (i : Nat), positions[k]? = some i ↔ ∃ v, l[i]? = some (k, v)

/-- The value of a key. -/
def value (positions : OrdMap K Nat) (l : List (K × V)) (k : K) : Option V :=
  positions[k]?.bind fun i => l[i]?.map Prod.snd

variable {positions : OrdMap K Nat} {l : List (K × V)}

theorem indexed_nil : Indexed (∅ : OrdMap K Nat) ([] : List (K × V)) := by
  intro k i
  simp

theorem Indexed.nodup (h : Indexed positions l) : (l.map Prod.fst).Nodup := by
  rw [List.nodup_iff_injective_getElem]
  rintro ⟨i, hi⟩ ⟨j, hj⟩ heq
  rw [List.length_map] at hi hj
  have hpos : ∀ n (hn : n < l.length), positions[l[n].1]? = some n := fun n hn =>
    (h _ n).mpr ⟨l[n].2, List.getElem?_eq_getElem hn⟩
  have hi' := hpos i hi
  have hj' := hpos j hj
  simp only [List.getElem_map] at heq
  rw [heq, hj'] at hi'
  exact Fin.ext (Option.some_inj.mp hi').symm

theorem Indexed.value_eq_some (h : Indexed positions l) {k : K} {v : V} :
    value positions l k = some v ↔ (k, v) ∈ l := by
  rw [value, Option.bind_eq_some_iff]
  constructor
  · rintro ⟨i, hi, hv⟩
    obtain ⟨w, hw⟩ := (h k i).mp hi
    rw [hw] at hv
    obtain rfl := Option.some_inj.mp hv
    exact List.mem_of_getElem? hw
  · intro hmem
    obtain ⟨i, hi⟩ := List.getElem?_of_mem hmem
    exact ⟨i, (h k i).mpr ⟨v, hi⟩, by rw [hi]; rfl⟩

theorem Indexed.value_of_position (h : Indexed positions l) {k : K} {i : Nat} (hi : positions[k]? = some i) :
    ∃ v, l[i]? = some (k, v) ∧ value positions l k = some v := by
  obtain ⟨v, hv⟩ := (h k i).mp hi
  exact ⟨v, hv, h.value_eq_some.mpr (List.mem_of_getElem? hv)⟩

theorem value_of_none {k : K} (hk : positions[k]? = none) : value positions l k = none := by
  rw [value, hk]
  rfl

theorem Indexed.value_eq_none (h : Indexed positions l) {k : K} :
    value positions l k = none ↔ positions[k]? = none := by
  refine ⟨fun hvalue => ?_, value_of_none⟩
  cases hk : positions[k]? with
  | none => rfl
  | some i =>
      obtain ⟨v, -, hv⟩ := h.value_of_position hk
      rw [hv] at hvalue
      cases hvalue

/-- The values of an indexed vector are those of any map with its entries. -/
theorem Indexed.value_ext (h : Indexed positions l) {f : K → Option V} (hmem : ∀ k v, (k, v) ∈ l ↔ f k = some v)
    (k : K) : value positions l k = f k := by
  refine Option.ext fun v => ?_
  rw [h.value_eq_some, hmem]

theorem getElem?_concat (l : List α) (x : α) (i : Nat) :
    (l ++ [x])[i]? = if i = l.length then some x else l[i]? := by
  split_ifs with hi
  · subst hi
    exact List.getElem?_concat_length
  · rcases Nat.lt_or_gt_of_ne hi with hlt | hgt
    · exact List.getElem?_append_left hlt
    · rw [List.getElem?_eq_none (by simpa using hgt), List.getElem?_eq_none (Nat.le_of_lt hgt)]

theorem Indexed.not_mem (h : Indexed positions l) {k : K} (hk : positions[k]? = none) (v : V) : (k, v) ∉ l := by
  intro hmem
  have hnone := h.value_eq_none.mpr hk
  rw [h.value_eq_some.mpr hmem] at hnone
  cases hnone

theorem Indexed.push (h : Indexed positions l) {k : K} (hk : positions[k]? = none) (v : V) :
    Indexed (positions.insert k l.length) (l ++ [(k, v)]) := by
  intro q i
  rw [OrdMap.getElem?_insert, getElem?_concat]
  split_ifs with hq hi hi
  · subst hq hi
    exact ⟨fun _ => ⟨v, rfl⟩, fun _ => rfl⟩
  · subst hq
    refine ⟨fun heq => absurd (Option.some_inj.mp heq).symm hi, fun ⟨w, hw⟩ => ?_⟩
    exact absurd (List.mem_of_getElem? hw) (h.not_mem hk w)
  · subst hi
    refine ⟨fun heq => ?_, fun ⟨w, hw⟩ => absurd (Prod.mk.inj (Option.some_inj.mp hw)).1 hq⟩
    obtain ⟨w, hw⟩ := (h q _).mp heq
    exact absurd (List.getElem?_eq_some_iff.mp hw).1 (Nat.lt_irrefl _)
  · exact h q i

theorem Indexed.value_push (h : Indexed positions l) {k : K} (hk : positions[k]? = none) (v : V) (q : K) :
    value (positions.insert k l.length) (l ++ [(k, v)]) q = if q = k then some v else value positions l q := by
  refine (h.push hk v).value_ext (f := fun q => if q = k then some v else value positions l q) (fun q w => ?_) q
  rw [List.mem_append, List.mem_singleton, Prod.mk.injEq]
  split_ifs with hq
  · subst hq
    refine ⟨fun hmem => ?_, fun heq => .inr ⟨rfl, (Option.some_inj.mp heq).symm⟩⟩
    rcases hmem with hold | ⟨-, rfl⟩
    · exact absurd hold (h.not_mem hk w)
    · rfl
  · rw [h.value_eq_some]
    exact ⟨fun hmem => hmem.resolve_right fun heq => hq heq.1, .inl⟩

theorem Indexed.set (h : Indexed positions l) {k : K} {i : Nat} (hk : positions[k]? = some i) (v : V) :
    Indexed positions (l.set i (k, v)) := by
  obtain ⟨old, hold⟩ := (h k i).mp hk
  have hi := (List.getElem?_eq_some_iff.mp hold).1
  intro q j
  rw [List.getElem?_set]
  split_ifs with hij
  · subst hij
    constructor
    · intro hq
      obtain ⟨w, hw⟩ := (h q i).mp hq
      rw [hold] at hw
      obtain ⟨rfl, -⟩ := Prod.mk.inj (Option.some_inj.mp hw)
      exact ⟨v, rfl⟩
    · rintro ⟨w, hw⟩
      obtain ⟨rfl, -⟩ := Prod.mk.inj (Option.some_inj.mp hw)
      exact hk
  · exact h q j

theorem Indexed.value_set (h : Indexed positions l) {k : K} {i : Nat} (hk : positions[k]? = some i) (v : V) (q : K) :
    value positions (l.set i (k, v)) q = if q = k then some v else value positions l q := by
  obtain ⟨old, hold⟩ := (h k i).mp hk
  have hi := (List.getElem?_eq_some_iff.mp hold).1
  rw [value, value]
  cases hq : positions[q]? with
  | none =>
      rw [if_neg]
      · rfl
      · rintro rfl
        rw [hk] at hq
        cases hq
  | some j =>
      rw [Option.bind_some, Option.bind_some, List.getElem?_set]
      split_ifs with hij hqk hqk
      · rfl
      · -- two keys at one position
        subst hij
        obtain ⟨w, hw⟩ := (h q i).mp hq
        rw [hold] at hw
        exact absurd (Prod.mk.inj (Option.some_inj.mp hw)).1.symm hqk
      · subst hqk
        rw [hk] at hq
        exact absurd (Option.some_inj.mp hq) hij
      · rfl

/-- The index after a removal: the entry that fills the gap, if any, is now there. -/
def reindex (positions : OrdMap K Nat) (k : K) (i : Nat) (l : List (K × V)) : OrdMap K Nat :=
  match l[i]? with
  | some moved => (positions.erase k).insert moved.1 i
  | none => positions.erase k

theorem Indexed.swapRemove (h : Indexed positions l) {k : K} {i : Nat} (hk : positions[k]? = some i) :
    Indexed (reindex positions k i (Slots.swapRemove l i)) (Slots.swapRemove l i) := by
  obtain ⟨v, hv⟩ := (h k i).mp hk
  rcases List.eq_nil_or_concat l with rfl | ⟨l, ⟨m, w⟩, rfl⟩
  · cases hv
  · rw [List.concat_eq_append] at h hv ⊢
    rw [swapRemove_concat, reindex]
    have hget : ∀ (q : K) (j : Nat), positions[q]? = some j ↔ ∃ x, (if j = l.length then some (m, w) else l[j]?) =
        some (q, x) := by
      intro q j
      rw [← getElem?_concat]
      exact h q j
    rw [getElem?_concat] at hv
    have hlast : positions[m]? = some l.length := (hget m l.length).mpr ⟨w, if_pos rfl⟩
    by_cases hi : i < l.length
    · -- the last entry moves into the gap
      have hne : i ≠ l.length := Nat.ne_of_lt hi
      have hmk : m ≠ k := by
        rintro rfl
        rw [hk] at hlast
        exact hne (Option.some_inj.mp hlast)
      have hfill : (l.set i (m, w))[i]? = some (m, w) := by
        rw [List.getElem?_set, if_pos rfl, if_pos hi]
      rw [hfill]
      intro q j
      dsimp only
      rw [OrdMap.getElem?_insert, OrdMap.getElem?_erase, List.getElem?_set]
      split_ifs with hmq hij hkq hij hij
      · subst hmq hij
        exact ⟨fun _ => ⟨w, rfl⟩, fun _ => rfl⟩
      · subst hmq
        refine ⟨fun heq => absurd (Option.some_inj.mp heq) hij, fun ⟨x, hx⟩ => ?_⟩
        have hj : j ≠ l.length := Nat.ne_of_lt (List.getElem?_eq_some_iff.mp hx).1
        have hposition := (hget m j).mpr ⟨x, by rw [if_neg hj]; exact hx⟩
        rw [hlast] at hposition
        exact absurd (Option.some_inj.mp hposition).symm hj
      · subst hkq
        refine ⟨nofun, fun ⟨x, hx⟩ => absurd (Prod.mk.inj (Option.some_inj.mp hx)).1 hmq⟩
      · subst hkq
        refine ⟨nofun, fun ⟨x, hx⟩ => ?_⟩
        have hj : j ≠ l.length := Nat.ne_of_lt (List.getElem?_eq_some_iff.mp hx).1
        have hposition := (hget k j).mpr ⟨x, by rw [if_neg hj]; exact hx⟩
        rw [hk] at hposition
        exact absurd (Option.some_inj.mp hposition) hij
      · subst hij
        refine ⟨fun hq => ?_, fun ⟨x, hx⟩ => absurd (Prod.mk.inj (Option.some_inj.mp hx)).1 hmq⟩
        obtain ⟨x, hx⟩ := (hget q i).mp hq
        rw [hv] at hx
        exact absurd (Prod.mk.inj (Option.some_inj.mp hx)).1 hkq
      · rw [hget q j]
        by_cases hj : j = l.length
        · subst hj
          rw [if_pos rfl, List.getElem?_eq_none (Nat.le_refl _)]
          exact ⟨fun ⟨x, hx⟩ => absurd (Prod.mk.inj (Option.some_inj.mp hx)).1 hmq, nofun⟩
        · rw [if_neg hj]
    · -- the entry that goes is the last one
      have hi' : i = l.length := by
        by_contra hne
        rw [if_neg hne] at hv
        exact hi (List.getElem?_eq_some_iff.mp hv).1
      subst hi'
      rw [if_pos rfl] at hv
      obtain ⟨rfl, -⟩ := Prod.mk.inj (Option.some_inj.mp hv)
      rw [List.set_eq_of_length_le (Nat.le_refl _), List.getElem?_eq_none (Nat.le_refl _)]
      intro q j
      dsimp only
      rw [OrdMap.getElem?_erase]
      split_ifs with hmq
      · subst hmq
        refine ⟨nofun, fun ⟨x, hx⟩ => ?_⟩
        have hj := (List.getElem?_eq_some_iff.mp hx).1
        have hposition := (hget m j).mpr ⟨x, by rw [if_neg (Nat.ne_of_lt hj)]; exact hx⟩
        rw [hlast] at hposition
        exact absurd (Option.some_inj.mp hposition).symm (Nat.ne_of_lt hj)
      · rw [hget q j]
        by_cases hj : j = l.length
        · subst hj
          rw [if_pos rfl, List.getElem?_eq_none (Nat.le_refl _)]
          exact ⟨fun ⟨x, hx⟩ => absurd (Prod.mk.inj (Option.some_inj.mp hx)).1 hmq, nofun⟩
        · rw [if_neg hj]

theorem Indexed.value_swapRemove (h : Indexed positions l) {k : K} {i : Nat} (hk : positions[k]? = some i) (q : K) :
    value (reindex positions k i (Slots.swapRemove l i)) (Slots.swapRemove l i) q =
      if q = k then none else value positions l q := by
  obtain ⟨v, hv⟩ := (h k i).mp hk
  have hperm := perm_swapRemove hv
  have hnodup := (hperm.map Prod.fst).nodup_iff.mp h.nodup
  rw [List.map_cons, List.nodup_cons] at hnodup
  refine (h.swapRemove hk).value_ext (f := fun q => if q = k then none else value positions l q) (fun q w => ?_) q
  split_ifs with hq
  · subst hq
    exact ⟨fun hmem => absurd (List.mem_map_of_mem hmem) hnodup.1, nofun⟩
  · rw [h.value_eq_some, hperm.mem_iff, List.mem_cons, Prod.mk.injEq]
    exact ⟨.inr, fun hmem => hmem.resolve_left fun heq => hq heq.1⟩

end Slots

end LeanBbg
