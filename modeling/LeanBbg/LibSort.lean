import Mathlib

/-! Stable sorting by a key, and the rank of an element in a sorted list. -/

namespace LeanBbg.Sort

variable {α β : Type}

/-- Of two members of a list, one is before the other. -/
theorem pair_sublist {l : List α} {a b : α} (ha : a ∈ l) (hb : b ∈ l) (hne : a ≠ b) :
    List.Sublist [a, b] l ∨ List.Sublist [b, a] l := by
  induction l with
  | nil => cases ha
  | cons c l ih =>
      rcases List.mem_cons.mp ha with rfl | hin
      · have hb : b ∈ l := (List.mem_cons.mp hb).resolve_left (Ne.symm hne)
        exact .inl (List.Sublist.cons_cons a (List.singleton_sublist.mpr hb))
      · rcases List.mem_cons.mp hb with rfl | hb
        · have ha : a ∈ l := (List.mem_cons.mp ha).resolve_left hne
          exact .inr (List.Sublist.cons_cons b (List.singleton_sublist.mpr ha))
        · rcases ih hin hb with h | h
          · exact .inl (h.cons c)
          · exact .inr (h.cons c)

/-- In a list without repetition, no two members are before each other. -/
theorem not_sublist_swap {l : List α} (hl : l.Nodup) {a b : α} (h : List.Sublist [a, b] l) : ¬List.Sublist [b, a] l := by
  induction l with
  | nil => cases h
  | cons c l ih =>
      obtain ⟨hc, hl⟩ := List.nodup_cons.mp hl
      intro hswap
      cases h with
      | cons _ h =>
          cases hswap with
          | cons _ hswap => exact ih hl h hswap
          | cons_cons _ _ => exact hc (h.subset (by simp))
      | cons_cons _ h =>
          cases hswap with
          | cons _ hswap => exact hc (hswap.subset (by simp))
          | cons_cons _ _ => exact hc (List.singleton_sublist.mp h)

variable [LE β] [DecidableLE β] [Std.IsLinearPreorder β] {f : α → β}

/-- Sorting by a key orders the list by the key, and members of one f as they were. -/
theorem pairwise_stable {R : α → α → Prop} {l : List α} (hl : l.Nodup) (hR : l.Pairwise R) :
    (l.mergeSort fun a b => decide (f a ≤ f b)).Pairwise fun a b => f a ≤ f b ∧ (f b ≤ f a → R a b) := by
  set le : α → α → Bool := fun a b => decide (f a ≤ f b) with hle
  have htrans : ∀ a b c, le a b → le b c → le a c := by
    intro a b c hab hbc
    exact decide_eq_true (Std.le_trans (of_decide_eq_true hab) (of_decide_eq_true hbc))
  have htotal : ∀ a b, le a b || le b a := by
    intro a b
    simpa [hle] using Std.le_total (a := f a) (b := f b)
  have hsorted := List.pairwise_mergeSort htrans htotal l
  have hnodup : (l.mergeSort le).Nodup := (List.mergeSort_perm l le).nodup_iff.mpr hl
  refine List.pairwise_iff_forall_sublist.mpr fun {a b} hab => ?_
  refine ⟨of_decide_eq_true (List.pairwise_iff_forall_sublist.mp hsorted hab), fun hback => ?_⟩
  have hne : a ≠ b := List.pairwise_iff_forall_sublist.mp hnodup hab
  have ha : a ∈ l := List.mem_mergeSort.mp (hab.subset (by simp))
  have hb : b ∈ l := List.mem_mergeSort.mp (hab.subset (by simp))
  rcases pair_sublist ha hb hne with h | h
  · exact List.pairwise_iff_forall_sublist.mp hR h
  · -- The sort keeps the other order too, for the keys are equal.
    have hkept := List.pair_sublist_mergeSort htrans htotal (decide_eq_true hback) h
    exact absurd hkept (not_sublist_swap hnodup hab)

/-- The sorted list of keys is ascending. -/
theorem pairwise_sorted (l : List β) : (l.mergeSort fun a b => decide (a ≤ b)).Pairwise (· ≤ ·) := by
  refine (List.pairwise_mergeSort (fun a b c hab hbc => ?_) (fun a b => ?_) l).imp of_decide_eq_true
  · exact decide_eq_true (Std.le_trans (of_decide_eq_true hab) (of_decide_eq_true hbc))
  · simpa using Std.le_total (a := a) (b := b)

/-- The element `c` from the end of a sorted list has at least `c` elements not below it. -/
theorem le_countP_of_sorted {l : List β} (hl : l.Pairwise (· ≤ ·)) {c : Nat} (hc : c ≤ l.length) {x : β}
    (hx : l[l.length - c]? = some x) : c ≤ l.countP fun y => decide (x ≤ y) := by
  have hlast : ∀ y ∈ l.drop (l.length - c), x ≤ y := by
    intro y hy
    obtain ⟨i, hi, rfl⟩ := List.mem_drop_iff_getElem.mp hy
    obtain ⟨hlt, rfl⟩ := List.getElem?_eq_some_iff.mp hx
    rcases Nat.eq_zero_or_pos i with rfl | hpos
    · exact Std.le_refl _
    · exact List.pairwise_iff_getElem.mp hl _ _ _ _ (by omega)
  calc c = (l.drop (l.length - c)).length := by rw [List.length_drop]; omega
    _ = (l.drop (l.length - c)).countP fun y => decide (x ≤ y) :=
      (List.countP_eq_length.mpr fun y hy => decide_eq_true (hlast y hy)).symm
    _ ≤ l.countP fun y => decide (x ≤ y) := (List.drop_sublist _ l).countP_le

end LeanBbg.Sort
