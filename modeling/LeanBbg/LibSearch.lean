import Mathlib

/-! Binary search in a list. In a list on which the comparison is strictly ascending it finds the element
that compares equal, whenever there is one. -/

namespace LeanBbg.Search

variable {α : Type}

/-- The loop of the search: the half that cannot hold an equal element is dropped until one is left. -/
def searchLoop (f : α → Ordering) (l : List α) (base size : Nat) : Nat :=
  if size ≤ 1 then base
  else
    let half := size / 2
    let mid := base + half
    searchLoop f l (if (l[mid]?.map f) = some .gt then base else mid) (size - half)
termination_by size

/-- An element that compares equal. -/
def binarySearch (f : α → Ordering) (l : List α) : Option α :=
  l[searchLoop f l 0 l.length]?.filter fun x => f x == .eq

/-- Once an element does not compare less, all later ones compare greater. -/
def Ascending (f : α → Ordering) (l : List α) : Prop := l.Pairwise fun x y => f x ≠ .lt → f y = .gt

variable {f : α → Ordering} {l : List α}

theorem Ascending.gt_of_lt (h : Ascending f l) {i j : Nat} {x y : α} (hx : l[i]? = some x) (hy : l[j]? = some y)
    (hij : i < j) (hle : f x ≠ .lt) : f y = .gt := by
  obtain ⟨hi, rfl⟩ := List.getElem?_eq_some_iff.mp hx
  obtain ⟨hj, rfl⟩ := List.getElem?_eq_some_iff.mp hy
  exact List.pairwise_iff_getElem.mp h i j hi hj hij hle

/-- The place of an equal element stays within the part that is searched. -/
theorem searchLoop_eq (h : Ascending f l) {i : Nat} {x : α} (hx : l[i]? = some x) (heq : f x = .eq) {base size : Nat}
    (hlen : base + size ≤ l.length) (hbase : base ≤ i) (hsize : i < base + size) :
    searchLoop f l base size = i := by
  induction size using Nat.strong_induction_on generalizing base with
  | _ size ih =>
      rw [searchLoop]
      split_ifs with hone
      · omega
      · dsimp only
        split_ifs with hgt
        · obtain ⟨y, hy, hfy⟩ := Option.map_eq_some_iff.mp hgt
          have hlt : i < base + size / 2 := by
            by_contra hle
            rcases Nat.lt_or_eq_of_le (not_lt.mp hle) with hlt | hsame
            · have hgt := h.gt_of_lt hy hx hlt (by simp [hfy])
              simp [heq] at hgt
            · rw [hsame, hx] at hy
              obtain rfl := Option.some_inj.mp hy
              simp [heq] at hfy
          exact ih _ (by omega) (by omega) hbase (by omega)
        · have hle : base + size / 2 ≤ i := by
            by_contra hlt
            have hmid := List.getElem?_eq_getElem (show base + size / 2 < l.length by omega)
            have hgt' := h.gt_of_lt hx hmid (not_le.mp hlt) (by simp [heq])
            exact hgt (by rw [hmid, Option.map_some, hgt'])
          exact ih _ (by omega) (by omega) hle (by omega)

/-- The search finds exactly the element that compares equal. -/
theorem binarySearch_eq_some_iff (h : Ascending f l) {x : α} : binarySearch f l = some x ↔ x ∈ l ∧ f x = .eq := by
  rw [binarySearch, Option.filter_eq_some_iff]
  constructor
  · rintro ⟨hx, heq⟩
    exact ⟨List.mem_of_getElem? hx, by simpa using heq⟩
  · rintro ⟨hmem, heq⟩
    obtain ⟨i, hx⟩ := List.mem_iff_getElem?.mp hmem
    obtain ⟨hi, -⟩ := List.getElem?_eq_some_iff.mp hx
    rw [searchLoop_eq h hx heq (by omega) (Nat.zero_le i) (by omega)]
    exact ⟨hx, by simp [heq]⟩

end LeanBbg.Search
