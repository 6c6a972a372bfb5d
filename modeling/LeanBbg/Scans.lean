import LeanBbg.Database
import LeanBbg.LibPrefix

/-! Bounds of a scan: the rows between them are those whose keys begin as asked and come after the cursor. -/

namespace LeanBbg.Storage

open Bytes

/-- The key of a bound, if it has one. -/
def Bound.key? : Bound → Option (List UInt8)
  | included key => some key
  | excluded key => some key
  | unbounded => none

/-- The key begins as asked and comes after the cursor. -/
def Selected (after : Option (List UInt8)) (pre key : List UInt8) : Prop :=
  pre <+: key ∧ ∀ a ∈ after, compare a key = .lt

theorem scanUpper_cases (pre : List UInt8) : (scanUpper pre = none ∧ pre = List.replicate pre.length 255) ∨
    ∃ stem byte n, scanUpper pre = some (stem ++ [byte + 1]) ∧ byte ≠ 255 ∧ pre = stem ++ byte :: List.replicate n 255 := by
  rcases dropWhile_cases pre.reverse with ⟨hdrop, hpre⟩ | ⟨n, byte, rest, hdrop, hbyte, hpre⟩
  · refine .inl ⟨by rw [scanUpper, hdrop], ?_⟩
    rw [← List.reverse_inj, hpre, List.reverse_replicate, List.length_reverse]
  · refine .inr ⟨rest.reverse, byte, n, ?_, hbyte, ?_⟩
    · rw [scanUpper, hdrop]
      dsimp only
      rw [List.reverse_cons]
    · rw [← List.reverse_inj, hpre]
      simp

/-- The keys that begin as asked are those from it up to the upper bound, if there is one. -/
theorem prefix_iff (pre key : List UInt8) :
    pre <+: key ↔ (compare pre key).isLE = true ∧ ∀ upper ∈ scanUpper pre, compare key upper = .lt := by
  rcases scanUpper_cases pre with ⟨hnone, hpre⟩ | ⟨stem, byte, n, hsome, hbyte, hpre⟩
  · rw [hnone]
    refine ⟨fun h => ⟨isLE_compare_of_begins h, nofun⟩, fun h => ?_⟩
    rw [hpre] at h ⊢
    exact prefix_of_replicate_le h.1
  · rw [hsome, hpre, prefix_iff_between hbyte]
    simp

theorem lt_scanUpper {pre upper : List UInt8} (h : scanUpper pre = some upper) : compare pre upper = .lt :=
  ((prefix_iff pre pre).mp (List.prefix_refl pre)).2 upper h

theorem above_iff (pre key : List UInt8) :
    ((match scanUpper pre with
      | some upper => Bound.excluded upper
      | none => .unbounded).above key = true) ↔ ∀ upper ∈ scanUpper pre, compare key upper = .lt := by
  cases scanUpper pre with
  | none => simp [Bound.above]
  | some upper => simp [Bound.above, Ordering.isLT_iff_eq_lt]

/-- Where the bounds of a scan start. -/
def scanStart (after : Option (List UInt8)) (pre : List UInt8) : Bound :=
  match after with
  | some after =>
      if pre = [] ∨ (compare after pre).isGE then .excluded after
      else if pre ≠ [] then .included pre
      else .unbounded
  | none => if pre ≠ [] then .included pre else .unbounded

/-- From the start on, keys are after the cursor and not below the string they shall begin with. -/
theorem below_scanStart (after : Option (List UInt8)) (pre key : List UInt8) :
    (scanStart after pre).below key = true ↔
      (compare pre key).isLE = true ∧ ∀ a ∈ after, compare a key = .lt := by
  have hnil : (compare [] key).isLE = true := isLE_compare_of_begins List.nil_prefix
  cases after with
  | none =>
      rw [scanStart]
      split_ifs with hpre
      · exact ⟨fun h => ⟨h, nofun⟩, fun h => h.1⟩
      · rw [not_not.mp hpre]
        exact iff_of_true rfl ⟨hnil, nofun⟩
  | some a =>
      rw [scanStart]
      split_ifs with hpast hpre
      · rw [Bound.below, Ordering.isLT_iff_eq_lt]
        constructor
        · intro hlt
          refine ⟨?_, fun a' ha' => Option.some_inj.mp ha' ▸ hlt⟩
          rcases hpast with rfl | hge
          · exact hnil
          · exact Std.TransCmp.isLE_trans (Std.OrientedCmp.isGE_iff_isLE.mp hge) (Ordering.isLE_of_eq_lt hlt)
        · exact fun h => h.2 a rfl
      · rw [not_or] at hpast
        constructor
        · intro hle
          refine ⟨hle, fun a' ha' => ?_⟩
          obtain rfl := Option.some_inj.mp ha'
          have hlt : compare a pre = .lt := by
            cases hcmp : compare a pre with
            | lt => rfl
            | eq => exact absurd (by rw [hcmp]; rfl) hpast.2
            | gt => exact absurd (by rw [hcmp]; rfl) hpast.2
          exact Std.TransCmp.lt_of_lt_of_isLE hlt hle
        · exact fun h => h.1
      · exact absurd (.inl (not_not.mp hpre)) hpast

/-- The start of a scan lies below its end. -/
theorem scanStart_lt {after : Option (List UInt8)} {pre upper lo : List UInt8} (hupper : scanUpper pre = some upper)
    (hafter : ∀ a ∈ after, compare a upper = .lt) (hlo : (scanStart after pre).key? = some lo) :
    compare lo upper = .lt := by
  cases after with
  | none =>
      rw [scanStart] at hlo
      split_ifs at hlo
      · obtain rfl := Option.some_inj.mp hlo
        exact lt_scanUpper hupper
      · cases hlo
  | some a =>
      rw [scanStart] at hlo
      split_ifs at hlo
      · obtain rfl := Option.some_inj.mp hlo
        exact hafter _ rfl
      · obtain rfl := Option.some_inj.mp hlo
        exact lt_scanUpper hupper
      · cases hlo

/-- The bounds of a scan, for every cursor, prefix and key. Without bounds nothing is selected; bounds admit exactly
the selected keys, and the lower one is below the upper one. -/
theorem scanBounds_exact (after : Option (List UInt8)) (pre : List UInt8) :
    match scanBounds after pre with
    | none => ∀ key, ¬Selected after pre key
    | some (start, stop) =>
        (∀ key, (start.below key && stop.above key) = true ↔ Selected after pre key) ∧
          ∀ lo ∈ start.key?, ∀ hi ∈ stop.key?, compare lo hi = .lt := by
  have hbounds : scanBounds after pre =
      if (scanUpper pre).any fun upper => after.any fun after => (compare after upper).isGE then none
      else some (scanStart after pre, match scanUpper pre with
        | some upper => .excluded upper
        | none => .unbounded) := rfl
  rw [hbounds]
  split_ifs with hpast
  · -- The cursor is at the upper bound or past it.
    rintro key ⟨hpre, hafter⟩
    obtain ⟨upper, hupper, hany⟩ := (Option.any_eq_true _ _).mp hpast
    obtain ⟨a, ha, hge⟩ := (Option.any_eq_true _ _).mp hany
    have hlt := Std.TransCmp.lt_trans (hafter a ha) (((prefix_iff pre key).mp hpre).2 upper hupper)
    exact Ordering.isGE_iff_ne_lt.mp hge hlt
  · refine ⟨fun key => ?_, fun lo hlo hi hhi => ?_⟩
    · rw [Bool.and_eq_true, below_scanStart, above_iff, Selected, prefix_iff]
      exact and_right_comm
    · cases hupper : scanUpper pre with
      | none =>
          rw [hupper] at hhi
          cases hhi
      | some upper =>
          rw [hupper] at hhi hpast
          obtain rfl := Option.some_inj.mp hhi
          refine scanStart_lt hupper (fun a ha => ?_) hlo
          rw [Option.any_some, ha, Option.any_some, Bool.not_eq_true, Ordering.isGE_eq_false] at hpast
          exact hpast

end LeanBbg.Storage
