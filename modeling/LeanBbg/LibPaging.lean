import LeanBbg.LibMap

/-! Reading ordered rows page by page. A page is a run of the rows that come after a cursor, and it is empty only when
none is left; the key of its last row is the next cursor. Such pages are all the rows, each of them once. -/

set_option linter.unusedSectionVars false

namespace LeanBbg.Paging

open Std

variable {α κ ε : Type} [Ord κ] [TransOrd κ] {key : α → κ} {rows : List α}

/-- Rows with strictly increasing keys. -/
def Ascending (key : α → κ) (rows : List α) : Prop := rows.Pairwise fun a b => compare (key a) (key b) = .lt

/-- The rows after a cursor. -/
def left (key : α → κ) (rows : List α) (after : Option κ) : List α :=
  rows.filter fun row => after.all fun k => (compare k (key row)).isLT

/-- The pages one after another, each from the last key of the one before, until an empty one; none when the fuel
runs out. -/
def drain (key : α → κ) (page : Option κ → Except ε (List α)) : Nat → Option κ → Option (Except ε (List α))
  | 0, _ => none
  | fuel + 1, after =>
      match page after with
      | .error e => some (.error e)
      | .ok [] => some (.ok [])
      | .ok (row :: more) =>
          match drain key page fuel ((row :: more).getLast?.map key) with
          | none => none
          | some (.error e) => some (.error e)
          | some (.ok rest) => some (.ok (row :: more ++ rest))

/-- A page is a run of the rows after the cursor, and is empty only when there are none. -/
def IsPage (key : α → κ) (rows : List α) (after : Option κ) (answer : Except ε (List α)) : Prop :=
  ∃ page rest, answer = .ok page ∧ left key rows after = page ++ rest ∧ (page = [] → left key rows after = [])

@[simp] theorem left_none : left key rows none = rows := by
  simp [left]

theorem mem_of_mem_left {after : Option κ} {row : α} (h : row ∈ left key rows after) : row ∈ rows :=
  List.mem_of_mem_filter h

/-- The rows after one of the rows are those behind it. -/
theorem left_last (hrows : Ascending key rows) {after : Option κ} {before rest : List α} {last : α}
    (h : left key rows after = before ++ last :: rest) : left key rows (some (key last)) = rest := by
  have hincreasing : Ascending key (left key rows after) := List.Pairwise.filter _ hrows
  have hlast : last ∈ left key rows after := by
    rw [h]
    simp
  have hnested : left key rows (some (key last)) =
      (left key rows after).filter fun row => (compare (key last) (key row)).isLT := by
    rw [left, left, List.filter_filter]
    refine List.filter_congr fun row _ => ?_
    rw [Option.all_some]
    cases hlt : (compare (key last) (key row)).isLT with
    | false => rfl
    | true =>
        have hafter := (List.mem_filter.mp hlast).2
        cases after with
        | none => rfl
        | some k =>
            rw [Option.all_some] at hafter ⊢
            rw [Bool.true_and, TransCmp.lt_trans (Ordering.isLT_iff_eq_lt.mp hafter) (Ordering.isLT_iff_eq_lt.mp hlt)]
            rfl
  rw [h] at hincreasing
  obtain ⟨-, hcons, hbefore⟩ := List.pairwise_append.mp hincreasing
  obtain ⟨hafter, -⟩ := List.pairwise_cons.mp hcons
  rw [hnested, h, List.filter_append, List.filter_cons, @ReflCmp.compare_self _ compare, if_neg (by decide)]
  have hnil : before.filter (fun row => (compare (key last) (key row)).isLT) = [] := by
    rw [List.filter_eq_nil_iff]
    intro row hrow hlt
    have hcycle := TransCmp.lt_trans (hbefore row hrow last List.mem_cons_self) (Ordering.isLT_iff_eq_lt.mp hlt)
    rw [@ReflCmp.compare_self _ compare] at hcycle
    cases hcycle
  have hall : rest.filter (fun row => (compare (key last) (key row)).isLT) = rest := by
    rw [List.filter_eq_self]
    intro row hrow
    rw [hafter row hrow]
    rfl
  rw [hnil, hall, List.nil_append]

/-- A cursor of a reader: none at first, later the key of a row. -/
def Cursor (key : α → κ) (rows : List α) (after : Option κ) : Prop := ∀ k ∈ after, ∃ row ∈ rows, key row = k

/-- The pages enumerate the rows: in order and each once, with an empty page only at the end. -/
structure Enumerates (key : α → κ) (page : Option κ → Except ε (List α)) (rows : List α) : Prop where
  ascending : Ascending key rows
  pages : ∀ after, Cursor key rows after → IsPage key rows after (page after)
  complete : ∀ fuel, rows.length < fuel → drain key page fuel none = some (.ok rows)

theorem drain_eq (hrows : Ascending key rows) {page : Option κ → Except ε (List α)}
    (hpage : ∀ after, Cursor key rows after → IsPage key rows after (page after)) {fuel : Nat} {after : Option κ}
    (hafter : Cursor key rows after) (hfuel : (left key rows after).length < fuel) :
    drain key page fuel after = some (.ok (left key rows after)) := by
  induction fuel generalizing after with
  | zero => exact absurd hfuel (Nat.not_lt_zero _)
  | succ fuel ih =>
      obtain ⟨rows', rest, hanswer, hsplit, hempty⟩ := hpage after hafter
      rw [drain, hanswer]
      cases rows' with
      | nil => rw [hempty rfl]
      | cons row more =>
          obtain ⟨before, last, hconcat⟩ : ∃ before last, row :: more = before ++ [last] :=
            ⟨_, _, (List.dropLast_append_getLast (List.cons_ne_nil row more)).symm⟩
          have hsplit' : left key rows after = before ++ last :: rest := by
            rw [hsplit, hconcat, List.append_assoc, List.singleton_append]
          have hremaining := left_last hrows hsplit'
          have hmem : last ∈ left key rows after := by
            rw [hsplit']
            simp
          have hcursor : Cursor key rows (some (key last)) := by
            intro k hk
            exact ⟨last, mem_of_mem_left hmem, Option.some.inj hk⟩
          have hshorter : (left key rows (some (key last))).length < fuel := by
            rw [hsplit', List.length_append, List.length_cons] at hfuel
            rw [hremaining]
            omega
          have hnext : (row :: more).getLast?.map key = some (key last) := by
            rw [hconcat, List.getLast?_concat, Option.map_some]
          dsimp only
          rw [hnext, ih hcursor hshorter, hremaining, hsplit]

/-- Pages that are runs of the rows after their cursor enumerate the rows. -/
theorem enumerates_of_pages (hrows : Ascending key rows) {page : Option κ → Except ε (List α)}
    (hpage : ∀ after, Cursor key rows after → IsPage key rows after (page after)) : Enumerates key page rows where
  ascending := hrows
  pages := hpage
  complete fuel hfuel := by
    have hall := @drain_eq _ _ _ _ _ _ _ hrows page hpage fuel none nofun (by rw [left_none]; exact hfuel)
    rw [left_none] at hall
    exact hall

end LeanBbg.Paging
