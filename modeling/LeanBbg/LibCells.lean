import Mathlib

/-! Structures made of addressed cells, and logs of their old values. A write changes the cell at its
address and no other; a computation whose writes stay within a set of addresses leaves the other cells
alone; and putting back the old value of every cell of the set restores all cells. -/

namespace LeanBbg

/-- A cell for every address, each holding a value of its own type or nothing. -/
class Cells (B : Type) (A : outParam Type) (Val : outParam (A → Type)) where
  get : (a : A) → B → Option (Val a)
  put : (a : A) → Option (Val a) → B → B
  get_put_self : ∀ a v b, get a (put a v b) = v
  get_put_other : ∀ a a' v b, a ≠ a' → get a' (put a v b) = get a' b

namespace Cells

variable {B A : Type} {Val : A → Type} [Cells B A Val]

/-- The two structures differ at the addresses of `S` only. -/
def Within (S : Set A) (b b' : B) : Prop := ∀ a ∉ S, get a b' = get a b

variable {S : Set A} {b b₁ b₂ b₀ : B}

theorem Within.refl : Within S b b := fun _ _ => rfl

theorem Within.trans (h : Within S b b₁) (h' : Within S b₁ b₂) : Within S b b₂ := fun a ha =>
  (h' a ha).trans (h a ha)

theorem Within.mono {S' : Set A} (h : Within S b b₁) (hsub : S ⊆ S') : Within S' b b₁ := fun a ha =>
  h a fun hmem => ha (hsub hmem)

theorem within_put {a : A} (ha : a ∈ S) (v : Option (Val a)) : Within S b (put a v b) := by
  intro a' ha'
  exact get_put_other a a' v b fun heq => ha' (heq ▸ ha)

variable [DecidableEq A]

/-- Put back the cells of `b₀` at a list of addresses. -/
def restoreFrom (b₀ : B) (addrs : List A) (b : B) : B := addrs.foldl (fun b a => put a (get a b₀) b) b

theorem get_restoreFrom (addrs : List A) (b : B) (a : A) :
    get a (restoreFrom b₀ addrs b) = if a ∈ addrs then get a b₀ else get a b := by
  induction addrs generalizing b with
  | nil => simp [restoreFrom]
  | cons x addrs ih =>
      rw [restoreFrom, List.foldl_cons]
      change get a (restoreFrom b₀ addrs _) = _
      rw [ih]
      by_cases hmem : a ∈ addrs
      · rw [if_pos hmem, if_pos (List.mem_cons_of_mem _ hmem)]
      · rw [if_neg hmem]
        by_cases hx : x = a
        · subst hx
          rw [if_pos (List.mem_cons_self ..), get_put_self]
        · rw [get_put_other _ _ _ _ hx, if_neg]
          rintro (_ | ⟨_, hmem'⟩)
          · exact hx rfl
          · exact hmem hmem'

/-- Restoring the cells that may have changed gives back every cell. -/
theorem Within.get_restoreFrom {addrs : List A} (h : Within {a | a ∈ addrs} b₀ b) (a : A) :
    get a (restoreFrom b₀ addrs b) = get a b₀ := by
  rw [Cells.get_restoreFrom]
  split_ifs with hmem
  · rfl
  · exact h a hmem

end Cells

end LeanBbg
