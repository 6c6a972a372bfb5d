import LeanBbg.Field

/-! Symbolic field elements: a number or an output of the compression, which remembers its inputs.
Over them `compress4` is free, so the symbolic reading of the compression is consistent, and tries
over them can be evaluated. -/

namespace LeanBbg

/-- A reduced number, or element `i` of the compression of eight elements. -/
inductive Term where
  | num (v : UInt64)
  | out (i : Fin 4) (x₀ x₁ x₂ x₃ x₄ x₅ x₆ x₇ : Term)
  deriving DecidableEq

namespace Term

def permute (s : Vector Term 16) : Vector Term 16 :=
  Vector.ofFn fun i =>
    if h : i.val < 4 then .out ⟨i.val, h⟩ s[0] s[1] s[2] s[3] s[4] s[5] s[6] s[7] else .num 0

instance : Hemera Term where
  new v := .num (if v.toNat < P then v else v - UInt64.ofNat P)
  asU64
    | .num v => v
    | .out _ _ _ _ _ _ _ _ _ => 0
  permute := permute
  hash _ := Vector.replicate 32 0
  hash_canonical := canonicalDigest_zero

theorem compress4_getElem (a b : Digest Term) (i : Nat) (hi : i < 4) :
    (compress4 a b)[i] = .out ⟨i, hi⟩ a[0] a[1] a[2] a[3] b[0] b[1] b[2] b[3] := by
  have hpermute : (Hemera.permute : Vector Term 16 → Vector Term 16) = permute := rfl
  rw [compress4, hpermute, Vector.getElem_ofFn, Vector.get_eq_getElem, permute, Vector.getElem_ofFn,
    dif_pos hi]
  have hleft : ∀ n (hn : n < 4), (a ++ b ++ Vector.replicate 8 (zero : Term))[n] = a[n] := by
    intro n hn
    rw [Vector.getElem_append_left (by omega), Vector.getElem_append_left hn]
  have hright : ∀ n (hn : n < 4), (a ++ b ++ Vector.replicate 8 (zero : Term))[4 + n] = b[n] := by
    intro n hn
    rw [Vector.getElem_append_left (by omega), Vector.getElem_append_right (by omega) (by omega)]
    simp
  rw [Term.out.injEq]
  exact ⟨rfl, hleft 0 (by decide), hleft 1 (by decide), hleft 2 (by decide), hleft 3 (by decide),
    hright 0 (by decide), hright 1 (by decide), hright 2 (by decide), hright 3 (by decide)⟩

/-- The first element of a compression output is not a number. -/
theorem compress4_ne_of_num {a b d : Digest Term} {v : UInt64} (hd : d[0] = .num v) : compress4 a b ≠ d := by
  intro h
  have h₀ := compress4_getElem a b 0 (by decide)
  rw [h, hd] at h₀
  cases h₀

theorem symbolic : Symbolic Term where
  new_injective := by
    intro a b ha hb h
    have h' : Term.num (if a.toNat < P then a else a - UInt64.ofNat P) =
      .num (if b.toNat < P then b else b - UInt64.ofNat P) := h
    rw [if_pos ha, if_pos hb] at h'
    exact Term.num.inj h'
  free :=
    { injective := by
        intro a a' b b' h
        have h₀ := compress4_getElem a b 0 (by decide)
        rw [h, compress4_getElem] at h₀
        simp only [Term.out.injEq, true_and] at h₀
        obtain ⟨h₁, h₂, h₃, h₄, h₅, h₆, h₇, h₈⟩ := h₀
        constructor
        · apply Vector.ext
          intro i hi
          match i, hi with
          | 0, _ => exact h₁.symm
          | 1, _ => exact h₂.symm
          | 2, _ => exact h₃.symm
          | 3, _ => exact h₄.symm
        · apply Vector.ext
          intro i hi
          match i, hi with
          | 0, _ => exact h₅.symm
          | 1, _ => exact h₆.symm
          | 2, _ => exact h₇.symm
          | 3, _ => exact h₈.symm
      notInitial := by
        rintro a b (⟨len, h⟩ | ⟨bit, h⟩ | h)
        · exact compress4_ne_of_num rfl h
        · exact compress4_ne_of_num rfl h
        · exact compress4_ne_of_num rfl h }
  notEmpty := fun _ _ => compress4_ne_of_num rfl

end Term

end LeanBbg
