import Mathlib

/-! Hash chains: left folds of a two-input compression from an initial value. When the compression is
injective and never outputs an initial value, a chain value determines its initial value and all its
blocks, whatever their number. -/

namespace LeanBbg.Chain

variable {α : Type}

/-- A compression treated symbolically: injective, and none of its outputs is an initial value. -/
structure Free (c : α → α → α) (Initial : α → Prop) : Prop where
  injective : Function.Injective2 c
  notInitial : ∀ a b, ¬Initial (c a b)

theorem Free.foldl_injective {c : α → α → α} {Initial : α → Prop} (h : Free c Initial) {iv iv' : α}
    (hiv : Initial iv) (hiv' : Initial iv') {xs xs' : List α} (heq : xs.foldl c iv = xs'.foldl c iv') :
    iv = iv' ∧ xs = xs' := by
  induction xs using List.reverseRecOn generalizing xs' with
  | nil =>
      rcases List.eq_nil_or_concat xs' with rfl | ⟨front, last, rfl⟩
      · exact ⟨heq, rfl⟩
      · rw [List.concat_eq_append, List.foldl_append, List.foldl_cons, List.foldl_nil, List.foldl_nil] at heq
        rw [heq] at hiv
        exact absurd hiv (h.notInitial _ _)
  | append_singleton xs x ih =>
      rcases List.eq_nil_or_concat xs' with rfl | ⟨front, last, rfl⟩
      · rw [List.foldl_append, List.foldl_cons, List.foldl_nil, List.foldl_nil] at heq
        rw [← heq] at hiv'
        exact absurd hiv' (h.notInitial _ _)
      · rw [List.concat_eq_append, List.foldl_append, List.foldl_append] at heq
        obtain ⟨hfront, hlast⟩ := h.injective heq
        obtain ⟨hstart, hblocks⟩ := ih hfront
        exact ⟨hstart, by rw [List.concat_eq_append, hblocks, hlast]⟩

end LeanBbg.Chain
