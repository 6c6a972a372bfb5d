import Mathlib

/-! Steps that may fail and keep their state when they do: a step takes a state to a state, or to an error
together with the state at that point. A postcondition has one part for success and one for failure. -/

namespace LeanBbg.Attempt

variable {E P X : Type}

/-- Success ends in `Q`, failure in `R`. -/
def Post (Q R : P → Prop) : Except (E × P) P → Prop
  | .ok p => Q p
  | .error (_, p) => R p

variable {Q Q' R R' : P → Prop}

theorem Post.imp {x : Except (E × P) P} (h : Post Q R x) (hQ : ∀ p, Q p → Q' p) (hR : ∀ p, R p → R' p) :
    Post Q' R' x := by
  cases x with
  | ok p => exact hQ p h
  | error ep => exact hR ep.2 h

theorem Post.bind {x : Except (E × P) P} {f : P → Except (E × P) P} (h : Post Q' R x)
    (hf : ∀ p, Q' p → Post Q R (f p)) : Post Q R (x >>= f) := by
  cases x with
  | ok p => exact hf p h
  | error ep => exact h

/-- A loop keeps the invariant `I`, which its body keeps and which is kept by failures. -/
theorem post_foldlM {I : P → Prop} {f : P → X → Except (E × P) P} {l : List X}
    (hf : ∀ x ∈ l, ∀ p, I p → Post I I (f p x)) {p : P} (hp : I p) : Post I I (l.foldlM f p) := by
  induction l generalizing p with
  | nil => exact hp
  | cons x l ih =>
      rw [List.foldlM_cons]
      exact (hf x (List.mem_cons_self ..) p hp).bind fun p' hp' => ih (fun y hy => hf y (List.mem_cons_of_mem _ hy)) hp'

/-! ### Steps that drop their state when they fail -/

theorem exists_of_bind_ok {E α β : Type} {x : Except E α} {f : α → Except E β} {b : β} (h : (x >>= f) = .ok b) :
    ∃ a, x = .ok a ∧ f a = .ok b := by
  cases x with
  | error e => cases h
  | ok a => exact ⟨a, rfl, h⟩

/-- A loop that succeeds keeps every relation to its start that the body keeps. -/
theorem foldlM_ok {I : P → Prop} {f : P → X → Except E P} {l : List X} {p p' : P}
    (hf : ∀ x ∈ l, ∀ q q', I q → f q x = .ok q' → I q') (hp : I p) (h : l.foldlM f p = .ok p') : I p' := by
  induction l generalizing p with
  | nil =>
      obtain rfl := Except.ok.inj h
      exact hp
  | cons x l ih =>
      rw [List.foldlM_cons] at h
      obtain ⟨q, hq, hrest⟩ := exists_of_bind_ok h
      exact ih (fun y hy => hf y (List.mem_cons_of_mem _ hy)) (hf x (List.mem_cons_self ..) p q hp hq) hrest

theorem forall₂_of_mapM {Y : Type} {f : X → Except E Y} {l : List X} {l' : List Y} (h : l.mapM f = .ok l') :
    List.Forall₂ (fun x y => f x = .ok y) l l' := by
  induction l generalizing l' with
  | nil =>
      obtain rfl := Except.ok.inj h
      exact .nil
  | cons x l ih =>
      rw [List.mapM_cons] at h
      obtain ⟨y, hy, h⟩ := exists_of_bind_ok h
      obtain ⟨ys, hys, h⟩ := exists_of_bind_ok h
      obtain rfl := Except.ok.inj h
      exact .cons hy (ih hys)

end LeanBbg.Attempt
