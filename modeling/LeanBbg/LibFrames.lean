import LeanBbg.LibBytes

/-! Encodings that end where they say. A sequence of such encodings is read back one element at a time, so the whole
sequence is determined by its bytes. -/

namespace LeanBbg.Bytes

variable {α β : Type}

/-- On some elements, an encoding followed by anything determines the element and what follows. -/
def SelfDelimiting (f : α → List β) (S : α → Prop) : Prop :=
  ∀ a a' rest rest', S a → S a' → f a ++ rest = f a' ++ rest' → a = a' ∧ rest = rest'

/-- A list is determined by the concatenation of encodings that end where they say. -/
theorem SelfDelimiting.flatMap_injective {f : α → List β} {S : α → Prop} (hf : SelfDelimiting f S)
    (hne : ∀ a, f a ≠ []) {l l' : List α} (hl : ∀ a ∈ l, S a) (hl' : ∀ a ∈ l', S a)
    (h : l.flatMap f = l'.flatMap f) : l = l' := by
  induction l generalizing l' with
  | nil =>
      cases l' with
      | nil => rfl
      | cons a' l' => exact absurd (List.append_eq_nil_iff.mp h.symm).1 (hne a')
  | cons a l ih =>
      cases l' with
      | nil => exact absurd (List.append_eq_nil_iff.mp h).1 (hne a)
      | cons a' l' =>
          obtain ⟨ha, htail⟩ := List.forall_mem_cons.mp hl
          obtain ⟨ha', htail'⟩ := List.forall_mem_cons.mp hl'
          obtain ⟨rfl, hrest⟩ := hf a a' _ _ ha ha' h
          rw [ih htail htail' hrest]

/-- Bytes behind their length end where they say. -/
theorem cancel_counted {bytes bytes' rest rest' : List UInt8} (hlen : bytes.length < 2 ^ 64)
    (hlen' : bytes'.length < 2 ^ 64)
    (h : leBytes 8 bytes.length ++ (bytes ++ rest) = leBytes 8 bytes'.length ++ (bytes' ++ rest')) :
    bytes = bytes' ∧ rest = rest' := by
  obtain ⟨hcount, h⟩ := List.append_inj h (by simp)
  exact List.append_inj h (leBytes_injective hlen hlen' hcount)

/-- The beginning of a sequence of encodings is some whole ones and a proper beginning of the next. -/
theorem exists_take_flatMap (f : α → List β) (l : List α) (k : Nat) :
    ∃ m ≤ l.length, ∃ front, (l.flatMap f).take k = (l.take m).flatMap f ++ front ∧
      (front = [] ∨ ∃ a ∈ l, front <+: f a ∧ front ≠ f a) ∧
      ∀ d ≤ l.length, ((l.take d).flatMap f).length ≤ k → d ≤ m := by
  induction l generalizing k with
  | nil => exact ⟨0, Nat.le_refl _, [], by simp, .inl rfl, fun d hd _ => hd⟩
  | cons a l ih =>
      by_cases hk : (f a).length ≤ k
      · obtain ⟨m, hm, front, htake, hfront, hwhole⟩ := ih (k - (f a).length)
        refine ⟨m + 1, Nat.succ_le_succ hm, front, ?_, ?_, fun d hd hlen => ?_⟩
        · rw [List.flatMap_cons, List.take_append, List.take_of_length_le hk, htake, List.take_succ_cons,
            List.flatMap_cons, List.append_assoc]
        · exact hfront.imp_right fun ⟨a, ha, h⟩ => ⟨a, List.mem_cons_of_mem _ ha, h⟩
        · cases d with
          | zero => exact Nat.zero_le _
          | succ d =>
              rw [List.take_succ_cons, List.flatMap_cons, List.length_append] at hlen
              exact Nat.succ_le_succ (hwhole d (Nat.le_of_succ_le_succ hd) (by omega))
      · refine ⟨0, Nat.zero_le _, (f a).take k, ?_, ?_, fun d _ hlen => ?_⟩
        · rw [List.flatMap_cons, List.take_append_of_le_length (by omega), List.take_zero, List.flatMap_nil,
            List.nil_append]
        · refine .inr ⟨a, List.mem_cons_self, List.take_prefix _ _, fun heq => ?_⟩
          have := congrArg List.length heq
          rw [List.length_take] at this
          omega
        · cases d with
          | zero => exact Nat.le_refl _
          | succ d =>
              rw [List.take_succ_cons, List.flatMap_cons, List.length_append] at hlen
              omega

end LeanBbg.Bytes
