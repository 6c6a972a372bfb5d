import LeanBbg.LibBytes

/-! Byte strings in lexicographic order. Big-endian numbers of one width are in the order of their values. The
strings that begin as given are those from it up to the least string
above all of them, which there is unless every byte is 255. -/

namespace LeanBbg.Bytes

theorem compare_cons_eq_lt {a b : UInt8} {as bs : List UInt8} :
    compare (a :: as) (b :: bs) = .lt ↔ a < b ∨ a = b ∧ compare as bs = .lt := by
  rw [List.compare_cons_cons, Ordering.then_eq_lt, Std.compare_eq_lt, Std.LawfulEqCmp.compare_eq_iff_eq]

theorem compare_append_left (l xs ys : List UInt8) : compare (l ++ xs) (l ++ ys) = compare xs ys := by
  induction l with
  | nil => rfl
  | cons a l ih =>
      rw [List.cons_append, List.cons_append, List.compare_cons_cons, @Std.ReflCmp.compare_self _ compare, ih]
      rfl

/-- The order of two strings of one length is that of every extension of them. -/
theorem compare_append_of_lt {xs ys : List UInt8} (hlen : xs.length = ys.length) (h : compare xs ys = .lt)
    (s t : List UInt8) : compare (xs ++ s) (ys ++ t) = .lt := by
  induction xs generalizing ys with
  | nil =>
      obtain rfl := List.length_eq_zero_iff.mp hlen.symm
      cases h
  | cons x xs ih =>
      cases ys with
      | nil => cases hlen
      | cons y ys =>
          rw [List.cons_append, List.cons_append, compare_cons_eq_lt]
          rcases compare_cons_eq_lt.mp h with hlt | ⟨rfl, hrest⟩
          · exact .inl hlt
          · exact .inr ⟨rfl, ih (Nat.succ.inj hlen) hrest⟩

/-- Of two little-endian strings of one length, read backwards, the smaller value is before the other. -/
theorem compare_reverse_of_leValue_lt {xs ys : List UInt8} (hlen : xs.length = ys.length)
    (h : leValue xs < leValue ys) : compare xs.reverse ys.reverse = .lt := by
  induction xs generalizing ys with
  | nil =>
      obtain rfl := List.length_eq_zero_iff.mp hlen.symm
      exact absurd h (Nat.lt_irrefl _)
  | cons x xs ih =>
      cases ys with
      | nil => cases hlen
      | cons y ys =>
          have hx := x.toNat_lt
          have hy := y.toNat_lt
          have hlen' : xs.length = ys.length := Nat.succ.inj hlen
          rw [leValue, leValue] at h
          rw [List.reverse_cons, List.reverse_cons]
          -- The last byte of the reversed strings counts only when the others are equal.
          rcases Nat.lt_trichotomy (leValue xs) (leValue ys) with hlt | heq | hgt
          · exact compare_append_of_lt (by rw [List.length_reverse, List.length_reverse, hlen']) (ih hlen' hlt) _ _
          · obtain rfl := leValue_injective hlen' heq
            rw [compare_append_left, compare_cons_eq_lt]
            exact .inl (UInt8.lt_iff_toNat_lt.mpr (by omega))
          · omega

theorem isLE_compare_cons {a b : UInt8} {as bs : List UInt8} :
    (compare (a :: as) (b :: bs)).isLE = true ↔ a < b ∨ a = b ∧ (compare as bs).isLE = true := by
  rw [List.compare_cons_cons]
  rcases UInt8.lt_or_le a b with hlt | hle
  · rw [Std.compare_eq_lt.mpr hlt]
    exact iff_of_true rfl (.inl hlt)
  · rcases UInt8.lt_or_eq_of_le hle with hgt | rfl
    · rw [Std.compare_eq_gt.mpr hgt]
      refine iff_of_false nofun ?_
      rintro (hlt | ⟨rfl, -⟩)
      · exact UInt8.lt_asymm hlt hgt
      · exact UInt8.lt_irrefl _ hgt
    · rw [@Std.ReflCmp.compare_self _ compare]
      constructor
      · exact fun h => .inr ⟨rfl, h⟩
      · rintro (hlt | ⟨-, h⟩)
        · exact absurd hlt (UInt8.lt_irrefl _)
        · exact h

/-- A string begins as itself and every string above it up to its own end. -/
theorem isLE_compare_of_begins {pre key : List UInt8} (h : pre <+: key) : (compare pre key).isLE = true := by
  induction pre generalizing key with
  | nil => cases key <;> rfl
  | cons byte pre ih =>
      cases key with
      | nil => simp at h
      | cons b key =>
          obtain ⟨rfl, hrest⟩ := List.cons_prefix_cons.mp h
          exact isLE_compare_cons.mpr (.inr ⟨rfl, ih hrest⟩)

/-- The strings from the greatest bytes on begin with them. -/
theorem prefix_of_replicate_le {n : Nat} {key : List UInt8} (h : (compare (List.replicate n 255) key).isLE = true) :
    List.replicate n 255 <+: key := by
  induction n generalizing key with
  | zero => exact List.nil_prefix
  | succ n ih =>
      cases key with
      | nil => cases h
      | cons b key =>
          rcases isLE_compare_cons.mp h with hlt | ⟨rfl, hrest⟩
          · have := UInt8.lt_iff_toNat_lt.mp hlt
            have := b.toNat_lt
            simp at *
            omega
          · exact List.cons_prefix_cons.mpr ⟨rfl, ih hrest⟩

theorem lt_add_one_iff {a b : UInt8} (hb : b ≠ 255) : a < b + 1 ↔ a ≤ b := by
  have hne : b.toNat ≠ 255 := fun h => hb (UInt8.toNat_inj.mp h)
  have hlt := b.toNat_lt
  rw [UInt8.lt_iff_toNat_lt, UInt8.le_iff_toNat_le, UInt8.toNat_add, UInt8.toNat_one, Nat.mod_eq_of_lt (by omega)]
  omega

/-- Between a string and the least one above all that begin as it does lie exactly those. -/
theorem prefix_iff_between {stem : List UInt8} {byte : UInt8} (hbyte : byte ≠ 255) {n : Nat} {key : List UInt8} :
    stem ++ byte :: List.replicate n 255 <+: key ↔
      (compare (stem ++ byte :: List.replicate n 255) key).isLE = true ∧ compare key (stem ++ [byte + 1]) = .lt := by
  induction stem generalizing key with
  | nil =>
      cases key with
      | nil => exact iff_of_false (by simp) fun h => nomatch h.1
      | cons b key =>
          rw [List.nil_append, List.nil_append, isLE_compare_cons, compare_cons_eq_lt, List.cons_prefix_cons,
            lt_add_one_iff hbyte]
          constructor
          · rintro ⟨rfl, hpre⟩
            exact ⟨.inr ⟨rfl, isLE_compare_of_begins hpre⟩, .inl (UInt8.le_refl _)⟩
          · rintro ⟨hle, hlt⟩
            have hb : b ≤ byte := by
              rcases hlt with hlt | ⟨-, hlt⟩
              · exact hlt
              · cases key <;> cases hlt
            rcases hle with hlt | ⟨rfl, hrest⟩
            · exact absurd (UInt8.lt_of_lt_of_le hlt hb) (UInt8.lt_irrefl _)
            · exact ⟨rfl, prefix_of_replicate_le hrest⟩
  | cons first stem ih =>
      cases key with
      | nil => exact iff_of_false (by simp) fun h => nomatch h.1
      | cons b key =>
          rw [List.cons_append, List.cons_append, isLE_compare_cons, compare_cons_eq_lt, List.cons_prefix_cons, ih]
          constructor
          · rintro ⟨rfl, hle, hlt⟩
            exact ⟨.inr ⟨rfl, hle⟩, .inr ⟨rfl, hlt⟩⟩
          · rintro ⟨hle | ⟨rfl, hle⟩, hlt | ⟨heq, hlt⟩⟩
            · exact absurd (UInt8.lt_trans hle hlt) (UInt8.lt_irrefl _)
            · exact absurd (heq ▸ hle) (UInt8.lt_irrefl _)
            · exact absurd hlt (UInt8.lt_irrefl _)
            · exact ⟨rfl, hle, hlt⟩

/-- Dropping greatest bytes from the front leaves nothing, or stops at a smaller one. -/
theorem dropWhile_cases (l : List UInt8) : (l.dropWhile (· == 255) = [] ∧ l = List.replicate l.length 255) ∨
    ∃ n byte rest, l.dropWhile (· == 255) = byte :: rest ∧ byte ≠ 255 ∧ l = List.replicate n 255 ++ byte :: rest := by
  induction l with
  | nil => exact .inl ⟨rfl, rfl⟩
  | cons first l ih =>
      by_cases hfirst : first = 255
      · subst hfirst
        have hdrop : (255 :: l).dropWhile (· == (255 : UInt8)) = l.dropWhile (· == 255) := rfl
        rw [hdrop]
        rcases ih with ⟨hnil, hl⟩ | ⟨n, byte, rest, hrest, hbyte, hl⟩
        · refine .inl ⟨hnil, ?_⟩
          rw [List.length_cons, List.replicate_succ, ← hl]
        · exact .inr ⟨n + 1, byte, rest, hrest, hbyte, by rw [List.replicate_succ, List.cons_append, ← hl]⟩
      · refine .inr ⟨0, first, l, ?_, hfirst, rfl⟩
        rw [List.dropWhile_cons_of_neg]
        simpa using hfirst

end LeanBbg.Bytes
