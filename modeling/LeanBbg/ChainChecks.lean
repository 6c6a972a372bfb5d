import LeanBbg.Validation
import LeanBbg.RecordStream

/-! What the validators of stored history check row by row, and that it adds up to whole chains. A history in key
order passes the index check when every row but the first of its namespace has its predecessor. -/

namespace LeanBbg.Storage

open Bytes Attempt

/-! ### Local checks -/

/-- Every row of the five tables is well formed. -/
def WellFormed (v : View) : Prop := ∀ t ∈ TABLES, ∀ k x, v t k = some x → validateRecord t (k, x) = .ok ()

/-- The head that a row names is in the history, its commit is in the content, and it is not above the head of the
namespace. -/
structure Linked (v : View) (s : Particle) (head : Head) : Prop where
  recorded : v .history (historyKey s head.index) = some head.commit.toList
  content : v .content head.commit.toList ≠ none
  below : ∃ selected : Head, v .heads s.toList = some (encodeHead selected) ∧ head.index ≤ selected.index

/-- What is checked of the rows one at a time. -/
structure LocallyLinked (v : View) : Prop where
  heads : ∀ s head, v .heads s.toList = some (encodeHead head) → Linked v s head
  receipts : ∀ s r fingerprint head, v .requests (requestKey s r) = some (encodeRequest fingerprint head) → Linked v s head
  unique : ∀ s r r' fingerprint fingerprint' head head',
    v .requests (requestKey s r) = some (encodeRequest fingerprint head) →
    v .requests (requestKey s r') = some (encodeRequest fingerprint' head') → head.index = head'.index → r = r'
  history : ∀ s i (commit : Particle), v .history (historyKey s i) = some commit.toList → Linked v s ⟨i, commit⟩
  steps : ∀ s i, v .history (historyKey s i) ≠ none → i ≠ 0 → v .history (historyKey s (i - 1)) ≠ none
  covered : ∀ s i, v .history (historyKey s i) ≠ none → ∃ r fingerprint head,
    v .requests (requestKey s r) = some (encodeRequest fingerprint head) ∧ head.index = i

section Rows

variable {v : View}

theorem particle_of_length {bytes : List UInt8} (h : bytes.length = 32) : ∃ p : Particle, bytes = p.toList :=
  ⟨⟨bytes.toArray, by simpa using h⟩, rfl⟩

theorem WellFormed.head (h : WellFormed v) {k x : List UInt8} (hrow : v .heads k = some x) :
    ∃ (s : Particle) (head : Head), k = s.toList ∧ x = encodeHead head := by
  have hvalid := h .heads (by decide) k x hrow
  simp only [validateRecord, Bool.and_eq_true, decide_eq_true_eq] at hvalid
  split_ifs at hvalid with hok
  obtain ⟨s, rfl⟩ := particle_of_length hok.1
  cases hdecode : decodeHead x with
  | error e =>
      rw [hdecode] at hok
      cases hok.2
  | ok head => exact ⟨s, head, rfl, encodeHead_of_decodeHead hdecode⟩

theorem WellFormed.receipt (h : WellFormed v) {k x : List UInt8} (hrow : v .requests k = some x) :
    ∃ (s r fingerprint : Particle) (head : Head), k = requestKey s r ∧ x = encodeRequest fingerprint head := by
  have hvalid := h .requests (by decide) k x hrow
  simp only [validateRecord, Bool.and_eq_true, decide_eq_true_eq] at hvalid
  split_ifs at hvalid with hok
  obtain ⟨s, hs⟩ := @particle_of_length (k.take 32) (by rw [List.length_take]; omega)
  obtain ⟨r, hr⟩ := @particle_of_length (k.drop 32) (by rw [List.length_drop]; omega)
  cases hdecode : decodeRequest x with
  | error e =>
      rw [hdecode] at hok
      cases hok.2
  | ok request =>
      obtain ⟨fingerprint, head⟩ := request
      refine ⟨s, r, fingerprint, head, ?_, encodeRequest_of_decodeRequest hdecode⟩
      rw [requestKey, ← hs, ← hr, List.take_append_drop]

theorem WellFormed.recorded (h : WellFormed v) {k x : List UInt8} (hrow : v .history k = some x) :
    ∃ (s : Particle) (i : UInt64) (commit : Particle), k = historyKey s i ∧ x = commit.toList := by
  have hvalid := h .history (by decide) k x hrow
  simp only [validateRecord, Bool.and_eq_true, decide_eq_true_eq] at hvalid
  split_ifs at hvalid with hok
  obtain ⟨s, hs⟩ := @particle_of_length (k.take 32) (by rw [List.length_take]; omega)
  obtain ⟨commit, rfl⟩ := particle_of_length hok.2
  have hlen : (k.drop 32).reverse.length = 8 := by
    rw [List.length_reverse, List.length_drop]
    omega
  refine ⟨s, u64FromBe (k.drop 32), commit, ?_, rfl⟩
  rw [historyKey, u64BeBytes, u64FromBe, u64LeBytes_u64FromLe hlen, List.reverse_reverse, ← hs, List.take_append_drop]

end Rows

theorem toNat_sub_one {i : UInt64} (h : i ≠ 0) : (i - 1).toNat = i.toNat - 1 := by
  have hpos : i.toNat ≠ 0 := fun hzero => h (UInt64.toNat_inj.mp hzero)
  refine UInt64.toNat_sub_of_le _ _ (UInt64.le_iff_toNat_le.mpr ?_)
  exact Nat.one_le_iff_ne_zero.mpr hpos

/-- A history with predecessors goes down to the first index. -/
theorem LocallyLinked.downward {v : View} (h : LocallyLinked v) {s : Particle} (n : Nat) :
    ∀ j : UInt64, v .history (historyKey s j) ≠ none → ∀ i : UInt64, i.toNat + n = j.toNat →
      v .history (historyKey s i) ≠ none := by
  induction n with
  | zero =>
      intro j hj i hi
      have heq : i = j := UInt64.toNat_inj.mp (by omega)
      rwa [heq]
  | succ n ih =>
      intro j hj i hi
      have hne : j ≠ 0 := by
        rintro rfl
        simp at hi
      refine ih (j - 1) (h.steps s j hj hne) i ?_
      rw [toNat_sub_one hne]
      omega

/-- The local checks hold exactly of stores whose namespaces are whole chains. -/
theorem locallyLinked_iff {v : View} (hw : WellFormed v) : LocallyLinked v ↔ ∀ s, Chained v s := by
  constructor
  · intro h s
    have hbelow : ∀ i, v .history (historyKey s i) ≠ none → ∃ selected : Head,
        v .heads s.toList = some (encodeHead selected) ∧ i ≤ selected.index := by
      intro i hi
      obtain ⟨x, hx⟩ := Option.ne_none_iff_exists'.mp hi
      obtain ⟨s', i', commit, hkey, rfl⟩ := hw.recorded hx
      obtain ⟨rfl, rfl⟩ := historyKey_injective hkey
      exact (h.history s i commit hx).below
    have hhead : ∀ row, v .heads s.toList = some row → ∃ head, row = encodeHead head ∧ Linked v s head := by
      intro row hrow
      obtain ⟨s', head, -, rfl⟩ := hw.head hrow
      exact ⟨head, rfl, h.heads s head hrow⟩
    refine ⟨⟨fun hsome => ?_, fun ⟨i, hi⟩ => ?_⟩, fun row hrow => ?_, fun i row hrow => ?_, fun r row hrow => ?_,
      h.covered s, h.unique s⟩
    · obtain ⟨row, hrow⟩ := Option.ne_none_iff_exists'.mp hsome
      obtain ⟨head, -, hlinked⟩ := hhead row hrow
      exact ⟨head.index, by rw [hlinked.recorded]; nofun⟩
    · obtain ⟨selected, hselected, -⟩ := hbelow i hi
      rw [hselected]
      nofun
    · obtain ⟨head, rfl, hlinked⟩ := hhead row hrow
      refine ⟨head, rfl, fun i => ⟨fun hi => ?_, fun hle => ?_⟩, hlinked.recorded⟩
      · obtain ⟨selected, hselected, hle⟩ := hbelow i hi
        rw [hrow] at hselected
        rw [encodeHead_injective (Option.some.inj hselected)]
        exact UInt64.le_iff_toNat_le.mp hle
      · exact h.downward (head.index.toNat - i.toNat) head.index (by rw [hlinked.recorded]; nofun) i (by omega)
    · obtain ⟨s', i', commit, hkey, rfl⟩ := hw.recorded hrow
      exact ⟨commit, rfl, (h.history s i commit hrow).content⟩
    · obtain ⟨s', r', fingerprint, head, -, rfl⟩ := hw.receipt hrow
      exact ⟨fingerprint, head, rfl, (h.receipts s r fingerprint head hrow).recorded⟩
  · intro h
    have hlinked : ∀ s head, v .history (historyKey s head.index) = some head.commit.toList → Linked v s head := by
      intro s head hrow
      have hexists : v .heads s.toList ≠ none := (h s).head_iff.mpr ⟨head.index, by rw [hrow]; nofun⟩
      obtain ⟨row, hhead⟩ := Option.ne_none_iff_exists'.mp hexists
      obtain ⟨selected, rfl, hindices, -⟩ := (h s).indices row hhead
      obtain ⟨commit, hcommit, hcontent⟩ := (h s).content head.index _ hrow
      refine ⟨hrow, by rwa [hcommit], selected, hhead, UInt64.le_iff_toNat_le.mpr ?_⟩
      exact (hindices head.index).mp (by rw [hrow]; nofun)
    refine ⟨fun s head hrow => ?_, fun s r fingerprint head hrow => ?_, fun s => (h s).unique,
      fun s i commit hrow => hlinked s ⟨i, commit⟩ hrow, fun s i hi hne => ?_, fun s => (h s).covered⟩
    · obtain ⟨head', heq, -, hrecorded⟩ := (h s).indices _ hrow
      obtain rfl := encodeHead_injective heq
      exact hlinked s head hrecorded
    · obtain ⟨fingerprint', head', heq, hrecorded⟩ := (h s).receipt r _ hrow
      obtain ⟨-, rfl⟩ := encodeRequest_injective heq
      exact hlinked s head hrecorded
    · obtain ⟨row, hhead⟩ := Option.ne_none_iff_exists'.mp ((h s).head_iff.mpr ⟨i, hi⟩)
      obtain ⟨head, -, hindices, -⟩ := (h s).indices row hhead
      have hle := (hindices i).mp hi
      refine (hindices (i - 1)).mpr ?_
      rw [toNat_sub_one hne]
      omega

/-! ### Histories in key order -/

/-- Two history rows in key order. -/
def Before (a b : Particle × UInt64) : Prop := compare (historyKey a.1 a.2) (historyKey b.1 b.2) = .lt

theorem before_iff {a b : Particle × UInt64} :
    Before a b ↔ compare a.1.toList b.1.toList = .lt ∨ a.1 = b.1 ∧ a.2 < b.2 := by
  have hsame : ∀ (s : Particle) (i j : UInt64), Before (s, i) (s, j) ↔ i < j := by
    intro s i j
    rw [Before, historyKey, historyKey, compare_append_left]
    constructor
    · intro hlt
      rcases Nat.lt_trichotomy i.toNat j.toNat with h | h | h
      · exact UInt64.lt_iff_toNat_lt.mpr h
      · rw [UInt64.toNat_inj.mp h, @Std.ReflCmp.compare_self _ compare] at hlt
        cases hlt
      · have hgt := compare_u64BeBytes (Std.compare_eq_lt.mpr (UInt64.lt_iff_toNat_lt.mpr h))
        rw [@Std.OrientedCmp.eq_swap _ compare, hgt] at hlt
        cases hlt
    · intro hlt
      exact compare_u64BeBytes (Std.compare_eq_lt.mpr hlt)
  obtain ⟨s, i⟩ := a
  obtain ⟨s', j⟩ := b
  dsimp only
  constructor
  · intro h
    cases hcompare : compare s.toList s'.toList with
    | lt => exact .inl rfl
    | eq =>
        obtain rfl := Vector.toList_inj.mp (Std.LawfulEqCmp.eq_of_compare hcompare)
        exact .inr ⟨rfl, (hsame s i j).mp h⟩
    | gt =>
        have hgt := Std.OrientedCmp.gt_iff_lt.mp hcompare
        have hkeys := compare_append_of_lt (by simp) hgt (u64BeBytes j) (u64BeBytes i)
        rw [Before, historyKey, historyKey, @Std.OrientedCmp.eq_swap _ compare, hkeys] at h
        cases h
  · rintro (hlt | ⟨rfl, hlt⟩)
    · exact compare_append_of_lt (by simp) hlt _ _
    · exact (hsame s i j).mpr hlt

theorem Before.trans {a b c : Particle × UInt64} (h : Before a b) (h' : Before b c) : Before a c :=
  Std.TransCmp.lt_trans h h'

theorem not_before_self (a : Particle × UInt64) : ¬Before a a := by
  intro h
  rw [Before, @Std.ReflCmp.compare_self _ compare] at h
  cases h

/-- Nothing stands between a row and its successor. -/
theorem not_between {s : Particle} {i : UInt64} {b : Particle × UInt64} (hi : i ≠ 0) (h : Before (s, i - 1) b)
    (h' : Before b (s, i)) : False := by
  have hsub := toNat_sub_one hi
  rcases before_iff.mp h with hlt | ⟨rfl, hlt⟩
  · rcases before_iff.mp h' with hlt' | ⟨heq, -⟩
    · have hcycle := Std.TransCmp.lt_trans hlt hlt'
      rw [@Std.ReflCmp.compare_self _ compare] at hcycle
      cases hcycle
    · rw [heq, @Std.ReflCmp.compare_self _ compare] at hlt
      cases hlt
  · rcases before_iff.mp h' with hlt' | ⟨-, hlt'⟩
    · rw [@Std.ReflCmp.compare_self _ compare] at hlt'
      cases hlt'
    · have hlt := UInt64.lt_iff_toNat_lt.mp hlt
      have hlt' := UInt64.lt_iff_toNat_lt.mp hlt'
      dsimp only at hlt hlt'
      omega

/-- The index check of a history, row after row. -/
def InSequence : Option (Particle × UInt64) → List (Particle × UInt64) → Prop
  | _, [] => True
  | previous, (s, i) :: rest => expectedIndex previous s = .ok i ∧ InSequence (some (s, i)) rest

theorem expectedIndex_ok {previous : Option (Particle × UInt64)} {s : Particle} {i : UInt64}
    (h : expectedIndex previous s = .ok i) (hi : i ≠ 0) : previous = some (s, i - 1) := by
  cases previous with
  | none => exact absurd (Except.ok.inj h).symm hi
  | some p =>
      obtain ⟨s', n⟩ := p
      rw [expectedIndex] at h
      split_ifs at h with hs hlt
      · obtain rfl := Except.ok.inj h
        rw [hs, UInt64.add_sub_cancel]
      · exact absurd (Except.ok.inj h).symm hi

theorem predecessors_of_inSequence {previous : Option (Particle × UInt64)} {rows : List (Particle × UInt64)}
    (h : InSequence previous rows) : ∀ s i, (s, i) ∈ rows → i ≠ 0 → (s, i - 1) ∈ rows ∨ previous = some (s, i - 1) := by
  induction rows generalizing previous with
  | nil => nofun
  | cons row rest ih =>
      obtain ⟨s', i'⟩ := row
      obtain ⟨hexpected, hrest⟩ := h
      intro s i hmem hi
      rcases List.mem_cons.mp hmem with heq | hmem
      · obtain ⟨rfl, rfl⟩ := Prod.mk.inj heq
        exact .inr (expectedIndex_ok hexpected hi)
      · refine .inl ?_
        rcases ih hrest s i hmem hi with hmem | hprevious
        · exact List.mem_cons_of_mem _ hmem
        · rw [← Option.some.inj hprevious]
          exact List.mem_cons_self

theorem inSequence_of_predecessors {previous : Option (Particle × UInt64)} {rows : List (Particle × UInt64)}
    (hsorted : rows.Pairwise Before) (hprevious : ∀ p ∈ previous, ∀ row ∈ rows, Before p row)
    (h : ∀ s i, (s, i) ∈ rows → i ≠ 0 → (s, i - 1) ∈ rows ∨ previous = some (s, i - 1)) :
    InSequence previous rows := by
  induction rows generalizing previous with
  | nil => trivial
  | cons row rest ih =>
      obtain ⟨s, i⟩ := row
      obtain ⟨hfirst, hsorted⟩ := List.pairwise_cons.mp hsorted
      refine ⟨?_, ih hsorted ?_ fun s' i' hmem hi' => ?_⟩
      · by_cases hi : i = 0
        · subst hi
          cases previous with
          | none => rfl
          | some p =>
              obtain ⟨s', n⟩ := p
              rw [expectedIndex]
              refine if_neg ?_
              rintro rfl
              rcases before_iff.mp (hprevious _ rfl _ List.mem_cons_self) with hlt | ⟨-, hlt⟩
              · rw [@Std.ReflCmp.compare_self _ compare] at hlt
                cases hlt
              · exact absurd (UInt64.lt_iff_toNat_lt.mp hlt) (Nat.not_lt_zero _)
        · have hbefore : Before (s, i - 1) (s, i) := by
            refine before_iff.mpr (.inr ⟨rfl, UInt64.lt_iff_toNat_lt.mpr ?_⟩)
            have hsub := toNat_sub_one hi
            have hpos : i.toNat ≠ 0 := fun hzero => hi (UInt64.toNat_inj.mp hzero)
            dsimp only
            omega
          rcases h s i List.mem_cons_self hi with hmem | rfl
          · rcases List.mem_cons.mp hmem with heq | hmem
            · rw [heq] at hbefore
              exact absurd hbefore (not_before_self _)
            · exact absurd ((hfirst _ hmem).trans hbefore) (not_before_self _)
          · have hsub := toNat_sub_one hi
            have hpos : i.toNat ≠ 0 := fun hzero => hi (UInt64.toNat_inj.mp hzero)
            have hlt := i.toNat_lt
            rw [expectedIndex]
            rw [if_pos rfl, if_pos (by omega), UInt64.sub_add_cancel]
      · intro p hp row hrow
        obtain rfl := Option.some.inj hp
        exact hfirst row hrow
      · rcases h s' i' (List.mem_cons_of_mem _ hmem) hi' with hmem' | rfl
        · rcases List.mem_cons.mp hmem' with heq | hmem'
          · exact .inr (congrArg some heq.symm)
          · exact .inl hmem'
        · exact (not_between hi' (hprevious _ rfl _ List.mem_cons_self) (hfirst _ hmem)).elim

end LeanBbg.Storage
