import LeanBbg.TrieInvariant

/-! What `TrieProof::verify` accepts. The loop recomputes a root along the key's bits, and accepts only
steps with increasing bit indices inside the key. An accepted proof against the digest of a canonical
tree therefore runs along the key's own path. -/

set_option linter.unusedSectionVars false

namespace LeanBbg

open Patricia Patricia.Tree

variable {F : Type} [Hemera F] [DecidableEq F]

namespace TrieProof

/-- The steps of a proof by bit number. -/
def bitSteps (steps : List (UInt16 × Digest F)) : List (Nat × Digest F) := steps.map fun s => (s.1.toNat, s.2)

/-- The bit indices increase from the root to the leaf and lie inside the key. -/
def Ascending (steps : List (UInt16 × Digest F)) : Prop :=
  steps.Pairwise (fun s s' => s.1 < s'.1) ∧ ∀ s ∈ steps, s.1.toNat < 256

/-- The root that the steps lead to from the digest below them. -/
def climbSteps (key : Bytes32) (steps : List (UInt16 × Digest F)) (d : Digest F) : Digest F :=
  climb bit branchValue key (bitSteps steps) d

theorem climbSteps_concat (key : Bytes32) (steps : List (UInt16 × Digest F)) (b : UInt16)
    (s d : Digest F) : climbSteps key (steps ++ [(b, s)]) d =
      climbSteps key steps (if bit key b.toNat then branchDigest b s d else branchDigest b d s) := by
  have hself : UInt16.ofNat b.toNat = b := UInt16.ofNat_toNat
  rw [climbSteps, bitSteps, List.map_append, climb_append]
  simp only [List.map_cons, List.map_nil, climb, branchValue, hself]
  rfl

/-- The loop, from the leaf up, on steps below which the bit `last` was decided. -/
theorem verifyLoop_eq_some {key : Bytes32} {steps : List (UInt16 × Digest F)} {last : Option UInt16}
    {d root : Digest F} :
    verifyLoop key steps.reverse last d = some (some root) ↔
      Ascending steps ∧ (∀ l ∈ last, ∀ s ∈ steps, s.1 < l) ∧ climbSteps key steps d = root := by
  induction steps using List.reverseRecOn generalizing last d with
  | nil => simp [verifyLoop, Ascending, climbSteps, bitSteps, climb]
  | append_singleton steps step ih =>
      obtain ⟨b, s⟩ := step
      rw [List.reverse_append, List.reverse_singleton, List.singleton_append, verifyLoop]
      have hchain : Ascending (steps ++ [(b, s)]) ↔
          Ascending steps ∧ (∀ x ∈ steps, x.1 < b) ∧ b.toNat < 256 := by
        simp only [Ascending, List.pairwise_append, List.pairwise_singleton, List.mem_append,
          List.mem_singleton, true_and]
        constructor
        · rintro ⟨⟨hpair, hlt⟩, hbound⟩
          exact ⟨⟨hpair, fun x hx => hbound x (.inl hx)⟩, fun x hx => hlt x hx (b, s) rfl,
            hbound (b, s) (.inr rfl)⟩
        · rintro ⟨⟨hpair, hbound⟩, hlt, hb⟩
          refine ⟨⟨hpair, fun x hx y hy => hy ▸ hlt x hx⟩, ?_⟩
          rintro x (hx | rfl)
          · exact hbound x hx
          · exact hb
      rw [hchain]
      by_cases hlast : last.any (fun l => decide (l ≤ b)) = true
      · obtain ⟨l, rfl, hle⟩ : ∃ l, last = some l ∧ l ≤ b := by
          cases last with
          | none => cases hlast
          | some l => exact ⟨l, rfl, of_decide_eq_true hlast⟩
        rw [if_pos hlast]
        refine iff_of_false (by simp) fun h => ?_
        exact absurd (h.2.1 l rfl (b, s) (by simp)) (UInt16.not_lt.mpr hle)
      · rw [if_neg hlast]
        have habove : ∀ l ∈ last, b < l := by
          rintro l rfl
          simpa using hlast
        by_cases hb : b.toNat < 256
        · have hbit : keyBit key b = some (bit key b.toNat) := by
            have := keyBit_eq_bit key hb
            rwa [UInt16.ofNat_toNat] at this
          simp only [hbit, Option.bind_eq_bind, Option.bind_some, ih, climbSteps_concat, hb, and_true]
          constructor
          · rintro ⟨hasc, hlt, hclimb⟩
            have hb' : ∀ x ∈ steps, x.1 < b := hlt b rfl
            refine ⟨⟨hasc, hb'⟩, ?_, hclimb⟩
            intro l hl x hx
            rcases List.mem_append.mp hx with hx | hx
            · exact UInt16.lt_trans (hb' x hx) (habove l hl)
            · rw [List.mem_singleton.mp hx]
              exact habove l hl
          · rintro ⟨⟨hasc, hlt⟩, -, hclimb⟩
            refine ⟨hasc, ?_, hclimb⟩
            rintro l hl x hx
            rw [← Option.some_inj.mp hl]
            exact hlt x hx
        · rw [keyBit_of_ge key (not_lt.mp hb)]
          exact iff_of_false (by simp) fun h => hb h.1.2.2

/-- The proof's steps carry `d` up to `root`. -/
def Leads (p : TrieProof F) (root : Digest F) (key : Bytes32) (d : Digest F) : Prop :=
  Ascending p.steps ∧ climbSteps key p.steps d = root

theorem reaches_eq_true {p : TrieProof F} {root : Digest F} {key : Bytes32} {d : Digest F} :
    p.reaches root key d = some true ↔ p.Leads root key d := by
  have hloop : verifyLoop key p.steps.reverse none d = some (some root) ↔ _ := verifyLoop_eq_some
  rw [Leads, reaches]
  cases h : verifyLoop key p.steps.reverse none d with
  | none =>
      rw [h] at hloop
      simpa using hloop
  | some cur =>
      cases cur with
      | none =>
          rw [h] at hloop
          simpa using hloop
      | some cur =>
          rw [h] at hloop
          simpa using hloop

/-- What an accepted inclusion proof consists of. -/
theorem verify_some {p : TrieProof F} {root : Digest F} {key : Bytes32} {e : Digest F} :
    p.verify root key (some e) = some true ↔ p.terminal = some (key, e) ∧ p.Leads root key e := by
  cases hterm : p.terminal with
  | none => simp [verify, hterm]
  | some kd =>
      obtain ⟨k, d⟩ := kd
      simp only [verify, hterm]
      split_ifs with hne
      · refine iff_of_false (by simp) fun h => ?_
        simp only [Option.some_inj, Prod.mk.injEq] at h
        rcases hne with hne | hne
        · exact hne h.1.1
        · exact hne h.1.2
      · rw [not_or, not_not, not_not] at hne
        rw [hne.1, hne.2, reaches_eq_true]
        simp

/-- What an accepted absence proof consists of: the key of the terminal is compared with `key` and
then forgotten. -/
theorem verify_none {p : TrieProof F} {root : Digest F} {key : Bytes32} :
    p.verify root key none = some true ↔
      (p.terminal = none ∧ p.steps = [] ∧ root = EMPTY) ∨
        ∃ k d, p.terminal = some (k, d) ∧ k ≠ key ∧ p.Leads root key d := by
  cases hterm : p.terminal with
  | none => simp [verify, hterm]
  | some kd =>
      obtain ⟨k, d⟩ := kd
      simp only [verify, hterm, reduceCtorEq, false_and, false_or, Option.some_inj, Prod.mk.injEq]
      split_ifs with heq
      · refine iff_of_false (by simp) ?_
        rintro ⟨k', d', ⟨rfl, rfl⟩, hne, -⟩
        exact hne heq
      · rw [reaches_eq_true]
        constructor
        · intro h
          exact ⟨k, d, ⟨rfl, rfl⟩, heq, h⟩
        · rintro ⟨k', d', ⟨rfl, rfl⟩, -, h⟩
          exact h

/-! ### Honest and accepted paths -/

theorem bitSteps_ofNat {steps : List (Nat × Digest F)} (h : ∀ s ∈ steps, s.1 < 256) :
    bitSteps (steps.map fun s => (UInt16.ofNat s.1, s.2)) = steps := by
  rw [bitSteps, List.map_map]
  refine (List.map_congr_left fun s hs => ?_).trans (List.map_id steps)
  simp only [Function.comp, toNat_ofNat_of_lt (h s hs), id]

theorem bitSteps_injective : Function.Injective (bitSteps : List (UInt16 × Digest F) → _) := by
  refine List.map_injective_iff.mpr fun s s' h => ?_
  simp only [Prod.mk.injEq] at h
  exact Prod.ext (UInt16.toNat_inj.mp h.1) h.2

theorem bitSteps_honest {t : ArenaTree F} (h : Canonical bit 256 0 t) (key : Bytes32) :
    bitSteps (Trie.honestProof t key).steps = t.steps bit branchValue key :=
  bitSteps_ofNat fun s hs => ((h.steps_ascending key).2 s hs).2

theorem ascending_iff_bitSteps {steps : List (UInt16 × Digest F)} : Ascending steps ↔
    (bitSteps steps).Pairwise (fun s s' => s.1 < s'.1) ∧ ∀ s ∈ bitSteps steps, s.1 < 256 := by
  simp only [Ascending, bitSteps, List.pairwise_map, List.mem_map, forall_exists_index, and_imp,
    forall_apply_eq_imp_iff₂, UInt16.lt_iff_toNat_lt]

/-- Every cut of an honest path leads to the root from the digest of the node where it is cut. -/
theorem honest_leads {t : ArenaTree F} (h : Canonical bit 256 0 t) (key : Bytes32) {p : TrieProof F} {n : Nat}
    (hsteps : p.steps = (Trie.honestProof t key).steps.take n) :
    p.Leads (treeDigest t) key
      (climbSteps key ((Trie.honestProof t key).steps.drop n) (t.find bit key).2) := by
  obtain ⟨hpair, hbounds⟩ := h.steps_ascending (f := branchValue) key
  have htake : bitSteps p.steps = (t.steps bit branchValue key).take n := by
    rw [hsteps, ← bitSteps_honest h key, bitSteps, bitSteps, List.map_take]
  have hdrop : bitSteps ((Trie.honestProof t key).steps.drop n) = (t.steps bit branchValue key).drop n := by
    rw [← bitSteps_honest h key, bitSteps, bitSteps, List.map_drop]
  constructor
  · rw [ascending_iff_bitSteps, htake]
    exact ⟨hpair.sublist (List.take_sublist _ _), fun s hs => (hbounds s (List.mem_of_mem_take hs)).2⟩
  · rw [climbSteps, climbSteps, htake, hdrop, ← climb_append, List.take_append_drop, climb_steps]
    rfl

theorem honest_verifies {t : ArenaTree F} (h : Canonical bit 256 0 t) (key : Bytes32) :
    (Trie.honestProof t key).verify (treeDigest t) key
      (if (t.find bit key).1 = key then some (t.find bit key).2 else none) = some true := by
  have hleads := honest_leads h key (p := Trie.honestProof t key) (List.take_length (l := (Trie.honestProof t key).steps)).symm
  rw [List.drop_length] at hleads
  split_ifs with hkey
  · refine verify_some.mpr ⟨?_, hleads⟩
    nth_rewrite 2 [← hkey]
    rfl
  · exact verify_none.mpr (.inr ⟨_, _, rfl, hkey, hleads⟩)

section Symbolic

variable (hs : Symbolic F)

include hs

theorem branchInjective : BranchInjective (branchValue : Nat → Digest F → Digest F → Digest F) 256 := by
  intro i i' hi hi' a b a' b' h
  obtain ⟨hbit, ha, hb⟩ := branchDigest_injective hs h
  have := congrArg UInt16.toNat hbit
  rw [toNat_ofNat_of_lt hi, toNat_ofNat_of_lt hi'] at this
  exact ⟨this, ha, hb⟩

/-- Accepted steps are the first ones of the key's honest path, and the digest they start from is
that of the node reached there. -/
theorem Leads.sound {t : ArenaTree F} (h : Canonical bit 256 0 t)
    (hleaf : ∀ e ∈ t.entries, NotBranch branchValue 256 e.2) {p : TrieProof F} {key : Bytes32} {d : Digest F}
    (hleads : p.Leads (treeDigest t) key d) :
    p.steps = (Trie.honestProof t key).steps.take p.steps.length ∧
      d = climbSteps key ((Trie.honestProof t key).steps.drop p.steps.length) (t.find bit key).2 := by
  obtain ⟨hasc, hclimb⟩ := hleads
  obtain ⟨htake, hdrop⟩ := h.climb_sound (branchInjective hs) hleaf
    (ascending_iff_bitSteps.mp hasc).2 hclimb
  have hlen : (bitSteps p.steps).length = p.steps.length := List.length_map ..
  rw [hlen, ← bitSteps_honest h key] at htake hdrop
  refine ⟨bitSteps_injective (htake.trans ?_), hdrop.trans ?_⟩
  · rw [bitSteps, bitSteps, List.map_take]
  · rw [climbSteps, bitSteps, bitSteps, List.map_drop]

/-- A leaf digest that leads to the root is that of the leaf the key's walk ends at. -/
theorem Leads.leaf {t : ArenaTree F} (h : Canonical bit 256 0 t)
    (hleaf : ∀ e ∈ t.entries, NotBranch branchValue 256 e.2) {p : TrieProof F} {key : Bytes32} {d : Digest F}
    (hd : NotBranch branchValue 256 d) (hleads : p.Leads (treeDigest t) key d) :
    d = (t.find bit key).2 := by
  obtain ⟨-, hdrop⟩ := Leads.sound hs h hleaf hleads
  rw [climbSteps, bitSteps, List.map_drop] at hdrop
  have hhonest := bitSteps_honest h key
  rw [bitSteps] at hhonest
  rw [hhonest] at hdrop
  exact h.climb_leaf hd hdrop

theorem notBranch_leafDigest (key : Bytes32) (vals : List F) : NotBranch branchValue 256 (leafDigest key vals) :=
  fun _ _ l r => leafDigest_ne_branchDigest hs key vals _ l r

/-- Nothing leads to the root of the empty trie. -/
theorem Leads.ne_empty {p : TrieProof F} {key : Bytes32} {vals : List F} {k : Bytes32} :
    ¬p.Leads EMPTY key (leafDigest k vals) := by
  rintro ⟨-, hclimb⟩
  cases hsteps : p.steps with
  | nil =>
      rw [hsteps] at hclimb
      exact leafDigest_ne_empty hs k vals hclimb
  | cons s steps =>
      rw [hsteps, climbSteps, bitSteps, List.map_cons, climb] at hclimb
      split_ifs at hclimb
      · exact hs.notEmpty _ _ hclimb
      · exact hs.notEmpty _ _ hclimb

/-- An accepted inclusion proof against a record set of leaves is of one of its records. -/
theorem verify_sound {S : List (Bytes32 × Digest F)} (hnodup : (S.map Prod.fst).Nodup)
    (hleaves : ∀ e ∈ S, ∃ vals, e.2 = leafDigest e.1 vals) {p : TrieProof F} {key : Bytes32} {vals : List F}
    (hverify : p.verify (node S) key (some (leafDigest key vals)) = some true) :
    (key, leafDigest key vals) ∈ S := by
  obtain ⟨-, hleads⟩ := verify_some.mp hverify
  rcases eq_or_ne S [] with rfl | hne
  · exact absurd hleads (Leads.ne_empty hs)
  obtain ⟨t, hcanonical, hperm⟩ := exists_canonical bit 256 (0 : Nat) separates_bit hnodup hne
  have hroot : node S = treeDigest t := node_eq_value bit 256 branchValue EMPTY hcanonical hperm.symm
  have hleaf : ∀ e ∈ t.entries, NotBranch branchValue 256 e.2 := by
    intro e he
    obtain ⟨vals, hvals⟩ := hleaves e (hperm.subset he)
    rw [hvals]
    exact notBranch_leafDigest hs e.1 vals
  rw [hroot] at hleads
  have hfind := Leads.leaf hs hcanonical hleaf (notBranch_leafDigest hs key vals) hleads
  have hmem := hperm.subset (find_mem bit key t)
  obtain ⟨vals', hvals'⟩ := hleaves _ hmem
  rw [← Prod.eta (t.find bit key)] at hmem
  rw [← hfind, leafDigest_key hs (hvals'.symm.trans hfind.symm)] at hmem
  exact hmem

end Symbolic

end TrieProof

end LeanBbg
