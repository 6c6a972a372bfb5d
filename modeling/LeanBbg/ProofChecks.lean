import LeanBbg.Inclusion
import LeanBbg.KeyedOverflow

/-! Proofs that the provers give verify, at every trie, keyed map and index that a run within the limits
reaches. A proof from anywhere is checked without a panic, unless its last step names a bit past the key. -/

set_option linter.unusedSectionVars false

namespace LeanBbg

open Patricia Patricia.Tree

variable {F C : Type} [Hemera F] [DecidableEq F]

namespace TrieProof

/-! ### Proofs from anywhere -/

/-- The terminal passes its comparison with the key and the claim, so that the loop of `verify` runs. -/
def Enters (p : TrieProof F) (key : Bytes32) (expected : Option (Digest F)) : Prop :=
  ∃ k d, p.terminal = some (k, d) ∧
    match expected with
    | some e => k = key ∧ d = e
    | none => k ≠ key

/-- Below a bit inside the key the loop meets no bit past it. -/
theorem verifyLoop_ne_none {key : Bytes32} {steps : List (UInt16 × Digest F)} {l : UInt16} (hl : l.toNat < 256)
    (d : Digest F) : verifyLoop key steps (some l) d ≠ none := by
  induction steps generalizing l d with
  | nil => exact Option.some_ne_none _
  | cons step steps ih =>
      obtain ⟨b, s⟩ := step
      rw [verifyLoop]
      by_cases hle : (some l).any (fun l => decide (l ≤ b)) = true
      · rw [if_pos hle]
        exact Option.some_ne_none _
      · rw [if_neg hle]
        have hlt : b < l := by simpa using hle
        have hb : b.toNat < 256 := lt_trans (UInt16.lt_iff_toNat_lt.mp hlt) hl
        rw [keyBit_of_lt key hb]
        exact ih hb _

/-- The loop panics exactly when the first step it meets has a bit past the key. -/
theorem verifyLoop_eq_none (key : Bytes32) {steps : List (UInt16 × Digest F)} (d : Digest F) :
    verifyLoop key steps none d = none ↔ ∃ s ∈ steps.head?, 256 ≤ s.1.toNat := by
  cases steps with
  | nil => exact iff_of_false nofun (by simp)
  | cons step steps =>
      obtain ⟨b, s⟩ := step
      have hhead : (∃ s' ∈ ((b, s) :: steps).head?, 256 ≤ s'.1.toNat) ↔ 256 ≤ b.toNat := by simp
      rw [hhead, verifyLoop, if_neg (by simp)]
      by_cases hb : b.toNat < 256
      · rw [keyBit_of_lt key hb]
        exact iff_of_false (verifyLoop_ne_none hb _) (by omega)
      · rw [keyBit_of_ge key (not_lt.mp hb)]
        exact iff_of_true rfl (not_lt.mp hb)

theorem reaches_eq_none {p : TrieProof F} {root : Digest F} {key : Bytes32} {d : Digest F} :
    p.reaches root key d = none ↔ ∃ s ∈ p.steps.getLast?, 256 ≤ s.1.toNat := by
  rw [← List.head?_reverse, ← verifyLoop_eq_none key d, reaches]
  cases verifyLoop key p.steps.reverse none d with
  | none => exact iff_of_true rfl rfl
  | some cur =>
      cases cur with
      | none => exact iff_of_false (Option.some_ne_none _) (Option.some_ne_none _)
      | some cur => exact iff_of_false (Option.some_ne_none _) (Option.some_ne_none _)

theorem verify_of_not_enters {p : TrieProof F} {key : Bytes32} {expected : Option (Digest F)}
    (h : ¬p.Enters key expected) (root : Digest F) : p.verify root key expected ≠ none := by
  cases hterm : p.terminal with
  | none => cases expected <;> simp [verify, hterm]
  | some kd =>
      obtain ⟨k, d⟩ := kd
      cases expected with
      | some e =>
          simp only [verify, hterm]
          rw [if_pos]
          · exact Option.some_ne_none _
          · by_contra heq
            rw [not_or, not_not, not_not] at heq
            exact h ⟨k, d, hterm, heq⟩
      | none =>
          simp only [verify, hterm]
          rw [if_pos]
          · exact Option.some_ne_none _
          · by_contra hne
            exact h ⟨k, d, hterm, hne⟩

theorem Enters.verify_eq {p : TrieProof F} {key : Bytes32} {expected : Option (Digest F)}
    (h : p.Enters key expected) (root : Digest F) : ∃ d, p.verify root key expected = p.reaches root key d := by
  obtain ⟨k, d, hterm, hcmp⟩ := h
  refine ⟨d, ?_⟩
  cases expected with
  | some e =>
      obtain ⟨rfl, rfl⟩ := hcmp
      simp only [verify, hterm]
      exact if_neg (by simp)
  | none =>
      simp only [verify, hterm]
      exact if_neg hcmp

/-- `verify` returns a Boolean on every proof, root, key and claim, except where the terminal passes its
comparison and the last step has a bit past the key: there it indexes the key out of bounds. -/
theorem verify_returns_iff (p : TrieProof F) (root : Digest F) (key : Bytes32) (expected : Option (Digest F)) :
    (∃ b, p.verify root key expected = some b) ↔
      ¬(p.Enters key expected ∧ ∃ s ∈ p.steps.getLast?, 256 ≤ s.1.toNat) := by
  rw [← Option.isSome_iff_exists, Option.isSome_iff_ne_none]
  by_cases hin : p.Enters key expected
  · obtain ⟨d, hverify⟩ := hin.verify_eq root
    rw [hverify, ne_eq, reaches_eq_none]
    exact not_congr (and_iff_right hin).symm
  · exact iff_of_true (verify_of_not_enters hin root) fun h => hin h.1

/-- A proof with one step, of bit 256, whose terminal is the key and the digest that are claimed. -/
theorem verify_panics : (⟨[(256, EMPTY)], some (Vector.replicate 32 7, EMPTY)⟩ : TrieProof Term).verify EMPTY
    (Vector.replicate 32 7) (some EMPTY) = none := by
  decide +kernel

end TrieProof

/-! ### Proofs from the prover -/

namespace Trie

/-- The bits of a key's path increase from the root to the leaf, so there are at most 256 of them. -/
theorem Honest.ascending {M : DigestMap F} {key : Bytes32} {p : TrieProof F} (h : Honest M key p) :
    p.steps.Pairwise (fun s s' => s.1 < s'.1) ∧ p.steps.length ≤ 256 := by
  rcases h with ⟨-, rfl⟩ | ⟨t, hcanonical, -, rfl⟩
  · exact ⟨.nil, Nat.zero_le _⟩
  obtain ⟨⟨hpair, hbounds⟩, -⟩ := TrieProof.honest_leads hcanonical key (p := honestProof t key)
    (List.take_length (l := (honestProof t key).steps)).symm
  refine ⟨hpair, ?_⟩
  have hnodup : ((honestProof t key).steps.map fun s => s.1.toNat).Nodup := by
    rw [List.Nodup, List.pairwise_map]
    exact hpair.imp fun hlt heq => absurd (UInt16.lt_iff_toNat_lt.mp hlt) (by omega)
  have hsub : ((honestProof t key).steps.map fun s => s.1.toNat) ⊆ List.range 256 := by
    intro n hn
    obtain ⟨s, hs, rfl⟩ := List.mem_map.mp hn
    exact List.mem_range.mpr (hbounds s hs)
  have hlen := (hnodup.subperm hsub).length_le
  rwa [List.length_map, List.length_range] at hlen

end Trie

/-- The member proof and the set root of one particle: both are absent, or the proof verifies whether the axon is
in the list. -/
def MemberVerifies (l : List Particle) (axon : Particle) : Option (Digest F) → Option (TrieProof F) → Prop
  | none, none => True
  | some root, some p =>
      p.verify root axon (if axon ∈ l then some (AxonIndex.memberDigest axon) else none) = some true
  | _, _ => False

/-- Every proof that a trie, a keyed map or an index gives verifies against its own root, in every run within the
limits of the tries. -/
theorem run_proofs_complete :
    (∀ (ops : List (Trie.Op F)) (answers : List (Trie.Answer F)) (T : Trie F),
      Trie.mapSpec.Along Trie.Fits ∅ ops → Refine.run Trie.step Trie.empty ops = some (answers, T) →
      ∀ key, ∃ found root T₁ p T₂, T.get key = some found ∧ T.root = some (root, T₁) ∧
        T.prove key = some (p, T₂) ∧ p.verify root key found = some true ∧
        p.steps.Pairwise (fun s s' => s.1 < s'.1) ∧ p.steps.length ≤ 256) ∧
    (∀ (K V : Type) [Ord K] [TrieKey K] [LawfulTrieKey K] [LeafValue F V] (f : OrdMap K V → C)
      (ops : List (Keyed.Op K V)) (answers : List (Keyed.Answer F C K V)) (m : Keyed F C K V),
      (Keyed.plainSpec (F := F) f).Along Keyed.Fits ⟨∅, ∅, ∅⟩ (ops ++ [.commitment]) →
      Refine.run (Keyed.step f) Keyed.new ops = some (answers, m) →
      ∀ key, ∃ c m₁ p m₂, m.commitment = some (c, m₁) ∧ m.prove key = some (p, m₂) ∧
        p.verify c (keyBytes key) (m.map[key]?.map (Keyed.leaf key)) = some true) ∧
    (∀ (f : OrdMap Particle (List Particle) → C) (ops : List AxonIndex.Op)
      (answers : List (AxonIndex.Answer F C)) (x : AxonIndex F C),
      (AxonIndex.plainSpec (F := F) f).Along AxonIndex.Fits ⟨∅, ∅, ∅⟩ (ops ++ [.commitment]) →
      Refine.run (AxonIndex.step f) AxonIndex.new ops = some (answers, x) →
      ∀ particle, ∃ c x₁ root x₂ p x₃, x.commitment = some (c, x₁) ∧ x.setRoot particle = some (root, x₂) ∧
        x.prove particle = some (p, x₃) ∧
        p.verify c particle (root.map (AxonIndex.leaf particle (UInt64.ofNat (x.degree particle)))) = some true ∧
        ∀ axon, ∃ q x₄, x.proveMember particle axon = some (q, x₄) ∧
          MemberVerifies (x.map[particle]?.getD []) axon root q) := by
  refine ⟨fun ops answers T hfit hrun key => ?_, ?_, ?_⟩
  · have hmodels := Refine.Spec.rel_of_run Trie.step_refines Trie.models_empty hfit hrun
    obtain ⟨T₁, hroot, -⟩ := hmodels.root_eq
    obtain ⟨p, T₂, hprove, -, hhonest⟩ := hmodels.prove_eq key
    exact ⟨_, _, T₁, p, T₂, hmodels.get_eq key, hroot, hprove, hhonest.verify_eq, hhonest.ascending⟩
  · intro K V _ _ _ _ f ops answers m hfit hrun key
    obtain ⟨hbefore, hflush, -⟩ := Refine.Spec.along_append.mp hfit
    have hshows := Refine.Spec.rel_of_run (Keyed.step_refines f) (Keyed.shows_new f) hbefore hrun
    generalize ops.foldl (Keyed.plainSpec (F := F) f).apply ⟨∅, ∅, ∅⟩ = A at hflush hshows
    obtain ⟨map, S, dirty⟩ := A
    obtain rfl : m.map = map := hshows.map
    obtain rfl : m.dirty = dirty := hshows.dirty
    have hstep := hshows.inv.inStep_putAll
    obtain ⟨trie₁, hcommit, -⟩ := hshows.inv.commitment_eq hflush
    obtain ⟨p, trie₂, hprove, -, hhonest⟩ := hshows.inv.prove_eq hflush key
    refine ⟨_, _, p, _, hcommit, hprove, ?_⟩
    have hverify := hhonest.verify_eq
    rwa [hstep.node_eq, hstep.lookup key] at hverify
  · intro f ops answers x hfit hrun particle
    obtain ⟨hbefore, hflush, -⟩ := Refine.Spec.along_append.mp hfit
    have hshows := Refine.Spec.rel_of_run (AxonIndex.step_refines f) (AxonIndex.shows_new f) hbefore hrun
    generalize ops.foldl (AxonIndex.plainSpec (F := F) f).apply ⟨∅, ∅, ∅⟩ = A at hflush hshows
    obtain ⟨x₁, hcommit, -⟩ := hshows.commitment_eq hflush
    obtain ⟨x₂, hroot, -⟩ := hshows.setRoot_eq particle
    obtain ⟨p, x₃, hprove, hverify, -⟩ := hshows.prove_eq hflush particle
    have hlist := hshows.map particle
    refine ⟨_, x₁, _, x₂, p, x₃, hcommit, hroot, hprove, ?_, fun axon => ?_⟩
    · rw [← hverify, AxonIndex.degree, hlist]
      cases A.map[particle]? with
      | none => rfl
      | some l => rfl
    · obtain ⟨q, x₄, hmember, -, hq⟩ := hshows.proveMember_eq particle axon
      refine ⟨q, x₄, hmember, ?_⟩
      rw [hlist]
      cases hget : A.map[particle]? with
      | none =>
          rw [hget] at hq
          cases q with
          | none => trivial
          | some q => exact hq.elim
      | some l =>
          rw [hget] at hq
          cases q with
          | none => exact hq.elim
          | some q => exact hq

/-- Three keys, of which one goes. -/
def Trie.pairOps : List (Trie.Op Term) :=
  [.set (Vector.replicate 32 7) EMPTY, .set (Vector.replicate 32 8) EMPTY, .set (Vector.replicate 32 9) EMPTY, .root,
    .remove (Vector.replicate 32 9)]

/-- A trie with two keys and a branch, which a run within the limit reaches. -/
theorem Trie.exists_pair : Trie.mapSpec.Along Trie.Fits ∅ Trie.pairOps ∧ ∃ answers T,
    Refine.run Trie.step (Trie.empty : Trie Term) Trie.pairOps = some (answers, T) ∧ T.len = 2 := by
  have hfit : Trie.mapSpec.Along Trie.Fits ∅ Trie.pairOps := by
    refine ⟨?_, ?_, ?_, ?_, ?_, trivial⟩ <;>
      (change Std.ExtTreeMap.size _ ≤ 2 ^ 31; decide +kernel)
  obtain ⟨answers, T, hrun, -, hmodels⟩ := Refine.Spec.run_agree Trie.step_refines Trie.models_empty hfit
  refine ⟨hfit, answers, T, hrun, hmodels.len_eq.trans ?_⟩
  decide +kernel

/-- The theorem at the symbolic field: a trie, a map and an index that have a branch and have lost a key. -/
theorem run_proofs_complete_pair :
    (∃ answers T, Refine.run Trie.step (Trie.empty : Trie Term) Trie.pairOps = some (answers, T) ∧ T.len = 2 ∧
      ∀ key, ∃ found root T₁ p T₂, T.get key = some found ∧ T.root = some (root, T₁) ∧ T.prove key = some (p, T₂) ∧
        p.verify root key found = some true ∧ p.steps.Pairwise (fun s s' => s.1 < s'.1) ∧ p.steps.length ≤ 256) ∧
    (∃ answers m, Refine.run (Keyed.step fun _ => ()) (Keyed.new : Keyed Term Unit Bytes32 UInt64) Keyed.pairOps =
        some (answers, m) ∧ m.map[(Vector.replicate 32 8 : Bytes32)]? = some 2 ∧
      ∀ key : Bytes32, ∃ c m₁ p m₂, m.commitment = some (c, m₁) ∧ m.prove key = some (p, m₂) ∧
        p.verify c (keyBytes key) (m.map[key]?.map (Keyed.leaf key)) = some true) ∧
    ∃ answers x, Refine.run (AxonIndex.step fun _ => ()) (AxonIndex.new : AxonIndex Term Unit) AxonIndex.pairOps =
        some (answers, x) ∧
      x.map[(Vector.replicate 32 7 : Particle)]? = some [Vector.replicate 32 1, Vector.replicate 32 2] ∧
      ∀ particle, ∃ c x₁ root x₂ p x₃, x.commitment = some (c, x₁) ∧ x.setRoot particle = some (root, x₂) ∧
        x.prove particle = some (p, x₃) ∧
        p.verify c particle (root.map (AxonIndex.leaf particle (UInt64.ofNat (x.degree particle)))) = some true ∧
        ∀ axon, ∃ q x₄, x.proveMember particle axon = some (q, x₄) ∧
          MemberVerifies (x.map[particle]?.getD []) axon root q := by
  obtain ⟨htrie, hkeyed, haxons⟩ := run_proofs_complete (F := Term) (C := Unit)
  refine ⟨?_, ?_, ?_⟩
  · obtain ⟨hfit, answers, T, hrun, hlen⟩ := Trie.exists_pair
    exact ⟨answers, T, hrun, hlen, htrie Trie.pairOps answers T hfit hrun⟩
  · obtain ⟨answers, m, hrun, -, hlisted, -⟩ := Keyed.exists_pair
    exact ⟨answers, m, hrun, hlisted,
      hkeyed Bytes32 UInt64 (fun _ => ()) Keyed.pairOps answers m Keyed.along_pairOps hrun⟩
  · obtain ⟨answers, x, hrun, hlisted, -⟩ := AxonIndex.exists_pair
    exact ⟨answers, x, hrun, hlisted,
      haxons (fun _ => ()) AxonIndex.pairOps answers x AxonIndex.along_pairOps hrun⟩

namespace Keyed

theorem bit_lowKey_last : bit (Trie.lowKey 0) 255 = false := by decide +kernel

theorem bit_lastKey_last : bit lastKey 255 = true := by decide +kernel

theorem bit_lastKey_below : ∀ j < 255, bit (Trie.lowKey 0) j = bit lastKey j := by decide +kernel

/-- The tree of low key 0 and the last key. -/
def pairTree (d₀ d₁ : Digest F) : ArenaTree F := .branch 2 255 (.leaf 0 (Trie.lowKey 0) d₀) (.leaf 1 lastKey d₁)

theorem canonical_pairTree (d₀ d₁ : Digest F) : Canonical bit 256 0 (pairTree d₀ d₁) := by
  refine .branch (Nat.zero_le _) (by decide) ?_ ?_ ?_ .leaf .leaf
  · intro k hk
    rw [List.mem_singleton.mp hk]
    exact bit_lowKey_last
  · intro k hk
    rw [List.mem_singleton.mp hk]
    exact bit_lastKey_last
  · intro j hj k hk k' hk'
    have hall : ∀ k ∈ [Trie.lowKey 0, lastKey], bit k j = bit lastKey j := by
      intro k hk
      rcases List.mem_cons.mp hk with rfl | hk
      · exact bit_lastKey_below j hj
      · rw [List.mem_singleton.mp hk]
    exact (hall k hk).trans (hall k' hk').symm

theorem treeDigest_pairTree (d₀ d₁ : Digest F) : treeDigest (pairTree d₀ d₁) = branchDigest 255 d₀ d₁ := rfl

theorem find_pairTree (d₀ d₁ : Digest F) : (pairTree d₀ d₁).find bit lastKey = (lastKey, d₁) := by
  rw [pairTree, find, if_pos bit_lastKey_last, find]

/-- Only the digest of the last key's own leaf has a proof against the root of the pair. -/
theorem eq_of_verify_pair (hs : Symbolic F) {d₀ d₁ d : Digest F} (h₀ : NotBranch branchValue 256 d₀)
    (h₁ : NotBranch branchValue 256 d₁) (hd : NotBranch branchValue 256 d) {p : TrieProof F}
    (hverify : p.verify (branchDigest 255 d₀ d₁) lastKey (some d) = some true) : d = d₁ := by
  obtain ⟨-, hleads⟩ := TrieProof.verify_some.mp hverify
  rw [← treeDigest_pairTree] at hleads
  have hleaf : ∀ e ∈ (pairTree d₀ d₁).entries, NotBranch branchValue 256 e.2 := by
    intro e he
    rcases List.mem_cons.mp he with rfl | he
    · exact h₀
    · rw [List.mem_singleton.mp he]
      exact h₁
  have hsame := TrieProof.Leads.leaf hs (canonical_pairTree d₀ d₁) hleaf hd hleads
  rw [find_pairTree] at hsame
  exact hsame

theorem leaf_injective (hs : Symbolic F) {key : Bytes32} {v v' : UInt64}
    (h : (leaf key v : Digest F) = leaf key v') : v = v' := by
  obtain ⟨-, hvals⟩ := leafDigest_injective hs (LawfulLeafValue.length_eq v v') h
  exact u64Limbs_injective hs hvals

/-- A run past the limit after which the record of a key has no proof that verifies. -/
theorem run_overflow_not_complete : ¬∀ (ops : List (Op Bytes32 UInt64))
    (answers : List (Answer Term Unit Bytes32 UInt64)) (m : Keyed Term Unit Bytes32 UInt64) (key : Bytes32),
    Refine.run (step fun _ => ()) new ops = some (answers, m) →
      ∃ c m₁ p m₂, m.commitment = some (c, m₁) ∧ m.prove key = some (p, m₂) ∧
        p.verify c (keyBytes key) (m.map[key]?.map (leaf key)) = some true := by
  intro h
  obtain ⟨ks, hks⟩ := exists_filling
  obtain ⟨answers, m, m', hrun, hget, hcommit⟩ :=
    run_overwriteOps (F := Term) (C := Unit) (fun _ => ()) hks (1 : UInt64) 2
  obtain ⟨c, m₁, p, m₂, hcommit', -, hverify⟩ := h _ answers m lastKey hrun
  obtain ⟨rfl, -⟩ := Prod.mk.inj (Option.some_inj.mp (hcommit.symm.trans hcommit'))
  rw [hget] at hverify
  have hsame := eq_of_verify_pair Term.symbolic (TrieProof.notBranch_leafDigest Term.symbolic _ _)
    (TrieProof.notBranch_leafDigest Term.symbolic _ _) (TrieProof.notBranch_leafDigest Term.symbolic _ _) hverify
  exact absurd (leaf_injective Term.symbolic hsame) (by decide)

end Keyed

end LeanBbg
