import LeanBbg.KeyedRefinement

/-! What proofs against the commitment of a keyed map establish. An accepted inclusion proof is of a
record of the map. An accepted absence proof is not always of an absent key: `verify` compares the key of
the terminal with the queried key but never asks whether the terminal's digest is a leaf of that key, so a
present key's own path, cut anywhere and ended with a foreign key, is accepted. -/

set_option linter.unusedSectionVars false

namespace LeanBbg

open Patricia Patricia.Tree

variable {F C K V : Type} [Hemera F] [DecidableEq F]

namespace TrieProof

/-- The proof ends with a key other than `key`, at a node on the honest path of `key`. -/
def Forged (p honest : TrieProof F) (key : Bytes32) : Prop :=
  ∃ k d n, p.terminal = some (k, d) ∧ k ≠ key ∧ p.steps = honest.steps.take n ∧
    ∃ k' d', honest.terminal = some (k', d') ∧ d = climbSteps key (honest.steps.drop n) d'

/-- A proof without steps that ends at the root itself is accepted for every key but the one it names. -/
theorem verify_root_terminal {root : Digest F} {k key : Bytes32} (hne : k ≠ key) :
    (⟨[], some (k, root)⟩ : TrieProof F).verify root key none = some true :=
  verify_none.mpr (.inr ⟨k, root, rfl, hne, ⟨List.Pairwise.nil, by simp⟩, rfl⟩)

/-- Against the root of a record set, the accepted absence proofs of a present key are the forged ones. -/
theorem verify_none_iff_forged (hs : Symbolic F) {M : DigestMap F} {key : Bytes32} {honest : TrieProof F}
    (hhonest : Trie.Honest M key honest) (hleaves : ∀ k d, M[k]? = some d → ∃ vals, d = leafDigest k vals)
    (hpresent : M[key]? ≠ none) (p : TrieProof F) :
    p.verify (node M.toList) key none = some true ↔ p.Forged honest key := by
  rcases hhonest with ⟨rfl, -⟩ | ⟨t, hcanonical, hM, rfl⟩
  · simp at hpresent
  have hleaf : ∀ e ∈ t.entries, NotBranch branchValue 256 e.2 := by
    rintro ⟨k, d⟩ he
    obtain ⟨vals, rfl⟩ := hleaves k d ((hM k d).mp he)
    exact notBranch_leafDigest hs k vals
  have hne : treeDigest t ≠ EMPTY := by
    intro hempty
    cases t with
    | leaf a k d =>
        obtain ⟨vals, rfl⟩ := hleaves k d ((hM k d).mp (by simp))
        exact leafDigest_ne_empty hs k vals hempty
    | branch a i l r => exact hs.notEmpty _ _ hempty
  rw [hM.node_eq hcanonical, verify_none]
  constructor
  · rintro (⟨-, -, hempty⟩ | ⟨k, d, hterm, hk, hleads⟩)
    · exact absurd hempty hne
    · obtain ⟨htake, hdrop⟩ := Leads.sound hs hcanonical hleaf hleads
      exact ⟨k, d, _, hterm, hk, htake, _, _, rfl, hdrop⟩
  · rintro ⟨k, d, n, hterm, hk, hsteps, k', d', hhonest, rfl⟩
    obtain ⟨-, rfl⟩ := Prod.mk.inj (Option.some_inj.mp hhonest)
    exact .inr ⟨k, _, hterm, hk, honest_leads hcanonical key hsteps⟩

end TrieProof

namespace Keyed

variable [Ord K] [TrieKey K] [LawfulTrieKey K] [LeafValue F V]

theorem leafEntries_leaves (map : OrdMap K V) :
    ∀ e ∈ (leafEntries map : List (_ × Digest F)), ∃ vals, e.2 = leafDigest e.1 vals := by
  intro e he
  obtain ⟨⟨key, v⟩, -, rfl⟩ := List.mem_map.mp he
  exact ⟨leafVals v, rfl⟩

/-- An accepted inclusion proof against the leaves of a map is of a record of the map. -/
theorem inclusion_sound [LawfulLeafValue F V] (hs : Symbolic F) {map : OrdMap K V} {key : K} {v : V}
    {p : TrieProof F}
    (hverify : p.verify (node (leafEntries map)) (keyBytes key) (some (leaf key v)) = some true) :
    map[key]? = some v := by
  have hmem := TrieProof.verify_sound hs (leafEntries_nodup map) (leafEntries_leaves map) hverify
  obtain ⟨⟨k, v'⟩, hentry, heq⟩ := List.mem_map.mp hmem
  obtain ⟨hkey, hleaf⟩ := Prod.mk.inj heq
  obtain rfl := LawfulTrieKey.keyBytes_injective hkey
  obtain ⟨-, hvals⟩ := leafDigest_injective hs (LawfulLeafValue.length_eq v' v) hleaf
  obtain rfl := LawfulLeafValue.injective hs hvals
  exact map.mem_toList.mp hentry

theorem InStep.leaves {map : OrdMap K V} {S : DigestMap F} (h : InStep map S) {b : Bytes32} {d : Digest F}
    (hget : S[b]? = some d) : ∃ vals, d = leafDigest b vals := by
  obtain ⟨key, rfl⟩ := h.range b (by rw [hget]; simp)
  rw [h.lookup key, Option.map_eq_some_iff] at hget
  obtain ⟨v, -, rfl⟩ := hget
  exact ⟨leafVals v, rfl⟩

/-- At every map that a run within the limit reaches, an accepted absence proof of a key shows that the map
has no record at it, unless the key is present and the proof forged from its honest path. -/
theorem absence_sound_iff (hs : Symbolic F) (f : OrdMap K V → C) (ops : List (Op K V))
    {answers : List (Answer F C K V)} {m : Keyed F C K V}
    (hfit : (plainSpec (F := F) f).Along Fits ⟨∅, ∅, ∅⟩ (ops ++ [.commitment]))
    (hrun : Refine.run (step f) new ops = some (answers, m)) (key : K) (p : TrieProof F) :
    ∃ c m₁ honest m₂, m.commitment = some (c, m₁) ∧ m.prove key = some (honest, m₂) ∧
      ((p.verify c (keyBytes key) none = some true → m.map[key]? = none) ↔
        ¬(m.map[key]? ≠ none ∧ p.Forged honest (keyBytes key))) := by
  obtain ⟨hbefore, hflush, -⟩ := Refine.Spec.along_append.mp hfit
  have hshows := Refine.Spec.rel_of_run (step_refines f) (shows_new f) hbefore hrun
  generalize ops.foldl (plainSpec (F := F) f).apply ⟨∅, ∅, ∅⟩ = A at hflush hshows
  obtain ⟨map, S, dirty⟩ := A
  obtain rfl : m.map = map := hshows.map
  obtain rfl : m.dirty = dirty := hshows.dirty
  have hstep := hshows.inv.inStep_putAll
  obtain ⟨trie₁, hcommit, -⟩ := hshows.inv.commitment_eq hflush
  obtain ⟨honest, trie₂, hprove, -, hhonest⟩ := hshows.inv.prove_eq hflush key
  refine ⟨_, _, honest, _, hcommit, hprove, ?_⟩
  cases hget : m.map[key]? with
  | none => simp
  | some v =>
      have hpresent : (OrdMap.putAll S (updates m.map m.dirty))[keyBytes key]? ≠ none := by
        rw [hstep.lookup key, hget]
        simp
      rw [← hstep.node_eq, TrieProof.verify_none_iff_forged hs hhonest (fun k d => hstep.leaves) hpresent]
      simp

/-- The nullifier set with one spent nullifier. -/
def spentOnce (nullifier : Bytes32) : Keyed F C Bytes32 Unit := (new.insert nullifier ()).2

theorem spentOnce_map (nullifier : Bytes32) :
    (spentOnce nullifier : Keyed F C Bytes32 Unit).map[nullifier]? = some () := by
  change ((∅ : OrdMap Bytes32 Unit).insert nullifier ())[nullifier]? = some ()
  rw [OrdMap.getElem?_insert, if_pos rfl]

/-- Inserting one key and reading the commitment stays within the limit. -/
theorem along_spentOnce (f : OrdMap Bytes32 Unit → C) (nullifier : Bytes32) :
    (plainSpec (F := F) f).Along Fits ⟨∅, ∅, ∅⟩ ([.insert nullifier ()] ++ [.commitment]) := by
  refine ⟨trivial, DigestMap.fitsAll_of_le ?_, trivial⟩
  change (∅ : DigestMap F).size + (updates _ ((∅ : OrdMap Bytes32 Unit).insert nullifier ())).length ≤ _
  have hinsert : ((∅ : OrdMap Bytes32 Unit).insert nullifier ()).size ≤ (∅ : OrdMap Bytes32 Unit).size + 1 :=
    Std.ExtTreeMap.size_insert_le
  rw [updates, List.length_map, Std.ExtTreeMap.length_keys, Trie.maxKeys]
  rw [Std.ExtTreeMap.size_empty] at hinsert ⊢
  omega

/-- The theorem at a spent nullifier and the proof of an empty set. -/
theorem absence_sound_iff_spentOnce : ∃ c m₁ honest m₂,
    (spentOnce (Vector.replicate 32 7) : Keyed Term Unit Bytes32 Unit).commitment = some (c, m₁) ∧
    (spentOnce (Vector.replicate 32 7) : Keyed Term Unit Bytes32 Unit).prove (Vector.replicate 32 7) =
      some (honest, m₂) ∧
    (((⟨[], none⟩ : TrieProof Term).verify c (keyBytes (Vector.replicate 32 (7 : UInt8))) none = some true →
      (spentOnce (Vector.replicate 32 7) : Keyed Term Unit Bytes32 Unit).map[Vector.replicate 32 (7 : UInt8)]? =
        none) ↔
      ¬((spentOnce (Vector.replicate 32 7) : Keyed Term Unit Bytes32 Unit).map[Vector.replicate 32 (7 : UInt8)]? ≠
        none ∧ (⟨[], none⟩ : TrieProof Term).Forged honest (keyBytes (Vector.replicate 32 (7 : UInt8))))) :=
  absence_sound_iff Term.symbolic (fun _ => ()) [.insert (Vector.replicate 32 7) ()]
    (along_spentOnce (fun _ => ()) (Vector.replicate 32 7)) rfl (Vector.replicate 32 7) ⟨[], none⟩

/-- A spent nullifier verifies as absent: the proof has no steps and names another key at the root. -/
theorem spent_verifies_absent : ∃ c m,
    (spentOnce (Vector.replicate 32 7) : Keyed Term Unit Bytes32 Unit).commitment = some (c, m) ∧
    (⟨[], some (Vector.replicate 32 8, c)⟩ : TrieProof Term).verify c (keyBytes (Vector.replicate 32 (7 : UInt8)))
      none = some true ∧
    (spentOnce (Vector.replicate 32 7) : Keyed Term Unit Bytes32 Unit).map[Vector.replicate 32 (7 : UInt8)]? =
      some () := by
  have hfit := along_spentOnce (F := Term) (fun _ => ()) (Vector.replicate 32 7)
  have hshows : Shows _ (spentOnce (Vector.replicate 32 7)) _ :=
    Refine.Spec.rel_of_run (step_refines _) (shows_new _) (Refine.Spec.along_append.mp hfit).1 rfl
  obtain ⟨trie, hcommit, -⟩ := hshows.inv.commitment_eq hfit.2.1
  exact ⟨_, _, hcommit, TrieProof.verify_root_terminal (by decide), spentOnce_map _⟩

end Keyed

end LeanBbg
