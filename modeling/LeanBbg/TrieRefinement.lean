import LeanBbg.LibMap
import LeanBbg.LibRefine
import LeanBbg.Term
import LeanBbg.TrieVerify

/-! The trie refines a finite map from keys to digests. `Models T M` connects the arena to the map; every
operation answers as the map does and keeps the relation, as long as the map has at most `2 ^ 31` keys.
At one key more the arena passes `2 ^ 32` nodes, and the index of the new branch wraps to 0. -/

set_option linter.unusedSectionVars false

namespace LeanBbg

open Patricia Patricia.Tree

variable {F : Type} [Hemera F] [DecidableEq F]

/-- The finite map that a trie stands for. -/
abbrev DigestMap (F : Type) := OrdMap Bytes32 (Digest F)

namespace Trie

/-- The most keys whose nodes have distinct `u32` indices. -/
def maxKeys : Nat := 2 ^ 31

/-- The tree holds the records of the map. -/
def Records (t : ArenaTree F) (M : DigestMap F) : Prop := ∀ k d, (k, d) ∈ t.entries ↔ M[k]? = some d

/-- The trie holds exactly the records of the map. -/
def Models (T : Trie F) (M : DigestMap F) : Prop :=
  (Vacant T ∧ M = ∅) ∨ ∃ t, Holds T t ∧ Records t M

theorem models_empty : Models (empty : Trie F) ∅ :=
  .inl ⟨⟨rfl, List.Perm.refl _, rfl⟩, rfl⟩

theorem Records.perm_toList {t : ArenaTree F} {M : DigestMap F} (hM : Records t M)
    (h : Canonical bit 256 0 t) : t.entries.Perm M.toList :=
  M.perm_toList h.keys_nodup hM

theorem Records.size_eq {t : ArenaTree F} {M : DigestMap F} (hM : Records t M) (h : Canonical bit 256 0 t) :
    t.entries.length = M.size := by
  rw [(hM.perm_toList h).length_eq, Std.ExtTreeMap.length_toList]

/-- The digest of the tree is `node` of its records. -/
theorem Records.node_eq {t : ArenaTree F} {M : DigestMap F} (hM : Records t M) (h : Canonical bit 256 0 t) :
    node M.toList = treeDigest t :=
  node_eq_value bit 256 branchValue EMPTY h (hM.perm_toList h).symm

@[simp] theorem node_toList_empty : node (∅ : DigestMap F).toList = EMPTY := by
  rw [Std.ExtTreeMap.toList_eq_nil_iff.mpr rfl]
  rfl

/-- A lookup in the map ends where the key's walk does. -/
theorem Records.getElem?_eq {t : ArenaTree F} {M : DigestMap F} (hM : Records t M)
    (h : Canonical bit 256 0 t) (key : Bytes32) :
    M[key]? = if (t.find bit key).1 = key then some (t.find bit key).2 else none := by
  split_ifs with hkey
  · have hmem := find_mem bit key t
    rw [← Prod.eta (t.find bit key), hkey] at hmem
    exact (hM _ _).mp hmem
  · cases hget : M[key]? with
    | none => rfl
    | some d =>
        have hmem := mem_keys_of_mem_entries ((hM key d).mpr hget)
        exact absurd ((h.mem_keys_iff key).mp hmem) hkey

theorem Records.not_mem_keys {t : ArenaTree F} {M : DigestMap F} (hM : Records t M) {key : Bytes32}
    (hnone : M[key]? = none) : key ∉ t.keys := by
  intro hmem
  obtain ⟨⟨k, d⟩, hentry, rfl⟩ := List.mem_map.mp hmem
  rw [(hM k d).mp hentry] at hnone
  cases hnone

/-! ### The operations on the map -/

theorem Models.len_eq {T : Trie F} {M : DigestMap F} (h : Models T M) : T.len = M.size := by
  rcases h with ⟨hv, rfl⟩ | ⟨t, ht, hM⟩
  · rw [hv.len, Std.ExtTreeMap.size_empty]
  · rw [ht.len, hM.size_eq ht.canonical]

theorem Models.get_eq {T : Trie F} {M : DigestMap F} (h : Models T M) (key : Bytes32) :
    T.get key = some M[key]? := by
  rcases h with ⟨hv, rfl⟩ | ⟨t, ht, hM⟩
  · rw [get, hv.root]
    simp
  · rw [ht.get_eq key, hM.getElem?_eq ht.canonical key]

theorem Models.isDirty_eq {T : Trie F} {M : DigestMap F} (h : Models T M) : ∃ b, T.isDirty = some b := by
  rcases h with ⟨hv, rfl⟩ | ⟨t, ht, hM⟩
  · exact ⟨false, by rw [isDirty, hv.root]⟩
  · exact ht.isDirty_eq

theorem Models.root_eq {T : Trie F} {M : DigestMap F} (h : Models T M) :
    ∃ T', T.root = some (node M.toList, T') ∧ Models T' M := by
  rcases h with ⟨hv, rfl⟩ | ⟨t, ht, hM⟩
  · refine ⟨T, ?_, .inl ⟨hv, rfl⟩⟩
    rw [root, hv.root, node_toList_empty]
  · obtain ⟨T', hroot, ht', -, -, -⟩ := ht.root_eq
    exact ⟨T', by rw [hroot, hM.node_eq ht.canonical], .inr ⟨t, ht', hM⟩⟩

/-- The path of a key in the trie of the map. -/
def Honest (M : DigestMap F) (key : Bytes32) (p : TrieProof F) : Prop :=
  (M = ∅ ∧ p = ⟨[], none⟩) ∨ ∃ t, Canonical bit 256 0 t ∧ Records t M ∧ p = honestProof t key

/-- The proof given for a key is its path. -/
theorem Models.prove_eq {T : Trie F} {M : DigestMap F} (h : Models T M) (key : Bytes32) :
    ∃ p T', T.prove key = some (p, T') ∧ Models T' M ∧ Honest M key p := by
  rcases h with ⟨hv, rfl⟩ | ⟨t, ht, hM⟩
  · exact ⟨⟨[], none⟩, T, by rw [prove, hv.root], .inl ⟨hv, rfl⟩, .inl ⟨rfl, rfl⟩⟩
  · obtain ⟨T', hprove, ht'⟩ := ht.prove_eq key
    exact ⟨_, T', hprove, .inr ⟨t, ht', hM⟩, .inr ⟨t, ht.canonical, hM, rfl⟩⟩

/-- A key's path verifies what the map says about the key. -/
theorem Honest.verify_eq {M : DigestMap F} {key : Bytes32} {p : TrieProof F} (h : Honest M key p) :
    p.verify (node M.toList) key M[key]? = some true := by
  rcases h with ⟨rfl, rfl⟩ | ⟨t, hcanonical, hM, rfl⟩
  · simp [TrieProof.verify]
  · rw [hM.node_eq hcanonical, hM.getElem?_eq hcanonical key]
    exact TrieProof.honest_verifies hcanonical key

theorem Models.set_eq {T : Trie F} {M : DigestMap F} (h : Models T M) (key : Bytes32) (digest : Digest F)
    (hfit : (M.insert key digest).size ≤ maxKeys) :
    ∃ T', T.set key digest = some (!M.contains key, T') ∧ Models T' (M.insert key digest) := by
  rcases h with ⟨hv, rfl⟩ | ⟨t, ht, hM⟩
  · obtain ⟨i, T', halloc, -, harena, hnode, -, -, -, -⟩ :=
      alloc_eq (show ([] ++ T.free).Perm _ from hv.arena) (by decide) (Node.leaf key digest)
    refine ⟨{ T' with rootIndex := some i, len := 1 }, ?_, .inr ⟨.leaf i key digest,
      ⟨rfl, hnode, .leaf, harena, rfl⟩, ?_⟩⟩
    · rw [set, hv.root]
      simp [halloc]
    · intro k d
      rw [OrdMap.getElem?_insert, entries_leaf, List.mem_singleton, Prod.mk.injEq]
      split_ifs with hk
      · simp [hk, eq_comm]
      · simp [Ne.symm hk]
  · cases hget : M[key]? with
    | none =>
        have hcontains : M.contains key = false := by rw [OrdMap.contains_eq_isSome, hget]; rfl
        have habsent := hM.not_mem_keys hget
        have hlen : t.entries.length < 2 ^ 31 := by
          rw [Std.ExtTreeMap.size_insert, hcontains] at hfit
          rw [hM.size_eq ht.canonical]
          exact hfit
        obtain ⟨T', t', hset, ht', hperm, -, -⟩ := ht.set_absent habsent digest hlen
        refine ⟨T', by rw [hset, hcontains]; rfl, .inr ⟨t', ht', fun k d => ?_⟩⟩
        rw [hperm.mem_iff, List.mem_cons, hM k d, OrdMap.getElem?_insert, Prod.mk.injEq]
        split_ifs with hk
        · subst k
          simp [hget, eq_comm]
        · simp [Ne.symm hk]
    | some d₀ =>
        have hcontains : M.contains key = true := by rw [OrdMap.contains_eq_isSome, hget]; rfl
        have hmem := (hM key d₀).mpr hget
        obtain ⟨T', t', hset, ht', hperm⟩ := ht.set_present hmem digest
        refine ⟨T', by rw [hset, hcontains]; rfl, .inr ⟨t', ht', fun k d => ?_⟩⟩
        have hnew : (key, digest) ∈ t'.entries := by
          by_cases hsame : digest = d₀
          · subst digest
            exact ((List.perm_append_right_iff _).mp hperm).mem_iff.mpr hmem
          · have := hperm.mem_iff.mpr (List.mem_append_right _ (List.mem_singleton.mpr rfl))
            simpa [hsame] using this
        rw [OrdMap.getElem?_insert]
        split_ifs with hk
        · subst k
          constructor
          · intro hd
            exact congrArg (fun e => some e.2)
              ((ht'.canonical.find_of_mem hnew).symm.trans (ht'.canonical.find_of_mem hd))
          · intro hd
            rw [← Option.some_inj.mp hd]
            exact hnew
        · have hiff := hperm.mem_iff (a := (k, d))
          simpa [Ne.symm hk, hM k d] using hiff

theorem Models.remove_eq {T : Trie F} {M : DigestMap F} (h : Models T M) (key : Bytes32) :
    ∃ T', T.remove key = some (M.contains key, T') ∧ Models T' (M.erase key) := by
  have hcontains := OrdMap.contains_eq_isSome M key
  cases hget : M[key]? with
  | none =>
      rw [hget, Option.isSome_none] at hcontains
      rw [OrdMap.erase_of_getElem? hget, hcontains]
      rcases h with ⟨hv, rfl⟩ | ⟨t, ht, hM⟩
      · exact ⟨T, by rw [remove, hv.root], .inl ⟨hv, rfl⟩⟩
      · exact ⟨T, ht.remove_absent (hM.not_mem_keys hget), .inr ⟨t, ht, hM⟩⟩
  | some d =>
      rw [hget, Option.isSome_some] at hcontains
      rw [hcontains]
      rcases h with ⟨hv, rfl⟩ | ⟨t, ht, hM⟩
      · simp at hget
      have hmem := (hM key d).mpr hget
      cases hlast : t.lastBit bit key with
      | none =>
          obtain ⟨T', hremove, hv', hentries⟩ := ht.remove_last hmem hlast
          refine ⟨T', hremove, .inl ⟨hv', Std.ExtTreeMap.ext_getElem? fun k => ?_⟩⟩
          rw [OrdMap.getElem?_erase]
          split_ifs with hk
          · simp
          · cases hother : M[k]? with
            | none => simp
            | some d' =>
                have := (hM k d').mpr hother
                rw [hentries, List.mem_singleton, Prod.mk.injEq] at this
                exact absurd this.1.symm hk
      | some j =>
          obtain ⟨T', t', hremove, ht', hperm⟩ := ht.remove_present hmem hlast
          refine ⟨T', hremove, .inr ⟨t', ht', fun k d' => ?_⟩⟩
          have hiff := hperm.mem_iff (a := (k, d'))
          rw [OrdMap.getElem?_erase]
          split_ifs with hk
          · subst k
            refine iff_of_false (fun hd => ?_) (by simp)
            have hnodup := (hperm.map Prod.fst).nodup_iff.mpr ht.canonical.keys_nodup
            rw [List.map_cons, List.nodup_cons] at hnodup
            exact hnodup.1 (mem_keys_of_mem_entries hd)
          · simpa [Ne.symm hk, hM k d'] using hiff

/-! ### Runs -/

/-- An operation of the trie. -/
inductive Op (F : Type) where
  | set (key : Bytes32) (digest : Digest F)
  | remove (key : Bytes32)
  | get (key : Bytes32)
  | root
  | prove (key : Bytes32)
  | isDirty
  | len

inductive Answer (F : Type) where
  | changed (b : Bool)
  | found (digest : Option (Digest F))
  | root (digest : Digest F)
  | proof (p : TrieProof F)
  | dirty (b : Bool)
  | len (n : Nat)

def step (T : Trie F) : Op F → Option (Answer F × Trie F)
  | .set key digest => (T.set key digest).map fun r => (.changed r.1, r.2)
  | .remove key => (T.remove key).map fun r => (.changed r.1, r.2)
  | .get key => (T.get key).map fun d => (.found d, T)
  | .root => T.root.map fun r => (.root r.1, r.2)
  | .prove key => (T.prove key).map fun r => (.proof r.1, r.2)
  | .isDirty => T.isDirty.map fun b => (.dirty b, T)
  | .len => some (.len T.len, T)

/-- The finite map's own behaviour. A proof is right when it verifies what the map says about the key;
nothing is said about dirtiness. -/
def mapSpec : Refine.Spec (DigestMap F) (Op F) (Answer F) where
  apply
    | M, .set key digest => M.insert key digest
    | M, .remove key => M.erase key
    | M, _ => M
  Answers
    | M, .set key _, .changed b => b = !M.contains key
    | M, .remove key, .changed b => b = M.contains key
    | M, .get key, .found d => d = M[key]?
    | M, .root, .root d => d = node M.toList
    | M, .prove key, .proof p => p.verify (node M.toList) key M[key]? = some true
    | _, .isDirty, .dirty _ => True
    | M, .len, .len n => n = M.size
    | _, _, _ => False

/-- The operation leaves at most `maxKeys` keys in the map. -/
def Fits (M : DigestMap F) (op : Op F) : Prop := (mapSpec.apply M op).size ≤ maxKeys

theorem step_refines (T : Trie F) (M : DigestMap F) (op : Op F) (h : Models T M) (hfit : Fits M op) :
    mapSpec.Step step Models T M op := by
  cases op with
  | set key digest =>
      obtain ⟨T', hset, h'⟩ := h.set_eq key digest hfit
      exact ⟨.changed (!M.contains key), T', by rw [step, hset]; rfl, rfl, h'⟩
  | remove key =>
      obtain ⟨T', hremove, h'⟩ := h.remove_eq key
      exact ⟨.changed (M.contains key), T', by rw [step, hremove]; rfl, rfl, h'⟩
  | get key => exact ⟨.found M[key]?, T, by rw [step, h.get_eq key]; rfl, rfl, h⟩
  | root =>
      obtain ⟨T', hroot, h'⟩ := h.root_eq
      exact ⟨.root (node M.toList), T', by rw [step, hroot]; rfl, rfl, h'⟩
  | prove key =>
      obtain ⟨p, T', hprove, h', hhonest⟩ := h.prove_eq key
      exact ⟨.proof p, T', by rw [step, hprove]; rfl, hhonest.verify_eq, h'⟩
  | isDirty =>
      obtain ⟨b, hdirty⟩ := h.isDirty_eq
      exact ⟨.dirty b, T, by rw [step, hdirty]; rfl, trivial, h⟩
  | len => exact ⟨.len T.len, T, rfl, h.len_eq, h⟩

/-- Every run from the empty trie behaves as the finite map, without a panic, as long as the map never
holds more than `2 ^ 31` keys. -/
theorem run_refines_map {ops : List (Op F)} (hfit : mapSpec.Along Fits ∅ ops) :
    ∃ answers T, Refine.run step (empty : Trie F) ops = some (answers, T) ∧ mapSpec.Agree ∅ ops answers := by
  obtain ⟨answers, T, hrun, hagree, -⟩ := Refine.Spec.run_agree step_refines models_empty hfit
  exact ⟨answers, T, hrun, hagree⟩

/-- A run that inserts, reinserts and removes two keys, with root reads in between. -/
theorem run_refines_map_small : ∃ answers T, Refine.run step (empty : Trie Term)
    [.set (Vector.replicate 32 0) EMPTY, .set (Vector.replicate 32 1) EMPTY, .root,
      .remove (Vector.replicate 32 0), .prove (Vector.replicate 32 0), .len] = some (answers, T) ∧
      mapSpec.Agree ∅ [.set (Vector.replicate 32 0) EMPTY, .set (Vector.replicate 32 1) EMPTY, .root,
        .remove (Vector.replicate 32 0), .prove (Vector.replicate 32 0), .len] answers := by
  refine run_refines_map ⟨?_, ?_, ?_, ?_, ?_, ?_, trivial⟩ <;>
  · change Std.ExtTreeMap.size _ ≤ 2 ^ 31
    decide +kernel

end Trie

end LeanBbg
