import LeanBbg.Root
import LeanBbg.KeyedProofs

/-! The V2 root binds the state. The fold determines the fourteen leaves, a trie root the records of its
dimension, and the statistics leaf the statistics, when neither the hash nor the byte form of the root
identifies the two values compared. -/

set_option linter.unusedSectionVars false

namespace LeanBbg

open Patricia Patricia.Tree TrieProof

variable {F : Type} [Hemera F] [DecidableEq F]

section Symbolic

variable (hs : Symbolic F)

include hs

/-- Leaf sets with one trie root are equal. -/
theorem node_leaves_injective {S S' : List (Bytes32 × Digest F)} (hnodup : (S.map Prod.fst).Nodup)
    (hnodup' : (S'.map Prod.fst).Nodup) (hleaf : ∀ e ∈ S, ∃ vals, e.2 = leafDigest e.1 vals)
    (hleaf' : ∀ e ∈ S', ∃ vals, e.2 = leafDigest e.1 vals) (h : node S = node S') : S.Perm S' := by
  have hvalue : ∀ e : Bytes32 × Digest F, (∃ vals, e.2 = leafDigest e.1 vals) →
      NotBranch branchValue 256 e.2 ∧ e.2 ≠ EMPTY := by
    rintro e ⟨vals, he⟩
    rw [he]
    exact ⟨notBranch_leafDigest hs e.1 vals, leafDigest_ne_empty hs e.1 vals⟩
  refine node_injective bit 256 branchValue EMPTY separates_bit (branchInjective hs) ?_ hnodup hnodup'
    (fun e he => hvalue e (hleaf e he)) (fun e he => hvalue e (hleaf' e he)) ?_ h
  · exact fun i _ a b heq => hs.notEmpty _ _ heq.symm
  · intro e he e' he' heq
    obtain ⟨vals, hvals⟩ := hleaf e he
    obtain ⟨vals', hvals'⟩ := hleaf' e' he'
    rw [hvals, hvals'] at heq
    exact leafDigest_key hs heq

namespace Keyed

variable {K V : Type} [Ord K] [TrieKey K] [LawfulTrieKey K] [LeafValue F V]

/-- One trie root, one set of leaves. -/
theorem leafEntries_perm {map map' : OrdMap K V}
    (h : node (leafEntries map : List (_ × Digest F)) = node (leafEntries map')) :
    (leafEntries map : List (_ × Digest F)).Perm (leafEntries map') :=
  node_leaves_injective hs (leafEntries_nodup map) (leafEntries_nodup map') (leafEntries_leaves map)
    (leafEntries_leaves map') h

/-- A record of one map is a record of the other with the same fields. -/
theorem exists_of_leafEntries_subset {map map' : OrdMap K V}
    (hlen : ∀ v w : V, (leafVals v : List F).length = (leafVals w : List F).length)
    (h : (leafEntries map : List (_ × Digest F)) ⊆ leafEntries map') {key : K} {v : V} (hget : map[key]? = some v) :
    ∃ w, map'[key]? = some w ∧ (leafVals v : List F) = leafVals w := by
  have hmem := h (List.mem_map.mpr ⟨(key, v), map.mem_toList.mpr hget, rfl⟩)
  obtain ⟨⟨k, w⟩, hentry, heq⟩ := List.mem_map.mp hmem
  obtain ⟨hkey, hleaf⟩ := Prod.mk.inj heq
  obtain rfl : k = key := LawfulTrieKey.keyBytes_injective hkey
  exact ⟨w, map'.mem_toList.mp hentry, (leafDigest_injective hs (hlen v w) hleaf.symm).2⟩

/-- The trie root determines the map. -/
theorem node_leafEntries_injective [LawfulLeafValue F V] {map map' : OrdMap K V}
    (h : node (leafEntries map : List (_ × Digest F)) = node (leafEntries map')) : map = map' := by
  have hperm := leafEntries_perm hs h
  have hle : ∀ {m m' : OrdMap K V}, (leafEntries m : List (_ × Digest F)) ⊆ leafEntries m' →
      ∀ (key : K) (v : V), m[key]? = some v → m'[key]? = some v := by
    intro m m' hsub key v hget
    obtain ⟨w, hw, hvals⟩ := exists_of_leafEntries_subset hs LawfulLeafValue.length_eq hsub hget
    rwa [LawfulLeafValue.injective hs hvals]
  refine Std.ExtTreeMap.ext_getElem? fun key => Option.ext fun v => ?_
  exact ⟨hle hperm.subset key v, hle hperm.symm.subset key v⟩

end Keyed

/-- The commitment to a set of axons determines the set. -/
theorem memberRoot_injective {l l' : List Particle} (hl : l.Nodup) (hl' : l'.Nodup)
    (h : (memberRoot l : Digest F) = memberRoot l') : l.Perm l' := by
  have hnodup : ∀ {l : List Particle}, l.Nodup → ((l.map fun a => (a, (leafDigest a [] : Digest F))).map Prod.fst).Nodup := by
    intro l hl
    rw [List.map_map]
    exact (List.map_id l).symm ▸ hl
  have hleaf : ∀ l : List Particle, ∀ e ∈ l.map fun a => (a, (leafDigest a [] : Digest F)),
      ∃ vals, e.2 = leafDigest e.1 vals := by
    intro l e he
    obtain ⟨a, -, rfl⟩ := List.mem_map.mp he
    exact ⟨[], rfl⟩
  have hperm := (node_leaves_injective hs (hnodup hl) (hnodup hl') (hleaf l) (hleaf l') h).map Prod.fst
  rw [List.map_map, List.map_map] at hperm
  simpa [Function.comp_def] using hperm

/-- The trie root of an adjacency index determines every list as a set. -/
theorem Adjacency.node_leafEntries_injective {A B : Adjacency}
    (h : node (Keyed.leafEntries A : List (_ × Digest F)) = node (Keyed.leafEntries B)) (particle : Particle) :
    (A.axons particle).Perm (B.axons particle) := by
  have hperm := Keyed.leafEntries_perm hs h
  have hlen : ∀ v w : AxonList, (leafVals v : List F).length = (leafVals w : List F).length := by
    intro v w
    simp [leafVals, u64Limbs]
  have hlist : ∀ {A B : Adjacency}, (Keyed.leafEntries A : List (_ × Digest F)) ⊆ Keyed.leafEntries B →
      ∀ l, A[particle]? = some l → ∃ l', B[particle]? = some l' ∧ l.axons.Perm l'.axons := by
    intro A B hsub l hget
    obtain ⟨l', hl', hvals⟩ := Keyed.exists_of_leafEntries_subset hs hlen hsub hget
    obtain ⟨-, hroot⟩ := List.append_inj hvals rfl
    exact ⟨l', hl', memberRoot_injective hs l.nodup l'.nodup (Vector.toList_inj.mp hroot)⟩
  cases hA : A[particle]? with
  | some l =>
      obtain ⟨l', hB, hp⟩ := hlist hperm.subset l hA
      rw [Adjacency.axons, Adjacency.axons, hA, hB]
      exact hp
  | none =>
      cases hB : B[particle]? with
      | none => rw [Adjacency.axons, Adjacency.axons, hA, hB]
      | some l' =>
          obtain ⟨l, hget, -⟩ := hlist hperm.symm.subset l' hB
          rw [hA] at hget
          cases hget

/-- Canonical digests are determined by their limbs. -/
theorem digestLimbs_injective {b b' : Bytes32} (hb : CanonicalDigest b) (hb' : CanonicalDigest b')
    (h : (digestLimbs b : Digest F) = digestLimbs b') : b = b' := by
  have hlt : ∀ (c : Bytes32) (i : Nat), limbValue c i < 2 ^ 64 := by
    intro c i
    have hlen : ((c.toList.drop (8 * i)).take 8).length ≤ 8 := by simp
    have := Bytes.leValue_lt ((c.toList.drop (8 * i)).take 8)
    rw [limbValue]
    exact this.trans_le ((Nat.pow_le_pow_right (by decide) hlen).trans (by decide))
  have hlimb : ∀ i < 4, limbValue b i = limbValue b' i := by
    intro i hi
    have hget : (new (UInt64.ofNat (limbValue b i)) : F) = new (UInt64.ofNat (limbValue b' i)) := by
      have := congrArg (fun d : Digest F => d[i]) h
      simpa [digestLimbs] using this
    have hval : ∀ c : Bytes32, (UInt64.ofNat (limbValue c i)).toNat = limbValue c i := by
      intro c
      rw [UInt64.toNat_ofNat', Nat.mod_eq_of_lt (hlt c i)]
    have := congrArg UInt64.toNat (hs.new_injective _ _ (by rw [hval]; exact hb i hi) (by rw [hval]; exact hb' i hi) hget)
    rwa [hval, hval] at this
  apply Vector.toList_inj.mp
  have hchunk : ∀ i < 4, (b.toList.drop (8 * i)).take 8 = (b'.toList.drop (8 * i)).take 8 := fun i hi =>
    Bytes.leValue_injective (by simp) (hlimb i hi)
  refine List.ext_getElem? fun m => ?_
  by_cases hm : m < 32
  · have hget := congrArg (fun l : List UInt8 => l[m % 8]?) (hchunk (m / 8) (by omega))
    simpa only [List.getElem?_take_of_lt (show m % 8 < 8 by omega), List.getElem?_drop,
      show 8 * (m / 8) + m % 8 = m by omega] using hget
  · rw [List.getElem?_eq_none (by simpa using hm), List.getElem?_eq_none (by simpa using hm)]

end Symbolic

theorem flatMap_u64LeBytes_injective {xs ys : List UInt64} (h : xs.flatMap u64LeBytes = ys.flatMap u64LeBytes) :
    xs = ys :=
  Bytes.flatMap_injective (by decide) u64LeBytes_length u64LeBytes_injective h

theorem GraphStats.serialize_injective : Function.Injective GraphStats.serialize := by
  rintro ⟨n, sizes, degree, bound⟩ ⟨n', sizes', degree', bound'⟩ h
  have hwords := flatMap_u64LeBytes_injective h
  obtain ⟨hfront, hback⟩ := List.append_inj hwords (by simp)
  obtain ⟨hn, hsizes⟩ := List.append_inj hfront rfl
  simp only [List.cons.injEq, and_true] at hn hback
  rw [GraphStats.mk.injEq]
  exact ⟨hn, Vector.toList_inj.mp hsizes, hback⟩

/-- The fold determines the leaves. -/
theorem rootFromLeaves_injective (hs : Symbolic F) {l l' : RootLeaves F} (h : rootFromLeaves l = rootFromLeaves l') :
    l.dims = l'.dims ∧ l.a = l'.a ∧ l.n = l'.n ∧ l.stats = l'.stats := by
  obtain ⟨-, hordered⟩ := hs.free.foldl_injective (.inr (.inr rfl)) (.inr (.inr rfl)) h
  obtain ⟨hdims, hrest⟩ := List.append_inj hordered (by simp)
  simp only [List.cons.injEq, and_true] at hrest
  exact ⟨Vector.toList_inj.mp hdims, hrest⟩

namespace State

variable [Brakedown F]

/-- The compression is symbolic; the hash does not identify the two statistics, and the bytes of the two
roots determine their limbs. -/
structure Binds (s s' : State F) : Prop where
  symbolic : Symbolic F
  hash_injective : s.statistics.commit F = s'.statistics.commit F →
    s.statistics.serialize = s'.statistics.serialize
  root_injective : s.root = s'.root → rootFromLeaves s.rootLeaves = rootFromLeaves s'.rootLeaves

/-- States with one V2 root have the same records in all dimensions, adjacency lists up to their order, and
the same private sets and statistics. -/
theorem root_binds {s s' : State F} (hv : s.rootVersion = .v2) (hv' : s'.rootVersion = .v2) (hb : Binds s s')
    (h : s.root = s'.root) :
    s.particles = s'.particles ∧ (∀ p, (s.axonsOut.axons p).Perm (s'.axonsOut.axons p)) ∧
      (∀ p, (s.axonsIn.axons p).Perm (s'.axonsIn.axons p)) ∧ s.neurons = s'.neurons ∧
      s.locations = s'.locations ∧ s.coins = s'.coins ∧ s.cards = s'.cards ∧ s.files = s'.files ∧
      s.time = s'.time ∧ s.signals = s'.signals ∧ s.balances = s'.balances ∧
      s.commitments = s'.commitments ∧ s.nullifiers = s'.nullifiers ∧ s.statistics = s'.statistics := by
  have hs := hb.symbolic
  obtain ⟨hdims, ha, hn, hstats⟩ := rootFromLeaves_injective hs (hb.root_injective h)
  have hserial := hb.hash_injective
    (digestLimbs_injective hs (Hemera.hash_canonical _) (Hemera.hash_canonical _) hstats)
  simp only [rootLeaves, hv, hv'] at hdims ha hn
  have hdim : ∀ i, (hi : i < 11) → s.v2Leaves.1[i] = s'.v2Leaves.1[i] := by
    intro i hi
    rw [hdims]
  exact ⟨Keyed.node_leafEntries_injective hs (hdim 0 (by decide)),
    Adjacency.node_leafEntries_injective hs (hdim 1 (by decide)),
    Adjacency.node_leafEntries_injective hs (hdim 2 (by decide)),
    Keyed.node_leafEntries_injective hs (hdim 3 (by decide)),
    Keyed.node_leafEntries_injective hs (hdim 4 (by decide)),
    Keyed.node_leafEntries_injective hs (hdim 5 (by decide)),
    Keyed.node_leafEntries_injective hs (hdim 6 (by decide)),
    Keyed.node_leafEntries_injective hs (hdim 7 (by decide)),
    Keyed.node_leafEntries_injective hs (hdim 8 (by decide)),
    Keyed.node_leafEntries_injective hs (hdim 9 (by decide)),
    Keyed.node_leafEntries_injective hs (hdim 10 (by decide)),
    Keyed.node_leafEntries_injective hs ha, Keyed.node_leafEntries_injective hs hn,
    GraphStats.serialize_injective hserial⟩

/-- A state in which one particle has two axons, over the symbolic field. -/
def twoAxons (first second : Particle) : State Term :=
  { State.new with axonsOut := Adjacency.put ∅ (Vector.replicate 32 1) [first, second] }

def axonA : Particle := Vector.replicate 32 2

def axonB : Particle := Vector.replicate 32 3

instance : Brakedown Term where
  commit _ := Vector.replicate 32 0
  commit_canonical _ := Hemera.hash_canonical (F := Term) []

/-- The trie leaves do not depend on the order of the axons. -/
theorem twoAxons_v2Leaves : (twoAxons axonA axonB).v2Leaves = (twoAxons axonB axonA).v2Leaves := by
  have hlist : ∀ l : AxonList, (Std.ExtTreeMap.insert (∅ : Adjacency) (Vector.replicate 32 1) l).toList =
      [(Vector.replicate 32 1, l)] := by
    intro l
    refine List.perm_singleton.mp ((OrdMap.toList_insert_perm ∅ _ l).trans (List.Perm.of_eq ?_))
    rw [OrdMap.erase_of_getElem? (by simp)]
    simp
  have hmember : (memberRoot [axonA, axonB] : Digest Term) = memberRoot [axonB, axonA] :=
    node_of_perm (by decide) (List.Perm.swap _ _ _)
  have hnode : node (Keyed.leafEntries (twoAxons axonA axonB).axonsOut : List (_ × Digest Term)) =
      node (Keyed.leafEntries (twoAxons axonB axonA).axonsOut) := by
    change node ((Std.ExtTreeMap.insert (∅ : Adjacency) (Vector.replicate 32 1) ⟨[axonA, axonB], _, _⟩).toList.map _) =
      node ((Std.ExtTreeMap.insert (∅ : Adjacency) (Vector.replicate 32 1) ⟨[axonB, axonA], _, _⟩).toList.map _)
    rw [hlist, hlist, List.map_singleton, List.map_singleton]
    simp only [Keyed.leaf, leafVals, hmember]
    rfl
  rw [v2Leaves, v2Leaves, hnode]
  rfl

/-- Two orders of a list have one root, and the theorem gives the lists as sets. -/
theorem root_binds_twoAxons : (twoAxons axonA axonB).root = (twoAxons axonB axonA).root ∧
    ((twoAxons axonA axonB).axonsOut.axons (Vector.replicate 32 1)).Perm
      ((twoAxons axonB axonA).axonsOut.axons (Vector.replicate 32 1)) := by
  have hstats : (twoAxons axonA axonB).statistics = (twoAxons axonB axonA).statistics := by decide
  have hleaves : (twoAxons axonA axonB).rootLeaves = (twoAxons axonB axonA).rootLeaves := by
    change RootLeaves.mk (v2Leaves _).1 (v2Leaves _).2.1 (v2Leaves _).2.2 _ =
      RootLeaves.mk (v2Leaves _).1 (v2Leaves _).2.1 (v2Leaves _).2.2 _
    rw [twoAxons_v2Leaves, hstats]
  have hroot : (twoAxons axonA axonB).root = (twoAxons axonB axonA).root := by rw [root, root, hleaves]
  exact ⟨hroot, (root_binds rfl rfl ⟨Term.symbolic, fun _ => by rw [hstats], fun _ => by rw [hleaves]⟩ hroot).2.1 _⟩

end State

end LeanBbg
