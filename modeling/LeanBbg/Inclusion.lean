import LeanBbg.AxonRuns
import LeanBbg.KeyedProofs

/-! What an accepted inclusion proof establishes, for keyed maps and for adjacency indexes. In an index the
outer leaf fixes the degree and the root of the member trie, and a member proof is against that root. -/

set_option linter.unusedSectionVars false

namespace LeanBbg

variable {F C : Type} [Hemera F] [DecidableEq F]

namespace AxonIndex

/-- An outer proof and a member proof together show an axon of the particle and the length of its list. -/
theorem inclusion_sound (hs : Symbolic F) {A : Adjacency} {particle axon : Particle} {degree : UInt64}
    {root : Digest F} {outer member : TrieProof F}
    (houter : outer.verify (node (Keyed.leafEntries A)) particle (some (leaf particle degree root)) = some true)
    (hmember : member.verify root axon (some (memberDigest axon)) = some true) :
    ∃ l, A[particle]? = some l ∧ UInt64.ofNat l.axons.length = degree ∧ axon ∈ l.axons := by
  have hmem := TrieProof.verify_sound hs (Keyed.leafEntries_nodup A) (Keyed.leafEntries_leaves A) houter
  obtain ⟨⟨q, l⟩, hentry, heq⟩ := List.mem_map.mp hmem
  obtain ⟨hkey, hleaf⟩ := Prod.mk.inj heq
  obtain rfl : q = particle := hkey
  have hvals : u64Limbs (UInt64.ofNat l.axons.length) ++ (memberRoot l.axons : Digest F).toList =
      u64Limbs degree ++ root.toList :=
    (leafDigest_injective hs (by simp [leafVals, u64Limbs]) hleaf).2
  obtain ⟨hdegree, hroot⟩ := List.append_inj hvals rfl
  obtain rfl : memberRoot l.axons = root := Vector.toList_inj.mp hroot
  refine ⟨l, A.mem_toList.mp hentry, u64Limbs_injective hs hdegree, ?_⟩
  have haxon := TrieProof.verify_sound hs (by rw [List.map_map]; exact (List.map_id l.axons).symm ▸ l.nodup)
    (fun e he => by obtain ⟨a, -, rfl⟩ := List.mem_map.mp he; exact ⟨[], rfl⟩) hmember
  obtain ⟨a, ha, heq⟩ := List.mem_map.mp haxon
  obtain ⟨rfl, -⟩ := Prod.mk.inj heq
  exact ha

end AxonIndex

/-- At every keyed map and every index that a run within the limits reaches, accepted inclusion proofs are of
records of the map, and of a list with that many axons and the axon among them. -/
theorem run_inclusion_sound (hs : Symbolic F) :
    (∀ (K V : Type) [Ord K] [TrieKey K] [LawfulTrieKey K] [LeafValue F V] [LawfulLeafValue F V]
      (f : OrdMap K V → C) (ops : List (Keyed.Op K V)) (answers : List (Keyed.Answer F C K V)) (m : Keyed F C K V),
      (Keyed.plainSpec (F := F) f).Along Keyed.Fits ⟨∅, ∅, ∅⟩ (ops ++ [.commitment]) →
      Refine.run (Keyed.step f) Keyed.new ops = some (answers, m) →
      ∃ c m', m.commitment = some (c, m') ∧ ∀ (key : K) (v : V) (p : TrieProof F),
        p.verify c (keyBytes key) (some (Keyed.leaf key v)) = some true → m.map[key]? = some v) ∧
    (∀ (f : OrdMap Particle (List Particle) → C) (ops : List AxonIndex.Op)
      (answers : List (AxonIndex.Answer F C)) (x : AxonIndex F C),
      (AxonIndex.plainSpec (F := F) f).Along AxonIndex.Fits ⟨∅, ∅, ∅⟩ (ops ++ [.commitment]) →
      Refine.run (AxonIndex.step f) AxonIndex.new ops = some (answers, x) →
      ∃ c x', x.commitment = some (c, x') ∧
        ∀ (particle axon : Particle) (n : UInt64) (r : Digest F) (outer member : TrieProof F),
          outer.verify c particle (some (AxonIndex.leaf particle n r)) = some true →
          member.verify r axon (some (AxonIndex.memberDigest axon)) = some true →
          ∃ l, x.map[particle]? = some l ∧ l.length = n.toNat ∧ axon ∈ l) := by
  constructor
  · intro K V _ _ _ _ _ f ops answers m hfit hrun
    obtain ⟨hbefore, hflush, -⟩ := Refine.Spec.along_append.mp hfit
    have hshows := Refine.Spec.rel_of_run (Keyed.step_refines f) (Keyed.shows_new f) hbefore hrun
    generalize ops.foldl (Keyed.plainSpec (F := F) f).apply ⟨∅, ∅, ∅⟩ = A at hflush hshows
    obtain ⟨map, S, dirty⟩ := A
    obtain rfl : m.map = map := hshows.map
    obtain rfl : m.dirty = dirty := hshows.dirty
    obtain ⟨trie, hcommit, -⟩ := hshows.inv.commitment_eq hflush
    exact ⟨_, _, hcommit, fun key v p hverify => Keyed.inclusion_sound hs hverify⟩
  · intro f ops answers x hfit hrun
    obtain ⟨hbefore, hflush, -⟩ := Refine.Spec.along_append.mp hfit
    have hshows := Refine.Spec.rel_of_run (AxonIndex.step_refines f) (AxonIndex.shows_new f) hbefore hrun
    obtain ⟨x', hcommit, -⟩ := hshows.commitment_eq hflush
    refine ⟨_, x', hcommit, fun particle axon n r outer member houter hmember => ?_⟩
    obtain ⟨l, hget, hdegree, haxon⟩ := AxonIndex.inclusion_sound hs houter hmember
    have hshort := hshows.short particle
    rw [Adjacency.axons, hget] at hshort
    refine ⟨l.axons, by rw [hshows.map, hget]; rfl, ?_, haxon⟩
    rw [← hdegree, UInt64.toNat_ofNat', Nat.mod_eq_of_lt]
    exact lt_of_le_of_lt hshort (by decide)

/-- Three records, of which one goes after a commitment. -/
def Keyed.pairOps : List (Keyed.Op Bytes32 UInt64) :=
  [.insert (Vector.replicate 32 7) 1, .insert (Vector.replicate 32 8) 2, .insert (Vector.replicate 32 9) 3,
    .commitment, .remove (Vector.replicate 32 9)]

theorem Keyed.along_pairOps : (Keyed.plainSpec (F := Term) fun _ => ()).Along Keyed.Fits ⟨∅, ∅, ∅⟩
    (Keyed.pairOps ++ [.commitment]) := by
  refine ⟨trivial, trivial, trivial, DigestMap.fitsAll_of_le ?_, trivial, DigestMap.fitsAll_of_le ?_, trivial⟩
  · rw [Keyed.updates_length]
    change (∅ : DigestMap Term).size + ((((∅ : OrdMap Bytes32 Unit).insert (Vector.replicate 32 7) ()).insert
      (Vector.replicate 32 8) ()).insert (Vector.replicate 32 9) ()).size ≤ 2 ^ 31
    decide +kernel
  · rw [Keyed.updates_length]
    refine le_trans (Nat.add_le_add_right (OrdMap.size_putAll_le _ _) _) ?_
    rw [Keyed.updates_length]
    change Std.ExtTreeMap.size _ + Std.ExtTreeMap.size _ + Std.ExtTreeMap.size _ ≤ 2 ^ 31
    decide +kernel

/-- A map with two records and a branch, which a run within the limits reaches. -/
theorem Keyed.exists_pair : ∃ answers m,
    Refine.run (Keyed.step fun _ => ()) (Keyed.new : Keyed Term Unit Bytes32 UInt64) Keyed.pairOps = some (answers, m) ∧
    m.map[(Vector.replicate 32 7 : Bytes32)]? = some 1 ∧ m.map[(Vector.replicate 32 8 : Bytes32)]? = some 2 ∧
    m.map[(Vector.replicate 32 9 : Bytes32)]? = none := by
  obtain ⟨answers, m, hrun, -, hshows⟩ := Refine.Spec.run_agree (Keyed.step_refines fun _ => ())
    (Keyed.shows_new fun _ => ()) (Refine.Spec.along_append.mp Keyed.along_pairOps).1
  refine ⟨answers, m, hrun, ?_⟩
  rw [hshows.map]
  exact ⟨by decide +kernel, by decide +kernel, by decide +kernel⟩

/-- Three lists, of which one goes after a commitment, and one loses an axon. -/
def AxonIndex.pairOps : List AxonIndex.Op :=
  [.insert (Vector.replicate 32 7) [Vector.replicate 32 1, Vector.replicate 32 2, Vector.replicate 32 3],
    .insert (Vector.replicate 32 8) [Vector.replicate 32 1], .insert (Vector.replicate 32 9) [Vector.replicate 32 1],
    .commitment, .removeAxon (Vector.replicate 32 7) (Vector.replicate 32 3), .remove (Vector.replicate 32 9)]

theorem AxonIndex.along_pairOps : (AxonIndex.plainSpec (F := Term) fun _ => ()).Along AxonIndex.Fits ⟨∅, ∅, ∅⟩
    (AxonIndex.pairOps ++ [.commitment]) := by
  refine ⟨?_, ?_, ?_, DigestMap.fitsAll_of_le ?_, trivial, trivial, DigestMap.fitsAll_of_le ?_, trivial⟩
  · change List.length _ ≤ 2 ^ 31
    decide +kernel
  · change List.length _ ≤ 2 ^ 31
    decide +kernel
  · change List.length _ ≤ 2 ^ 31
    decide +kernel
  · rw [Keyed.updates_length]
    change (∅ : DigestMap Term).size + Std.ExtTreeMap.size _ ≤ 2 ^ 31
    decide +kernel
  · rw [Keyed.updates_length]
    refine le_trans (Nat.add_le_add_right (OrdMap.size_putAll_le _ _) _) ?_
    rw [Keyed.updates_length]
    change Std.ExtTreeMap.size _ + Std.ExtTreeMap.size _ + Std.ExtTreeMap.size _ ≤ 2 ^ 31
    decide +kernel

/-- An index with two lists, which a run within the limits reaches. -/
theorem AxonIndex.exists_pair : ∃ answers x,
    Refine.run (AxonIndex.step fun _ => ()) (AxonIndex.new : AxonIndex Term Unit) AxonIndex.pairOps = some (answers, x) ∧
    x.map[(Vector.replicate 32 7 : Particle)]? = some [Vector.replicate 32 1, Vector.replicate 32 2] ∧
    x.map[(Vector.replicate 32 8 : Particle)]? = some [Vector.replicate 32 1] ∧
    x.map[(Vector.replicate 32 9 : Particle)]? = none := by
  obtain ⟨answers, x, hrun, -, hshows⟩ := Refine.Spec.run_agree (AxonIndex.step_refines fun _ => ())
    (AxonIndex.shows_new fun _ => ()) (Refine.Spec.along_append.mp AxonIndex.along_pairOps).1
  refine ⟨answers, x, hrun, ?_⟩
  rw [hshows.map, hshows.map, hshows.map]
  exact ⟨by decide +kernel, by decide +kernel, by decide +kernel⟩

/-- The theorem at the symbolic field, for a map and an index that have a branch and have lost a key. -/
theorem run_inclusion_sound_pair :
    (∃ answers m, Refine.run (Keyed.step fun _ => ()) (Keyed.new : Keyed Term Unit Bytes32 UInt64) Keyed.pairOps =
        some (answers, m) ∧ m.map[(Vector.replicate 32 8 : Bytes32)]? = some 2 ∧
      ∃ c m', m.commitment = some (c, m') ∧ ∀ (key : Bytes32) (v : UInt64) (p : TrieProof Term),
        p.verify c (keyBytes key) (some (Keyed.leaf key v)) = some true → m.map[key]? = some v) ∧
    (∃ answers x, Refine.run (AxonIndex.step fun _ => ()) (AxonIndex.new : AxonIndex Term Unit) AxonIndex.pairOps =
        some (answers, x) ∧
      x.map[(Vector.replicate 32 7 : Particle)]? = some [Vector.replicate 32 1, Vector.replicate 32 2] ∧
      ∃ c x', x.commitment = some (c, x') ∧
        ∀ (particle axon : Particle) (n : UInt64) (r : Digest Term) (outer member : TrieProof Term),
          outer.verify c particle (some (AxonIndex.leaf particle n r)) = some true →
          member.verify r axon (some (AxonIndex.memberDigest axon)) = some true →
          ∃ l, x.map[particle]? = some l ∧ l.length = n.toNat ∧ axon ∈ l) := by
  constructor
  · obtain ⟨answers, m, hrun, -, hlisted, -⟩ := Keyed.exists_pair
    exact ⟨answers, m, hrun, hlisted, (run_inclusion_sound Term.symbolic).1 Bytes32 UInt64 (fun _ => ())
      Keyed.pairOps answers m Keyed.along_pairOps hrun⟩
  · obtain ⟨answers, x, hrun, hlisted, -⟩ := AxonIndex.exists_pair
    exact ⟨answers, x, hrun, hlisted, (run_inclusion_sound Term.symbolic).2 (fun _ => ())
      AxonIndex.pairOps answers x AxonIndex.along_pairOps hrun⟩

end LeanBbg
