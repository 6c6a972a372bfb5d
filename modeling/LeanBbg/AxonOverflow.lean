import LeanBbg.AxonRuns
import LeanBbg.TrieOverflow

/-! An adjacency index past the limit of a member trie: once an index of the trie has wrapped, axons that are
in the list are no longer found in the trie, and adding one of them again lists it twice. -/

set_option linter.unusedSectionVars false

namespace LeanBbg

variable {F C : Type} [Hemera F] [DecidableEq F]

namespace AxonIndex

/-- Adding an axon sets it in the particle's member trie. -/
theorem add_sets {x x' : AxonIndex F C} {particle axon : Particle} {b : Bool}
    (h : x.add particle axon = some (b, x')) :
    (x.sets[particle]?.getD Trie.empty).set axon (memberDigest axon) =
      some (b, x'.sets[particle]?.getD Trie.empty) := by
  simp only [add, Option.bind_eq_bind, Option.bind_eq_some_iff] at h
  obtain ⟨⟨new, set⟩, hset, h⟩ := h
  have hget : (x.sets.insert particle set)[particle]?.getD Trie.empty = set := by
    rw [OrdMap.getElem?_insert, if_pos rfl]
    rfl
  rw [hset]
  cases new with
  | false =>
      simp only [Bool.not_false, if_true] at h
      obtain ⟨rfl, rfl⟩ := Prod.mk.inj (Option.some_inj.mp h)
      rw [hget]
  | true =>
      simp only [Bool.not_true, Bool.false_eq_true, if_false, Option.bind_eq_some_iff] at h
      obtain ⟨degrees, -, h⟩ := h
      obtain ⟨rfl, rfl⟩ := Prod.mk.inj (Option.some_inj.mp h)
      change some (true, set) = some (true, (x.sets.insert particle set)[particle]?.getD Trie.empty)
      rw [hget]

def addOps (particle : Particle) (l : List Particle) : List Op := l.map fun axon => Op.add particle axon

theorem run_addOps_sets (f : OrdMap Particle (List Particle) → C) {x x' : AxonIndex F C} {particle : Particle}
    {l : List Particle} {answers : List (Answer F C)}
    (h : Refine.run (step f) x (addOps particle l) = some (answers, x')) :
    (x.sets[particle]?.getD Trie.empty).setAll (l.map fun axon => (axon, memberDigest axon)) =
      some (x'.sets[particle]?.getD Trie.empty) := by
  induction l generalizing x answers with
  | nil =>
      obtain ⟨-, rfl⟩ := Prod.mk.inj (Option.some_inj.mp h)
      rfl
  | cons axon l ih =>
      change Refine.run (step f) x (Op.add particle axon :: addOps particle l) = _ at h
      rw [Refine.run, step, Option.bind_eq_some_iff] at h
      obtain ⟨next, hnext, hrest⟩ := h
      obtain ⟨⟨b, x₁⟩, hadd, rfl⟩ := Option.map_eq_some_iff.mp hnext
      obtain ⟨⟨rest, x₂⟩, hrun, heq⟩ := Option.map_eq_some_iff.mp hrest
      obtain ⟨-, rfl⟩ := Prod.mk.inj heq
      rw [List.map_cons, Trie.setAll, List.foldlM_cons, add_sets hadd]
      exact ih hrun

/-- Adding low key 0, the keys of a list and the high key leaves low key 0 alone at the root. -/
theorem sets_overflow {ks : List Bytes32} (hks : Trie.Filling [Trie.lowKey 0] ks) {T : Trie F}
    (h : Trie.empty.setAll ((Trie.lowKey 0 :: (ks ++ [Trie.highKey])).map fun axon => (axon, memberDigest axon)) =
      some T) :
    T.rootIndex = some 0 ∧ T.free = [] ∧
      T.nodes[0]? = some (.leaf (Trie.lowKey 0) (memberDigest (Trie.lowKey 0))) := by
  have hkeys : (ks.map fun axon => (axon, (memberDigest axon : Digest F))).map Prod.fst = ks := by
    rw [List.map_map]
    exact List.map_id _
  obtain ⟨T₁, t₁, T₂, hall, -, -, hset, hroot, hfree, -, hsame⟩ :=
    (Trie.holds_single (Trie.lowKey 0) (memberDigest (Trie.lowKey 0) : Digest F)).overflow rfl
      (ks.map fun axon => (axon, memberDigest axon)) (by rw [hkeys]; exact hks.nodup)
      (by rw [List.length_map]; exact hks.length) (by rw [hkeys]; exact hks.low) Trie.bit_highKey
      (memberDigest Trie.highKey)
  have hfirst : Trie.empty.setAll ((Trie.lowKey 0 :: (ks ++ [Trie.highKey])).map
      fun axon => (axon, (memberDigest axon : Digest F))) = some T₂ := by
    rw [List.map_cons, List.map_append, Trie.setAll, List.foldlM_cons]
    change List.foldlM _ (Trie.single (Trie.lowKey 0) (memberDigest (Trie.lowKey 0))) (_ ++ _) = _
    rw [List.foldlM_append]
    change ((Trie.single (Trie.lowKey 0) (memberDigest (Trie.lowKey 0))).setAll _).bind _ = _
    rw [hall, Option.bind_some, List.map_cons, List.map_nil, List.foldlM_cons, hset]
    rfl
  obtain rfl := Option.some_inj.mp (h.symm.trans hfirst)
  exact ⟨hroot, hfree, hsame 0 _ rfl trivial⟩

theorem mem_axons_add {A : Adjacency} {particle axon a : Particle} (h : a ∈ A.axons particle ∨ a = axon) :
    a ∈ (A.add particle axon).axons particle := by
  rw [Adjacency.add]
  split_ifs with hmem
  · rcases h with h | rfl
    · exact h
    · exact hmem
  · rw [Adjacency.axons_put, if_pos rfl, List.mem_eraseDups, List.mem_append, List.mem_singleton]
    exact h

theorem mem_axons_addOps (f : OrdMap Particle (List Particle) → C) (A : Keyed.View F Particle AxonList)
    (l : List Particle) {particle a : Particle} (h : a ∈ Adjacency.axons A.map particle ∨ a ∈ l) :
    a ∈ Adjacency.axons ((addOps particle l).foldl (plainSpec (F := F) f).apply A).map particle := by
  induction l generalizing A with
  | nil =>
      rcases h with h | h
      · exact h
      · cases h
  | cons axon l ih =>
      refine ih ((plainSpec (F := F) f).apply A (Op.add particle axon)) ?_
      rcases h with h | h
      · exact .inl (mem_axons_add (.inl h))
      · rcases List.mem_cons.mp h with h | h
        · exact .inl (mem_axons_add (.inr h))
        · exact .inr h

/-- After the overflow, adding a listed axon again does not answer that it was there. -/
theorem addOps_not_agree (f : OrdMap Particle (List Particle) → C) {ks : List Bytes32}
    (hks : Trie.Filling [Trie.lowKey 0] ks) {axon : Particle} (hmem : axon ∈ ks) (particle : Particle) :
    ¬∃ answers x, Refine.run (step f) (new : AxonIndex F C)
        (addOps particle (Trie.lowKey 0 :: (ks ++ [Trie.highKey])) ++ [Op.add particle axon]) = some (answers, x) ∧
      (plainSpec f).Agree ⟨∅, ∅, ∅⟩
        (addOps particle (Trie.lowKey 0 :: (ks ++ [Trie.highKey])) ++ [Op.add particle axon]) answers := by
  rintro ⟨answers, x, hrun, hagree⟩
  obtain ⟨first, x₁, rest, hfirst, hlast, rfl⟩ := Refine.exists_of_run_append hrun
  have hsets := run_addOps_sets f hfirst
  change Trie.empty.setAll _ = _ at hsets
  obtain ⟨hroot, hfree, hnode⟩ := sets_overflow hks hsets
  have hne : Trie.lowKey 0 ≠ axon := by
    rintro rfl
    have := hks.nodup
    rw [List.nodup_append] at this
    exact this.2.2 _ hmem _ (List.mem_singleton.mpr rfl) rfl
  obtain ⟨node, hset⟩ := Trie.set_of_root_leaf hroot hnode hne hfree (memberDigest axon)
  rw [Refine.run, step, Option.bind_eq_some_iff] at hlast
  obtain ⟨next, hnext, hrest⟩ := hlast
  obtain ⟨⟨b, x₂⟩, hadd, rfl⟩ := Option.map_eq_some_iff.mp hnext
  obtain ⟨rfl, -⟩ := Prod.mk.inj (Option.some_inj.mp ((add_sets hadd).symm.trans hset))
  obtain ⟨rfl, -⟩ := Prod.mk.inj (Option.some_inj.mp hrest)
  have hans := (hagree.append (Refine.run_length hfirst)).1
  change true = decide _ at hans
  have hlisted : axon ∈ Adjacency.axons ((addOps particle (Trie.lowKey 0 :: (ks ++ [Trie.highKey]))).foldl
      (plainSpec (F := F) f).apply ⟨∅, ∅, ∅⟩).map particle :=
    mem_axons_addOps f _ _ (.inr (List.mem_cons_of_mem _ (List.mem_append_left _ hmem)))
  rw [decide_eq_false (not_not.mpr hlisted)] at hans
  cases hans

/-- Adding `2 ^ 31` low keys and the high key to one particle, and then one of the low keys again, is a run
that does not keep the lists. -/
theorem run_overflow_not_keeps_lists : ¬∀ ops : List Op, ∃ answers x,
    Refine.run (step fun _ => ()) (new : AxonIndex Term Unit) ops = some (answers, x) ∧
      (plainSpec fun _ => ()).Agree ⟨∅, ∅, ∅⟩ ops answers ∧ Mirrors x (ops.foldl plainWrite ∅) := by
  obtain ⟨n, hn⟩ : ∃ n, n + 2 = 2 ^ 31 := ⟨2 ^ 31 - 2, rfl⟩
  intro h
  have hmem : Trie.lowKey (2 * 0 + 1) ∈ Trie.lowKeys (n + 1) :=
    List.mem_map_of_mem (f := fun i => Trie.lowKey (2 * i + 1)) (List.mem_range.mpr (Nat.succ_pos n))
  obtain ⟨answers, x, hrun, hagree, -⟩ := h _
  exact addOps_not_agree (F := Term) (fun _ => ()) (Trie.filling_zero hn) hmem (Trie.lowKey 0)
    ⟨answers, x, hrun, hagree⟩

end AxonIndex

end LeanBbg
