import LeanBbg.TrieRefinement

/-! Where the index space of the arena ends. With `2 ^ 31` keys and nothing to reuse, the arena has
`2 ^ 32 - 1` nodes; the next key takes the last index for its leaf and index 0 for its branch, so the
root of the trie becomes whatever node was allocated first. -/

set_option linter.unusedSectionVars false

namespace LeanBbg

open Patricia Patricia.Tree

variable {F : Type} [Hemera F] [DecidableEq F]

namespace Trie

/-- Set every record of a list, in order. -/
def setAll (T : Trie F) (entries : List (Bytes32 × Digest F)) : Option (Trie F) :=
  entries.foldlM (fun T e => (T.set e.1 e.2).map Prod.snd) T

theorem Holds.size_eq {T : Trie F} {t : ArenaTree F} (h : Holds T t) (hfree : T.free = []) :
    T.nodes.size + 1 = 2 * t.entries.length := by
  have := h.arena.length_eq
  rw [hfree, List.append_nil, List.length_range] at this
  rw [← this, labels_length]

theorem Holds.mem_labels {T : Trie F} {t : ArenaTree F} (h : Holds T t) (hfree : T.free = []) {x : Nat}
    {n : Node F} (hx : T.nodes[x]? = some n) : x ∈ t.labels := by
  have hmem := h.arena.mem_iff.mpr (List.mem_range.mpr (Array.getElem?_eq_some_iff.mp hx).1)
  rwa [hfree, List.append_nil] at hmem

/-- Filling a trie with new keys up to the limit keeps its lowest nodes where they are. -/
theorem Holds.fill {T : Trie F} {t : ArenaTree F} (h : Holds T t) (hfree : T.free = [])
    (entries : List (Bytes32 × Digest F)) (hnodup : (entries.map Prod.fst ++ t.keys).Nodup)
    (hlen : entries.length + t.entries.length ≤ 2 ^ 31) :
    ∃ T' t', T.setAll entries = some T' ∧ Holds T' t' ∧ T'.free = [] ∧
      t'.entries.Perm (entries ++ t.entries) ∧
      ∀ (x : Nat) (n : Node F), T.nodes[x]? = some n → lowest n → T'.nodes[x]? = some n := by
  induction entries generalizing T t with
  | nil => exact ⟨T, t, rfl, h, hfree, List.Perm.refl _, fun _ _ hx _ => hx⟩
  | cons e entries ih =>
      obtain ⟨key, digest⟩ := e
      rw [List.map_cons, List.cons_append, List.nodup_cons] at hnodup
      rw [List.length_cons] at hlen
      have habsent : key ∉ t.keys := fun hmem => hnodup.1 (List.mem_append_right _ hmem)
      obtain ⟨T₁, t₁, hset, h₁, hperm₁, hfree₁, hlow₁⟩ := h.set_absent habsent digest (by omega)
      rw [hfree] at hfree₁
      have hkeys : (entries.map Prod.fst ++ t₁.keys).Perm (key :: (entries.map Prod.fst ++ t.keys)) :=
        ((hperm₁.map Prod.fst).append_left _).trans List.perm_middle
      obtain ⟨T', t', hall, h', hfree', hperm', hlow'⟩ := ih h₁ hfree₁
        (hkeys.nodup_iff.mpr (List.nodup_cons.mpr hnodup))
        (by rw [hperm₁.length_eq, List.length_cons]; omega)
      refine ⟨T', t', ?_, h', hfree', ?_, ?_⟩
      · simp only [setAll, List.foldlM_cons, hset, Option.map_some, Option.bind_eq_bind, Option.bind_some]
        exact hall
      · exact hperm'.trans ((hperm₁.append_left _).trans List.perm_middle)
      · intro x n hx hn
        exact hlow' x n (hlow₁ x (h.mem_labels hfree hx) n hx hn) hn

theorem kept_zero (key : Bytes32) (t : ArenaTree F) : t.kept bit key 0 = [] := by
  cases t <;> simp [kept]

/-- One key more than the limit: the new branch gets index 0 and becomes the root. -/
theorem Holds.wrap {T : Trie F} {t : ArenaTree F} (h : Holds T t) (hfree : T.free = [])
    (hlen : t.entries.length = 2 ^ 31) (hlow : ∀ k ∈ t.keys, bit k 0 = false) {key : Bytes32}
    (hkey : bit key 0 = true) (digest : Digest F) :
    ∃ T', T.set key digest = some (true, T') ∧ T'.rootIndex = some 0 ∧ T'.free = [] ∧
      T'.nodes.size = 2 ^ 32 + 1 ∧ ∀ (x : Nat) (n : Node F), T.nodes[x]? = some n → T'.nodes[x]? = some n := by
  have hfound := hlow _ (mem_keys_of_mem_entries (find_mem bit key t))
  have hne : (t.find bit key).1 ≠ key := by
    intro heq
    rw [heq, hkey] at hfound
    cases hfound
  obtain ⟨j, hj, hfirst, hbefore, -⟩ := firstDiffBit_spec (Ne.symm hne)
  obtain rfl : j = 0 := by
    by_contra hpos
    have := hbefore 0 (Nat.pos_of_ne_zero hpos)
    rw [hkey, hfound] at this
    cases this
  have hsize : T.nodes.size = 2 ^ 32 - 1 := by
    have := h.size_eq hfree
    omega
  have hkeep := keepLoop_eq h.rep h.canonical key hj
  have hsplit := split_label (t := t) key 0
  have hstop := (stop_of_kept_nil id (kept_zero key t)).1
  rw [kept_zero, List.length_nil] at hkeep hsplit
  rw [hstop] at hsplit
  obtain ⟨node, hnode⟩ : ∃ node : Node F, T.set key digest = some (true, { T with
      nodes := (T.nodes.push (.leaf key digest)).push node, rootIndex := some 0, len := T.len + 1 }) := by
    have hleaf : T.nodes.size % 2 ^ 32 = 2 ^ 32 - 1 := by omega
    have hbranch : (T.nodes.size + 1) % 2 ^ 32 = 0 := by omega
    refine ⟨.branch (UInt16.ofNat 0) t.label (2 ^ 32 - 1) EMPTY true, ?_⟩
    rw [set, h.root]
    simp only [h.descend key, Option.bind_eq_bind, Option.bind_some, h.rep.leafLabel key, if_neg hne, hfirst,
      splitAt, hkeep, hsplit, alloc, hfree, keyBit_eq_bit key hj, hkey, if_true, Array.size_push, hleaf, hbranch]
  refine ⟨_, hnode, rfl, hfree, ?_, ?_⟩
  · rw [Array.size_push, Array.size_push]
    omega
  · intro x n hx
    have hlt : x < T.nodes.size := (Array.getElem?_eq_some_iff.mp hx).1
    rw [Array.getElem?_push, if_neg (by rw [Array.size_push]; omega), Array.getElem?_push, if_neg (by omega), hx]

/-- Filling a trie up to the limit and setting one key more makes index 0 the root. -/
theorem Holds.overflow {T : Trie F} {t : ArenaTree F} (h : Holds T t) (hfree : T.free = [])
    (entries : List (Bytes32 × Digest F)) (hnodup : (entries.map Prod.fst ++ t.keys).Nodup)
    (hlen : entries.length + t.entries.length = 2 ^ 31)
    (hlow : ∀ k ∈ entries.map Prod.fst ++ t.keys, bit k 0 = false) {key : Bytes32}
    (hkey : bit key 0 = true) (digest : Digest F) :
    ∃ T₁ t₁ T₂, T.setAll entries = some T₁ ∧ Holds T₁ t₁ ∧ t₁.entries.Perm (entries ++ t.entries) ∧
      T₁.set key digest = some (true, T₂) ∧ T₂.rootIndex = some 0 ∧ T₂.free = [] ∧
      T₂.nodes.size = 2 ^ 32 + 1 ∧
      ∀ (x : Nat) (n : Node F), T.nodes[x]? = some n → lowest n → T₂.nodes[x]? = some n := by
  obtain ⟨T₁, t₁, hall, h₁, hfree₁, hperm, hsame₁⟩ := h.fill hfree entries hnodup (le_of_eq hlen)
  have hkeys : t₁.keys.Perm (entries.map Prod.fst ++ t.keys) := by
    rw [keys, keys, ← List.map_append]
    exact hperm.map Prod.fst
  obtain ⟨T₂, hset, hroot, hfree₂, hsize, hsame₂⟩ := h₁.wrap hfree₁
    (by rw [hperm.length_eq, List.length_append, hlen]) (fun k hk => hlow k (hkeys.subset hk)) hkey digest
  exact ⟨T₁, t₁, T₂, hall, h₁, hperm, hset, hroot, hfree₂, hsize,
    fun x n hx hn => hsame₂ x n (hsame₁ x n hx hn)⟩

/-! ### The overflowing run -/

/-- The trie with one key, at index 0. -/
def single (key : Bytes32) (digest : Digest F) : Trie F := ⟨#[.leaf key digest], [], some 0, 1⟩

theorem holds_single (key : Bytes32) (digest : Digest F) : Holds (single key digest) (.leaf 0 key digest) :=
  ⟨rfl, rfl, .leaf, List.Perm.refl _, rfl⟩

section RootLeaf

variable {T : Trie F} {key k : Bytes32} {d : Digest F} (hroot : T.rootIndex = some 0)
  (hnode : T.nodes[0]? = some (.leaf k d)) (hne : k ≠ key)

include hnode in
theorem descend_of_root_leaf : Trie.descend T.nodes key maxDepth 0 = some ([], 0) := by
  rw [maxDepth, descend, hnode]

include hroot hnode hne

/-- With a leaf at the root index, every other key reads as absent. -/
theorem get_of_root_leaf : T.get key = some none := by
  rw [get, hroot]
  simp only [descend_of_root_leaf hnode, Option.bind_eq_bind, Option.bind_some, hnode, if_neg hne]

theorem remove_of_root_leaf : T.remove key = some (false, T) := by
  rw [remove, hroot]
  simp only [descend_of_root_leaf hnode, Option.bind_eq_bind, Option.bind_some, hnode, ne_eq, hne,
    not_false_eq_true, if_true]

/-- Any other key is new: its branch becomes the root, at the next index. -/
theorem set_of_root_leaf (hfree : T.free = []) (digest : Digest F) :
    ∃ node : Node F, T.set key digest = some (true, { T with
      nodes := (T.nodes.push (.leaf key digest)).push node
      rootIndex := some ((T.nodes.size + 1) % 2 ^ 32)
      len := T.len + 1 }) := by
  obtain ⟨j, hj, hfirst, -, -⟩ := firstDiffBit_spec (Ne.symm hne)
  rw [set, hroot]
  cases hbit : bit key j with
  | false =>
      exact ⟨.branch (UInt16.ofNat j) (T.nodes.size % 2 ^ 32) 0 EMPTY true, by
        simp [descend_of_root_leaf hnode, hnode, hne, hfirst, splitAt, keepLoop, alloc, hfree,
          keyBit_eq_bit key hj, hbit]⟩
  | true =>
      exact ⟨.branch (UInt16.ofNat j) 0 (T.nodes.size % 2 ^ 32) EMPTY true, by
        simp [descend_of_root_leaf hnode, hnode, hne, hfirst, splitAt, keepLoop, alloc, hfree,
          keyBit_eq_bit key hj, hbit]⟩

end RootLeaf

/-- Key number `n` of those that start with 28 zero bytes. -/
def lowKey (n : Nat) : Bytes32 := ⟨(List.replicate 28 0 ++ Bytes.leBytes 4 n).toArray, by simp⟩

/-- A key whose first bit is 1. -/
def highKey : Bytes32 := Vector.replicate 32 0x80

theorem bit_lowKey (n : Nat) : bit (lowKey n) 0 = false := by
  rw [bit_of_lt _ (by decide)]
  simp [lowKey]

theorem bit_highKey : bit highKey 0 = true := by decide

theorem lowKey_injective {n m : Nat} (hn : n < 2 ^ 32) (hm : m < 2 ^ 32) (h : lowKey n = lowKey m) : n = m := by
  have hlist : (List.replicate 28 0 ++ Bytes.leBytes 4 n : List UInt8) =
      List.replicate 28 0 ++ Bytes.leBytes 4 m := by
    have := congrArg Vector.toList h
    simpa [lowKey, Vector.toList] using this
  exact Bytes.leBytes_injective hn hm (List.append_cancel_left hlist)

/-- Keys that together with those of a base fill a trie up to the limit, all with first bit 0. -/
structure Filling (base ks : List Bytes32) : Prop where
  nodup : (ks ++ base).Nodup
  low : ∀ k ∈ ks ++ base, bit k 0 = false
  length : ks.length + base.length = 2 ^ 31

/-- The first `n` low keys with an odd number. -/
def lowKeys (n : Nat) : List Bytes32 := (List.range n).map fun i => lowKey (2 * i + 1)

/-- The odd low keys fill a trie over any even ones. -/
theorem filling_lowKeys {base : List Bytes32} (hbase : base.Nodup)
    (heven : ∀ k ∈ base, ∃ m < 2 ^ 31, k = lowKey (2 * m)) {n : Nat} (hn : n + base.length = 2 ^ 31) :
    Filling base (lowKeys n) where
  nodup := by
    refine List.Nodup.append ?_ hbase ?_
    · refine List.Nodup.map_on (fun i hi j hj h => ?_) List.nodup_range
      rw [List.mem_range] at hi hj
      have := lowKey_injective (by omega) (by omega) h
      omega
    · intro k hk hmem
      obtain ⟨i, hi, rfl⟩ := List.mem_map.mp hk
      obtain ⟨m, hm, heq⟩ := heven _ hmem
      rw [List.mem_range] at hi
      have := lowKey_injective (by omega) (by omega) heq
      omega
  low := by
    intro k hk
    rcases List.mem_append.mp hk with hk | hk
    · obtain ⟨i, -, rfl⟩ := List.mem_map.mp hk
      exact bit_lowKey _
    · obtain ⟨m, -, rfl⟩ := heven k hk
      exact bit_lowKey _
  length := by rw [lowKeys, List.length_map, List.length_range, hn]

theorem filling_zero {n : Nat} (hn : n + 1 = 2 ^ 31) : Filling [lowKey 0] (lowKeys n) :=
  filling_lowKeys (List.nodup_singleton _) (fun k hk => ⟨0, by decide, List.mem_singleton.mp hk⟩) hn

section Filling

variable {ks : List Bytes32} (hks : Filling [lowKey 0] ks)

include hks

/-- Setting low key 0, the other keys and the high key leaves low key 0 alone at the root. -/
theorem overflow_low (d : Digest F) :
    ∃ T₁ t₁ T₂, (single (lowKey 0) d).setAll (ks.map fun k => (k, d)) = some T₁ ∧ Holds T₁ t₁ ∧
      t₁.entries.Perm (ks.map (fun k => (k, d)) ++ [(lowKey 0, d)]) ∧
      T₁.set highKey d = some (true, T₂) ∧ T₂.rootIndex = some 0 ∧ T₂.free = [] ∧
      T₂.nodes.size = 2 ^ 32 + 1 ∧ T₂.nodes[0]? = some (.leaf (lowKey 0) d) := by
  have hkeys : (ks.map fun k => (k, d)).map Prod.fst = ks := by
    rw [List.map_map]
    exact List.map_id _
  have hlen : (ks.map fun k => (k, d)).length + 1 = 2 ^ 31 := by
    rw [List.length_map]
    exact hks.length
  obtain ⟨T₁, t₁, T₂, hall, h₁, hperm, hset, hroot, hfree, hsize, hsame⟩ :=
    (holds_single (lowKey 0) d).overflow rfl (ks.map fun k => (k, d)) (by rw [hkeys]; exact hks.nodup) hlen
      (by rw [hkeys]; exact hks.low) bit_highKey d
  exact ⟨T₁, t₁, T₂, hall, h₁, hperm, hset, hroot, hfree, hsize, hsame 0 _ rfl trivial⟩

end Filling

theorem run_setAll {T T' : Trie F} {entries : List (Bytes32 × Digest F)} (h : T.setAll entries = some T') :
    ∃ answers, Refine.run step T (entries.map fun e => .set e.1 e.2) = some (answers, T') := by
  induction entries generalizing T with
  | nil =>
      obtain rfl : T = T' := Option.some_inj.mp h
      exact ⟨[], rfl⟩
  | cons e entries ih =>
      simp only [setAll, List.foldlM_cons, Option.bind_eq_bind, Option.bind_eq_some_iff] at h
      obtain ⟨T₁, hmap, hrest⟩ := h
      obtain ⟨⟨b, T₁'⟩, hset, rfl⟩ := Option.map_eq_some_iff.mp hmap
      obtain ⟨answers, hrun⟩ := ih hrest
      refine ⟨.changed b :: answers, ?_⟩
      rw [List.map_cons, Refine.run, step, hset]
      simp only [Option.map_some, Option.bind_some, hrun]

/-- The sets of low key 0, of the keys of a list and of the high key. -/
def overflowSets (ks : List Bytes32) (d : Digest F) : List (Op F) :=
  (((lowKey 0, d) :: ks.map fun k => (k, d)).map fun e => .set e.1 e.2) ++ [.set highKey d]

theorem run_overflowSets {ks : List Bytes32} (hks : Filling [lowKey 0] ks) (d : Digest F) :
    ∃ answers T, Refine.run step empty (overflowSets ks d) = some (answers, T) ∧ T.rootIndex = some 0 ∧
      T.nodes[0]? = some (.leaf (lowKey 0) d) := by
  obtain ⟨T₁, t₁, T₂, hall, -, -, hset, hroot, -, -, hnode⟩ := overflow_low hks d
  have hfirst : (empty : Trie F).setAll ((lowKey 0, d) :: ks.map fun k => (k, d)) = some T₁ := hall
  obtain ⟨answers, hrun⟩ := run_setAll hfirst
  refine ⟨answers ++ [.changed true], T₂, ?_, hroot, hnode⟩
  exact Refine.run_append hrun (by rw [Refine.run, step, hset]; rfl)

theorem overflowSets_getElem? (ks : List Bytes32) (d : Digest F) :
    ((overflowSets ks d).foldl mapSpec.apply ∅)[highKey]? = some d := by
  rw [overflowSets, List.foldl_append, List.foldl_cons, List.foldl_nil]
  change (Std.ExtTreeMap.insert _ highKey d)[highKey]? = some d
  rw [OrdMap.getElem?_insert, if_pos rfl]

/-- At one key past the limit the trie no longer finds the key just set. -/
theorem run_overflowSets_get {ks : List Bytes32} (hks : Filling [lowKey 0] ks) (d : Digest F) :
    ¬∃ answers T, Refine.run step (empty : Trie F) (overflowSets ks d ++ [.get highKey]) = some (answers, T) ∧
      mapSpec.Agree ∅ (overflowSets ks d ++ [.get highKey]) answers := by
  rintro ⟨answers, T, hrun, hagree⟩
  obtain ⟨first, T₂, hsets, hroot, hnode⟩ := run_overflowSets hks d
  have hget : T₂.get highKey = some none := get_of_root_leaf hroot hnode (by decide)
  have hread : Refine.run step T₂ [.get highKey] = some ([.found none], T₂) := by
    rw [Refine.run, step, hget]
    rfl
  rw [Refine.run_append hsets hread] at hrun
  obtain ⟨rfl, -⟩ := Prod.mk.inj (Option.some_inj.mp hrun)
  have hans := (hagree.append (Refine.run_length hsets)).1
  change (none : Option (Digest F)) = _ at hans
  rw [overflowSets_getElem?] at hans
  cases hans

/-- Setting `2 ^ 31` low keys and the high key, and then reading the high key, is a
run that does not behave as the map. -/
theorem run_overflow_not_refines_map : ¬∀ ops : List (Op Term), ∃ answers T,
    Refine.run step (empty : Trie Term) ops = some (answers, T) ∧ mapSpec.Agree ∅ ops answers := by
  obtain ⟨n, hn⟩ : ∃ n, n + 1 = 2 ^ 31 := ⟨2 ^ 31 - 1, rfl⟩
  exact fun h => run_overflowSets_get (filling_zero hn) EMPTY (h _)

end Trie

end LeanBbg
