import LeanBbg.KeyedProofs

/-! Keyed maps past the limit of their trie. Once a flush has wrapped an index, the trie's root is a node
of an older shape: the commitment no longer follows the map, and a record that the map has overwritten
still has an inclusion proof. -/

set_option linter.unusedSectionVars false

namespace LeanBbg

open Patricia Patricia.Tree

variable {F C V : Type} [Hemera F] [DecidableEq F] [LeafValue F V]

namespace Keyed

/-- Insert the keys of a list, all with one value. -/
def insertAll (m : Keyed F C Bytes32 V) (ks : List Bytes32) (v : V) : Keyed F C Bytes32 V :=
  ks.foldl (fun m k => (m.insert k v).2) m

theorem insertAll_trie (m : Keyed F C Bytes32 V) (ks : List Bytes32) (v : V) :
    (m.insertAll ks v).trie = m.trie := by
  induction ks generalizing m with
  | nil => rfl
  | cons k ks ih => exact ih (m.insert k v).2

theorem insertAll_map (m : Keyed F C Bytes32 V) (ks : List Bytes32) (v : V) (key : Bytes32) :
    (m.insertAll ks v).map[key]? = if key ∈ ks then some v else m.map[key]? := by
  induction ks generalizing m with
  | nil => rfl
  | cons k ks ih =>
      change ((m.insert k v).2.insertAll ks v).map[key]? = _
      rw [ih]
      change (if key ∈ ks then some v else (m.map.insert k v)[key]?) = _
      rw [OrdMap.getElem?_insert]
      by_cases hk : k = key
      · simp [hk]
      · simp [hk, Ne.symm hk]

theorem insertAll_dirty (m : Keyed F C Bytes32 V) (ks : List Bytes32) (v : V) (key : Bytes32) :
    (m.insertAll ks v).dirty[key]? = if key ∈ ks then some () else m.dirty[key]? := by
  induction ks generalizing m with
  | nil => rfl
  | cons k ks ih =>
      change ((m.insert k v).2.insertAll ks v).dirty[key]? = _
      rw [ih]
      change (if key ∈ ks then some () else (m.dirty.insert k ())[key]?) = _
      rw [OrdMap.getElem?_insert]
      by_cases hk : k = key
      · simp [hk]
      · simp [hk, Ne.symm hk]

theorem keys_perm {map : OrdMap Bytes32 V} (v : V) {ks : List Bytes32} (hnodup : ks.Nodup)
    (h : ∀ key, map[key]? = if key ∈ ks then some v else none) : map.keys.Perm ks := by
  refine (List.perm_ext_iff_of_nodup Std.ExtTreeMap.nodup_keys hnodup).mpr fun key => ?_
  rw [Std.ExtTreeMap.mem_keys, Std.ExtTreeMap.mem_iff_isSome_getElem?, h key]
  split_ifs with hk
  · simp [hk]
  · simp [hk]

theorem foldlM_put_eq_setAll {map : OrdMap Bytes32 V} {v : V} {l : List Bytes32}
    (h : ∀ k ∈ l, map[k]? = some v) (T : Trie F) :
    l.foldlM (fun trie key => trie.put (keyBytes key) (map[key]?.map (leaf key))) T =
      T.setAll (l.map fun k => (k, leaf k v)) := by
  induction l generalizing T with
  | nil => rfl
  | cons k l ih =>
      have hk := h k List.mem_cons_self
      have ih' := ih fun k' hk' => h k' (List.mem_cons_of_mem _ hk')
      rw [List.foldlM_cons, List.map_cons, Trie.setAll, List.foldlM_cons, hk]
      cases hset : T.set k (leaf k v) with
      | none =>
          change ((T.set k (leaf k v)).map Prod.snd).bind _ = _
          rw [hset]
          rfl
      | some r =>
          change ((T.set k (leaf k v)).map Prod.snd).bind _ = _
          rw [hset]
          exact ih' r.2

/-- Flushing new records sets their leaves, in some order. -/
theorem flush_insertAll {m : Keyed F C Bytes32 V} (hdirty : m.dirty = ∅) {ks : List Bytes32} (hnodup : ks.Nodup)
    (v : V) : ∃ ks' : List Bytes32, ks'.Perm ks ∧ (m.insertAll ks v).flush =
      (m.trie.setAll (ks'.map fun k => (k, leaf k v))).map fun trie =>
        { m.insertAll ks v with trie, dirty := ∅ } := by
  have hkeys : (m.insertAll ks v).dirty.keys.Perm ks := keys_perm () hnodup fun key => by
    rw [insertAll_dirty, hdirty]
    simp
  refine ⟨_, hkeys, ?_⟩
  rw [flush, foldlM_put_eq_setAll (v := v), insertAll_trie]
  · exact (Option.map_eq_bind ..).symm
  · intro k hk
    rw [insertAll_map, if_pos (hkeys.subset hk)]

/-- The trie under a keyed map that has been flushed: the tree it holds, and no index to reuse. -/
structure Packed (m : Keyed F C Bytes32 V) (t : ArenaTree F) : Prop where
  holds : m.trie.Holds t
  free : m.trie.free = []
  dirty : m.dirty = ∅

/-- Committing new records up to the limit keeps the lowest clean nodes of the arena. -/
theorem Packed.commit_fill {m : Keyed F C Bytes32 V} {t : ArenaTree F} (h : Packed m t) (ks : List Bytes32)
    (hnodup : (ks ++ t.keys).Nodup) (hlen : ks.length + t.entries.length ≤ 2 ^ 31) (v : V) :
    ∃ d t' trie, (m.insertAll ks v).commitment =
        some (d, { m.insertAll ks v with trie, dirty := ∅ }) ∧
      Packed { m.insertAll ks v with trie, dirty := ∅ } t' ∧ t'.keys.Perm (ks ++ t.keys) ∧
      ∀ (x : Nat) (n : Node F), m.trie.nodes[x]? = some n → Trie.lowest n → n.clean = true →
        trie.nodes[x]? = some n := by
  obtain ⟨ks', hperm, hflush⟩ := flush_insertAll h.dirty hnodup.of_append_left v
  have hkeys : (ks'.map fun k => (k, (leaf k v : Digest F))).map Prod.fst = ks' := by
    rw [List.map_map]
    exact List.map_id _
  obtain ⟨T₁, t₁, hall, h₁, hfree₁, hperm₁, hlow₁⟩ := h.holds.fill h.free
    (ks'.map fun k => (k, leaf k v))
    (by rw [hkeys]; exact ((hperm.append_right _).nodup_iff).mpr hnodup)
    (by rw [List.length_map, hperm.length_eq]; exact hlen)
  obtain ⟨T₂, hroot, h₂, -, hfree₂, hkeep⟩ := h₁.root_eq
  refine ⟨treeDigest t₁, t₁, T₂, ?_, ⟨h₂, hfree₂.trans hfree₁, rfl⟩, ?_, ?_⟩
  · rw [commitment, hflush, hall]
    simp only [Option.map_some, Option.bind_eq_bind, Option.bind_some, hroot]
  · have := hperm₁.map Prod.fst
    rw [List.map_append, hkeys] at this
    exact this.trans (hperm.append_right _)
  · intro x n hx hn hc
    exact hkeep x n (hlow₁ x n hx hn) hc

theorem root_of_clean {T : Trie F} {i : Nat} {n : Node F} (hroot : T.rootIndex = some i)
    (hnode : T.nodes[i]? = some n) (hclean : n.clean = true) : T.root = some (n.digest, T) := by
  have hhash : Trie.hash Trie.maxDepth T.nodes i = some (n.digest, T.nodes) := by
    rw [Trie.maxDepth, Trie.hash, hnode]
    cases n with
    | leaf k d => rfl
    | branch b l r d dirty =>
        have : dirty = false := by simpa [Node.clean] using hclean
        rw [this]
        rfl
  rw [Trie.root, hroot]
  simp only [hhash, Option.bind_eq_bind, Option.bind_some]
  rw [← hroot]

theorem keys_insert_empty (key : Bytes32) : ((∅ : OrdMap Bytes32 Unit).insert key ()).keys = [key] := by
  have hperm : ((∅ : OrdMap Bytes32 Unit).insert key ()).keys.Perm [key] := by
    refine keys_perm () (List.nodup_singleton _) fun k => ?_
    rw [OrdMap.getElem?_insert]
    simp [eq_comm]
  exact hperm.eq_singleton

/-- Committing one touched key puts its record into the trie. -/
theorem commit_one {m : Keyed F C Bytes32 V} (key : Bytes32)
    (hdirty : m.dirty = (∅ : OrdMap Bytes32 Unit).insert key ()) {T : Trie F} (hput : m.trie.put key (m.map[key]?.map (leaf key)) = some T) {d : Digest F}
    (hroot : T.root = some (d, T)) : m.commitment = some (d, { m with trie := T, dirty := ∅ }) := by
  have hflush : m.flush = some { m with trie := T, dirty := ∅ } := by
    rw [flush, hdirty, keys_insert_empty]
    change ((m.trie.put key (m.map[key]?.map (leaf key))).bind _).bind _ = _
    rw [hput]
    rfl
  rw [commitment, hflush]
  simp only [Option.bind_eq_bind, Option.bind_some, hroot]

/-! ### A commitment that no longer follows the map -/

/-- Insert one key and commit. -/
def commitOps (key : Bytes32) (v : V) : List (Op Bytes32 V) := [Op.insert key v, Op.commitment]

def insertOps (ks : List Bytes32) (v : V) : List (Op Bytes32 V) := ks.map fun k => Op.insert k v

/-- Commit; insert the high key and commit; remove it. -/
def wrapOps (v : V) : List (Op Bytes32 V) :=
  [Op.commitment, Op.insert Trie.highKey v, Op.commitment, Op.remove Trie.highKey]

/-- Insert low key 0 and commit; insert the keys of a list and commit; insert the high key and commit;
remove the high key. -/
def overflowOps (ks : List Bytes32) (v : V) : List (Op Bytes32 V) :=
  commitOps (Trie.lowKey 0) v ++ (insertOps ks v ++ wrapOps v)

theorem run_insertAll (f : OrdMap Bytes32 V → C) (m : Keyed F C Bytes32 V) (ks : List Bytes32) (v : V) :
    ∃ answers, Refine.run (step f) m (insertOps ks v) = some (answers, m.insertAll ks v) := by
  induction ks generalizing m with
  | nil => exact ⟨[], rfl⟩
  | cons k ks ih =>
      obtain ⟨answers, hrun⟩ := ih (m.insert k v).2
      refine ⟨.old (m.insert k v).1 :: answers, ?_⟩
      change Refine.run (step f) m (Op.insert k v :: insertOps ks v) = _
      rw [Refine.run, step, Option.bind_some, hrun]
      rfl

theorem single_root (key : Bytes32) (d : Digest F) :
    (Trie.single key d).root = some (d, Trie.single key d) :=
  root_of_clean (n := .leaf key d) rfl rfl rfl

/-- Committing one record from the start leaves its leaf at index 0. -/
theorem commit_first (key : Bytes32) (v : V) : ∃ m : Keyed F C Bytes32 V,
    (new.insert key v).2.commitment = some (leaf key v, m) ∧ Packed m (.leaf 0 key (leaf key v)) ∧
      m.trie = Trie.single key (leaf key v) := by
  have hput : (Trie.empty : Trie F).put key (((∅ : OrdMap Bytes32 V).insert key v)[key]?.map (leaf key)) =
      some (Trie.single key (leaf key v)) := by
    rw [OrdMap.getElem?_insert, if_pos rfl]
    rfl
  have hcommit := commit_one (m := (new.insert key v).2) (C := C) key rfl hput (single_root key (leaf key v))
  exact ⟨_, hcommit, ⟨Trie.holds_single _ _, rfl, rfl⟩, rfl⟩

/-- Committing the high key on top of `2 ^ 31` low ones wraps an index: low key 0 is the root. -/
theorem Packed.commit_wrap {m : Keyed F C Bytes32 V} {t : ArenaTree F} (h : Packed m t)
    (hlen : t.entries.length = 2 ^ 31) (hlow : ∀ k ∈ t.keys, bit k 0 = false) (v : V) {k₀ : Bytes32}
    {d₀ : Digest F} (hnode : m.trie.nodes[0]? = some (.leaf k₀ d₀)) :
    ∃ trie, (m.insert Trie.highKey v).2.commitment =
        some (d₀, { (m.insert Trie.highKey v).2 with trie, dirty := ∅ }) ∧
      trie.rootIndex = some 0 ∧ trie.free = [] ∧ trie.nodes.size = 2 ^ 32 + 1 ∧
      ∀ (x : Nat) (n : Node F), m.trie.nodes[x]? = some n → trie.nodes[x]? = some n := by
  obtain ⟨T, hset, hroot, hfree, hsize, hsame⟩ :=
    h.holds.wrap h.free hlen hlow Trie.bit_highKey (leaf Trie.highKey v)
  have hput : m.trie.put Trie.highKey ((m.map.insert Trie.highKey v)[Trie.highKey]?.map (leaf Trie.highKey)) =
      some T := by
    rw [OrdMap.getElem?_insert, if_pos rfl, Option.map_some, Trie.put, hset]
    rfl
  have hdirty : (m.insert Trie.highKey v).2.dirty = (∅ : OrdMap Bytes32 Unit).insert Trie.highKey () := by
    rw [← h.dirty]
    rfl
  exact ⟨T, commit_one Trie.highKey hdirty hput (root_of_clean (n := .leaf k₀ d₀) hroot (hsame 0 _ hnode) rfl),
    hroot, hfree, hsize, hsame⟩

/-- A run that takes the trie past its limit and the map back below it, and what it then commits to. -/
theorem run_overflowOps (f : OrdMap Bytes32 V → C) {ks : List Bytes32} (hks : Trie.Filling [Trie.lowKey 0] ks) (v : V) :
    ∃ answers m m', Refine.run (step f) (new : Keyed F C Bytes32 V) (overflowOps ks v) = some (answers, m) ∧
      m.commitment = some (leaf (Trie.lowKey 0) v, m') := by
  obtain ⟨m₁, hcommit₁, hpacked₁, htrie₁⟩ := commit_first (F := F) (C := C) (Trie.lowKey 0) v
  obtain ⟨d₂, t₂, T₂, hcommit₂, hpacked₂, hkeys₂, hlow₂⟩ := hpacked₁.commit_fill ks hks.nodup
    (le_of_eq hks.length) v
  have hnode₂ := hlow₂ 0 (.leaf (Trie.lowKey 0) (leaf (Trie.lowKey 0) v)) (by rw [htrie₁]; rfl) trivial rfl
  have hlen₂ : t₂.entries.length = 2 ^ 31 := by
    have := hkeys₂.length_eq
    rw [keys, List.length_map, List.length_append] at this
    exact this.trans hks.length
  obtain ⟨T₃, hcommit₃, hroot₃, -, -, hsame₃⟩ := hpacked₂.commit_wrap hlen₂
    (fun k hk => hks.low k (hkeys₂.subset hk)) v hnode₂
  have hnode₃ := hsame₃ 0 _ hnode₂
  generalize hm₂ : ({ m₁.insertAll ks v with trie := T₂, dirty := ∅ } : Keyed F C Bytes32 V) = m₂ at *
  generalize hm₃ : ({ (m₂.insert Trie.highKey v).2 with trie := T₃, dirty := ∅ } : Keyed F C Bytes32 V) = m₃ at *
  have hget₃ : m₃.map[Trie.highKey]? = some v := by
    rw [← hm₃]
    change (m₂.map.insert Trie.highKey v)[Trie.highKey]? = some v
    rw [OrdMap.getElem?_insert, if_pos rfl]
  have hremove : m₃.remove Trie.highKey =
      (some v, { m₃ with map := m₃.map.erase Trie.highKey }.touched Trie.highKey) := by
    rw [remove, hget₃]
  have hcommit₄ := commit_one (m := (m₃.remove Trie.highKey).2) Trie.highKey (T := T₃)
    (d := leaf (Trie.lowKey 0) v) (by rw [hremove, ← hm₃]; rfl) (by
      rw [hremove]
      change m₃.trie.put Trie.highKey ((m₃.map.erase Trie.highKey)[Trie.highKey]?.map _) = _
      rw [OrdMap.getElem?_erase, if_pos rfl, ← hm₃]
      change (T₃.remove Trie.highKey).map Prod.snd = _
      rw [Trie.remove_of_root_leaf hroot₃ hnode₃ (by decide)]
      rfl)
    (root_of_clean (n := .leaf _ _) hroot₃ hnode₃ rfl)
  obtain ⟨answers, hrun₂⟩ := run_insertAll f m₁ ks v
  have hrun₁ : Refine.run (step f) (new : Keyed F C Bytes32 V) (commitOps (Trie.lowKey 0) v) =
      some ([.old none, .commitment (leaf (Trie.lowKey 0) v)], m₁) := by
    simp only [commitOps, Refine.run, step, Option.bind_some, hcommit₁, Option.map_some]
    rfl
  have hrun₃ : Refine.run (step f) (m₁.insertAll ks v) (wrapOps v) =
      some ([.commitment d₂, .old (m₂.insert Trie.highKey v).1, .commitment (leaf (Trie.lowKey 0) v),
        .old (m₃.remove Trie.highKey).1], (m₃.remove Trie.highKey).2) := by
    simp only [wrapOps, Refine.run, step, Option.bind_some, hcommit₂, hcommit₃, Option.map_some]
  exact ⟨_, _, _, Refine.run_append hrun₁ (Refine.run_append hrun₂ hrun₃), hcommit₄⟩

/-! ### What the plain map says -/

theorem foldl_apply_map (f : OrdMap Bytes32 V → C) (A : View F Bytes32 V) (ops : List (Op Bytes32 V)) :
    (ops.foldl (plainSpec (F := F) f).apply A).map = ops.foldl plainWrite A.map := by
  induction ops generalizing A with
  | nil => rfl
  | cons op ops ih => exact ih _

theorem plain_insertAll (map : OrdMap Bytes32 V) (ks : List Bytes32) (v : V) (key : Bytes32) :
    ((insertOps ks v).foldl plainWrite map)[key]? = if key ∈ ks then some v else map[key]? := by
  induction ks generalizing map with
  | nil => rfl
  | cons k ks ih =>
      change ((insertOps ks v).foldl plainWrite (map.insert k v))[key]? = _
      rw [ih, OrdMap.getElem?_insert]
      by_cases hk : k = key
      · simp [hk]
      · simp [hk, Ne.symm hk]

/-- Two records make a branch. -/
theorem node_branch {S : List (Bytes32 × Digest F)} (hnodup : (S.map Prod.fst).Nodup) (hlen : 1 < S.length) :
    ∃ b l r, node S = branchDigest b l r := by
  have hne : S ≠ [] := by
    rintro rfl
    cases hlen
  obtain ⟨t, hcanonical, hperm⟩ := exists_canonical bit 256 () separates_bit hnodup hne
  rw [node, node_eq_value bit 256 _ EMPTY hcanonical hperm.symm]
  cases t with
  | leaf a k d =>
      have := hperm.length_eq
      rw [entries_leaf, List.length_singleton] at this
      omega
  | branch a i l r => exact ⟨_, _, _, rfl⟩

/-- The plain map after the run: low key 0 and the keys of the list. -/
theorem overflowOps_size {ks : List Bytes32} (hks : Trie.Filling [Trie.lowKey 0] ks) (v : V) :
    ((overflowOps ks v).foldl plainWrite ∅).size = 2 ^ 31 := by
  have hlow : ∀ k ∈ ks ++ [Trie.lowKey 0], Trie.highKey ≠ k := by
    rintro k hk rfl
    have := hks.low _ hk
    rw [Trie.bit_highKey] at this
    cases this
  have hkeys : ∀ key, ((overflowOps ks v).foldl plainWrite ∅)[key]? =
      if key ∈ ks ++ [Trie.lowKey 0] then some v else none := by
    intro key
    rw [overflowOps, List.foldl_append, List.foldl_append]
    change ((((insertOps ks v).foldl plainWrite ((∅ : OrdMap Bytes32 V).insert (Trie.lowKey 0) v)).insert
      Trie.highKey v).erase Trie.highKey)[key]? = _
    rw [OrdMap.getElem?_erase, OrdMap.getElem?_insert, plain_insertAll, OrdMap.getElem?_insert]
    by_cases hhigh : Trie.highKey = key
    · rw [if_pos hhigh, if_neg fun hmem => hlow key hmem hhigh]
    · rw [if_neg hhigh, if_neg hhigh]
      by_cases hmem : key ∈ ks
      · simp [hmem]
      · simp [hmem, eq_comm]
  rw [← Std.ExtTreeMap.length_keys, (keys_perm v hks.nodup hkeys).length_eq, List.length_append, ← hks.length]

/-- The commitment read last is still the leaf of low key 0, which no trie of several records has as its
root. -/
theorem overflowOps_not_agree (hs : Symbolic F) (f : OrdMap Bytes32 V → C) {ks : List Bytes32}
    (hks : Trie.Filling [Trie.lowKey 0] ks) (v : V) : ¬∃ answers m, Refine.run (step f) (new : Keyed F C Bytes32 V)
      (overflowOps ks v ++ [Op.commitment]) = some (answers, m) ∧
        (plainSpec f).Agree ⟨∅, ∅, ∅⟩ (overflowOps ks v ++ [Op.commitment]) answers := by
  rintro ⟨answers, m, hrun, hagree⟩
  obtain ⟨first, m₁, m₂, hrun₁, hcommit⟩ := run_overflowOps (F := F) f hks v
  have hlast : Refine.run (step f) m₁ [Op.commitment] = some ([.commitment (leaf (Trie.lowKey 0) v)], m₂) := by
    simp only [Refine.run, step, hcommit, Option.map_some, Option.bind_some]
  obtain ⟨rfl, -⟩ := Prod.mk.inj (Option.some_inj.mp (hrun.symm.trans (Refine.run_append hrun₁ hlast)))
  obtain ⟨T, T', hfresh, hroot⟩ := (hagree.append (Refine.run_length hrun₁)).1
  rw [foldl_apply_map] at hfresh
  have hsize := overflowOps_size hks v
  generalize (overflowOps ks v).foldl plainWrite ∅ = map at hsize hfresh
  obtain ⟨T₀, T₀', hfresh₀, hroot₀⟩ := freshRoot_node (F := F) (show map.size ≤ Trie.maxKeys from le_of_eq hsize)
  obtain rfl := Option.some_inj.mp (hfresh.symm.trans hfresh₀)
  have hnode := (Prod.mk.inj (Option.some_inj.mp (hroot.symm.trans hroot₀))).1
  obtain ⟨b, l, r, hbranch⟩ := node_branch (leafEntries_nodup (F := F) map)
    (by rw [leafEntries_length, hsize]; decide)
  exact leafDigest_ne_branchDigest hs _ _ b l r (hnode.trans hbranch)

/-- Taking the trie past its limit and the map back below it is a run after which the commitment no longer
follows the map. -/
theorem run_overflow_not_refines_plain : ¬∀ ops : List (Op Bytes32 Unit), ∃ answers m,
    Refine.run (step fun _ => ()) (new : Keyed Term Unit Bytes32 Unit) ops = some (answers, m) ∧
      (plainSpec fun _ => ()).Agree ⟨∅, ∅, ∅⟩ ops answers := by
  obtain ⟨n, hn⟩ : ∃ n, n + 1 = 2 ^ 31 := ⟨2 ^ 31 - 1, rfl⟩
  exact fun h => overflowOps_not_agree Term.symbolic (fun _ => ()) (Trie.filling_zero hn) () (h _)

/-! ### A record that the map has overwritten -/

/-- The low key that differs from low key 0 in the last bit only. -/
def lastKey : Bytes32 := Trie.lowKey (2 ^ 24)

/-- The trie with low key 0 and the last key, its branch not hashed yet. -/
def pairTrie (d₀ d₁ digest : Digest F) (dirty : Bool) : Trie F :=
  ⟨#[.leaf (Trie.lowKey 0) d₀, .leaf lastKey d₁, .branch 255 0 1 digest dirty], [], some 2, 2⟩

theorem firstDiffBit_lastKey : firstDiffBit lastKey (Trie.lowKey 0) = some 255 := by decide +kernel

theorem keyBit_lastKey : keyBit lastKey 255 = some true := by decide +kernel

theorem lastKey_ne : Trie.lowKey 0 ≠ lastKey := by decide +kernel

theorem set_lastKey (d₀ d₁ : Digest F) :
    (Trie.single (Trie.lowKey 0) d₀).set lastKey d₁ = some (true, pairTrie d₀ d₁ EMPTY true) := by
  have hdescend : Trie.descend #[.leaf (Trie.lowKey 0) d₀] lastKey Trie.maxDepth 0 = some ([], 0) :=
    Trie.descend_of_root_leaf (T := Trie.single (Trie.lowKey 0) d₀) rfl
  rw [Trie.set]
  simp [hdescend, lastKey_ne, firstDiffBit_lastKey, keyBit_lastKey, Trie.splitAt, Trie.keepLoop, Trie.alloc,
    Trie.single, pairTrie]

theorem verify_lastKey (d₀ d₁ : Digest F) : (⟨[(255, d₀)], some (lastKey, d₁)⟩ : TrieProof F).verify
    (branchDigest 255 d₀ d₁) lastKey (some d₁) = some true := by
  simp [TrieProof.verify, TrieProof.reaches, TrieProof.verifyLoop, keyBit_lastKey]

/-- Committing the last key on top of low key 0 leaves their branch at index 2, hashed. -/
theorem commit_pair (v : V) {d₀ d₁ : Digest F} (hd₁ : leaf lastKey v = d₁) {m : Keyed F C Bytes32 V}
    (h : Packed m (.leaf 0 (Trie.lowKey 0) d₀)) (htrie : m.trie = Trie.single (Trie.lowKey 0) d₀) :
    ∃ m' t, (m.insert lastKey v).2.commitment = some (branchDigest 255 d₀ d₁, m') ∧ Packed m' t ∧
      t.keys.Perm [lastKey, Trie.lowKey 0] ∧ m'.trie = pairTrie d₀ d₁ (branchDigest 255 d₀ d₁) false := by
  obtain ⟨d, t, trie, hcommit, hpacked, hkeys, -⟩ := h.commit_fill [lastKey]
    (by simpa [keys] using Ne.symm lastKey_ne) (by simp) v
  have hflush : (m.insert lastKey v).2.flush = some { (m.insert lastKey v).2 with
      trie := pairTrie d₀ d₁ EMPTY true
      dirty := ∅ } := by
    have hkeys : (m.insert lastKey v).2.dirty.keys = [lastKey] := by
      change (m.dirty.insert lastKey ()).keys = _
      rw [h.dirty, keys_insert_empty]
    have hput : m.trie.put lastKey ((m.map.insert lastKey v)[lastKey]?.map (leaf lastKey)) =
        some (pairTrie d₀ d₁ EMPTY true) := by
      rw [OrdMap.getElem?_insert, if_pos rfl, Option.map_some, hd₁, Trie.put, htrie, set_lastKey]
      rfl
    rw [flush, hkeys]
    change ((m.trie.put lastKey ((m.map.insert lastKey v)[lastKey]?.map (leaf lastKey))).bind _).bind _ = _
    rw [hput]
    rfl
  have hcommit' : (m.insert lastKey v).2.commitment =
      some (branchDigest 255 d₀ d₁, { (m.insert lastKey v).2 with
        trie := pairTrie d₀ d₁ (branchDigest 255 d₀ d₁) false
        dirty := ∅ }) := by
    rw [commitment, hflush]
    rfl
  obtain ⟨-, heq⟩ := Prod.mk.inj (Option.some_inj.mp (hcommit.symm.trans hcommit'))
  rw [heq] at hpacked
  exact ⟨_, t, hcommit', hpacked, hkeys, rfl⟩

/-- The first low key, the last key, the keys of a list, the high key, and then a new record for the last
key, with a commitment after each. -/
def overwriteOps (ks : List Bytes32) (v v' : V) : List (Op Bytes32 V) :=
  commitOps (Trie.lowKey 0) v ++ (commitOps lastKey v ++ (insertOps ks v ++
    [Op.commitment, Op.insert Trie.highKey v, Op.commitment, Op.insert lastKey v']))

theorem run_commitOps (f : OrdMap Bytes32 V → C) {m m' : Keyed F C Bytes32 V} {key : Bytes32} {v : V}
    {d : Digest F} (h : (m.insert key v).2.commitment = some (d, m')) :
    Refine.run (step f) m (commitOps key v) = some ([.old m.map[key]?, .commitment d], m') := by
  simp only [commitOps, Refine.run, step, Option.bind_some, h, Option.map_some]
  rfl

/-- After the run the commitment is that of the two first keys with their first records. -/
theorem run_overwriteOps (f : OrdMap Bytes32 V → C) {ks : List Bytes32}
    (hks : Trie.Filling [lastKey, Trie.lowKey 0] ks) (v v' : V) :
    ∃ answers m m', Refine.run (step f) (new : Keyed F C Bytes32 V) (overwriteOps ks v v') = some (answers, m) ∧
      m.map[lastKey]? = some v' ∧
      m.commitment = some (branchDigest 255 (leaf (Trie.lowKey 0) v) (leaf lastKey v), m') := by
  obtain ⟨m₁, hcommit₁, hpacked₁, htrie₁⟩ := commit_first (F := F) (C := C) (Trie.lowKey 0) v
  generalize hd₀ : (leaf (Trie.lowKey 0) v : Digest F) = d₀ at *
  generalize hd₁ : (leaf lastKey v : Digest F) = d₁
  obtain ⟨m₂, t₂, hcommit₂, hpacked₂, hkeys₂, htrie₂⟩ := commit_pair v hd₁ hpacked₁ htrie₁
  have hlen₂ : t₂.entries.length = 2 := by
    have := hkeys₂.length_eq
    rwa [keys, List.length_map] at this
  obtain ⟨d₃, t₃, T₃, hcommit₃, hpacked₃, hkeys₃, hlow₃⟩ := hpacked₂.commit_fill ks
    (((hkeys₂.append_left ks).nodup_iff).mpr hks.nodup) (by rw [hlen₂]; exact le_of_eq hks.length) v
  have hleaf₃ : T₃.nodes[0]? = some (.leaf (Trie.lowKey 0) d₀) :=
    hlow₃ 0 _ (by rw [htrie₂]; rfl) trivial rfl
  have hbranch₃ : T₃.nodes[2]? = some (.branch 255 0 1 (branchDigest 255 d₀ d₁) false) :=
    hlow₃ 2 _ (by rw [htrie₂]; rfl) rfl rfl
  have hlen₃ : t₃.entries.length = 2 ^ 31 := by
    have := hkeys₃.length_eq
    rw [keys, List.length_map, List.length_append, hkeys₂.length_eq] at this
    exact this.trans hks.length
  obtain ⟨T₄, hcommit₄, hroot₄, hfree₄, hsize₄, hsame₄⟩ := hpacked₃.commit_wrap hlen₃
    (fun k hk => hks.low k ((hkeys₂.append_left ks).subset (hkeys₃.subset hk))) v hleaf₃
  generalize hm₃ : ({ m₂.insertAll ks v with trie := T₃, dirty := ∅ } : Keyed F C Bytes32 V) = m₃ at *
  generalize hm₄ : ({ (m₃.insert Trie.highKey v).2 with trie := T₄, dirty := ∅ } : Keyed F C Bytes32 V) = m₄ at *
  have hleaf₄ := hsame₄ 0 _ (by rw [← hm₃]; exact hleaf₃)
  have hbranch₄ := hsame₄ 2 _ (by rw [← hm₃]; exact hbranch₃)
  have htrie₄ : m₄.trie = T₄ := by rw [← hm₄]
  -- the leaf of the new record goes to index 1 and its branch to index 2, where the old branch is
  obtain ⟨node, hset⟩ := Trie.set_of_root_leaf hroot₄ hleaf₄ lastKey_ne hfree₄ (leaf lastKey v')
  have hnext : (T₄.nodes.size + 1) % 2 ^ 32 = 2 := by omega
  have hkept : ((T₄.nodes.push (.leaf lastKey (leaf lastKey v'))).push node)[2]? =
      some (.branch 255 0 1 (branchDigest 255 d₀ d₁) false) := by
    rw [Array.getElem?_push, if_neg (by rw [Array.size_push, hsize₄]; decide), Array.getElem?_push,
      if_neg (by rw [hsize₄]; decide), hbranch₄]
  have hput : (m₄.insert lastKey v').2.trie.put lastKey
      ((m₄.map.insert lastKey v')[lastKey]?.map (leaf lastKey)) = some { T₄ with
        nodes := (T₄.nodes.push (.leaf lastKey (leaf lastKey v'))).push node
        rootIndex := some 2
        len := T₄.len + 1 } := by
    rw [OrdMap.getElem?_insert, if_pos rfl, Option.map_some]
    change (m₄.trie.set lastKey (leaf lastKey v')).map Prod.snd = _
    rw [htrie₄, hset, hnext]
    rfl
  have hcommit₅ := commit_one (m := (m₄.insert lastKey v').2) lastKey (by rw [← hm₄]; rfl) hput
    (root_of_clean (n := .branch 255 0 1 (branchDigest 255 d₀ d₁) false) rfl hkept rfl)
  obtain ⟨answers, hrun₃⟩ := run_insertAll f m₂ ks v
  have hrun₄ : Refine.run (step f) (m₂.insertAll ks v)
      [Op.commitment, Op.insert Trie.highKey v, Op.commitment, Op.insert lastKey v'] =
      some ([.commitment d₃, .old m₃.map[Trie.highKey]?, .commitment d₀, .old m₄.map[lastKey]?],
        (m₄.insert lastKey v').2) := by
    simp only [Refine.run, step, Option.bind_some, hcommit₃, hcommit₄, Option.map_some]
    rfl
  refine ⟨_, _, _, Refine.run_append (run_commitOps f hcommit₁) (Refine.run_append (run_commitOps f hcommit₂)
    (Refine.run_append hrun₃ hrun₄)), ?_, hcommit₅⟩
  change (m₄.map.insert lastKey v')[lastKey]? = some v'
  rw [OrdMap.getElem?_insert, if_pos rfl]

/-- There are keys with first bit 0 that fill the trie up to its limit on top of the first two. -/
theorem exists_filling : ∃ ks, Trie.Filling [lastKey, Trie.lowKey 0] ks := by
  obtain ⟨n, hn⟩ : ∃ n, n + 2 = 2 ^ 31 := ⟨2 ^ 31 - 2, rfl⟩
  refine ⟨Trie.lowKeys n, Trie.filling_lowKeys (by simpa using Ne.symm lastKey_ne) (fun k hk => ?_) hn⟩
  rcases List.mem_cons.mp hk with rfl | hk
  · exact ⟨2 ^ 23, by decide, rfl⟩
  · exact ⟨0, by decide, List.mem_singleton.mp hk⟩

/-- A run past the limit after which the overwritten record of the last key still has an accepted inclusion
proof. -/
theorem run_overflow_inclusion_unsound : ¬∀ (ops : List (Op Bytes32 UInt64))
    (answers : List (Answer Term Unit Bytes32 UInt64)) (m m' : Keyed Term Unit Bytes32 UInt64) (c : Digest Term)
    (key : Bytes32) (v : UInt64) (p : TrieProof Term),
    Refine.run (step fun _ => ()) new ops = some (answers, m) → m.commitment = some (c, m') →
      p.verify c (keyBytes key) (some (leaf key v)) = some true → m.map[key]? = some v := by
  intro h
  obtain ⟨ks, hks⟩ := exists_filling
  obtain ⟨answers, m, m', hrun, hget, hcommit⟩ :=
    run_overwriteOps (F := Term) (C := Unit) (fun _ => ()) hks (1 : UInt64) 2
  have hold := h _ answers m m' _ lastKey 1 _ hrun hcommit (verify_lastKey _ _)
  rw [hget, Option.some_inj] at hold
  exact absurd hold (by decide)

end Keyed

end LeanBbg
