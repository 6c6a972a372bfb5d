import LeanBbg.TrieArena

/-! The invariant of a nonempty trie and the effect of every operation on it. `Holds T t` says that the
arena holds the canonical tree `t` and that the nodes of `t` and the free list share out the arena.
Every operation then does on the arena what the edit of the same name does on the tree, and none of
its panics can occur. -/

set_option linter.unusedSectionVars false

namespace LeanBbg

open Patricia Patricia.Tree

variable {F : Type} [Hemera F]

namespace Trie

/-- The trie holds the tree. -/
structure Holds (T : Trie F) (t : ArenaTree F) : Prop where
  root : T.rootIndex = some t.label
  rep : Rep T.nodes t
  canonical : Canonical bit 256 0 t
  /-- Every index belongs to one node of the tree or to one entry of the free list. -/
  arena : (t.labels ++ T.free).Perm (List.range T.nodes.size)
  len : T.len = t.entries.length

/-- The trie holds nothing: all indices are free. -/
structure Vacant (T : Trie F) : Prop where
  root : T.rootIndex = none
  arena : T.free.Perm (List.range T.nodes.size)
  len : T.len = 0

theorem Holds.nodup {T : Trie F} {t : ArenaTree F} (h : Holds T t) : t.labels.Nodup :=
  (h.arena.nodup_iff.mpr List.nodup_range).of_append_left

theorem Holds.depth_lt {T : Trie F} {t : ArenaTree F} (h : Holds T t) : t.depth < maxDepth := by
  have := h.canonical.depth_le (Nat.zero_le _)
  rw [maxDepth]
  omega

/-! ### Allocation -/

/-- Allocation takes an index that nothing uses, as long as fewer than `2 ^ 32` are in use: the cast
to `u32` wraps only when the arena itself has grown to that size, and then all of it is in use. -/
theorem alloc_eq {T : Trie F} {used : List Nat} (harena : (used ++ T.free).Perm (List.range T.nodes.size))
    (hused : used.length < 2 ^ 32) (node : Node F) :
    ∃ i T', T.alloc node = some (i, T') ∧ i ∉ used ∧
      (i :: used ++ T'.free).Perm (List.range T'.nodes.size) ∧ T'.nodes[i]? = some node ∧
      (∀ x ∈ used, T'.nodes[x]? = T.nodes[x]?) ∧ T'.rootIndex = T.rootIndex ∧ T'.len = T.len ∧
      T'.free = T.free.tail := by
  have hnodup := harena.nodup_iff.mpr List.nodup_range
  cases hfree : T.free with
  | nil =>
      rw [hfree, List.append_nil] at harena
      have hsize : used.length = T.nodes.size := by rw [harena.length_eq, List.length_range]
      have hin : ∀ x ∈ used, x < T.nodes.size := fun x hx => List.mem_range.mp (harena.subset hx)
      refine ⟨T.nodes.size, { T with nodes := T.nodes.push node }, ?_, fun hmem => lt_irrefl _ (hin _ hmem),
        ?_, ?_, ?_, rfl, rfl, hfree⟩
      · rw [alloc, hfree, Nat.mod_eq_of_lt (hsize ▸ hused)]
      · rw [hfree, List.append_nil, Array.size_push, List.range_succ]
        exact (harena.cons _).trans (List.perm_append_singleton _ _).symm
      · exact Array.getElem?_push_size
      · intro x hx
        rw [Array.getElem?_push, if_neg (ne_of_lt (hin x hx))]
  | cons i free =>
      rw [hfree] at harena hnodup
      have hmem : i ∈ List.range T.nodes.size :=
        harena.subset (List.mem_append_right _ List.mem_cons_self)
      have hlt : i < T.nodes.size := List.mem_range.mp hmem
      have hnot : i ∉ used := fun h =>
        (List.nodup_append.mp hnodup).2.2 i h i List.mem_cons_self rfl
      refine ⟨i, { T with nodes := T.nodes.setIfInBounds i node, free := free }, ?_, hnot, ?_, ?_, ?_, rfl, rfl, rfl⟩
      · rw [alloc, hfree]
        exact if_pos hlt
      · rw [Array.size_setIfInBounds]
        exact List.perm_middle.symm.trans harena
      · exact Array.getElem?_setIfInBounds_self_of_lt hlt
      · intro x hx
        have hne : i ≠ x := by
          rintro rfl
          exact hnot hx
        exact Array.getElem?_setIfInBounds_ne hne

/-! ### Reading -/

theorem Holds.descend {T : Trie F} {t : ArenaTree F} (h : Holds T t) (key : Bytes32) :
    Trie.descend T.nodes key maxDepth t.label = some (t.path bit key, t.leafLabel bit key) :=
  descend_eq h.rep h.canonical key h.depth_lt

/-- A read returns the record that the key's walk ends at, if it is the key's own. -/
theorem Holds.get_eq {T : Trie F} {t : ArenaTree F} (h : Holds T t) (key : Bytes32) :
    T.get key = some (if (t.find bit key).1 = key then some (t.find bit key).2 else none) := by
  rw [get, h.root]
  simp only [h.descend key, Option.bind_eq_bind, Option.bind_some, h.rep.leafLabel key]

theorem Holds.isDirty_eq {T : Trie F} {t : ArenaTree F} (h : Holds T t) : ∃ b, T.isDirty = some b := by
  have hlt := h.rep.lt_size _ t.label_mem_labels
  refine ⟨!T.nodes[t.label].clean, ?_⟩
  simp only [isDirty, h.root, Array.getElem?_eq_getElem hlt, Option.map_some]

theorem Holds.root_eq {T : Trie F} {t : ArenaTree F} (h : Holds T t) :
    ∃ T', T.root = some (treeDigest t, T') ∧ Holds T' t ∧ CleanAt T'.nodes t.label ∧ T'.free = T.free ∧
      ∀ (x : Nat) (n : Node F), T.nodes[x]? = some n → n.clean = true → T'.nodes[x]? = some n := by
  obtain ⟨nodes, hhash, hrep, hclean, hsize, -, hkeep⟩ := hash_eq h.rep h.nodup h.depth_lt
  refine ⟨{ T with nodes }, ?_, ⟨h.root, hrep, h.canonical, ?_, h.len⟩, hclean, rfl, hkeep⟩
  · rw [Trie.root, h.root]
    simp only [hhash, Option.bind_eq_bind, Option.bind_some]
  · rw [hsize]
    exact h.arena

/-- Below a clean node the siblings along a path cache their digests. -/
theorem Rep.proofSteps {nodes : Array (Node F)} {t : ArenaTree F} {lo : Nat} (h : Rep nodes t)
    (hcanonical : Canonical bit 256 lo t) (hclean : CleanAt nodes t.label) (key : Bytes32) :
    (t.path bit key).mapM (proofStep nodes key) =
      some ((t.steps bit branchValue key).map fun s => (UInt16.ofNat s.1, s.2)) := by
  induction hcanonical with
  | leaf => rfl
  | @branch _ a i l r _ hw _ _ _ _ _ ihl ihr =>
      obtain ⟨⟨d, dirty, hnode, hcache⟩, hl, hr⟩ := h
      obtain ⟨n, hn, hc⟩ := hclean
      have hdirty : dirty = false := by
        have heq := hn.symm.trans hnode
        rw [Option.some_inj] at heq
        rw [heq] at hc
        simpa [Node.clean] using hc
      obtain ⟨-, hcl, hcr⟩ := hcache hdirty
      have hstep : ∀ s : ArenaTree F, Rep nodes s → CleanAt nodes s.label →
          ∃ n, nodes[s.label]? = some n ∧ n.digest = treeDigest s := by
        rintro s hs ⟨n, hn, hc⟩
        exact ⟨n, hn, hs.digest_of_clean hn hc⟩
      obtain ⟨nl, hnl, hdl⟩ := hstep l hl hcl
      obtain ⟨nr, hnr, hdr⟩ := hstep r hr hcr
      simp only [path, steps]
      by_cases hbit : bit key i = true
      · simp only [if_pos hbit, List.mapM_cons, ihr hr hcr, proofStep, hnode, keyBit_eq_bit key hw, hnl,
          hdl, Option.bind_eq_bind, Option.bind_some, Option.pure_def, List.map_cons]
        rfl
      · simp only [if_neg hbit, List.mapM_cons, ihl hl hcl, proofStep, hnode, keyBit_eq_bit key hw, hnr,
          hdr, Option.bind_eq_bind, Option.bind_some, Option.pure_def, List.map_cons]
        rfl

/-- The proof that an honest prover gives for a key. -/
def honestProof (t : ArenaTree F) (key : Bytes32) : TrieProof F :=
  ⟨(t.steps bit branchValue key).map fun s => (UInt16.ofNat s.1, s.2), some (t.find bit key)⟩

theorem Holds.prove_eq {T : Trie F} {t : ArenaTree F} (h : Holds T t) (key : Bytes32) :
    ∃ T', T.prove key = some (honestProof t key, T') ∧ Holds T' t := by
  obtain ⟨T', hroot, h', hclean, -, -⟩ := h.root_eq
  refine ⟨T', ?_, h'⟩
  rw [prove, h.root]
  simp only [hroot, Option.bind_eq_bind, Option.bind_some, h'.descend key,
    h'.rep.proofSteps h'.canonical hclean key, h'.rep.leafLabel key]
  rfl

/-! ### Writing -/

/-- The nodes on a walk are branches on its bits. -/
theorem Rep.path_bits {nodes : Array (Node F)} {t : ArenaTree F} {lo : Nat} (h : Rep nodes t)
    (hcanonical : Canonical bit 256 lo t) (key : Bytes32) :
    ∀ x ∈ t.path bit key, ∃ i l r d dirty, nodes[x]? = some (.branch (UInt16.ofNat i) l r d dirty) ∧
      lo ≤ i ∧ i < 256 := by
  induction hcanonical with
  | leaf => simp [path]
  | @branch lo a i l r hlo hw _ _ _ _ _ ihl ihr =>
      obtain ⟨⟨d, dirty, hnode, -⟩, hl, hr⟩ := h
      intro x hx
      rcases List.mem_cons.mp hx with rfl | hx
      · exact ⟨i, _, _, d, dirty, hnode, hlo, hw⟩
      · have hrest : ∃ i' l r d dirty, nodes[x]? = some (.branch (UInt16.ofNat i') l r d dirty) ∧
            i + 1 ≤ i' ∧ i' < 256 := by
          split_ifs at hx
          · exact ihr hr x hx
          · exact ihl hl x hx
        obtain ⟨i', l', r', d', dirty', hnode', hle, hlt⟩ := hrest
        exact ⟨i', l', r', d', dirty', hnode', by omega, hlt⟩

theorem Rep.kept_bits {nodes : Array (Node F)} {t : ArenaTree F} {lo : Nat} (h : Rep nodes t)
    (hcanonical : Canonical bit 256 lo t) (key : Bytes32) (j : Nat) :
    ∀ x ∈ t.kept bit key j, ∃ i l r d dirty, nodes[x]? = some (.branch (UInt16.ofNat i) l r d dirty) ∧
      i < j ∧ i < 256 := by
  induction hcanonical with
  | leaf => simp [kept]
  | @branch lo a i l r _ hw _ _ _ _ _ ihl ihr =>
      obtain ⟨⟨d, dirty, hnode, -⟩, hl, hr⟩ := h
      intro x hx
      simp only [kept] at hx
      split_ifs at hx with hlt hbit
      · rcases List.mem_cons.mp hx with rfl | hx
        · exact ⟨i, _, _, d, dirty, hnode, hlt, hw⟩
        · exact ihr hr x hx
      · rcases List.mem_cons.mp hx with rfl | hx
        · exact ⟨i, _, _, d, dirty, hnode, hlt, hw⟩
        · exact ihl hl x hx
      · cases hx

theorem ofNat_lt_iff {i j : Nat} (hi : i < 256) (hj : j < 256) : UInt16.ofNat i < UInt16.ofNat j ↔ i < j := by
  rw [UInt16.lt_iff_toNat_lt, toNat_ofNat_of_lt hi, toNat_ofNat_of_lt hj]

theorem Rep.stop {nodes : Array (Node F)} {t : ArenaTree F} (h : Rep nodes t) (key : Bytes32) (j : Nat) :
    Rep nodes (t.stop bit key j) := by
  induction t with
  | leaf => exact h
  | branch a i l r ihl ihr =>
      simp only [Tree.stop]
      split_ifs
      · exact ihr h.2.2
      · exact ihl h.2.1
      · exact h

/-- The loop of `set` keeps exactly the branches that decide on bits before `j`. -/
theorem keepLoop_eq {nodes : Array (Node F)} {t : ArenaTree F} (h : Rep nodes t)
    (hcanonical : Canonical bit 256 0 t) (key : Bytes32) {j : Nat} (hj : j < 256) :
    keepLoop nodes (t.path bit key) (UInt16.ofNat j) (t.path bit key).length =
      some (t.kept bit key j).length := by
  have hbelow := h.kept_bits hcanonical key j
  have habove := (h.stop key j).path_bits (hcanonical.stop key (Nat.zero_le j)) key
  rw [path_eq_kept_append bit key j t]
  generalize t.kept bit key j = front at *
  generalize (t.stop bit key j).path bit key = rest at *
  -- from the leaf up, the loop drops the branches on bits from `j` on
  have hdrop : ∀ n, n ≤ rest.length → keepLoop nodes (front ++ rest) (UInt16.ofNat j) (front.length + n) =
      keepLoop nodes (front ++ rest) (UInt16.ofNat j) front.length := by
    intro n hn
    induction n with
    | zero => rfl
    | succ n ih =>
        have hlt : n < rest.length := hn
        obtain ⟨i, l, r, d, dirty, hnode, hle, hi⟩ := habove rest[n] (List.getElem_mem hlt)
        have hget : (front ++ rest)[front.length + n]? = some rest[n] := by
          rw [List.getElem?_append_right (Nat.le_add_right _ _), Nat.add_sub_cancel_left,
            List.getElem?_eq_getElem hlt]
        have hnot : ¬UInt16.ofNat i < UInt16.ofNat j := by
          rw [ofNat_lt_iff hi hj]
          omega
        rw [← Nat.add_assoc, keepLoop, hget]
        simp only [Option.bind_eq_bind, Option.bind_some, hnode, if_neg hnot]
        exact ih (Nat.le_of_succ_le hn)
  rw [List.length_append, hdrop _ le_rfl]
  rcases List.eq_nil_or_concat front with rfl | ⟨init, last, rfl⟩
  · rfl
  · rw [List.concat_eq_append] at *
    obtain ⟨i, l, r, d, dirty, hnode, hlt, hi⟩ := hbelow last (List.mem_append_right _ (List.mem_singleton.mpr rfl))
    have hget : (init ++ [last] ++ rest)[init.length]? = some last := by simp
    rw [List.length_append, List.length_singleton, keepLoop, hget]
    simp only [Option.bind_eq_bind, Option.bind_some, hnode, if_pos ((ofNat_lt_iff hi hj).mpr hlt)]

/-- Where the split happens: the node below the kept branches. -/
theorem split_label {t : ArenaTree F} (key : Bytes32) (j : Nat) :
    (if (t.kept bit key j).length = (t.path bit key).length then some (t.leafLabel bit key)
      else (t.path bit key)[(t.kept bit key j).length]?) = some (t.stop bit key j).label := by
  have hleaf : (t.stop bit key j).leafLabel bit key = t.leafLabel bit key := by
    induction t with
    | leaf => rfl
    | branch a i l r ihl ihr =>
        simp only [Tree.stop]
        split_ifs with hlt hbit
        · rw [ihr, leafLabel, if_pos hbit]
        · rw [ihl, leafLabel, if_neg hbit]
        · rfl
  rw [path_eq_kept_append bit key j t, List.length_append, List.getElem?_append_right le_rfl, Nat.sub_self]
  cases hstop : t.stop bit key j with
  | leaf a k d =>
      rw [hstop] at hleaf
      rw [if_pos (by simp [path]), ← hleaf]
      rfl
  | branch a i l r =>
      rw [if_neg (by simp [path])]
      rfl

section Edit

variable [DecidableEq F]

/-- Setting a present key writes its leaf. -/
theorem Holds.set_present {T : Trie F} {t : ArenaTree F} (h : Holds T t) {key : Bytes32} {d₀ : Digest F}
    (hmem : (key, d₀) ∈ t.entries) (digest : Digest F) :
    ∃ T' t', T.set key digest = some (false, T') ∧ Holds T' t' ∧
      (t'.entries ++ [(key, d₀)]).Perm (t.entries ++ [(key, digest)]) := by
  have hfind := h.canonical.find_of_mem hmem
  have hset : T.set key digest = if d₀ = digest then some (false, T) else
      some (false, { T with
        nodes := mark (T.nodes.modify (t.leafLabel bit key) (Node.setDigest digest)) (t.path bit key) }) := by
    rw [set, h.root]
    simp only [h.descend key, Option.bind_eq_bind, Option.bind_some, h.rep.leafLabel key, hfind, if_true]
  by_cases hsame : d₀ = digest
  · subst d₀
    exact ⟨T, t, by rw [hset, if_pos rfl], h, List.Perm.refl _⟩
  · rw [if_neg hsame] at hset
    have hstop := h.canonical.stop_width key
    have hkept : t.kept bit key 256 = t.path bit key := by
      rw [path_eq_kept_append bit key 256 t, hstop]
      exact (List.append_nil _).symm
    have hdisjoint := List.nodup_append.mp ((kept_append_stop_sublist bit key 256 t).nodup h.nodup)
    rw [hkept, hstop] at hdisjoint
    have hleaf : t.leafLabel bit key ∉ t.path bit key := fun hx =>
      hdisjoint.2.2 _ hx _ (List.mem_singleton.mpr rfl) rfl
    have hentries := h.canonical.write_entries hmem digest
    obtain ⟨hlabels, hlabel⟩ := h.canonical.write_labels key digest
    refine ⟨_, t.write bit 256 key digest, hset, ⟨?_, ?_, ?_, ?_, ?_⟩, hentries⟩
    · rw [hlabel]
      exact h.root
    · refine h.rep.splice h.nodup ?_ ?_ ?_ <;> rw [hstop]
      · intro x hx
        rw [hkept] at hx
        have hne : t.leafLabel bit key ≠ x := fun heq => hleaf (heq ▸ hx)
        dsimp only
        rw [getElem?_mark, if_pos hx, Array.getElem?_modify, if_neg hne]
        congr 1
        exact funext fun n => (redirect_self _ n).symm
      · intro x _ hxk hxs
        rw [hkept] at hxk
        have hne : t.leafLabel bit key ≠ x := fun heq => hxs (List.mem_singleton.mpr heq.symm)
        dsimp only
        rw [getElem?_mark, if_neg hxk, Array.getElem?_modify, if_neg hne]
      · change (mark _ _)[t.leafLabel bit key]? = _
        rw [getElem?_mark, if_neg hleaf, Array.getElem?_modify, if_pos rfl, h.rep.leafLabel key]
        rfl
    · exact h.canonical.write (Nat.zero_le _) (mem_keys_of_mem_entries hmem) digest
    · dsimp only
      rw [mark_size, Array.size_modify]
      exact (hlabels.append_right _).trans h.arena
    · have hlen := hentries.length_eq
      rw [List.length_append, List.length_append] at hlen
      exact h.len.trans (Nat.add_right_cancel hlen).symm

/-- The node that a split puts above the subtree reached and the new leaf `a`. -/
def splitNode (t : ArenaTree F) (key : Bytes32) (j a : Nat) : Node F :=
  if bit key j then .branch (UInt16.ofNat j) (t.stop bit key j).label a EMPTY true
  else .branch (UInt16.ofNat j) a (t.stop bit key j).label EMPTY true

/-- With the new leaf at `a` and the new branch at `b`, relinking the kept branches splits the tree. -/
theorem Rep.split {nodes nodes' : Array (Node F)} {t : ArenaTree F} (h : Rep nodes t)
    (hnodup : t.labels.Nodup) {key : Bytes32} {j a b : Nat} {digest : Digest F} (ha : a ∉ t.labels)
    (hb : b ∉ t.labels) (hleaf : nodes[a]? = some (.leaf key digest))
    (hbranch : nodes[b]? = some (splitNode t key j a))
    (hkept : ∀ x ∈ t.kept bit key j, nodes'[x]? = nodes[x]?.map (redirect (t.stop bit key j).label b))
    (hother : ∀ x ∉ t.kept bit key j, nodes'[x]? = nodes[x]?) :
    Rep nodes' (t.split bit key digest j a b) := by
  have hdisjoint := List.nodup_append.mp ((kept_append_stop_sublist bit key j t).nodup hnodup)
  have hsub := (kept_append_stop_sublist bit key j t).subset
  have hstop : Rep nodes' (t.stop bit key j) := (h.stop key j).frame fun x hx =>
    hother x fun hk => hdisjoint.2.2 x hk x hx rfl
  have hnew : ∀ x, x ∉ t.labels → nodes'[x]? = nodes[x]? := fun x hx =>
    hother x fun hk => hx (hsub (List.mem_append_left _ hk))
  refine h.splice hnodup ?_ (fun x _ hx _ => hother x hx) ?_
  · intro x hx
    rw [hkept x hx]
    split_ifs <;> rfl
  · rw [splitNode] at hbranch
    split_ifs at hbranch ⊢
    · exact ⟨⟨EMPTY, true, (hnew b hb).trans hbranch, fun hfalse => by cases hfalse⟩, hstop,
        (hnew a ha).trans hleaf⟩
    · exact ⟨⟨EMPTY, true, (hnew b hb).trans hbranch, fun hfalse => by cases hfalse⟩,
        (hnew a ha).trans hleaf, hstop⟩

theorem split_label_of_kept {t : ArenaTree F} {key : Bytes32} {j a b : Nat} {digest : Digest F} :
    (t.split bit key digest j a b).label = if t.kept bit key j = [] then b else t.label := by
  by_cases hkept : t.kept bit key j = []
  · rw [if_pos hkept, Tree.split, (stop_of_kept_nil _ hkept).2]
    split_ifs <;> rfl
  · rw [if_neg hkept]
    exact splice_label _ hkept

/-- The new trie after the two allocations of a split. -/
theorem splitAt_eq {T T₁ T₂ : Trie F} {t : ArenaTree F} (hrep : Rep T.nodes t)
    (hcanonical : Canonical bit 256 0 t) {key : Bytes32} {digest : Digest F} {j a b : Nat} (hj : j < 256)
    (halloc₁ : T.alloc (.leaf key digest) = some (a, T₁))
    (halloc₂ : T₁.alloc (splitNode t key j a) = some (b, T₂)) (hrep₂ : Rep T₂.nodes t)
    (hnodup : t.labels.Nodup) (ha : a ∉ t.labels) (hb : b ∉ t.labels)
    (hleaf : T₂.nodes[a]? = some (.leaf key digest)) (hbranch : T₂.nodes[b]? = some (splitNode t key j a))
    (hroot : T₂.rootIndex = some t.label) :
    ∃ T', T.splitAt key digest (t.path bit key) (t.leafLabel bit key) (UInt16.ofNat j) = some T' ∧
      T'.rootIndex = some (t.split bit key digest j a b).label ∧
      Rep T'.nodes (t.split bit key digest j a b) ∧ T'.nodes.size = T₂.nodes.size ∧ T'.free = T₂.free ∧
      T'.len = T₂.len + 1 ∧ ∀ x ∉ t.kept bit key j, T'.nodes[x]? = T₂.nodes[x]? := by
  have hstep : T.splitAt key digest (t.path bit key) (t.leafLabel bit key) (UInt16.ofNat j) =
      if (t.kept bit key j).length = 0 then some { T₂ with rootIndex := some b, len := T₂.len + 1 }
      else (t.path bit key)[(t.kept bit key j).length - 1]?.bind fun parent =>
        (replaceChild T₂.nodes parent (t.stop bit key j).label b).bind fun nodes =>
          some { T₂ with
            nodes := mark nodes ((t.path bit key).take (t.kept bit key j).length)
            len := T₂.len + 1 } := by
    rw [splitAt, keepLoop_eq hrep hcanonical key hj]
    simp only [Option.bind_eq_bind, Option.bind_some, split_label, halloc₁, keyBit_eq_bit key hj]
    rw [splitNode] at halloc₂
    split_ifs at halloc₂ ⊢ <;> simp only [halloc₂, Option.bind_some]
  by_cases hkept : t.kept bit key j = []
  · rw [hkept, List.length_nil, if_pos rfl] at hstep
    refine ⟨_, hstep, ?_, ?_, rfl, rfl, rfl, fun _ _ => rfl⟩
    · rw [split_label_of_kept, if_pos hkept]
    · exact hrep₂.split hnodup ha hb hleaf hbranch (by simp [hkept]) fun _ _ => rfl
  · obtain ⟨parent, nodes, hlast, hreplace, hsize, hredirect, hsame⟩ := hrep₂.relink hnodup hkept b
    have htake : (t.path bit key).take (t.kept bit key j).length = t.kept bit key j := by
      rw [path_eq_kept_append bit key j t, List.take_left]
    have hpos : 0 < (t.kept bit key j).length := List.length_pos_of_ne_nil hkept
    have hparent : (t.path bit key)[(t.kept bit key j).length - 1]? = some parent := by
      rw [path_eq_kept_append bit key j t, List.getElem?_append_left (by omega), ← List.getLast?_eq_getElem?]
      exact hlast
    rw [if_neg (by omega), hparent, Option.bind_some, hreplace, Option.bind_some, htake] at hstep
    refine ⟨_, hstep, ?_, ?_, ?_, rfl, rfl, hsame⟩
    · rw [split_label_of_kept, if_neg hkept]
      exact hroot
    · exact hrep₂.split hnodup ha hb hleaf hbranch hredirect hsame
    · exact (mark_size _ _).trans hsize

/-- A leaf or a branch on the last key bit: no new key ever goes below it. -/
def lowest : Node F → Prop
  | .leaf _ _ => True
  | .branch i _ _ _ _ => i = 255

/-- Setting an absent key splits the tree, as long as its two new nodes fit the index space. -/
theorem Holds.set_absent {T : Trie F} {t : ArenaTree F} (h : Holds T t) {key : Bytes32}
    (habsent : key ∉ t.keys) (digest : Digest F) (hlen : t.entries.length < 2 ^ 31) :
    ∃ T' t', T.set key digest = some (true, T') ∧ Holds T' t' ∧
      t'.entries.Perm ((key, digest) :: t.entries) ∧ T'.free = T.free.tail.tail ∧
      ∀ x ∈ t.labels, ∀ n, T.nodes[x]? = some n → lowest n → T'.nodes[x]? = some n := by
  have hne : (t.find bit key).1 ≠ key := fun heq => habsent ((h.canonical.mem_keys_iff key).mpr heq)
  obtain ⟨j, hj, hfirst, hbefore, hdiffer⟩ := firstDiffBit_spec (Ne.symm hne)
  have hlabels := t.labels_length
  obtain ⟨a, T₁, halloc₁, ha, harena₁, hnode₁, hsame₁, hroot₁, hlen₁, hfree₁⟩ :=
    alloc_eq h.arena (by omega) (Node.leaf key digest)
  obtain ⟨b, T₂, halloc₂, hb, harena₂, hnode₂, hsame₂, hroot₂, hlen₂, hfree₂⟩ :=
    alloc_eq harena₁ (by rw [List.length_cons]; omega) (splitNode t key j a)
  rw [List.mem_cons, not_or] at hb
  have hrep₂ : Rep T₂.nodes t := h.rep.frame fun x hx => by
    rw [hsame₂ x (List.mem_cons_of_mem _ hx), hsame₁ x hx]
  have hleaf₂ : T₂.nodes[a]? = some (.leaf key digest) := by
    rw [hsame₂ a List.mem_cons_self, hnode₁]
  have hset : T.set key digest = (T.splitAt key digest (t.path bit key) (t.leafLabel bit key)
      (UInt16.ofNat j)).bind fun T' => some (true, T') := by
    rw [set, h.root]
    simp only [h.descend key, Option.bind_eq_bind, Option.bind_some, h.rep.leafLabel key, if_neg hne, hfirst]
  obtain ⟨T', hsplit, hroot', hrep', hsize', hfree', hlen', hsame'⟩ :=
    splitAt_eq h.rep h.canonical hj halloc₁ halloc₂ hrep₂ h.nodup ha hb.2 hleaf₂ hnode₂
      (hroot₂.trans (hroot₁.trans h.root))
  have hentries := split_entries bit key digest j a b t
  refine ⟨T', t.split bit key digest j a b, by rw [hset, hsplit]; rfl, ⟨hroot', hrep', ?_, ?_, ?_⟩, hentries,
    by rw [hfree', hfree₂, hfree₁], ?_⟩
  · exact h.canonical.split (Nat.zero_le _) hj hbefore hdiffer digest a b
  · rw [hfree', hsize']
    exact ((split_labels bit key digest j a b t).append_right _).trans harena₂
  · rw [hlen', hlen₂, hlen₁, h.len, hentries.length_eq, List.length_cons]
  · intro x hx n hn hlow
    rw [hsame' x, hsame₂ x (List.mem_cons_of_mem _ hx), hsame₁ x hx, hn]
    -- a kept branch decides on a bit before `j`, so it is no lowest node
    intro hk
    obtain ⟨i, l, r, d, dirty, hbranch, hlt, hi⟩ := h.rep.kept_bits h.canonical key j x hk
    obtain rfl : n = .branch (UInt16.ofNat i) l r d dirty := Option.some_inj.mp (hn.symm.trans hbranch)
    have hlast := congrArg UInt16.toNat hlow
    rw [toNat_ofNat_of_lt hi] at hlast
    have : i = 255 := hlast
    omega

/-! ### Removing -/

theorem Holds.remove_absent {T : Trie F} {t : ArenaTree F} (h : Holds T t) {key : Bytes32}
    (habsent : key ∉ t.keys) : T.remove key = some (false, T) := by
  have hne : (t.find bit key).1 ≠ key := fun heq => habsent ((h.canonical.mem_keys_iff key).mpr heq)
  rw [remove, h.root]
  simp only [h.descend key, Option.bind_eq_bind, Option.bind_some, h.rep.leafLabel key]
  exact if_pos hne

/-- Removing the only key vacates the trie. -/
theorem Holds.remove_last {T : Trie F} {t : ArenaTree F} (h : Holds T t) {key : Bytes32} {d : Digest F}
    (hmem : (key, d) ∈ t.entries) (hlast : t.lastBit bit key = none) :
    ∃ T', T.remove key = some (true, T') ∧ Vacant T' ∧ t.entries = [(key, d)] := by
  have hfind := h.canonical.find_of_mem hmem
  obtain ⟨hleaf, hpath⟩ := lastBit_eq_none hlast
  have hentries : t.entries = [(key, d)] := by
    rw [hleaf, entries_leaf, hfind]
  have hremove : T.remove key = some (true, { T with
      free := t.leafLabel bit key :: T.free, len := T.len - 1, rootIndex := none }) := by
    rw [remove, h.root]
    simp only [h.descend key, Option.bind_eq_bind, Option.bind_some, h.rep.leafLabel key, hfind, ne_eq,
      not_true_eq_false, if_false, hpath, List.getLast?_nil, release]
  refine ⟨_, hremove, ⟨rfl, ?_, ?_⟩, hentries⟩
  · have harena := h.arena
    rw [hleaf, labels_leaf] at harena
    exact harena
  · rw [h.len, hentries]
    rfl

/-- Removing one of several keys lifts the sibling of its leaf. -/
theorem Holds.remove_present {T : Trie F} {t : ArenaTree F} (h : Holds T t) {key : Bytes32} {d : Digest F}
    (hmem : (key, d) ∈ t.entries) {j : Nat} (hlast : t.lastBit bit key = some j) :
    ∃ T' t', T.remove key = some (true, T') ∧ Holds T' t' ∧ ((key, d) :: t'.entries).Perm t.entries := by
  have hfind := h.canonical.find_of_mem hmem
  obtain ⟨a, l, r, hstop, hpath, hside⟩ := h.canonical.stop_lastBit hlast
  obtain ⟨⟨d', dirty, hnode, -⟩, hl, hr⟩ : Rep T.nodes (.branch a j l r) := hstop ▸ h.rep.stop key j
  have hdisjoint := List.nodup_append.mp ((kept_append_stop_sublist bit key j t).nodup h.nodup)
  rw [hstop, labels_branch] at hdisjoint
  have hne : l.label ≠ r.label := fun heq => (List.nodup_append.mp
    (List.nodup_cons.mp hdisjoint.2.1).2).2.2 _ l.label_mem_labels _ r.label_mem_labels heq
  -- the source tells the sibling from the leaf by its index
  obtain ⟨s, hs, hlift, hsibling⟩ : ∃ s : ArenaTree F, Rep T.nodes s ∧
      (if bit key j then l else r) = s ∧
        (if l.label = t.leafLabel bit key then r.label else l.label) = s.label := by
    split_ifs at hside ⊢ with hbit hleft hleft
    · rw [hside] at hne
      exact absurd hleft hne
    · exact ⟨l, hl, rfl, rfl⟩
    · exact ⟨r, hr, rfl, rfl⟩
    · rw [hside] at hleft
      exact absurd rfl hleft
  have hsub : ∀ x ∈ s.labels, x ∉ t.kept bit key j := by
    intro x hx hk
    refine hdisjoint.2.2 x hk x ?_ rfl
    rw [List.mem_cons, List.mem_append]
    split_ifs at hlift
    · exact .inr (.inl (hlift ▸ hx))
    · exact .inr (.inr (hlift ▸ hx))
  have hremove_root (hgrand : (t.kept bit key j).getLast? = none) : T.remove key = some (true, { T with
      free := a :: t.leafLabel bit key :: T.free, len := T.len - 1, rootIndex := some s.label }) := by
    simp only [remove, h.root, h.descend key, Option.bind_eq_bind, Option.bind_some, h.rep.leafLabel key, hfind,
      ne_eq, not_true_eq_false, if_false, hpath, List.getLast?_concat, List.dropLast_concat, release, hnode,
      hsibling, hgrand]
  have hremove_below {grand : Nat} (hgrand : (t.kept bit key j).getLast? = some grand) :
      T.remove key = (replaceChild T.nodes grand a s.label).bind fun nodes => some (true, { T with
        nodes := mark nodes (t.kept bit key j)
        free := a :: t.leafLabel bit key :: T.free, len := T.len - 1 }) := by
    simp only [remove, h.root, h.descend key, Option.bind_eq_bind, Option.bind_some, h.rep.leafLabel key, hfind,
      ne_eq, not_true_eq_false, if_false, hpath, List.getLast?_concat, List.dropLast_concat, release, hnode,
      hsibling, hgrand]
  have hlabels : ((t.lift bit key j).labels ++ a :: t.leafLabel bit key :: T.free).Perm
      (List.range T.nodes.size) := by
    obtain ⟨a', hpath', hperm⟩ := h.canonical.lift_collect (fun a _ _ => [a]) (fun a => [a]) hlast
    obtain rfl : a' = a := by simpa using (hpath'.symm.trans hpath)
    have hall := (hperm.append_right T.free).trans h.arena
    rwa [List.append_assoc] at hall
  have hentries : ((key, d) :: (t.lift bit key j).entries).Perm t.entries := by
    obtain ⟨-, -, hperm⟩ := h.canonical.lift_collect (fun _ k v => [(k, v)]) (fun _ => []) hlast
    rw [hfind, List.nil_append] at hperm
    exact (List.perm_append_singleton _ _).symm.trans hperm
  have hlen : T.len - 1 = (t.lift bit key j).entries.length := by
    have := hentries.length_eq
    rw [List.length_cons] at this
    rw [h.len]
    omega
  have hcanonical := h.canonical.lift hlast (mem_keys_of_mem_entries hmem)
  by_cases hkept : t.kept bit key j = []
  · have hremove := hremove_root (by rw [hkept, List.getLast?_nil])
    have htree : t.lift bit key j = s := by
      refine (stop_of_kept_nil _ hkept).2.trans ?_
      rw [← (stop_of_kept_nil id hkept).1, hstop]
      exact hlift
    exact ⟨_, t.lift bit key j, hremove, ⟨by rw [htree], by rw [htree]; exact hs, hcanonical, hlabels, hlen⟩,
      hentries⟩
  · obtain ⟨grand, nodes, hgrand, hreplace, hsize, hredirect, hsame⟩ := h.rep.relink h.nodup hkept s.label
    rw [hstop, label_branch] at hreplace hredirect
    have hremove := hremove_below hgrand
    simp only [hreplace, Option.bind_some] at hremove
    refine ⟨_, t.lift bit key j, hremove, ⟨?_, ?_, hcanonical, ?_, hlen⟩, hentries⟩
    · exact h.root.trans (congrArg some (splice_label _ hkept).symm)
    · refine h.rep.splice h.nodup ?_ (fun x _ hx _ => hsame x hx) ?_ <;> rw [hstop]
      · intro x hx
        rw [hredirect x hx]
        dsimp only
        rw [hlift]
        rfl
      · dsimp only
        rw [hlift]
        exact hs.frame fun x hx => hsame x (hsub x hx)
    · dsimp only
      rw [mark_size, hsize]
      exact hlabels

end Edit

end Trie

end LeanBbg
