import LeanBbg.Trie

/-! Trees in the arena. `Rep nodes t` says that the arena holds the labelled tree `t`, every node at
the index that labels it, and that a branch not marked dirty caches the digest of its subtree and has
only clean children. Walking, hashing and splicing the arena are the operations on the tree. -/

namespace LeanBbg

open Patricia Patricia.Tree

variable {F : Type} [Hemera F]

/-- The trees an arena holds: labelled by index, with keys and leaf digests. -/
abbrev ArenaTree (F : Type) := Tree Nat Bytes32 (Digest F)

/-- The branch digest by bit index. -/
def branchValue (i : Nat) : Digest F → Digest F → Digest F := branchDigest (UInt16.ofNat i)

/-- The digest of a tree. -/
def treeDigest (t : ArenaTree F) : Digest F := t.value branchValue

namespace Trie

def CleanAt (nodes : Array (Node F)) (idx : Nat) : Prop := ∃ n, nodes[idx]? = some n ∧ n.clean = true

def Rep (nodes : Array (Node F)) : ArenaTree F → Prop
  | .leaf a k d => nodes[a]? = some (.leaf k d)
  | .branch a i l r =>
      (∃ d dirty, nodes[a]? = some (.branch (UInt16.ofNat i) l.label r.label d dirty) ∧
        (dirty = false → d = treeDigest (.branch a i l r) ∧ CleanAt nodes l.label ∧ CleanAt nodes r.label)) ∧
      Rep nodes l ∧ Rep nodes r

/-- A tree depends only on the arena at its own labels. -/
theorem Rep.frame {nodes nodes' : Array (Node F)} {t : ArenaTree F} (h : Rep nodes t)
    (hsame : ∀ x ∈ t.labels, nodes'[x]? = nodes[x]?) : Rep nodes' t := by
  induction t with
  | leaf a k d =>
      rw [Rep, hsame a (by simp)]
      exact h
  | branch a i l r ihl ihr =>
      obtain ⟨⟨d, dirty, hnode, hclean⟩, hl, hr⟩ := h
      simp only [labels_branch, List.mem_cons, List.mem_append] at hsame
      have hlabel : ∀ s : ArenaTree F, nodes'[s.label]? = nodes[s.label]? →
          CleanAt nodes s.label → CleanAt nodes' s.label := by
        rintro s heq ⟨n, hn, hc⟩
        exact ⟨n, heq.trans hn, hc⟩
      refine ⟨⟨d, dirty, (hsame a (.inl rfl)).trans hnode, fun hd => ?_⟩,
        ihl hl fun x hx => hsame x (.inr (.inl hx)), ihr hr fun x hx => hsame x (.inr (.inr hx))⟩
      obtain ⟨hdigest, hcl, hcr⟩ := hclean hd
      exact ⟨hdigest, hlabel l (hsame _ (.inr (.inl l.label_mem_labels))) hcl,
        hlabel r (hsame _ (.inr (.inr r.label_mem_labels))) hcr⟩

theorem Rep.lt_size {nodes : Array (Node F)} {t : ArenaTree F} (h : Rep nodes t) :
    ∀ x ∈ t.labels, x < nodes.size := by
  have hlt : ∀ {x : Nat} {n : Node F}, nodes[x]? = some n → x < nodes.size :=
    fun hx => (Array.getElem?_eq_some_iff.mp hx).1
  induction t with
  | leaf a k d =>
      intro x hx
      rw [labels_leaf, List.mem_singleton] at hx
      rw [hx]
      exact hlt h
  | branch a i l r ihl ihr =>
      obtain ⟨⟨d, dirty, hnode, -⟩, hl, hr⟩ := h
      intro x hx
      rw [labels_branch, List.mem_cons, List.mem_append] at hx
      rcases hx with rfl | hx | hx
      · exact hlt hnode
      · exact ihl hl x hx
      · exact ihr hr x hx

/-- A clean node caches the digest of its subtree. -/
theorem Rep.digest_of_clean {nodes : Array (Node F)} {t : ArenaTree F} (h : Rep nodes t) {n : Node F}
    (hn : nodes[t.label]? = some n) (hclean : n.clean = true) : n.digest = treeDigest t := by
  cases t with
  | leaf a k d =>
      have hleaf : n = .leaf k d := Option.some_inj.mp (hn.symm.trans h)
      rw [hleaf]
      rfl
  | branch a i l r =>
      obtain ⟨⟨d, dirty, hnode, hdirty⟩, -, -⟩ := h
      have hbranch : n = .branch (UInt16.ofNat i) l.label r.label d dirty :=
        Option.some_inj.mp (hn.symm.trans hnode)
      rw [hbranch] at hclean ⊢
      exact (hdirty (by simpa [Node.clean] using hclean)).1

/-! ### Walking -/

theorem descend_eq {nodes : Array (Node F)} {t : ArenaTree F} {lo : Nat} (h : Rep nodes t)
    (hcanonical : Canonical bit 256 lo t) (key : Bytes32) {fuel : Nat} (hfuel : t.depth < fuel) :
    descend nodes key fuel t.label = some (t.path bit key, t.leafLabel bit key) := by
  induction hcanonical generalizing fuel with
  | @leaf _ a k d =>
      cases fuel with
      | zero => cases hfuel
      | succ fuel =>
          have hnode : nodes[a]? = some (.leaf k d) := h
          simp only [descend, label_leaf, hnode, path, leafLabel]
  | @branch _ a i l r _ hw _ _ _ _ _ ihl ihr =>
      obtain ⟨⟨d, dirty, hnode, -⟩, hl, hr⟩ := h
      cases fuel with
      | zero => cases hfuel
      | succ fuel =>
          simp only [depth] at hfuel
          simp only [descend, label_branch, hnode, keyBit_eq_bit key hw, Option.bind_eq_bind, Option.bind_some,
            path, leafLabel]
          by_cases hbit : bit key i = true
          · simp only [if_pos hbit, ihr hr (show r.depth < fuel by omega), Option.bind_some]
          · simp only [if_neg hbit, ihl hl (show l.depth < fuel by omega), Option.bind_some]

theorem Rep.leafLabel {nodes : Array (Node F)} {t : ArenaTree F} (h : Rep nodes t) (key : Bytes32) :
    nodes[t.leafLabel bit key]? = some (.leaf (t.find bit key).1 (t.find bit key).2) := by
  induction t with
  | leaf => exact h
  | branch a i l r ihl ihr =>
      simp only [Tree.leafLabel, find]
      split_ifs
      · exact ihr h.2.2
      · exact ihl h.2.1

/-! ### Hashing -/

/-- Hashing computes the digest of the tree, leaves its root clean and touches only dirty nodes of it. -/
theorem hash_eq {nodes : Array (Node F)} {t : ArenaTree F} (h : Rep nodes t)
    (hnodup : t.labels.Nodup) {fuel : Nat} (hfuel : t.depth < fuel) :
    ∃ nodes', hash fuel nodes t.label = some (treeDigest t, nodes') ∧ Rep nodes' t ∧
      CleanAt nodes' t.label ∧ nodes'.size = nodes.size ∧ (∀ x, x ∉ t.labels → nodes'[x]? = nodes[x]?) ∧
        ∀ (x : Nat) (n : Node F), nodes[x]? = some n → n.clean = true → nodes'[x]? = some n := by
  induction t generalizing nodes fuel with
  | leaf a k d =>
      cases fuel with
      | zero => cases hfuel
      | succ fuel =>
          have hnode : nodes[a]? = some (.leaf k d) := h
          refine ⟨nodes, ?_, h, ⟨_, hnode, rfl⟩, rfl, fun _ _ => rfl, fun _ _ hn _ => hn⟩
          simp only [hash, label_leaf, hnode]
          rfl
  | branch a i l r ihl ihr =>
      cases fuel with
      | zero => cases hfuel
      | succ fuel =>
          obtain ⟨⟨d, dirty, hnode, hclean⟩, hl, hr⟩ := h
          cases dirty with
          | false =>
              obtain ⟨rfl, -, -⟩ := hclean rfl
              refine ⟨nodes, ?_, ⟨⟨_, _, hnode, hclean⟩, hl, hr⟩, ⟨_, hnode, rfl⟩, rfl, fun _ _ => rfl,
                fun _ _ hn _ => hn⟩
              simp only [hash, label_branch, hnode, Bool.false_eq_true, if_false]
          | true =>
              simp only [depth] at hfuel
              rw [labels_branch, List.nodup_cons, List.mem_append, not_or, List.nodup_append] at hnodup
              obtain ⟨⟨hal, har⟩, hnl, hnr, hdisjoint⟩ := hnodup
              obtain ⟨nodes₁, hhash₁, hrep₁, ⟨n₁, hn₁, hc₁⟩, hsize₁, hsame₁, hkeep₁⟩ :=
                ihl hl hnl (show l.depth < fuel by omega)
              have hr₁ : Rep nodes₁ r := hr.frame fun x hx => hsame₁ x fun hxl => hdisjoint x hxl x hx rfl
              obtain ⟨nodes₂, hhash₂, hrep₂, ⟨n₂, hn₂, hc₂⟩, hsize₂, hsame₂, hkeep₂⟩ :=
                ihr hr₁ hnr (show r.depth < fuel by omega)
              have hl₂ : Rep nodes₂ l := hrep₁.frame fun x hx => hsame₂ x fun hxr => hdisjoint x hx x hxr rfl
              have hnode₂ : nodes₂[a]? = some (.branch (UInt16.ofNat i) l.label r.label d true) := by
                rw [hsame₂ a har, hsame₁ a hal, hnode]
              have hoff : ∀ d x, x ≠ a → (nodes₂.modify a (Node.rehashed d))[x]? = nodes₂[x]? := by
                intro d x hx
                rw [Array.getElem?_modify, if_neg (Ne.symm hx)]
              have hat : ∀ d, (nodes₂.modify a (Node.rehashed d))[a]? =
                  some (.branch (UInt16.ofNat i) l.label r.label d false) := by
                intro d
                rw [Array.getElem?_modify, if_pos rfl, hnode₂]
                rfl
              have hne : ∀ {s : ArenaTree F} {x : Nat}, a ∉ s.labels → x ∈ s.labels → x ≠ a :=
                fun hs hx hxa => hs (hxa ▸ hx)
              refine ⟨nodes₂.modify a (Node.rehashed (treeDigest (.branch a i l r))), ?_,
                ⟨⟨_, _, hat _, fun _ => ⟨rfl, ?_, ?_⟩⟩, ?_, ?_⟩, ⟨_, hat _, rfl⟩, ?_, ?_, ?_⟩
              · simp only [hash, label_branch, hnode, if_true, hhash₁, hhash₂, Option.bind_eq_bind,
                  Option.bind_some]
                rfl
              · refine ⟨n₁, ?_, hc₁⟩
                rw [hoff _ _ (hne hal l.label_mem_labels), hsame₂ _ fun hxr =>
                  hdisjoint _ l.label_mem_labels _ hxr rfl, hn₁]
              · refine ⟨n₂, ?_, hc₂⟩
                rw [hoff _ _ (hne har r.label_mem_labels), hn₂]
              · exact hl₂.frame fun x hx => hoff _ x (hne hal hx)
              · exact hrep₂.frame fun x hx => hoff _ x (hne har hx)
              · rw [Array.size_modify, hsize₂, hsize₁]
              · intro x hx
                rw [labels_branch, List.mem_cons, List.mem_append, not_or, not_or] at hx
                rw [hoff _ x hx.1, hsame₂ x hx.2.2, hsame₁ x hx.2.1]
              · intro x n hn hc
                have hx := hkeep₂ x n (hkeep₁ x n hn hc) hc
                have hxa : x ≠ a := by
                  rintro rfl
                  rw [hnode₂, Option.some_inj] at hx
                  rw [← hx] at hc
                  cases hc
                rw [hoff _ x hxa, hx]

/-! ### Marking and relinking -/

section Relink

omit [Hemera F]

/-- A branch marked dirty with its pointers to `old` turned to `new`. -/
def redirect (old new : Nat) : Node F → Node F
  | .leaf k d => .leaf k d
  | .branch i l r d _ => .branch i (if l = old then new else l) (if r = old then new else r) d true

theorem redirect_self (old : Nat) (n : Node F) : redirect old old n = n.markDirty := by
  have hsame : ∀ x : Nat, (if x = old then old else x) = x := by
    intro x
    split_ifs with hx
    · exact hx.symm
    · rfl
  cases n with
  | leaf => rfl
  | branch => simp only [redirect, hsame, Node.markDirty]

@[simp] theorem mark_size (nodes : Array (Node F)) (path : List Nat) : (mark nodes path).size = nodes.size := by
  induction path generalizing nodes with
  | nil => rfl
  | cons a path ih =>
      change (mark (nodes.modify a Node.markDirty) path).size = nodes.size
      rw [ih, Array.size_modify]

theorem getElem?_mark (nodes : Array (Node F)) (path : List Nat) (x : Nat) :
    (mark nodes path)[x]? = if x ∈ path then nodes[x]?.map Node.markDirty else nodes[x]? := by
  have hmark : ∀ n : Node F, n.markDirty.markDirty = n.markDirty := by
    intro n
    cases n <;> rfl
  induction path generalizing nodes with
  | nil => simp [mark]
  | cons a path ih =>
      change (mark (nodes.modify a Node.markDirty) path)[x]? = _
      rw [ih, Array.getElem?_modify]
      by_cases hxa : x = a
      · subst x
        rw [if_pos rfl, if_pos List.mem_cons_self]
        split_ifs
        · rw [Option.map_map]
          congr 1
          exact funext hmark
        · rfl
      · simp only [if_neg (Ne.symm hxa), List.mem_cons, hxa, false_or]

theorem replaceChild_eq {nodes : Array (Node F)} {parent old new : Nat} {i : UInt16} {l r : Nat}
    {d : Digest F} {dirty : Bool} (hnode : nodes[parent]? = some (.branch i l r d dirty))
    (hold : (l = old ∧ r ≠ old) ∨ (l ≠ old ∧ r = old)) :
    replaceChild nodes parent old new =
      some (nodes.setIfInBounds parent
        (.branch i (if l = old then new else l) (if r = old then new else r) d dirty)) := by
  rw [replaceChild, hnode]
  rcases hold with ⟨hl, hr⟩ | ⟨hl, hr⟩
  · simp only [hl, hr, if_true, if_false]
  · simp only [hl, hr, if_true, if_false]

end Relink

/-- Of the branches passed, only the last one points to the subtree reached. -/
theorem Rep.kept_last {nodes : Array (Node F)} {t : ArenaTree F} (h : Rep nodes t) (hnodup : t.labels.Nodup)
    {key : Bytes32} {j : Nat} (hne : t.kept bit key j ≠ []) :
    ∃ front parent i l r d dirty, t.kept bit key j = front ++ [parent] ∧
      nodes[parent]? = some (.branch i l r d dirty) ∧
      ((l = (t.stop bit key j).label ∧ r ≠ (t.stop bit key j).label) ∨
        (l ≠ (t.stop bit key j).label ∧ r = (t.stop bit key j).label)) ∧
      ∀ x ∈ front, ∀ new, nodes[x]?.map (redirect (t.stop bit key j).label new) =
        nodes[x]?.map Node.markDirty := by
  induction t with
  | leaf => exact absurd rfl hne
  | branch a i l r ihl ihr =>
      obtain ⟨⟨d, dirty, hnode, -⟩, hl, hr⟩ := h
      rw [labels_branch, List.nodup_cons, List.mem_append, not_or, List.nodup_append] at hnodup
      obtain ⟨⟨hal, har⟩, hnl, hnr, hdisjoint⟩ := hnodup
      by_cases hlt : i < j
      · simp only [kept, stop, if_pos hlt]
        split_ifs with hbit
        · have hside : l.label ≠ (r.stop bit key j).label := fun heq =>
            hdisjoint _ l.label_mem_labels _ (stop_labels_subset bit key j r (label_mem_labels _)) heq
          by_cases hkept : r.kept bit key j = []
          · rw [(stop_of_kept_nil id hkept).1] at hside ⊢
            exact ⟨[], a, _, _, _, d, dirty, by rw [hkept]; rfl, hnode, .inr ⟨hside, rfl⟩, by simp⟩
          · obtain ⟨front, parent, i', l', r', d', dirty', hfront, hparent, hold, hrest⟩ := ihr hr hnr hkept
            refine ⟨a :: front, parent, i', l', r', d', dirty', by rw [hfront]; rfl, hparent, hold, ?_⟩
            intro x hx new
            rcases List.mem_cons.mp hx with rfl | hx
            · have hroot := label_ne_stop_label hnr hkept
              rw [hnode]
              simp only [Option.map_some, redirect, if_neg hside, if_neg hroot, Node.markDirty]
            · exact hrest x hx new
        · have hside : r.label ≠ (l.stop bit key j).label := fun heq =>
            hdisjoint _ (stop_labels_subset bit key j l (label_mem_labels _)) _ r.label_mem_labels heq.symm
          by_cases hkept : l.kept bit key j = []
          · rw [(stop_of_kept_nil id hkept).1] at hside ⊢
            exact ⟨[], a, _, _, _, d, dirty, by rw [hkept]; rfl, hnode, .inl ⟨rfl, hside⟩, by simp⟩
          · obtain ⟨front, parent, i', l', r', d', dirty', hfront, hparent, hold, hrest⟩ := ihl hl hnl hkept
            refine ⟨a :: front, parent, i', l', r', d', dirty', by rw [hfront]; rfl, hparent, hold, ?_⟩
            intro x hx new
            rcases List.mem_cons.mp hx with rfl | hx
            · have hroot := label_ne_stop_label hnl hkept
              rw [hnode]
              simp only [Option.map_some, redirect, if_neg hside, if_neg hroot, Node.markDirty]
            · exact hrest x hx new
      · exact absurd (by simp only [kept, if_neg hlt]) hne

/-- Replacing the child of the last branch passed and marking all of them redirects them. -/
theorem Rep.relink {nodes : Array (Node F)} {t : ArenaTree F} (h : Rep nodes t) (hnodup : t.labels.Nodup)
    {key : Bytes32} {j : Nat} (hne : t.kept bit key j ≠ []) (new : Nat) :
    ∃ parent nodes', (t.kept bit key j).getLast? = some parent ∧
      replaceChild nodes parent (t.stop bit key j).label new = some nodes' ∧
      nodes'.size = nodes.size ∧
      (∀ x ∈ t.kept bit key j, (mark nodes' (t.kept bit key j))[x]? =
        nodes[x]?.map (redirect (t.stop bit key j).label new)) ∧
      ∀ x ∉ t.kept bit key j, (mark nodes' (t.kept bit key j))[x]? = nodes[x]? := by
  obtain ⟨front, parent, i, l, r, d, dirty, hfront, hparent, hold, hrest⟩ := h.kept_last hnodup hne
  have hlt : parent < nodes.size := (Array.getElem?_eq_some_iff.mp hparent).1
  refine ⟨parent, _, by rw [hfront, List.getLast?_concat], replaceChild_eq hparent hold,
    Array.size_setIfInBounds, ?_, ?_⟩
  · intro x hx
    rw [getElem?_mark, if_pos hx, Array.getElem?_setIfInBounds]
    by_cases hxp : parent = x
    · subst x
      rw [if_pos rfl, if_pos hlt, hparent]
      rfl
    · rw [if_neg hxp]
      rw [hfront, List.mem_append, List.mem_singleton] at hx
      exact (hrest x (hx.resolve_right (Ne.symm hxp)) new).symm
  · intro x hx
    have hxp : parent ≠ x := by
      rintro rfl
      exact hx (by rw [hfront]; exact List.mem_append_right _ (List.mem_singleton.mpr rfl))
    rw [getElem?_mark, if_neg hx, Array.getElem?_setIfInBounds_ne hxp]

/-- Redirecting the branches passed to a new subtree splices the tree. -/
theorem Rep.splice {nodes nodes' : Array (Node F)} {t : ArenaTree F} (h : Rep nodes t)
    (hnodup : t.labels.Nodup) {key : Bytes32} {j : Nat} {mk : ArenaTree F → ArenaTree F}
    (hkept : ∀ x ∈ t.kept bit key j, nodes'[x]? =
      nodes[x]?.map (redirect (t.stop bit key j).label (mk (t.stop bit key j)).label))
    (hother : ∀ x ∈ t.labels, x ∉ t.kept bit key j → x ∉ (t.stop bit key j).labels →
      nodes'[x]? = nodes[x]?)
    (hmk : Rep nodes' (mk (t.stop bit key j))) : Rep nodes' (t.splice bit key j mk) := by
  induction t with
  | leaf => exact hmk
  | branch a i l r ihl ihr =>
      obtain ⟨⟨d, dirty, hnode, -⟩, hl, hr⟩ := h
      rw [labels_branch, List.nodup_cons, List.mem_append, not_or, List.nodup_append] at hnodup
      obtain ⟨⟨hal, har⟩, hnl, hnr, hdisjoint⟩ := hnodup
      by_cases hlt : i < j
      · -- the child on the key's side is spliced, the other one is untouched
        simp only [kept, Tree.stop, Tree.splice, if_pos hlt] at hkept hother hmk ⊢
        have hchild : ∀ s : ArenaTree F, s.labels.Nodup →
            (if s.label = (s.stop bit key j).label then (mk (s.stop bit key j)).label else s.label) =
              (s.splice bit key j mk).label := by
          intro s hs
          by_cases hempty : s.kept bit key j = []
          · obtain ⟨hstop, hsplice⟩ := stop_of_kept_nil mk hempty
            rw [hstop, hsplice, if_pos rfl]
          · rw [if_neg (label_ne_stop_label hs hempty), splice_label mk hempty]
        split_ifs at hkept hother hmk ⊢ with hbit
        · have hsub := (kept_append_stop_sublist bit key j r).subset
          have hside : l.label ≠ (r.stop bit key j).label := fun heq =>
            hdisjoint _ l.label_mem_labels _ (stop_labels_subset bit key j r (label_mem_labels _)) heq
          refine ⟨⟨d, true, ?_, fun hfalse => by cases hfalse⟩, ?_, ?_⟩
          · rw [hkept a List.mem_cons_self, hnode, Option.map_some, redirect, if_neg hside, hchild r hnr]
          · refine hl.frame fun x hx => hother x ?_ ?_ ?_
            · simp [hx]
            · intro hmem
              rcases List.mem_cons.mp hmem with rfl | hmem
              · exact hal hx
              · exact hdisjoint x hx x (hsub (List.mem_append_left _ hmem)) rfl
            · exact fun hmem => hdisjoint x hx x (hsub (List.mem_append_right _ hmem)) rfl
          · refine ihr hr hnr (fun x hx => hkept x (List.mem_cons_of_mem _ hx)) ?_ hmk
            intro x hx hxk hxs
            refine hother x (by simp [hx]) ?_ hxs
            intro hmem
            rcases List.mem_cons.mp hmem with rfl | hmem
            · exact har hx
            · exact hxk hmem
        · have hsub := (kept_append_stop_sublist bit key j l).subset
          have hside : r.label ≠ (l.stop bit key j).label := fun heq =>
            hdisjoint _ (stop_labels_subset bit key j l (label_mem_labels _)) _ r.label_mem_labels heq.symm
          refine ⟨⟨d, true, ?_, fun hfalse => by cases hfalse⟩, ?_, ?_⟩
          · rw [hkept a List.mem_cons_self, hnode, Option.map_some, redirect, if_neg hside, hchild l hnl]
          · refine ihl hl hnl (fun x hx => hkept x (List.mem_cons_of_mem _ hx)) ?_ hmk
            intro x hx hxk hxs
            refine hother x (by simp [hx]) ?_ hxs
            intro hmem
            rcases List.mem_cons.mp hmem with rfl | hmem
            · exact hal hx
            · exact hxk hmem
          · refine hr.frame fun x hx => hother x ?_ ?_ ?_
            · simp [hx]
            · intro hmem
              rcases List.mem_cons.mp hmem with rfl | hmem
              · exact har hx
              · exact hdisjoint x (hsub (List.mem_append_left _ hmem)) x hx rfl
            · exact fun hmem => hdisjoint x (hsub (List.mem_append_right _ hmem)) x hx rfl
      · simpa only [Tree.stop, Tree.splice, if_neg hlt] using hmk

end Trie

end LeanBbg
