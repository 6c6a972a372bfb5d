import Mathlib

/-! Path-compressed binary trees over keys with `w` bits. A branch decides on one key bit, every
node carries a label, and a tree is canonical when every branch sits exactly where two of its keys
first differ. The three edits (write a leaf, split a subtree, lift a sibling) are one operation,
`splice`: walk along a key while the branches decide on bits before `j`, then rewrite the subtree
reached. -/

namespace LeanBbg.Patricia

/-- A path-compressed binary tree whose nodes carry labels. -/
inductive Tree (A K D : Type) where
  | leaf (label : A) (key : K) (value : D)
  | branch (label : A) (bit : Nat) (left right : Tree A K D)

namespace Tree

variable {A K D : Type}

def label : Tree A K D → A
  | leaf a _ _ => a
  | branch a _ _ _ => a

/-- What every node contributes, in preorder. -/
def collect {β : Type} (f : A → K → D → List β) (g : A → List β) : Tree A K D → List β
  | leaf a k v => f a k v
  | branch a _ l r => g a ++ (l.collect f g ++ r.collect f g)

/-- The labels of all nodes. -/
def labels : Tree A K D → List A := collect (fun a _ _ => [a]) (fun a => [a])

/-- The records at the leaves. -/
def entries : Tree A K D → List (K × D) := collect (fun _ k v => [(k, v)]) (fun _ => [])

def keys (t : Tree A K D) : List K := t.entries.map Prod.fst

def depth : Tree A K D → Nat
  | leaf _ _ _ => 0
  | branch _ _ l r => max l.depth r.depth + 1

/-- The value of a tree whose branches combine the values of their children. -/
def value (f : Nat → D → D → D) : Tree A K D → D
  | leaf _ _ v => v
  | branch _ i l r => f i (l.value f) (r.value f)

@[simp] theorem label_leaf (a : A) (k : K) (v : D) : (leaf a k v).label = a := rfl

@[simp] theorem label_branch (a : A) (i : Nat) (l r : Tree A K D) : (branch a i l r).label = a := rfl

@[simp] theorem labels_leaf (a : A) (k : K) (v : D) : (leaf a k v).labels = [a] := rfl

@[simp] theorem labels_branch (a : A) (i : Nat) (l r : Tree A K D) :
    (branch a i l r).labels = a :: (l.labels ++ r.labels) := rfl

@[simp] theorem entries_leaf (a : A) (k : K) (v : D) : (leaf a k v).entries = [(k, v)] := rfl

@[simp] theorem entries_branch (a : A) (i : Nat) (l r : Tree A K D) :
    (branch a i l r).entries = l.entries ++ r.entries := rfl

@[simp] theorem keys_leaf (a : A) (k : K) (v : D) : (leaf a k v).keys = [k] := rfl

@[simp] theorem keys_branch (a : A) (i : Nat) (l r : Tree A K D) :
    (branch a i l r).keys = l.keys ++ r.keys := by
  simp only [keys, entries_branch, List.map_append]

theorem label_mem_labels (t : Tree A K D) : t.label ∈ t.labels := by
  cases t <;> simp [label]

theorem mem_keys_of_mem_entries {t : Tree A K D} {k : K} {v : D} (h : (k, v) ∈ t.entries) :
    k ∈ t.keys := List.mem_map_of_mem (f := Prod.fst) h

/-- A tree with `n` records has `2 n - 1` nodes. -/
theorem labels_length (t : Tree A K D) : t.labels.length + 1 = 2 * t.entries.length := by
  induction t with
  | leaf => rfl
  | branch a i l r ihl ihr =>
      simp only [labels_branch, entries_branch, List.length_cons, List.length_append]
      omega

theorem entries_ne_nil (t : Tree A K D) : t.entries ≠ [] := by
  intro h
  have hlen := labels_length t
  rw [h] at hlen
  simp at hlen

section Walk

variable (bit : K → Nat → Bool)

/-- The leaf that `key`'s walk ends at. -/
def find (key : K) : Tree A K D → K × D
  | leaf _ k v => (k, v)
  | branch _ i l r => if bit key i then r.find key else l.find key

/-- The labels of the branches that `key`'s walk passes, root first. -/
def path (key : K) : Tree A K D → List A
  | leaf _ _ _ => []
  | branch a i l r => a :: (if bit key i then r.path key else l.path key)

/-- The label of the leaf that `key`'s walk ends at. -/
def leafLabel (key : K) : Tree A K D → A
  | leaf a _ _ => a
  | branch _ i l r => if bit key i then r.leafLabel key else l.leafLabel key

/-- The subtree that `key`'s walk reaches when it passes only branches on bits before `j`. -/
def stop (key : K) (j : Nat) : Tree A K D → Tree A K D
  | leaf a k v => leaf a k v
  | branch a i l r =>
      if i < j then (if bit key i then r.stop key j else l.stop key j) else branch a i l r

/-- The labels of the branches passed on the way to `stop`. -/
def kept (key : K) (j : Nat) : Tree A K D → List A
  | leaf _ _ _ => []
  | branch a i l r =>
      if i < j then a :: (if bit key i then r.kept key j else l.kept key j) else []

/-- Rewrite the subtree at `stop`. -/
def splice (key : K) (j : Nat) (mk : Tree A K D → Tree A K D) : Tree A K D → Tree A K D
  | leaf a k v => mk (leaf a k v)
  | branch a i l r =>
      if i < j then
        (if bit key i then branch a i l (r.splice key j mk) else branch a i (l.splice key j mk) r)
      else mk (branch a i l r)

/-- The siblings passed by `key`'s walk with the bits decided on, root first. -/
def steps (f : Nat → D → D → D) (key : K) : Tree A K D → List (Nat × D)
  | leaf _ _ _ => []
  | branch _ i l r =>
      if bit key i then (i, l.value f) :: r.steps f key else (i, r.value f) :: l.steps f key

end Walk

section Canonical

variable (bit : K → Nat → Bool) (w : Nat)

/-- All keys of a list agree on every bit before `i`. -/
def AgreeBelow (i : Nat) (ks : List K) : Prop :=
  ∀ j < i, ∀ k ∈ ks, ∀ k' ∈ ks, bit k j = bit k' j

/-- Every branch decides on a bit at or after `lo`, on which its two sides differ and before which
all its keys agree. -/
inductive Canonical : Nat → Tree A K D → Prop
  | leaf {lo : Nat} {a : A} {k : K} {v : D} : Canonical lo (.leaf a k v)
  | branch {lo : Nat} {a : A} {i : Nat} {l r : Tree A K D} (hlo : lo ≤ i) (hw : i < w)
      (hleft : ∀ k ∈ l.keys, bit k i = false) (hright : ∀ k ∈ r.keys, bit k i = true)
      (hagree : AgreeBelow bit i (l.keys ++ r.keys))
      (hl : Canonical (i + 1) l) (hr : Canonical (i + 1) r) : Canonical lo (.branch a i l r)

variable {bit w}

theorem AgreeBelow.subset {i : Nat} {ks ks' : List K} (h : AgreeBelow bit i ks) (hsub : ks' ⊆ ks) :
    AgreeBelow bit i ks' :=
  fun j hj k hk k' hk' => h j hj k (hsub hk) k' (hsub hk')

/-- A key that agrees with one key of the list agrees with all of them. -/
theorem AgreeBelow.cons {i : Nat} {ks : List K} {key k₀ : K} (h : AgreeBelow bit i ks) (hmem : k₀ ∈ ks)
    (hkey : ∀ j < i, bit key j = bit k₀ j) : AgreeBelow bit i (key :: ks) := by
  have hall : ∀ j < i, ∀ k ∈ key :: ks, bit k j = bit k₀ j := by
    intro j hj k hk
    rcases List.mem_cons.mp hk with rfl | hk
    · exact hkey j hj
    · exact h j hj k hk k₀ hmem
  intro j hj k hk k' hk'
  rw [hall j hj k hk, hall j hj k' hk']

theorem Canonical.mono {lo lo' : Nat} {t : Tree A K D} (h : Canonical bit w lo t) (hle : lo' ≤ lo) :
    Canonical bit w lo' t := by
  cases h with
  | leaf => exact .leaf
  | branch hlo hw hleft hright hagree hl hr =>
      exact .branch (hle.trans hlo) hw hleft hright hagree hl hr

theorem Canonical.depth_le {lo : Nat} {t : Tree A K D} (h : Canonical bit w lo t) (hlo : lo ≤ w) :
    t.depth + lo ≤ w := by
  induction h with
  | leaf => simpa only [depth, Nat.zero_add] using hlo
  | branch hle hw _ _ _ _ _ ihl ihr =>
      have hl := ihl hw
      have hr := ihr hw
      simp only [depth]
      omega

theorem Canonical.keys_nodup {lo : Nat} {t : Tree A K D} (h : Canonical bit w lo t) :
    t.keys.Nodup := by
  induction h with
  | leaf => simp
  | branch _ _ hleft hright _ _ _ ihl ihr =>
      rw [keys_branch]
      refine ihl.append ihr ?_
      intro k hkl hkr
      have hfalse := hleft k hkl
      rw [hright k hkr] at hfalse
      cases hfalse

theorem find_mem (bit : K → Nat → Bool) (key : K) (t : Tree A K D) : t.find bit key ∈ t.entries := by
  induction t with
  | leaf => simp [find]
  | branch a i l r ihl ihr =>
      rw [find, entries_branch]
      split
      · exact List.mem_append_right _ ihr
      · exact List.mem_append_left _ ihl

/-- The walk of a key that the tree holds ends at its record. -/
theorem Canonical.find_of_mem {lo : Nat} {t : Tree A K D} (h : Canonical bit w lo t) {key : K} {v : D}
    (hmem : (key, v) ∈ t.entries) : t.find bit key = (key, v) := by
  induction h with
  | leaf =>
      rw [entries_leaf, List.mem_singleton] at hmem
      exact hmem.symm
  | branch _ _ hleft hright _ _ _ ihl ihr =>
      rw [entries_branch] at hmem
      rw [find]
      rcases List.mem_append.mp hmem with hl | hr
      · rw [hleft key (mem_keys_of_mem_entries hl)]
        exact ihl hl
      · rw [hright key (mem_keys_of_mem_entries hr)]
        exact ihr hr

theorem Canonical.mem_keys_iff {lo : Nat} {t : Tree A K D} (h : Canonical bit w lo t) (key : K) :
    key ∈ t.keys ↔ (t.find bit key).1 = key := by
  constructor
  · intro hmem
    obtain ⟨⟨k, v⟩, hentry, rfl⟩ := List.mem_map.mp hmem
    rw [h.find_of_mem hentry]
  · intro heq
    rw [← heq]
    exact mem_keys_of_mem_entries (find_mem bit key t)

/-! ### Splicing -/

section Splice

variable (bit) (key : K) (j : Nat) (mk : Tree A K D → Tree A K D)

/-- Splicing exchanges exactly the contribution of the subtree at `stop`. -/
theorem collect_splice {β : Type} (f : A → K → D → List β) (g : A → List β) (t : Tree A K D) :
    ((t.splice bit key j mk).collect f g ++ (t.stop bit key j).collect f g).Perm
      (t.collect f g ++ (mk (t.stop bit key j)).collect f g) := by
  induction t with
  | leaf => exact List.perm_append_comm
  | branch a i l r ihl ihr =>
      simp only [splice, stop]
      split_ifs with hlt hbit
      · simp only [collect, List.append_assoc]
        exact (ihr.append_left _).append_left _
      · simp only [collect, List.append_assoc]
        refine List.Perm.append_left _ ?_
        calc (l.splice bit key j mk).collect f g ++ (r.collect f g ++ (l.stop bit key j).collect f g)
            |>.Perm ((l.splice bit key j mk).collect f g ++ ((l.stop bit key j).collect f g ++ r.collect f g)) :=
              List.perm_append_comm.append_left _
          _ |>.Perm ((l.collect f g ++ (mk (l.stop bit key j)).collect f g) ++ r.collect f g) := by
              rw [← List.append_assoc]
              exact ihl.append_right _
          _ |>.Perm (l.collect f g ++ (r.collect f g ++ (mk (l.stop bit key j)).collect f g)) := by
              rw [List.append_assoc]
              exact List.perm_append_comm.append_left _
      · exact List.perm_append_comm

theorem find_stop (t : Tree A K D) : (t.stop bit key j).find bit key = t.find bit key := by
  induction t with
  | leaf => rfl
  | branch a i l r ihl ihr =>
      simp only [stop]
      split_ifs with hlt hbit
      · rw [ihr, find, if_pos hbit]
      · rw [ihl, find, if_neg hbit]
      · rfl

/-- The branches passed and the subtree reached are disjoint parts of the tree. -/
theorem kept_append_stop_sublist (t : Tree A K D) :
    (t.kept bit key j ++ (t.stop bit key j).labels).Sublist t.labels := by
  induction t with
  | leaf => exact List.Sublist.refl _
  | branch a i l r ihl ihr =>
      simp only [kept, stop, labels_branch]
      split_ifs with hlt hbit
      · exact (ihr.trans (List.sublist_append_right _ _)).cons_cons a
      · exact (ihl.trans (List.sublist_append_left _ _)).cons_cons a
      · exact List.Sublist.refl _

theorem stop_labels_subset (t : Tree A K D) : (t.stop bit key j).labels ⊆ t.labels :=
  ((List.sublist_append_right _ _).trans (kept_append_stop_sublist bit key j t)).subset

theorem path_eq_kept_append (t : Tree A K D) :
    t.path bit key = t.kept bit key j ++ (t.stop bit key j).path bit key := by
  induction t with
  | leaf => rfl
  | branch a i l r ihl ihr =>
      by_cases hlt : i < j
      · simp only [kept, stop, path, if_pos hlt]
        split_ifs
        · rw [ihr, List.cons_append]
        · rw [ihl, List.cons_append]
      · simp only [kept, stop, if_neg hlt, List.nil_append]

variable {bit key j mk}

theorem stop_of_kept_nil {t : Tree A K D} (mk : Tree A K D → Tree A K D) (h : t.kept bit key j = []) :
    t.stop bit key j = t ∧ t.splice bit key j mk = mk t := by
  cases t with
  | leaf => exact ⟨rfl, rfl⟩
  | branch a i l r =>
      by_cases hlt : i < j
      · simp [kept, hlt] at h
      · simp only [Tree.stop, splice, if_neg hlt, and_self]

theorem splice_label {t : Tree A K D} (mk : Tree A K D → Tree A K D) (h : t.kept bit key j ≠ []) :
    (t.splice bit key j mk).label = t.label := by
  cases t with
  | leaf => exact absurd rfl h
  | branch a i l r =>
      by_cases hlt : i < j
      · simp only [splice, if_pos hlt]
        split_ifs <;> rfl
      · simp [kept, hlt] at h

/-- Below a passed branch the subtree reached has another label than the tree. -/
theorem label_ne_stop_label {t : Tree A K D} (hnodup : t.labels.Nodup) (h : t.kept bit key j ≠ []) :
    t.label ≠ (t.stop bit key j).label := by
  cases t with
  | leaf => exact absurd rfl h
  | branch a i l r =>
      by_cases hlt : i < j
      · rw [labels_branch, List.nodup_cons, List.mem_append, not_or] at hnodup
        simp only [Tree.stop, if_pos hlt, label_branch]
        split_ifs
        · rintro rfl
          exact hnodup.1.2 (stop_labels_subset bit key j r (label_mem_labels _))
        · rintro rfl
          exact hnodup.1.1 (stop_labels_subset bit key j l (label_mem_labels _))
      · simp [kept, hlt] at h

/-- The subtree at `stop` is canonical from its own position on, and no branch of it decides on a
bit before `j`. -/
theorem Canonical.stop {lo : Nat} {t : Tree A K D} (h : Canonical bit w lo t) (key : K) (hlo : lo ≤ j) :
    Canonical bit w j (t.stop bit key j) := by
  induction h with
  | leaf => exact .leaf
  | branch hle hw hleft hright hagree hl hr ihl ihr =>
      simp only [Tree.stop]
      split_ifs with hlt hbit
      · exact ihr hlt
      · exact ihl hlt
      · exact .branch (Nat.le_of_not_lt hlt) hw hleft hright hagree hl hr

theorem splice_keys_subset {t : Tree A K D}
    (hmk : (mk (t.stop bit key j)).keys ⊆ key :: (t.stop bit key j).keys) :
    (t.splice bit key j mk).keys ⊆ key :: t.keys := by
  induction t with
  | leaf => exact hmk
  | branch a i l r ihl ihr =>
      simp only [splice, Tree.stop] at hmk ⊢
      split_ifs at hmk ⊢ with hlt hbit
      · intro k hk
        rw [keys_branch] at hk
        rcases List.mem_append.mp hk with hk | hk
        · exact List.mem_cons_of_mem _ (by rw [keys_branch]; exact List.mem_append_left _ hk)
        · rcases List.mem_cons.mp (ihr hmk hk) with rfl | hk
          · exact List.mem_cons_self
          · exact List.mem_cons_of_mem _ (by rw [keys_branch]; exact List.mem_append_right _ hk)
      · intro k hk
        rw [keys_branch] at hk
        rcases List.mem_append.mp hk with hk | hk
        · rcases List.mem_cons.mp (ihl hmk hk) with rfl | hk
          · exact List.mem_cons_self
          · exact List.mem_cons_of_mem _ (by rw [keys_branch]; exact List.mem_append_left _ hk)
        · exact List.mem_cons_of_mem _ (by rw [keys_branch]; exact List.mem_append_right _ hk)
      · exact hmk

/-- A splice of a canonical tree is canonical when the new subtree is, holds no key besides the
spliced one and those it replaces, and the spliced key agrees before `j` with the leaf it reaches. -/
theorem Canonical.splice {lo : Nat} {t : Tree A K D} (h : Canonical bit w lo t) (hlo : lo ≤ j)
    (hkey : ∀ i < j, bit key i = bit (t.find bit key).1 i)
    (hkeys : (mk (t.stop bit key j)).keys ⊆ key :: (t.stop bit key j).keys)
    (hmk : Canonical bit w j (mk (t.stop bit key j))) :
    Canonical bit w lo (t.splice bit key j mk) := by
  induction h with
  | leaf => exact hmk.mono hlo
  | @branch lo a i l r hle hw hleft hright hagree hl hr ihl ihr =>
      simp only [Tree.splice, Tree.stop] at hkeys hmk ⊢
      split_ifs at hkeys hmk ⊢ with hlt hbit
      · rw [find, if_pos hbit] at hkey
        have hsub := splice_keys_subset hkeys
        have hfind := mem_keys_of_mem_entries (find_mem bit key r)
        refine .branch hle hw hleft ?_ ?_ hl (ihr hlt hkey hkeys hmk)
        · intro k hk
          rcases List.mem_cons.mp (hsub hk) with rfl | hk
          · exact hbit
          · exact hright k hk
        · refine (hagree.cons (List.mem_append_right _ hfind)
            (fun m hm => hkey m (hm.trans hlt))).subset ?_
          intro k hk
          rcases List.mem_append.mp hk with hk | hk
          · exact List.mem_cons_of_mem _ (List.mem_append_left _ hk)
          · rcases List.mem_cons.mp (hsub hk) with rfl | hk
            · exact List.mem_cons_self
            · exact List.mem_cons_of_mem _ (List.mem_append_right _ hk)
      · rw [find, if_neg hbit] at hkey
        have hsub := splice_keys_subset hkeys
        have hfind := mem_keys_of_mem_entries (find_mem bit key l)
        refine .branch hle hw ?_ hright ?_ (ihl hlt hkey hkeys hmk) hr
        · intro k hk
          rcases List.mem_cons.mp (hsub hk) with rfl | hk
          · exact Bool.eq_false_iff.mpr hbit
          · exact hleft k hk
        · refine (hagree.cons (List.mem_append_left _ hfind)
            (fun m hm => hkey m (hm.trans hlt))).subset ?_
          intro k hk
          rcases List.mem_append.mp hk with hk | hk
          · rcases List.mem_cons.mp (hsub hk) with rfl | hk
            · exact List.mem_cons_self
            · exact List.mem_cons_of_mem _ (List.mem_append_left _ hk)
          · exact List.mem_cons_of_mem _ (List.mem_append_right _ hk)
      · exact hmk.mono hlo

end Splice

/-! ### The three edits -/

section Edits

variable (bit) (w)

/-- Write the value of the leaf that `key` reaches. -/
def write (key : K) (v : D) : Tree A K D → Tree A K D :=
  splice bit key w fun
    | leaf a k _ => leaf a k v
    | t => t

/-- Split the subtree at `stop`: a new branch on bit `j` over it and a new leaf. -/
def split (key : K) (v : D) (j : Nat) (leafLabel branchLabel : A) : Tree A K D → Tree A K D :=
  splice bit key j fun t =>
    if bit key j then branch branchLabel j t (leaf leafLabel key v)
    else branch branchLabel j (leaf leafLabel key v) t

/-- Lift the sibling of the branch on bit `j` that `key` passes. -/
def lift (key : K) (j : Nat) : Tree A K D → Tree A K D :=
  splice bit key j fun
    | branch _ _ l r => if bit key j then l else r
    | t => t

/-- The bit of the last branch that `key`'s walk passes. -/
def lastBit (key : K) : Tree A K D → Option Nat
  | leaf _ _ _ => none
  | branch _ i l r => some (((if bit key i then r.lastBit key else l.lastBit key)).getD i)

variable {bit w}

theorem Canonical.stop_width {lo : Nat} {t : Tree A K D} (h : Canonical bit w lo t) (key : K) :
    t.stop bit key w = Tree.leaf (t.leafLabel bit key) (t.find bit key).1 (t.find bit key).2 := by
  induction h with
  | leaf => rfl
  | branch _ hw _ _ _ _ _ ihl ihr =>
      simp only [Tree.stop, if_pos hw, leafLabel, find]
      split_ifs with hbit
      · exact ihr
      · exact ihl

theorem Canonical.write {lo : Nat} {t : Tree A K D} (h : Canonical bit w lo t) (hlo : lo ≤ w) {key : K}
    (hmem : key ∈ t.keys) (v : D) : Canonical bit w lo (t.write bit w key v) := by
  have hfind := (h.mem_keys_iff key).mp hmem
  refine h.splice hlo (fun i _ => by rw [hfind]) ?_ ?_ <;> rw [h.stop_width key]
  · exact List.subset_cons_self _ _
  · exact .leaf

theorem Canonical.write_entries {lo : Nat} {t : Tree A K D} (h : Canonical bit w lo t) {key : K} {v₀ : D}
    (hmem : (key, v₀) ∈ t.entries) (v : D) :
    ((t.write bit w key v).entries ++ [(key, v₀)]).Perm (t.entries ++ [(key, v)]) := by
  have hperm := collect_splice bit key w
    (fun | Tree.leaf a k _ => Tree.leaf a k v | t => t) (fun _ k v => [(k, v)]) (fun _ => []) t
  rw [h.stop_width key, h.find_of_mem hmem] at hperm
  exact hperm

theorem Canonical.write_labels {lo : Nat} {t : Tree A K D} (h : Canonical bit w lo t) (key : K) (v : D) :
    (t.write bit w key v).labels.Perm t.labels ∧ (t.write bit w key v).label = t.label := by
  have hstop := h.stop_width key
  constructor
  · have hperm := collect_splice bit key w
      (fun | Tree.leaf a k _ => Tree.leaf a k v | t => t) (fun a _ _ => [a]) (fun a => [a]) t
    rw [hstop] at hperm
    exact (List.perm_append_right_iff _).mp hperm
  · by_cases hkept : t.kept bit key w = []
    · obtain ⟨hself, hsplice⟩ := stop_of_kept_nil (fun | Tree.leaf a k _ => Tree.leaf a k v | t => t) hkept
      rw [Tree.write, hsplice, ← hself, hstop]
      rfl
    · exact splice_label _ hkept

/-- The subtree at which a new key splits the tree agrees with the key before `j` and differs from
it at `j`. -/
theorem Canonical.stop_differs {lo j : Nat} {t : Tree A K D} (h : Canonical bit w lo t) (hlo : lo ≤ j)
    {key : K} (hkey : ∀ i < j, bit key i = bit (t.find bit key).1 i)
    (hne : bit key j ≠ bit (t.find bit key).1 j) :
    (∀ k ∈ (t.stop bit key j).keys, bit k j = !bit key j) ∧
      AgreeBelow bit j (key :: (t.stop bit key j).keys) ∧
        Canonical bit w (j + 1) (t.stop bit key j) := by
  have hstop := h.stop key hlo
  rw [← find_stop bit key j t] at hkey hne
  have hmem := mem_keys_of_mem_entries (find_mem bit key (t.stop bit key j))
  have hflip : bit ((t.stop bit key j).find bit key).1 j = !bit key j := by
    revert hne
    cases bit key j <;> cases bit ((t.stop bit key j).find bit key).1 j <;> simp
  generalize t.stop bit key j = s at *
  cases hstop with
  | leaf =>
      refine ⟨fun k hk => ?_, ?_, .leaf⟩
      · rw [keys_leaf, List.mem_singleton] at hk
        rw [hk]
        exact hflip
      · refine AgreeBelow.cons (fun m _ k hk k' hk' => ?_) hmem hkey
        rw [keys_leaf, List.mem_singleton] at hk hk'
        rw [hk, hk']
  | @branch _ a i l r hle hw hleft hright hagree hl hr =>
      -- the walk leaves a branch on bit `j` on the side of the key's own bit
      have hji : j ≠ i := by
        rintro rfl
        apply hne
        rw [find]
        split_ifs with hbit
        · rw [hright _ (mem_keys_of_mem_entries (find_mem bit key r))]
          exact hbit
        · rw [hleft _ (mem_keys_of_mem_entries (find_mem bit key l))]
          exact Bool.eq_false_iff.mpr hbit
      have hlt : j < i := lt_of_le_of_ne hle hji
      rw [keys_branch] at hmem ⊢
      refine ⟨fun k hk => ?_, ?_, .branch hlt hw hleft hright hagree hl hr⟩
      · rw [hagree j hlt k hk _ hmem]
        exact hflip
      · exact AgreeBelow.cons (fun m hm => hagree m (hm.trans hlt)) hmem hkey

theorem Canonical.split {lo j : Nat} {t : Tree A K D} (h : Canonical bit w lo t) (hlo : lo ≤ j) (hj : j < w)
    {key : K} (hkey : ∀ i < j, bit key i = bit (t.find bit key).1 i)
    (hne : bit key j ≠ bit (t.find bit key).1 j) (v : D) (leafLabel branchLabel : A) :
    Canonical bit w lo (t.split bit key v j leafLabel branchLabel) := by
  obtain ⟨hflip, hagree, hcanonical⟩ := h.stop_differs hlo hkey hne
  refine h.splice hlo hkey ?_ ?_
  · split_ifs
    · intro k hk
      simpa [or_comm] using hk
    · intro k hk
      simpa using hk
  · split_ifs with hbit
    · refine .branch le_rfl hj ?_ ?_ (hagree.subset ?_) hcanonical .leaf
      · intro k hk
        rw [hflip k hk, hbit]
        rfl
      · simpa using hbit
      · intro k hk
        simpa [or_comm] using hk
    · refine .branch le_rfl hj ?_ ?_ (hagree.subset ?_) .leaf hcanonical
      · simpa using hbit
      · intro k hk
        rw [hflip k hk, Bool.eq_false_iff.mpr hbit]
        rfl
      · intro k hk
        simpa using hk

theorem split_entries (bit : K → Nat → Bool) (key : K) (v : D) (j : Nat) (leafLabel branchLabel : A)
    (t : Tree A K D) :
    (t.split bit key v j leafLabel branchLabel).entries.Perm ((key, v) :: t.entries) := by
  have hperm := collect_splice bit key j (fun t =>
    if bit key j then Tree.branch branchLabel j t (Tree.leaf leafLabel key v)
    else Tree.branch branchLabel j (Tree.leaf leafLabel key v) t) (fun _ k v => [(k, v)]) (fun _ => []) t
  have hnew : ((if bit key j then Tree.branch branchLabel j (t.stop bit key j) (Tree.leaf leafLabel key v)
      else Tree.branch branchLabel j (Tree.leaf leafLabel key v) (t.stop bit key j)).entries).Perm
        ([(key, v)] ++ (t.stop bit key j).entries) := by
    split_ifs
    · rw [entries_branch, entries_leaf]
      exact List.perm_append_comm
    · exact List.Perm.refl _
  have hall := hperm.trans (hnew.append_left t.entries)
  rw [← List.append_assoc] at hall
  exact ((List.perm_append_right_iff _).mp hall).trans List.perm_append_comm

theorem split_labels (bit : K → Nat → Bool) (key : K) (v : D) (j : Nat) (leafLabel branchLabel : A)
    (t : Tree A K D) :
    (t.split bit key v j leafLabel branchLabel).labels.Perm (branchLabel :: leafLabel :: t.labels) := by
  have hperm := collect_splice bit key j (fun t =>
    if bit key j then Tree.branch branchLabel j t (Tree.leaf leafLabel key v)
    else Tree.branch branchLabel j (Tree.leaf leafLabel key v) t) (fun a _ _ => [a]) (fun a => [a]) t
  have hnew : ((if bit key j then Tree.branch branchLabel j (t.stop bit key j) (Tree.leaf leafLabel key v)
      else Tree.branch branchLabel j (Tree.leaf leafLabel key v) (t.stop bit key j)).labels).Perm
        ([branchLabel, leafLabel] ++ (t.stop bit key j).labels) := by
    split_ifs
    · rw [labels_branch, labels_leaf]
      exact List.Perm.cons _ List.perm_append_comm
    · exact List.Perm.refl _
  have hall := hperm.trans (hnew.append_left t.labels)
  rw [← List.append_assoc] at hall
  exact ((List.perm_append_right_iff _).mp hall).trans List.perm_append_comm

theorem Canonical.lastBit_bounds {lo : Nat} {t : Tree A K D} (h : Canonical bit w lo t) {key : K} {j : Nat}
    (hj : t.lastBit bit key = some j) : lo ≤ j ∧ j < w := by
  induction h generalizing j with
  | leaf => cases hj
  | @branch lo a i l r hle hw _ _ _ _ _ ihl ihr =>
      rw [lastBit, Option.some_inj] at hj
      have hside : ∀ s : Option Nat, (∀ {j : Nat}, s = some j → i + 1 ≤ j ∧ j < w) → s.getD i = j →
          lo ≤ j ∧ j < w := by
        intro s hs hget
        cases s with
        | none => rw [Option.getD_none] at hget; omega
        | some m =>
            rw [Option.getD_some] at hget
            have := hs rfl
            omega
      split_ifs at hj
      · exact hside _ ihr hj
      · exact hside _ ihl hj

theorem lastBit_eq_none {t : Tree A K D} {key : K} (h : t.lastBit bit key = none) :
    t = Tree.leaf (t.leafLabel bit key) (t.find bit key).1 (t.find bit key).2 ∧ t.path bit key = [] := by
  cases t with
  | leaf => exact ⟨rfl, rfl⟩
  | branch => cases h

/-- Where the walk of `key` passes its last branch, that branch holds the leaf reached and its
sibling, and the branches before it are the rest of the path. -/
theorem Canonical.stop_lastBit {lo : Nat} {t : Tree A K D} (h : Canonical bit w lo t) {key : K} {j : Nat}
    (hj : t.lastBit bit key = some j) :
    ∃ a l r, t.stop bit key j = Tree.branch a j l r ∧ t.path bit key = t.kept bit key j ++ [a] ∧
      (if bit key j then r else l) =
        Tree.leaf (t.leafLabel bit key) (t.find bit key).1 (t.find bit key).2 := by
  induction h generalizing j with
  | leaf => cases hj
  | @branch lo a i l r hle hw _ _ _ hl hr ihl ihr =>
      rw [lastBit, Option.some_inj] at hj
      by_cases hbit : bit key i = true
      · rw [if_pos hbit] at hj
        cases hside : r.lastBit bit key with
        | none =>
            rw [hside, Option.getD_none] at hj
            subst hj
            obtain ⟨hleaf, hpath⟩ := lastBit_eq_none hside
            refine ⟨a, l, r, ?_, ?_, ?_⟩
            · simp only [Tree.stop, lt_irrefl, if_false]
            · simp only [path, kept, if_pos hbit, lt_irrefl, if_false, hpath, List.nil_append]
            · simpa only [leafLabel, find, if_pos hbit] using hleaf
        | some m =>
            rw [hside, Option.getD_some] at hj
            subst hj
            have hlt : i < m := (hr.lastBit_bounds hside).1
            obtain ⟨a', l', r', hstop, hpath, hleaf⟩ := ihr hside
            refine ⟨a', l', r', ?_, ?_, ?_⟩
            · simpa only [Tree.stop, if_pos hlt, if_pos hbit] using hstop
            · simp only [path, kept, if_pos hlt, if_pos hbit, hpath, List.cons_append]
            · simpa only [leafLabel, find, if_pos hbit] using hleaf
      · rw [if_neg hbit] at hj
        cases hside : l.lastBit bit key with
        | none =>
            rw [hside, Option.getD_none] at hj
            subst hj
            obtain ⟨hleaf, hpath⟩ := lastBit_eq_none hside
            refine ⟨a, l, r, ?_, ?_, ?_⟩
            · simp only [Tree.stop, lt_irrefl, if_false]
            · simp only [path, kept, if_neg hbit, lt_irrefl, if_false, hpath, List.nil_append]
            · simpa only [leafLabel, find, if_neg hbit] using hleaf
        | some m =>
            rw [hside, Option.getD_some] at hj
            subst hj
            have hlt : i < m := (hl.lastBit_bounds hside).1
            obtain ⟨a', l', r', hstop, hpath, hleaf⟩ := ihl hside
            refine ⟨a', l', r', ?_, ?_, ?_⟩
            · simpa only [Tree.stop, if_pos hlt, if_neg hbit] using hstop
            · simp only [path, kept, if_pos hlt, if_neg hbit, hpath, List.cons_append]
            · simpa only [leafLabel, find, if_neg hbit] using hleaf

theorem Canonical.lift {lo : Nat} {t : Tree A K D} (h : Canonical bit w lo t) {key : K} {j : Nat}
    (hj : t.lastBit bit key = some j) (hmem : key ∈ t.keys) : Canonical bit w lo (t.lift bit key j) := by
  have hfind := (h.mem_keys_iff key).mp hmem
  have hlo := (h.lastBit_bounds hj).1
  obtain ⟨a, l, r, hstop, -, -⟩ := h.stop_lastBit hj
  have hcanonical := h.stop key hlo
  refine h.splice hlo (fun i _ => by rw [hfind]) ?_ ?_ <;> rw [hstop] <;> dsimp only
  · split_ifs
    · intro k hk
      rw [keys_branch]
      exact List.mem_cons_of_mem _ (List.mem_append_left _ hk)
    · intro k hk
      rw [keys_branch]
      exact List.mem_cons_of_mem _ (List.mem_append_right _ hk)
  · rw [hstop] at hcanonical
    cases hcanonical with
    | branch _ _ _ _ _ hl hr =>
        split_ifs
        · exact hl.mono (Nat.le_succ j)
        · exact hr.mono (Nat.le_succ j)

/-- Lifting the sibling removes the record and the labels of its leaf and of the parent branch. -/
theorem Canonical.lift_collect {β : Type} (f : A → K → D → List β) (g : A → List β) {lo : Nat}
    {t : Tree A K D} (h : Canonical bit w lo t) {key : K} {j : Nat} (hj : t.lastBit bit key = some j) :
    ∃ a, t.path bit key = t.kept bit key j ++ [a] ∧
      ((t.lift bit key j).collect f g ++
        (g a ++ f (t.leafLabel bit key) (t.find bit key).1 (t.find bit key).2)).Perm (t.collect f g) := by
  obtain ⟨a, l, r, hstop, hpath, hleaf⟩ := h.stop_lastBit hj
  refine ⟨a, hpath, ?_⟩
  have hperm := collect_splice bit key j
    (fun | Tree.branch _ _ l r => if bit key j then l else r | t => t) f g t
  change ((t.lift bit key j).collect f g ++ _).Perm _ at hperm
  rw [hstop] at hperm
  dsimp only at hperm
  split_ifs at hleaf hperm with hbit
  · rw [hleaf] at hperm
    simp only [collect] at hperm
    have hmove : ((t.lift bit key j).collect f g ++
        (g a ++ (l.collect f g ++ f (t.leafLabel bit key) (t.find bit key).1 (t.find bit key).2))).Perm
          (((t.lift bit key j).collect f g ++
            (g a ++ f (t.leafLabel bit key) (t.find bit key).1 (t.find bit key).2)) ++ l.collect f g) := by
      rw [List.append_assoc, List.append_assoc]
      exact (List.perm_append_comm.append_left _).append_left _
    exact (List.perm_append_right_iff _).mp (hmove.symm.trans hperm)
  · rw [hleaf] at hperm
    simp only [collect] at hperm
    rw [← List.append_assoc, ← List.append_assoc] at hperm
    rw [← List.append_assoc]
    exact (List.perm_append_right_iff _).mp hperm

end Edits

end Canonical

end Tree

end LeanBbg.Patricia
