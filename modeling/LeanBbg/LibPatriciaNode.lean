import LeanBbg.LibPatricia

/-! Values of path-compressed trees: climbing a path of siblings back to the root value, and the
value of a finite record set as its specification gives it, without a tree. When branch values
determine their bit and children and leaf values are none of them, an accepted climb runs along the
key's own path and equal values mean equal record sets. -/

namespace LeanBbg.Patricia

namespace Tree

variable {A K D : Type}

/-! ### Climbing a path -/

section Climb

variable (bit : K → Nat → Bool) (f : Nat → D → D → D)

/-- Recompute a root value from the value below a path and the siblings along it, root first. -/
def climb (key : K) : List (Nat × D) → D → D
  | [], d => d
  | (i, s) :: rest, d => if bit key i then f i s (climb key rest d) else f i (climb key rest d) s

theorem climb_append (key : K) (front rest : List (Nat × D)) (d : D) :
    climb bit f key (front ++ rest) d = climb bit f key front (climb bit f key rest d) := by
  induction front with
  | nil => rfl
  | cons step front ih => simp only [List.cons_append, climb, ih]

theorem climb_steps (key : K) (t : Tree A K D) :
    climb bit f key (t.steps bit f key) (t.find bit key).2 = t.value f := by
  induction t with
  | leaf => rfl
  | branch a i l r ihl ihr =>
      simp only [steps, find, value]
      split_ifs with hbit
      · rw [climb, if_pos hbit, ihr]
      · rw [climb, if_neg hbit, ihl]

variable {bit f}

/-- The bits decided on along a path of a canonical tree increase. -/
theorem Canonical.steps_ascending {w lo : Nat} {t : Tree A K D} (h : Canonical bit w lo t) (key : K) :
    (t.steps bit f key).Pairwise (fun s s' => s.1 < s'.1) ∧
      ∀ s ∈ t.steps bit f key, lo ≤ s.1 ∧ s.1 < w := by
  induction h with
  | leaf => exact ⟨List.Pairwise.nil, by simp [steps]⟩
  | @branch lo a i l r hlo hw _ _ _ _ _ ihl ihr =>
      have hcons : ∀ (d : D) (rest : List (Nat × D)), rest.Pairwise (fun s s' => s.1 < s'.1) →
          (∀ s ∈ rest, i + 1 ≤ s.1 ∧ s.1 < w) →
          ((i, d) :: rest).Pairwise (fun s s' => s.1 < s'.1) ∧ ∀ s ∈ (i, d) :: rest, lo ≤ s.1 ∧ s.1 < w := by
        intro d rest hpair hbounds
        refine ⟨List.pairwise_cons.mpr ⟨fun s hs => (hbounds s hs).1, hpair⟩, ?_⟩
        intro s hs
        rcases List.mem_cons.mp hs with rfl | hs
        · exact ⟨hlo, hw⟩
        · have := hbounds s hs
          omega
      rw [steps]
      split_ifs
      · exact hcons _ _ ihr.1 ihr.2
      · exact hcons _ _ ihl.1 ihl.2

/-- The values of branches on bits before `w` determine the bit and both children. -/
def BranchInjective (f : Nat → D → D → D) (w : Nat) : Prop :=
  ∀ i i', i < w → i' < w → ∀ a b a' b', f i a b = f i' a' b' → i = i' ∧ a = a' ∧ b = b'

/-- The value is not that of a branch on a bit before `w`. -/
def NotBranch (f : Nat → D → D → D) (w : Nat) (v : D) : Prop := ∀ i < w, ∀ a b, v ≠ f i a b

/-- A climb that reaches the value of a canonical tree runs along the key's own path: its siblings
are the first ones of the path, and it starts at the value of the node reached there. -/
theorem Canonical.climb_sound {w lo : Nat} {t : Tree A K D} (h : Canonical bit w lo t)
    (hf : BranchInjective f w) (hleaf : ∀ e ∈ t.entries, NotBranch f w e.2) {key : K}
    {path : List (Nat × D)} {d : D} (hbits : ∀ s ∈ path, s.1 < w)
    (hclimb : climb bit f key path d = t.value f) :
    path = (t.steps bit f key).take path.length ∧
      d = climb bit f key ((t.steps bit f key).drop path.length) (t.find bit key).2 := by
  induction path generalizing t lo with
  | nil =>
      refine ⟨rfl, ?_⟩
      rw [climb] at hclimb
      rw [hclimb, List.length_nil, List.drop_zero, climb_steps]
  | cons step path ih =>
      obtain ⟨i, s⟩ := step
      have hi : i < w := hbits (i, s) List.mem_cons_self
      have hrest : ∀ s ∈ path, s.1 < w := fun s hs => hbits s (List.mem_cons_of_mem _ hs)
      cases h with
      | @leaf _ a k v =>
          have hnot := hleaf (k, v) (by simp) i hi
          rw [climb] at hclimb
          split_ifs at hclimb
          · exact absurd hclimb.symm (hnot _ _)
          · exact absurd hclimb.symm (hnot _ _)
      | @branch _ a i' l r _ hw _ _ _ hl hr =>
          rw [climb, value] at hclimb
          have hleafl : ∀ e ∈ l.entries, NotBranch f w e.2 :=
            fun e he => hleaf e (by rw [entries_branch]; exact List.mem_append_left _ he)
          have hleafr : ∀ e ∈ r.entries, NotBranch f w e.2 :=
            fun e he => hleaf e (by rw [entries_branch]; exact List.mem_append_right _ he)
          split_ifs at hclimb with hbit
          · obtain ⟨rfl, rfl, hnext⟩ := hf i i' hi hw _ _ _ _ hclimb
            obtain ⟨htake, hdrop⟩ := ih hr hleafr hrest hnext
            simp only [steps, find, if_pos hbit, List.length_cons, List.take_succ_cons,
              List.drop_succ_cons]
            exact ⟨by rw [← htake], hdrop⟩
          · obtain ⟨rfl, hnext, rfl⟩ := hf i i' hi hw _ _ _ _ hclimb
            obtain ⟨htake, hdrop⟩ := ih hl hleafl hrest hnext
            simp only [steps, find, if_neg hbit, List.length_cons, List.take_succ_cons,
              List.drop_succ_cons]
            exact ⟨by rw [← htake], hdrop⟩

/-- A leaf value met on a key's path is the value of the leaf that the path ends at. -/
theorem Canonical.climb_leaf {w lo : Nat} {t : Tree A K D} (h : Canonical bit w lo t) {key : K} {n : Nat}
    {d : D} (hd : NotBranch f w d)
    (hclimb : d = climb bit f key ((t.steps bit f key).drop n) (t.find bit key).2) :
    d = (t.find bit key).2 := by
  induction h generalizing n with
  | leaf => simpa only [steps, List.drop_nil, climb] using hclimb
  | @branch lo a i l r _ hw _ _ _ hl hr ihl ihr =>
      simp only [steps, find] at hclimb ⊢
      cases n with
      | zero =>
          split_ifs at hclimb with hbit
          · rw [List.drop_zero, climb, if_pos hbit] at hclimb
            exact absurd hclimb (hd i hw _ _)
          · rw [List.drop_zero, climb, if_neg hbit] at hclimb
            exact absurd hclimb (hd i hw _ _)
      | succ n =>
          split_ifs at hclimb ⊢ with hbit
          · exact ihr hclimb
          · exact ihl hclimb

/-- Two canonical trees with one value hold the same records. -/
theorem Canonical.entries_eq {B : Type} {w lo lo' : Nat} {t : Tree A K D} {t' : Tree B K D}
    (h : Canonical bit w lo t) (h' : Canonical bit w lo' t') (hf : BranchInjective f w)
    (hleaf : ∀ e ∈ t.entries, NotBranch f w e.2) (hleaf' : ∀ e ∈ t'.entries, NotBranch f w e.2)
    (hkey : ∀ e ∈ t.entries, ∀ e' ∈ t'.entries, e.2 = e'.2 → e.1 = e'.1)
    (hvalue : t.value f = t'.value f) : t.entries = t'.entries := by
  induction h generalizing t' lo' with
  | @leaf _ a k v =>
      cases h' with
      | @leaf _ a' k' v' =>
          have hk : k = k' := hkey (k, v) (by simp) (k', v') (by simp) hvalue
          have hv : v = v' := hvalue
          rw [entries_leaf, entries_leaf, hk, hv]
      | branch _ hw _ _ _ _ _ => exact absurd hvalue (hleaf (k, v) (by simp) _ hw _ _)
  | @branch _ a i l r _ hw _ _ _ _ _ ihl ihr =>
      cases h' with
      | @leaf _ a' k' v' => exact absurd hvalue.symm (hleaf' (k', v') (by simp) _ hw _ _)
      | @branch _ a' i' l' r' _ hw' _ _ _ hl' hr' =>
          obtain ⟨-, hleft, hright⟩ := hf i i' hw hw' _ _ _ _ hvalue
          simp only [entries_branch, List.mem_append] at hleaf hleaf' hkey
          rw [entries_branch, entries_branch,
            ihl hl' (fun e he => hleaf e (.inl he)) (fun e he => hleaf' e (.inl he))
              (fun e he e' he' => hkey e (.inl he) e' (.inl he')) hleft,
            ihr hr' (fun e he => hleaf e (.inr he)) (fun e he => hleaf' e (.inr he))
              (fun e he e' he' => hkey e (.inr he) e' (.inr he')) hright]

end Climb

end Tree

/-! ### The value of a finite record set -/

section Node

variable {A K D : Type} (bit : K → Nat → Bool) (w : Nat) (f : Nat → D → D → D) (empty : D)

/-- The first bit on which the keys of a record set differ. -/
def firstDiffer (S : List (K × D)) : Option Nat :=
  (List.range w).find? fun i => S.any (fun e => bit e.1 i) && S.any (fun e => !bit e.1 i)

/-- The records whose key has bit `i` equal to `b`. -/
def side (i : Nat) (b : Bool) (S : List (K × D)) : List (K × D) := S.filter fun e => bit e.1 i == b

/-- `node` with a bound on the number of records. -/
def nodeAux : Nat → List (K × D) → D
  | _, [] => empty
  | _, [e] => e.2
  | 0, _ :: _ :: _ => empty
  | n + 1, S@(_ :: _ :: _) =>
      match firstDiffer bit w S with
      | none => empty
      | some i => f i (nodeAux n (side bit i false S)) (nodeAux n (side bit i true S))

/-- The value of a record set: that of the empty set, of its one record, or of the branch on the
first bit on which its keys differ. -/
def node (S : List (K × D)) : D := nodeAux bit w f empty S.length S

theorem firstDiffer_eq_some {S : List (K × D)} {i : Nat} :
    firstDiffer bit w S = some i ↔ i < w ∧ (∃ e ∈ S, bit e.1 i = true) ∧ (∃ e ∈ S, bit e.1 i = false) ∧
      Tree.AgreeBelow bit i (S.map Prod.fst) := by
  rw [firstDiffer, List.find?_range_eq_some]
  simp only [Bool.and_eq_true, List.any_eq_true, Bool.not_eq_eq_eq_not, Bool.not_true, List.mem_range,
    Bool.and_eq_false_iff, List.any_eq_false, Bool.not_eq_true, Bool.not_eq_false]
  constructor
  · rintro ⟨⟨hone, hzero⟩, hi, hbefore⟩
    refine ⟨hi, hone, hzero, ?_⟩
    intro j hj k hk k' hk'
    obtain ⟨e, he, rfl⟩ := List.mem_map.mp hk
    obtain ⟨e', he', rfl⟩ := List.mem_map.mp hk'
    rcases hbefore j hj with hall | hall
    · rw [hall e he, hall e' he']
    · rw [hall e he, hall e' he']
  · rintro ⟨hi, hone, hzero, hagree⟩
    refine ⟨⟨hone, hzero⟩, hi, ?_⟩
    intro j hj
    obtain ⟨e, he, -⟩ := hone
    have hsame : ∀ x ∈ S, bit x.1 j = bit e.1 j := fun x hx =>
      hagree j hj x.1 (List.mem_map_of_mem hx) e.1 (List.mem_map_of_mem he)
    cases hbit : bit e.1 j with
    | false => exact .inl fun x hx => (hsame x hx).trans hbit
    | true => exact .inr fun x hx => (hsame x hx).trans hbit

theorem side_length_lt {S : List (K × D)} {i : Nat} {b : Bool} (h : ∃ e ∈ S, bit e.1 i = !b) :
    (side bit i b S).length < S.length := by
  obtain ⟨e, he, hbit⟩ := h
  refine List.length_filter_lt_length_iff_exists.mpr ⟨e, he, ?_⟩
  rw [hbit]
  cases b <;> simp

theorem nodeAux_eq {n m : Nat} {S : List (K × D)} (hn : S.length ≤ n) (hm : S.length ≤ m) :
    nodeAux bit w f empty n S = nodeAux bit w f empty m S := by
  induction n generalizing m S with
  | zero =>
      have : S = [] := List.eq_nil_of_length_eq_zero (Nat.le_zero.mp hn)
      subst this
      simp only [nodeAux]
  | succ n ih =>
      match S, m, hn, hm with
      | [], _, _, _ => simp only [nodeAux]
      | [e], _, _, _ => simp only [nodeAux]
      | a :: b :: rest, m + 1, hn, hm =>
          simp only [nodeAux]
          cases hfirst : firstDiffer bit w (a :: b :: rest) with
          | none => rfl
          | some i =>
              obtain ⟨-, hone, hzero, -⟩ := (firstDiffer_eq_some bit w).mp hfirst
              have hl := side_length_lt bit (b := false) hone
              have hr := side_length_lt bit (b := true) hzero
              dsimp only
              rw [ih (m := m) (by omega) (by omega), ih (m := m) (by omega) (by omega)]

@[simp] theorem node_nil : node bit w f empty [] = empty := rfl

@[simp] theorem node_singleton (e : K × D) : node bit w f empty [e] = e.2 := rfl

/-- The recursive clause of the specification. -/
theorem node_of_firstDiffer {S : List (K × D)} {i : Nat} (h : firstDiffer bit w S = some i) :
    node bit w f empty S =
      f i (node bit w f empty (side bit i false S)) (node bit w f empty (side bit i true S)) := by
  obtain ⟨-, hone, hzero, -⟩ := (firstDiffer_eq_some bit w).mp h
  have hl := side_length_lt bit (b := false) hone
  have hr := side_length_lt bit (b := true) hzero
  match S, h, hone, hzero, hl, hr with
  | [], _, ⟨e, he, _⟩, _, _, _ => cases he
  | [e], _, ⟨x, hx, hxt⟩, ⟨y, hy, hyf⟩, _, _ =>
      rw [List.mem_singleton.mp hx] at hxt
      rw [List.mem_singleton.mp hy, hxt] at hyf
      cases hyf
  | a :: b :: rest, h, _, _, hl, hr =>
      rw [node, List.length_cons, nodeAux, h]
      dsimp only
      rw [node, node, nodeAux_eq bit w f empty (n := (b :: rest).length) (m := (side bit i false _).length)
          (Nat.lt_succ_iff.mp hl) le_rfl,
        nodeAux_eq bit w f empty (n := (b :: rest).length) (m := (side bit i true _).length)
          (Nat.lt_succ_iff.mp hr) le_rfl]

open Patricia.Tree in
/-- The value of a canonical tree is that of its record set. -/
theorem node_eq_value {lo : Nat} {t : Tree A K D} (h : Canonical bit w lo t) {S : List (K × D)}
    (hperm : S.Perm t.entries) : node bit w f empty S = t.value f := by
  induction h generalizing S with
  | leaf =>
      rw [entries_leaf] at hperm
      rw [hperm.eq_singleton, node_singleton]
      rfl
  | @branch lo a i l r _ hw hleft hright hagree _ _ ihl ihr =>
      rw [entries_branch] at hperm
      have hl : ∀ e ∈ l.entries, bit e.1 i = false := fun e he => hleft e.1 (mem_keys_of_mem_entries he)
      have hr : ∀ e ∈ r.entries, bit e.1 i = true := fun e he => hright e.1 (mem_keys_of_mem_entries he)
      have hfirst : firstDiffer bit w S = some i := by
        refine (firstDiffer_eq_some bit w).mpr ⟨hw, ?_, ?_, ?_⟩
        · obtain ⟨e, he⟩ := List.exists_mem_of_ne_nil _ r.entries_ne_nil
          exact ⟨e, hperm.mem_iff.mpr (List.mem_append_right _ he), hr e he⟩
        · obtain ⟨e, he⟩ := List.exists_mem_of_ne_nil _ l.entries_ne_nil
          exact ⟨e, hperm.mem_iff.mpr (List.mem_append_left _ he), hl e he⟩
        · refine hagree.subset ?_
          rw [keys, keys, ← List.map_append]
          exact (hperm.map Prod.fst).subset
      have hfalse : (side bit i false S).Perm l.entries := by
        refine (hperm.filter _).trans ?_
        rw [List.filter_append, List.filter_eq_self.mpr (fun e he => by rw [hl e he]; rfl),
          List.filter_eq_nil_iff.mpr (fun e he => by rw [hr e he]; simp), List.append_nil]
      have htrue : (side bit i true S).Perm r.entries := by
        refine (hperm.filter _).trans ?_
        rw [List.filter_append, List.filter_eq_nil_iff.mpr (fun e he => by rw [hl e he]; simp),
          List.filter_eq_self.mpr (fun e he => by rw [hr e he]; rfl), List.nil_append]
      rw [node_of_firstDiffer bit w f empty hfirst, ihl hfalse, ihr htrue, Tree.value]

/-- Distinct keys differ on one of their `w` bits. -/
def Separates : Prop := ∀ k k' : K, (∀ i < w, bit k i = bit k' i) → k = k'

open Patricia.Tree in
/-- Every nonempty record set with distinct keys has a canonical tree. -/
theorem exists_canonical (a : A) (hsep : Separates bit w) {S : List (K × D)} (hnodup : (S.map Prod.fst).Nodup)
    (hne : S ≠ []) : ∃ t : Tree A K D, Canonical bit w 0 t ∧ t.entries.Perm S := by
  induction S with
  | nil => exact absurd rfl hne
  | cons e S ih =>
      obtain ⟨key, v⟩ := e
      rw [List.map_cons, List.nodup_cons] at hnodup
      rcases eq_or_ne S [] with rfl | hS
      · exact ⟨.leaf a key v, .leaf, List.Perm.refl _⟩
      obtain ⟨t, hcanonical, hperm⟩ := ih hnodup.2 hS
      have hfound : (t.find bit key).1 ∈ S.map Prod.fst :=
        (hperm.map Prod.fst).subset (mem_keys_of_mem_entries (find_mem bit key t))
      have hdiffer : ∃ i, i < w ∧ bit key i ≠ bit (t.find bit key).1 i := by
        by_contra hall
        push Not at hall
        rw [← hsep key _ hall] at hfound
        exact hnodup.1 hfound
      classical
      refine ⟨t.split bit key v (Nat.find hdiffer) a a,
        hcanonical.split (Nat.zero_le _) (Nat.find_spec hdiffer).1 ?_ (Nat.find_spec hdiffer).2 v a a,
        (split_entries bit key v _ a a t).trans (hperm.cons _)⟩
      intro i hi
      by_contra hne
      exact Nat.find_min hdiffer hi ⟨hi.trans (Nat.find_spec hdiffer).1, hne⟩

/-- The value of a record set does not depend on the order of its records. -/
theorem node_perm (hsep : Separates bit w) {S S' : List (K × D)} (hnodup : (S.map Prod.fst).Nodup)
    (hperm : S.Perm S') : node bit w f empty S = node bit w f empty S' := by
  rcases eq_or_ne S [] with rfl | hne
  · rw [hperm.nil_eq]
  · obtain ⟨t, hcanonical, hentries⟩ := exists_canonical bit w () hsep hnodup hne
    rw [node_eq_value bit w f empty hcanonical hentries.symm,
      node_eq_value bit w f empty hcanonical (hperm.symm.trans hentries.symm)]

open Patricia.Tree in
/-- Record sets with one value are equal, when leaf values are not branch values, bind their keys
and are not the value of the empty set. -/
theorem node_injective (hsep : Separates bit w) (hf : BranchInjective f w)
    (hempty : NotBranch f w empty) {S S' : List (K × D)} (hnodup : (S.map Prod.fst).Nodup)
    (hnodup' : (S'.map Prod.fst).Nodup) (hleaf : ∀ e ∈ S, NotBranch f w e.2 ∧ e.2 ≠ empty)
    (hleaf' : ∀ e ∈ S', NotBranch f w e.2 ∧ e.2 ≠ empty)
    (hkey : ∀ e ∈ S, ∀ e' ∈ S', e.2 = e'.2 → e.1 = e'.1)
    (h : node bit w f empty S = node bit w f empty S') : S.Perm S' := by
  have hvalue : ∀ {T : List (K × D)}, T ≠ [] → (T.map Prod.fst).Nodup →
      (∀ e ∈ T, NotBranch f w e.2 ∧ e.2 ≠ empty) → node bit w f empty T ≠ empty := by
    intro T hne hnodup hleaf heq
    obtain ⟨t, hcanonical, hperm⟩ := exists_canonical bit w () hsep hnodup hne
    rw [node_eq_value bit w f empty hcanonical hperm.symm] at heq
    cases hcanonical with
    | @leaf _ a k v => exact (hleaf (k, v) (hperm.subset (by simp))).2 heq
    | branch _ hw _ _ _ _ _ => exact hempty _ hw _ _ heq.symm
  rcases eq_or_ne S [] with rfl | hS
  · rcases eq_or_ne S' [] with rfl | hS'
    · exact List.Perm.refl _
    · exact absurd h.symm (hvalue hS' hnodup' hleaf')
  rcases eq_or_ne S' [] with rfl | hS'
  · exact absurd h (hvalue hS hnodup hleaf)
  obtain ⟨t, ht, hperm⟩ := exists_canonical bit w () hsep hnodup hS
  obtain ⟨t', ht', hperm'⟩ := exists_canonical bit w () hsep hnodup' hS'
  rw [node_eq_value bit w f empty ht hperm.symm, node_eq_value bit w f empty ht' hperm'.symm] at h
  have hentries := ht.entries_eq ht' hf (fun e he => (hleaf e (hperm.subset he)).1)
    (fun e he => (hleaf' e (hperm'.subset he)).1)
    (fun e he e' he' => hkey e (hperm.subset he) e' (hperm'.subset he')) h
  exact hperm.symm.trans (hentries ▸ hperm')

end Node

end LeanBbg.Patricia
