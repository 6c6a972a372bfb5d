import LeanBbg.Keyspace

/-! What the tree of a partition holds of the published batches. Nothing else is in it; what is not in a memtable is
covered on the disk; and the disk covers all rows up to its newest one. A commit, a rotation, a flush, the deletion of
a journal and a recovery keep this. -/

namespace LeanBbg.Fjall

/-! ### Rows of batches -/

/-- The rows of a partition in a batch. -/
def Batch.versions (name : String) (batch : Batch) : List Version :=
  (batch.items.filter fun item => item.partition = name).map fun item =>
    ⟨item.key, item.value, item.valueType, batch.seqno⟩

def versionsOf (name : String) (batches : List Batch) : List Version := batches.flatMap (Batch.versions name)

variable {name : String} {batches batches' : List Batch} {batch : Batch} {v w : Version} {l l' : List Version}

theorem versionsOf_append :
    versionsOf name (batches ++ batches') = versionsOf name batches ++ versionsOf name batches' :=
  List.flatMap_append

theorem versionsOf_singleton : versionsOf name [batch] = batch.versions name := List.flatMap_singleton _ _

theorem mem_versionsOf : v ∈ versionsOf name batches ↔ ∃ batch ∈ batches, v ∈ batch.versions name := List.mem_flatMap

theorem versionsOf_subset (h : ∀ batch ∈ batches, batch ∈ batches') (hv : v ∈ versionsOf name batches) :
    v ∈ versionsOf name batches' := by
  obtain ⟨batch, hbatch, hv⟩ := mem_versionsOf.mp hv
  exact mem_versionsOf.mpr ⟨batch, h batch hbatch, hv⟩

theorem mem_versions : v ∈ batch.versions name ↔
    ∃ item ∈ batch.items, item.partition = name ∧ v = ⟨item.key, item.value, item.valueType, batch.seqno⟩ := by
  rw [Batch.versions, List.mem_map]
  constructor
  · rintro ⟨item, hitem, rfl⟩
    obtain ⟨hmem, hname⟩ := List.mem_filter.mp hitem
    exact ⟨item, hmem, of_decide_eq_true hname, rfl⟩
  · rintro ⟨item, hitem, hname, rfl⟩
    exact ⟨item, List.mem_filter.mpr ⟨hitem, decide_eq_true hname⟩, rfl⟩

theorem versions_cons {seqno : Nat} {item : Item} {items : List Item} : Batch.versions name ⟨seqno, item :: items⟩ =
    if item.partition = name then
      ⟨item.key, item.value, item.valueType, seqno⟩ :: Batch.versions name ⟨seqno, items⟩
    else Batch.versions name ⟨seqno, items⟩ := by
  rw [Batch.versions, List.filter_cons]
  by_cases hname : item.partition = name
  · rw [if_pos (decide_eq_true hname), if_pos hname]
    rfl
  · rw [if_neg (by simpa using hname), if_neg hname]
    rfl

theorem seqno_of_mem (h : v ∈ batch.versions name) : v.seqno = batch.seqno := by
  obtain ⟨item, -, -, rfl⟩ := mem_versions.mp h
  rfl

/-! ### The newest row -/

theorem highestSeqno_eq_some {p : Nat} :
    highestSeqno l = some p ↔ (∃ v ∈ l, v.seqno = p) ∧ ∀ v ∈ l, v.seqno ≤ p := by
  rw [highestSeqno, List.max?_eq_some_iff, List.mem_map, List.forall_mem_map]

theorem exists_highestSeqno (h : v ∈ l) : ∃ p, highestSeqno l = some p ∧ v.seqno ≤ p := by
  cases hp : highestSeqno l with
  | none =>
      rw [highestSeqno, List.max?_eq_none_iff, List.map_eq_nil_iff] at hp
      rw [hp] at h
      cases h
  | some p => exact ⟨p, rfl, (highestSeqno_eq_some.mp hp).2 v h⟩

theorem Covered.of_mem (h : v ∈ l) : Covered l v := ⟨v, h, rfl, Nat.le_refl _⟩

theorem Covered.trans (h : Covered l v) (hl : ∀ w ∈ l, Covered l' w) : Covered l' v := by
  obtain ⟨w, hw, hkey, hle⟩ := h
  obtain ⟨w', hw', hkey', hle'⟩ := hl w hw
  exact ⟨w', hw', hkey'.trans hkey, hle.trans hle'⟩

/-! ### The tree of a partition -/

/-- The published batches by place: no longer in the active journal, in it, and in the sealed journals. -/
structure Places where
  base : List Batch
  active : List Batch
  journals : List (List Batch)

variable {T : Type} [AbstractTree T] {t t' : T} {places : Places}

structure TreeInv (t : T) (name : String) (places : Places) : Prop where
  sealed_sub : ∀ v ∈ segments t ++ (sealedMemtables t).flatten, v ∈ versionsOf name places.base
  active_sub : ∀ v ∈ activeMemtable t, v ∈ versionsOf name (places.base ++ places.active)
  kept : ∀ v ∈ versionsOf name (places.base ++ places.active), v ∈ memtables t ∨ Covered (segments t) v
  flushed : ∀ v ∈ versionsOf name (places.base ++ places.active), ∀ p, getHighestPersistedSeqno t = some p →
    v.seqno ≤ p → Covered (segments t) v
  ordered : (sealedMemtables t ++ [activeMemtable t]).Pairwise fun a b => ∀ u ∈ a, ∀ v ∈ b, u.seqno < v.seqno
  journaled : ∀ v ∈ versionsOf name places.base, Covered (segments t) v ∨ v ∈ versionsOf name places.journals.flatten

theorem TreeInv.versions_sub (h : TreeInv t name places) (hv : v ∈ versions t) :
    v ∈ versionsOf name (places.base ++ places.active) := by
  rw [versions, memtables, ← List.append_assoc] at hv
  rcases List.mem_append.mp hv with hv | hv
  · rw [versionsOf_append]
    exact List.mem_append_left _ (h.sealed_sub v hv)
  · exact h.active_sub v hv

theorem TreeInv.covered (h : TreeInv t name places) (hv : v ∈ versionsOf name (places.base ++ places.active)) :
    Covered (versions t) v := by
  rcases h.kept v hv with hv | ⟨w, hw, hkey, hle⟩
  · exact .of_mem (List.mem_append_right _ hv)
  · exact ⟨w, List.mem_append_left _ hw, hkey, hle⟩

/-! ### Steps -/

theorem treeInv_create [LawfulTree T] (name : String) : TreeInv (AbstractTree.create : T) name ⟨[], [], []⟩ := by
  have hactive := LawfulTree.activeMemtable_create (T := T)
  have hsealed := LawfulTree.sealedMemtables_create (T := T)
  have hsegments := LawfulTree.segments_create (T := T)
  constructor
  · simp [hsegments, hsealed]
  · simp [hactive]
  · simp [versionsOf]
  · simp [versionsOf]
  · simp [hactive, hsealed]
  · simp [versionsOf]

/-- The rows of a new batch are newer than all others and come into the active memtable. -/
theorem TreeInv.commit (h : TreeInv t name places)
    (hactive : activeMemtable t' = activeMemtable t ++ batch.versions name)
    (hsealed : sealedMemtables t' = sealedMemtables t) (hsegments : segments t' = segments t)
    (hnew : ∀ v ∈ versionsOf name (places.base ++ places.active), v.seqno < batch.seqno) :
    TreeInv t' name { places with active := places.active ++ [batch] } := by
  have hsplit : versionsOf name (places.base ++ (places.active ++ [batch])) =
      versionsOf name (places.base ++ places.active) ++ batch.versions name := by
    rw [← List.append_assoc, versionsOf_append, versionsOf_singleton]
  constructor
  · rw [hsegments, hsealed]
    exact h.sealed_sub
  · intro v hv
    rw [hactive] at hv
    rw [hsplit]
    rcases List.mem_append.mp hv with hv | hv
    · exact List.mem_append_left _ (h.active_sub v hv)
    · exact List.mem_append_right _ hv
  · intro v hv
    rw [hsplit] at hv
    rw [memtables, hsealed, hactive, hsegments, ← List.append_assoc]
    rcases List.mem_append.mp hv with hv | hv
    · exact (h.kept v hv).imp_left fun hmem => List.mem_append_left _ hmem
    · exact .inl (List.mem_append_right _ hv)
  · intro v hv p hp hle
    rw [hsplit] at hv
    rw [getHighestPersistedSeqno, hsegments] at hp
    rw [hsegments]
    rcases List.mem_append.mp hv with hv | hv
    · exact h.flushed v hv p hp hle
    · obtain ⟨w, hw, rfl⟩ := (highestSeqno_eq_some.mp hp).1
      have hlt := hnew w (h.versions_sub (List.mem_append_left _ hw))
      rw [seqno_of_mem hv] at hle
      omega
  · rw [hsealed, hactive]
    obtain ⟨hleft, -, hcross⟩ := List.pairwise_append.mp h.ordered
    refine List.pairwise_append.mpr ⟨hleft, List.pairwise_singleton _ _, fun a ha b hb u hu v hv => ?_⟩
    rw [List.mem_singleton.mp hb] at hv
    rcases List.mem_append.mp hv with hv | hv
    · exact hcross a ha _ (List.mem_singleton_self _) u hu v hv
    · rw [seqno_of_mem hv]
      have hmem : u ∈ segments t ++ (sealedMemtables t).flatten :=
        List.mem_append_right _ (List.mem_flatten.mpr ⟨a, ha, hu⟩)
      refine hnew u ?_
      rw [versionsOf_append]
      exact List.mem_append_left _ (h.sealed_sub u hmem)
  · rw [hsegments]
    exact h.journaled

/-- The journal is sealed: its batches are in no active journal any more. -/
theorem TreeInv.seal (h : TreeInv t name places) (hactive : activeMemtable t' = activeMemtable t ∧
      sealedMemtables t' = sealedMemtables t ∨
        activeMemtable t' = [] ∧ sealedMemtables t' = sealedMemtables t ++ [activeMemtable t])
    (hsegments : segments t' = segments t) {whole : List Batch} (hwhole : ∀ batch ∈ places.active, batch ∈ whole) :
    TreeInv t' name ⟨places.base ++ places.active, [], places.journals ++ [whole]⟩ := by
  have hmemtables : memtables t' = memtables t := by
    rcases hactive with ⟨hactive, hsealed⟩ | ⟨hactive, hsealed⟩
    · rw [memtables, memtables, hactive, hsealed]
    · rw [memtables, memtables, hactive, hsealed, List.flatten_concat, List.append_nil]
  have hbase : ∀ {v}, v ∈ versionsOf name places.base → v ∈ versionsOf name (places.base ++ places.active) := by
    intro v hv
    rw [versionsOf_append]
    exact List.mem_append_left _ hv
  constructor
  · intro v hv
    rw [hsegments] at hv
    refine h.versions_sub ?_
    rw [versions, ← hmemtables, memtables, ← List.append_assoc]
    exact List.mem_append_left _ hv
  · intro v hv
    rw [List.append_nil]
    refine h.versions_sub (List.mem_append_right _ ?_)
    rw [← hmemtables]
    exact List.mem_append_right _ hv
  · rw [List.append_nil, hmemtables, hsegments]
    exact h.kept
  · rw [List.append_nil, getHighestPersistedSeqno, hsegments]
    exact h.flushed
  · rcases hactive with ⟨hactive, hsealed⟩ | ⟨hactive, hsealed⟩
    · rw [hactive, hsealed]
      exact h.ordered
    · rw [hactive, hsealed]
      refine List.pairwise_append.mpr ⟨h.ordered, List.pairwise_singleton _ _, fun a _ b hb u _ v hv => ?_⟩
      rw [List.mem_singleton.mp hb] at hv
      cases hv
  · intro v hv
    rw [hsegments, List.flatten_concat, versionsOf_append]
    rw [versionsOf_append] at hv
    rcases List.mem_append.mp hv with hv | hv
    · exact (h.journaled v hv).imp_right fun hmem => List.mem_append_left _ hmem
    · exact .inr (List.mem_append_right _ (versionsOf_subset hwhole hv))

/-- A flush takes the oldest memtables, whose rows are older than those of the others. -/
theorem TreeInv.flush [LawfulTree T] (h : TreeInv t name places) (n : Nat)
    (hweak : ∀ v ∈ versions t, v.valueType ≠ .weakTombstone) :
    TreeInv (AbstractTree.registerSegments t n) name places := by
  have hcovered := LawfulTree.covered_register t n hweak
  have hmem := LawfulTree.mem_of_register t n
  have hsealed := LawfulTree.sealedMemtables_register t n
  have hactive := LawfulTree.activeMemtable_register t n
  have hold : ∀ {v}, Covered (segments t) v → Covered (segments (AbstractTree.registerSegments t n)) v :=
    fun hv => hv.trans fun w hw => hcovered w (List.mem_append_left _ hw)
  have hparts : ∀ v ∈ memtables t, v ∈ ((sealedMemtables t).take n).flatten ∨
      v ∈ memtables (AbstractTree.registerSegments t n) := by
    intro v hv
    rw [memtables, ← List.take_append_drop n (sealedMemtables t), List.flatten_append, List.append_assoc] at hv
    rw [memtables, hsealed, hactive]
    exact List.mem_append.mp hv
  constructor
  · intro v hv
    rcases List.mem_append.mp hv with hv | hv
    · refine h.sealed_sub v ((List.mem_append.mp (hmem v hv)).elim (List.mem_append_left _) fun hv => ?_)
      refine List.mem_append_right _ ?_
      rw [← List.take_append_drop n (sealedMemtables t), List.flatten_append]
      exact List.mem_append_left _ hv
    · rw [hsealed] at hv
      refine h.sealed_sub v (List.mem_append_right _ ?_)
      rw [← List.take_append_drop n (sealedMemtables t), List.flatten_append]
      exact List.mem_append_right _ hv
  · rw [hactive]
    exact h.active_sub
  · intro v hv
    rcases h.kept v hv with hv | hv
    · rcases hparts v hv with hv | hv
      · exact .inr (hcovered v (List.mem_append_right _ hv))
      · exact .inl hv
    · exact .inr (hold hv)
  · intro v hv p hp hle
    rcases h.kept v hv with hkept | hkept
    · rcases hparts v hkept with hv' | hv'
      · exact hcovered v (List.mem_append_right _ hv')
      · -- the newest row on the disk was there before, or is older than the memtables that are left
        obtain ⟨w, hw, rfl⟩ := (highestSeqno_eq_some.mp hp).1
        rcases List.mem_append.mp (hmem w hw) with hw | hw
        · obtain ⟨q, hq, hwq⟩ := exists_highestSeqno hw
          exact hold (h.flushed v hv q hq (hle.trans hwq))
        · have hordered := h.ordered
          rw [← List.take_append_drop n (sealedMemtables t), List.append_assoc] at hordered
          obtain ⟨a, ha, hwa⟩ := List.mem_flatten.mp hw
          rw [memtables, hsealed, hactive, ← List.flatten_concat] at hv'
          obtain ⟨b, hb, hvb⟩ := List.mem_flatten.mp hv'
          have := (List.pairwise_append.mp hordered).2.2 a ha b hb w hwa v hvb
          omega
    · exact hold hkept
  · rw [hsealed, hactive]
    have hordered := h.ordered
    rw [← List.take_append_drop n (sealedMemtables t), List.append_assoc] at hordered
    exact (List.pairwise_append.mp hordered).2.1
  · intro v hv
    exact (h.journaled v hv).imp_left hold

/-- The rows of a deleted journal are on the disk. -/
theorem TreeInv.delete (h : TreeInv t name places) {journal : List Batch} {rest : List (List Batch)}
    (hjournals : places.journals = journal :: rest)
    (hcovered : ∀ v ∈ versionsOf name places.base, v ∈ versionsOf name journal → Covered (segments t) v) :
    TreeInv t name { places with journals := rest } := by
  refine { h with journaled := fun v hv => ?_ }
  rcases h.journaled v hv with hmem | hmem
  · exact .inl hmem
  · rw [hjournals, List.flatten_cons, versionsOf_append] at hmem
    rcases List.mem_append.mp hmem with hmem | hmem
    · exact .inl (hcovered v hv hmem)
    · exact .inr hmem

/-! ### Replaying a journal -/

section Replay

variable [LawfulTree T] {names : List String} {tree : String → T}

variable (tree) in
theorem applyItems_eq (hname : name ∈ names) (seqno : Nat) (items : List Item) :
    activeMemtable (applyItems names seqno tree items name) =
        activeMemtable (tree name) ++ Batch.versions name ⟨seqno, items⟩ ∧
      sealedMemtables (applyItems names seqno tree items name) = sealedMemtables (tree name) ∧
      segments (applyItems names seqno tree items name) = segments (tree name) := by
  induction items generalizing tree with
  | nil => exact ⟨(List.append_nil _).symm, rfl, rfl⟩
  | cons item items ih =>
      rw [applyItems, List.foldl_cons]
      by_cases hitem : item.partition = name
      · subst hitem
        rw [if_pos hname]
        have h := ih (Function.update tree item.partition
          (AbstractTree.insert (tree item.partition) ⟨item.key, item.value, item.valueType, seqno⟩))
        rw [Function.update_self, LawfulTree.activeMemtable_insert, LawfulTree.sealedMemtables_insert,
          LawfulTree.segments_insert, List.append_assoc] at h
        rw [versions_cons, if_pos rfl]
        exact h
      · rw [versions_cons, if_neg hitem]
        split_ifs
        · have h := ih (Function.update tree item.partition
            (AbstractTree.insert (tree item.partition) ⟨item.key, item.value, item.valueType, seqno⟩))
          rw [Function.update_of_ne (Ne.symm hitem)] at h
          exact h
        · exact ih tree

variable (tree) in
theorem replay_eq (hname : name ∈ names) (batches : List Batch) :
    activeMemtable (replay names tree batches name) = activeMemtable (tree name) ++ versionsOf name batches ∧
      sealedMemtables (replay names tree batches name) = sealedMemtables (tree name) ∧
      segments (replay names tree batches name) = segments (tree name) := by
  induction batches generalizing tree with
  | nil => exact ⟨(List.append_nil _).symm, rfl, rfl⟩
  | cons batch batches ih =>
      obtain ⟨hactive, hsealed, hsegments⟩ := applyItems_eq tree hname batch.seqno batch.items
      obtain ⟨hactive', hsealed', hsegments'⟩ := @ih (applyItems names batch.seqno tree batch.items)
      rw [replay, List.foldl_cons]
      refine ⟨hactive'.trans ?_, hsealed'.trans hsealed, hsegments'.trans hsegments⟩
      rw [hactive, List.append_assoc]
      rfl

/-- What becomes of the memtable that was recovered from a sealed journal. -/
structure Settled (t : T) (lsn : Nat) (t' : T) : Prop where
  segments_eq : segments t' = segments t
  active_eq : activeMemtable t' = []
  sealed_eq : ((∃ p, getHighestPersistedSeqno t = some p ∧ lsn ≤ p) ∧ sealedMemtables t' = sealedMemtables t) ∨
    sealedMemtables t' = sealedMemtables t ++ [activeMemtable t]

theorem settle_eq {seqno bound lsn : Nat} (hlsn : highestSeqno (activeMemtable (tree name)) = some lsn)
    (hbound : ∀ v ∈ versions (tree name), v.seqno < bound) (hseqno : seqno ≤ bound) :
    ∃ t' seqno', settle (tree, seqno) (name, lsn) = .ok (Function.update tree name t', seqno') ∧ seqno' ≤ bound ∧
      Settled (tree name) lsn t' := by
  rw [settle]
  by_cases hpersisted : (getHighestPersistedSeqno (tree name)).any (lsn ≤ ·) = true
  · rw [if_pos hpersisted]
    refine ⟨_, seqno, rfl, hseqno, LawfulTree.segments_clear _, LawfulTree.activeMemtable_clear _, .inl ⟨?_, ?_⟩⟩
    · cases hp : getHighestPersistedSeqno (tree name) with
      | none =>
          rw [hp] at hpersisted
          cases hpersisted
      | some p =>
          rw [hp] at hpersisted
          exact ⟨p, rfl, of_decide_eq_true hpersisted⟩
    · exact LawfulTree.sealedMemtables_clear _
  · rw [if_neg hpersisted]
    cases hrotate : AbstractTree.rotateMemtable (tree name) with
    | none =>
        rw [LawfulTree.rotate_none _ hrotate] at hlsn
        cases hlsn
    | some t =>
        obtain ⟨hactive, hsealed, hsegments⟩ := LawfulTree.rotate_some _ _ hrotate
        have hversions : versions t = versions (tree name) := by
          rw [versions, versions, memtables, memtables, hactive, hsealed, hsegments, List.flatten_concat,
            List.append_nil]
        refine ⟨t, max seqno ((getHighestSeqno t).elim 0 (· + 1)), if_neg (fun hne => hne hlsn), max_le hseqno ?_,
          hsegments, hactive, .inr hsealed⟩
        cases hhighest : getHighestSeqno t with
        | none => exact Nat.zero_le _
        | some p =>
            obtain ⟨⟨v, hv, rfl⟩, -⟩ := highestSeqno_eq_some.mp hhighest
            rw [hversions] at hv
            exact hbound v hv

variable (tree) in
/-- The memtables have the newest rows that the journal names, so every partition is settled. -/
theorem settle_fold {watermarks : List (String × Nat)} (hnodup : (watermarks.map Prod.fst).Nodup) {seqno bound : Nat}
    (hlsn : ∀ mark ∈ watermarks, highestSeqno (activeMemtable (tree mark.1)) = some mark.2)
    (hbound : ∀ mark ∈ watermarks, ∀ v ∈ versions (tree mark.1), v.seqno < bound) (hseqno : seqno ≤ bound) :
    ∃ tree' seqno', watermarks.foldlM settle (tree, seqno) = .ok (tree', seqno') ∧ seqno' ≤ bound ∧
      (∀ name, name ∉ watermarks.map Prod.fst → tree' name = tree name) ∧
      ∀ mark ∈ watermarks, Settled (tree mark.1) mark.2 (tree' mark.1) := by
  induction watermarks generalizing tree seqno with
  | nil => exact ⟨tree, seqno, rfl, hseqno, fun _ _ => rfl, fun _ hmark => absurd hmark List.not_mem_nil⟩
  | cons mark watermarks ih =>
      obtain ⟨name, lsn⟩ := mark
      obtain ⟨hlsn₁, hlsn⟩ := List.forall_mem_cons.mp hlsn
      obtain ⟨hbound₁, hbound⟩ := List.forall_mem_cons.mp hbound
      rw [List.map_cons] at hnodup
      obtain ⟨hname, hnodup⟩ := List.nodup_cons.mp hnodup
      obtain ⟨t', seqno₁, hsettle, hseqno₁, hsettled⟩ := settle_eq hlsn₁ hbound₁ hseqno
      -- the other partitions are as they were
      have hother : ∀ mark ∈ watermarks, Function.update tree name t' mark.1 = tree mark.1 := by
        intro mark hmark
        refine Function.update_of_ne (fun heq => hname ?_) _ _
        exact List.mem_map.mpr ⟨mark, hmark, heq⟩
      obtain ⟨tree', seqno', hfold, hseqno', hrest, hall⟩ := @ih (Function.update tree name t') hnodup seqno₁
        (fun mark hmark => by rw [hother mark hmark]; exact hlsn mark hmark)
        (fun mark hmark => by rw [hother mark hmark]; exact hbound mark hmark) hseqno₁
      refine ⟨tree', seqno', ?_, hseqno', fun other hmem => ?_, fun mark hmark => ?_⟩
      · rw [List.foldlM_cons, hsettle]
        exact hfold
      · rw [List.map_cons, List.mem_cons, not_or] at hmem
        rw [hrest other hmem.2, Function.update_of_ne hmem.1]
      · rcases List.mem_cons.mp hmark with rfl | hmark
        · rw [hrest name hname, Function.update_self]
          exact hsettled
        · have := hall mark hmark
          rwa [hother mark hmark] at this

end Replay

/-! ### Recovering the sealed journals -/

theorem highestSeqno_versionsOf : highestSeqno (versionsOf name batches) =
    ((batches.filter fun batch => batch.items.any fun item => item.partition = name).map Batch.seqno).max? := by
  have hmem : ∀ s, (∃ v ∈ versionsOf name batches, v.seqno = s) ↔
      s ∈ (batches.filter fun batch => batch.items.any fun item => item.partition = name).map Batch.seqno := by
    intro s
    rw [List.mem_map]
    constructor
    · rintro ⟨v, hv, rfl⟩
      obtain ⟨batch, hbatch, hv⟩ := mem_versionsOf.mp hv
      obtain ⟨item, hitem, hname, -⟩ := mem_versions.mp hv
      refine ⟨batch, List.mem_filter.mpr ⟨hbatch, List.any_eq_true.mpr ⟨item, hitem, decide_eq_true hname⟩⟩, ?_⟩
      exact (seqno_of_mem hv).symm
    · rintro ⟨batch, hbatch, rfl⟩
      obtain ⟨hbatch, hany⟩ := List.mem_filter.mp hbatch
      obtain ⟨item, hitem, hname⟩ := List.any_eq_true.mp hany
      exact ⟨_, mem_versionsOf.mpr ⟨batch, hbatch, mem_versions.mpr ⟨item, hitem, of_decide_eq_true hname, rfl⟩⟩, rfl⟩
  refine Option.ext fun p => ?_
  rw [highestSeqno_eq_some, List.max?_eq_some_iff, hmem]
  refine and_congr_right fun _ => ⟨fun h s hs => ?_, fun h v hv => h _ ((hmem _).mp ⟨v, hv, rfl⟩)⟩
  obtain ⟨v, hv, rfl⟩ := (hmem s).mpr hs
  exact h v hv

theorem mem_watermarksOf {names : List String} {lsn : Nat} :
    (name, lsn) ∈ watermarksOf names batches ↔ name ∈ names ∧ highestSeqno (versionsOf name batches) = some lsn := by
  rw [watermarksOf, List.mem_filterMap, highestSeqno_versionsOf]
  constructor
  · rintro ⟨other, hother, hmark⟩
    obtain ⟨lsn', hlsn, hpair⟩ := Option.map_eq_some_iff.mp hmark
    obtain ⟨rfl, rfl⟩ := Prod.mk.inj hpair
    exact ⟨hother, hlsn⟩
  · rintro ⟨hname, hlsn⟩
    exact ⟨name, hname, by rw [hlsn]; rfl⟩

theorem nodup_watermarksOf {names : List String} (h : names.Nodup) (batches : List Batch) :
    ((watermarksOf names batches).map Prod.fst).Nodup := by
  refine List.Nodup.sublist ?_ h
  rw [watermarksOf]
  induction names with
  | nil => exact List.Sublist.refl _
  | cons name names ih =>
      rw [List.filterMap_cons]
      have hrest := ih (List.nodup_cons.mp h).2
      cases ((batches.filter fun batch => batch.items.any fun item => item.partition = name).map Batch.seqno).max? with
      | none => exact hrest.cons _
      | some lsn => exact hrest.cons_cons _

/-- A tree that has taken the memtables of the journals, but for rows that it had on the disk. -/
structure Rebuilt (t₀ : T) (name : String) (journals : List (List Batch)) (t : T) : Prop where
  segments_eq : segments t = segments t₀
  active_eq : activeMemtable t = []
  sealed_sub : ∀ v ∈ (sealedMemtables t).flatten, v ∈ versionsOf name journals.flatten
  kept : ∀ v ∈ versionsOf name journals.flatten, v ∈ (sealedMemtables t).flatten ∨
    ∃ p, getHighestPersistedSeqno t₀ = some p ∧ v.seqno ≤ p
  ordered : (sealedMemtables t).Pairwise fun a b => ∀ u ∈ a, ∀ v ∈ b, u.seqno < v.seqno

theorem Rebuilt.journal {t₀ : T} {journals : List (List Batch)} (h : Rebuilt t₀ name journals t)
    (hsegments : segments t' = segments t) (hactive : activeMemtable t' = [])
    (hsealed : (sealedMemtables t' = sealedMemtables t ∧ ∀ v ∈ versionsOf name batches,
        ∃ p, getHighestPersistedSeqno t = some p ∧ v.seqno ≤ p) ∨
      sealedMemtables t' = sealedMemtables t ++ [versionsOf name batches])
    (hascending : ∀ a ∈ journals.flatten, ∀ b ∈ batches, a.seqno < b.seqno) :
    Rebuilt t₀ name (journals ++ [batches]) t' := by
  have hsplit : versionsOf name (journals ++ [batches]).flatten =
      versionsOf name journals.flatten ++ versionsOf name batches := by
    rw [List.flatten_concat, versionsOf_append]
  have hpersisted : getHighestPersistedSeqno t = getHighestPersistedSeqno t₀ := by
    rw [getHighestPersistedSeqno, getHighestPersistedSeqno, h.segments_eq]
  refine ⟨hsegments.trans h.segments_eq, hactive, ?_, ?_, ?_⟩
  · intro v hv
    rw [hsplit]
    rcases hsealed with ⟨hsealed, -⟩ | hsealed
    · rw [hsealed] at hv
      exact List.mem_append_left _ (h.sealed_sub v hv)
    · rw [hsealed, List.flatten_concat] at hv
      exact List.mem_append.mpr ((List.mem_append.mp hv).imp_left (h.sealed_sub v))
  · intro v hv
    rw [hsplit] at hv
    rcases hsealed with ⟨hsealed, hold⟩ | hsealed
    · rw [hsealed]
      rcases List.mem_append.mp hv with hv | hv
      · exact h.kept v hv
      · rw [hpersisted] at hold
        exact .inr (hold v hv)
    · rw [hsealed, List.flatten_concat]
      rcases List.mem_append.mp hv with hv | hv
      · exact (h.kept v hv).imp_left fun hmem => List.mem_append_left _ hmem
      · exact .inl (List.mem_append_right _ hv)
  · rcases hsealed with ⟨hsealed, -⟩ | hsealed
    · rw [hsealed]
      exact h.ordered
    · rw [hsealed]
      refine List.pairwise_append.mpr ⟨h.ordered, List.pairwise_singleton _ _, fun a ha b hb u hu v hv => ?_⟩
      rw [List.mem_singleton.mp hb] at hv
      obtain ⟨batch, hbatch, hu⟩ := mem_versionsOf.mp (h.sealed_sub u (List.mem_flatten.mpr ⟨a, ha, hu⟩))
      obtain ⟨batch', hbatch', hv⟩ := mem_versionsOf.mp hv
      rw [seqno_of_mem hu, seqno_of_mem hv]
      exact hascending batch hbatch batch' hbatch'

section Recover

variable [LawfulTree T] [Coding] [LawfulCoding] {xxh3 : List UInt8 → UInt64} {names : List String}
  {tree tree₀ : String → T} {seqno bound : Nat}

theorem recoverSealedJournal_eq (hnames : names.Nodup) (hvalid : ∀ batch ∈ batches, batch.Valid) {tail : List UInt8}
    (htail : TornTail xxh3 tail) {journals : List (List Batch)}
    (htree : ∀ name ∈ names, Rebuilt (tree₀ name) name journals (tree name))
    (hascending : ∀ a ∈ journals.flatten, ∀ b ∈ batches, a.seqno < b.seqno)
    (hbound : ∀ name ∈ names, ∀ v ∈ segments (tree₀ name), v.seqno < bound)
    (hbelow : ∀ batch ∈ journals.flatten ++ batches, batch.seqno < bound) (hseqno : seqno ≤ bound) :
    ∃ tree' seqno', recoverSealedJournal xxh3 names (tree, seqno) (batches.flatMap (Batch.bytes xxh3) ++ tail) =
        .ok ((tree', seqno'), ⟨batches.flatMap (Batch.bytes xxh3), watermarksOf names batches⟩) ∧ seqno' ≤ bound ∧
      ∀ name ∈ names, Rebuilt (tree₀ name) name (journals ++ [batches]) (tree' name) := by
  have hreplay : ∀ name ∈ names, activeMemtable (replay names tree batches name) = versionsOf name batches ∧
      sealedMemtables (replay names tree batches name) = sealedMemtables (tree name) ∧
      segments (replay names tree batches name) = segments (tree name) := by
    intro name hname
    obtain ⟨hactive, hsealed, hsegments⟩ := replay_eq tree hname batches
    rw [(htree name hname).active_eq, List.nil_append] at hactive
    exact ⟨hactive, hsealed, hsegments⟩
  have hversions : ∀ name ∈ names, ∀ v ∈ versions (replay names tree batches name), v.seqno < bound := by
    intro name hname v hv
    obtain ⟨hactive, hsealed, hsegments⟩ := hreplay name hname
    rw [versions, memtables, hactive, hsealed, hsegments, (htree name hname).segments_eq] at hv
    rcases List.mem_append.mp hv with hv | hv
    · exact hbound name hname v hv
    · have hmem : v ∈ versionsOf name (journals.flatten ++ batches) := by
        rw [versionsOf_append]
        exact List.mem_append.mpr ((List.mem_append.mp hv).imp_left ((htree name hname).sealed_sub v))
      obtain ⟨batch, hbatch, hv⟩ := mem_versionsOf.mp hmem
      rw [seqno_of_mem hv]
      exact hbelow batch hbatch
  obtain ⟨tree', seqno', hfold, hseqno', hrest, hall⟩ := settle_fold (replay names tree batches)
    (nodup_watermarksOf hnames batches)
    (fun mark hmark => by
      obtain ⟨hname, hlsn⟩ := mem_watermarksOf.mp hmark
      rw [(hreplay mark.1 hname).1, hlsn])
    (fun mark hmark => hversions mark.1 (mem_watermarksOf.mp hmark).1) hseqno
  refine ⟨tree', seqno', ?_, hseqno', fun name hname => ?_⟩
  · rw [recoverSealedJournal, recoverJournal_torn hvalid htail]
    dsimp only
    rw [hfold]
    rfl
  · obtain ⟨hactive, hsealed, hsegments⟩ := hreplay name hname
    by_cases hmark : name ∈ (watermarksOf names batches).map Prod.fst
    · obtain ⟨⟨name', lsn⟩, hmem, rfl⟩ := List.mem_map.mp hmark
      have hsettled := hall _ hmem
      have hlsn := (mem_watermarksOf.mp hmem).2
      refine (htree name' hname).journal (hsettled.segments_eq.trans hsegments) hsettled.active_eq ?_ hascending
      rcases hsettled.sealed_eq with ⟨⟨p, hp, hle⟩, heq⟩ | heq
      · refine .inl ⟨heq.trans hsealed, fun v hv => ⟨p, ?_, ((highestSeqno_eq_some.mp hlsn).2 v hv).trans hle⟩⟩
        rw [getHighestPersistedSeqno, ← hsegments]
        exact hp
      · rw [hactive, hsealed] at heq
        exact .inr heq
    · -- the journal has no row of the partition
      have hnil : versionsOf name batches = [] := by
        refine List.eq_nil_iff_forall_not_mem.mpr fun v hv => hmark ?_
        obtain ⟨lsn, hlsn, -⟩ := exists_highestSeqno hv
        exact List.mem_map.mpr ⟨(name, lsn), mem_watermarksOf.mpr ⟨hname, hlsn⟩, rfl⟩
      rw [hrest name hmark]
      refine (htree name hname).journal hsegments (hactive.trans hnil) (.inl ⟨hsealed, fun v hv => ?_⟩) hascending
      rw [hnil] at hv
      cases hv

/-- The sealed journals are read from the oldest to the newest. -/
theorem recoverSealedMemtables_eq (hnames : names.Nodup) {journals rest : List (List Batch)} {files : List (List UInt8)}
    (hfiles : List.Forall₂ (fun file batches => ∃ tail, TornTail xxh3 tail ∧
      file = batches.flatMap (Batch.bytes xxh3) ++ tail) files rest)
    (hvalid : ∀ batch ∈ rest.flatten, batch.Valid)
    (htree : ∀ name ∈ names, Rebuilt (tree₀ name) name journals (tree name))
    (hascending : (journals ++ rest).flatten.Pairwise fun a b => a.seqno < b.seqno)
    (hbound : ∀ name ∈ names, ∀ v ∈ segments (tree₀ name), v.seqno < bound)
    (hbelow : ∀ batch ∈ (journals ++ rest).flatten, batch.seqno < bound) (hseqno : seqno ≤ bound) :
    ∃ tree' seqno', recoverSealedMemtables xxh3 names (tree, seqno) files =
        .ok ((tree', seqno'), rest.map fun batches =>
          ⟨batches.flatMap (Batch.bytes xxh3), watermarksOf names batches⟩) ∧ seqno' ≤ bound ∧
      ∀ name ∈ names, Rebuilt (tree₀ name) name (journals ++ rest) (tree' name) := by
  induction hfiles generalizing tree seqno journals with
  | nil =>
      rw [List.append_nil]
      exact ⟨tree, seqno, rfl, hseqno, htree⟩
  | @cons file batches files rest hfile hfiles ih =>
      obtain ⟨tail, htail, rfl⟩ := hfile
      rw [List.append_cons] at hascending hbelow
      have hflatten : (journals ++ [batches]).flatten = journals.flatten ++ batches := List.flatten_concat
      have hparts := List.pairwise_append.mp (List.flatten_append ▸ hascending)
      rw [hflatten] at hparts
      obtain ⟨tree₁, seqno₁, hread, hseqno₁, htree₁⟩ := recoverSealedJournal_eq hnames
        (fun batch hbatch => hvalid batch (List.mem_append_left _ hbatch)) htail htree
        (List.pairwise_append.mp hparts.1).2.2 hbound
        (fun batch hbatch => hbelow batch (by
          rw [List.flatten_append, hflatten]
          exact List.mem_append_left _ hbatch)) hseqno
      obtain ⟨tree', seqno', hrest, hseqno', htree'⟩ := @ih tree₁ seqno₁ (journals ++ [batches])
        (fun batch hbatch => hvalid batch (List.mem_append_right _ hbatch)) htree₁ hascending hbelow hseqno₁
      refine ⟨tree', seqno', ?_, hseqno', ?_⟩
      · rw [recoverSealedMemtables, hread]
        dsimp only
        rw [hrest]
        rfl
      · rw [List.append_cons]
        exact htree'

end Recover

/-- The tree after a recovery. What it had on the disk is older than the batch that was in doubt. -/
theorem TreeInv.recover {t₀ : T} (h : TreeInv t₀ name places) (hrebuilt : Rebuilt t₀ name places.journals t)
    {base active : List Batch} (hactive : activeMemtable t' = versionsOf name active)
    (hsealed : sealedMemtables t' = sealedMemtables t) (hsegments : segments t' = segments t)
    (hbase : ∀ batch ∈ places.base, batch ∈ base) (hjournals : ∀ batch ∈ places.journals.flatten, batch ∈ base)
    (hold : ∀ batch ∈ base ++ active, batch ∈ places.base ++ places.active ∨
      ∀ v ∈ versionsOf name (places.base ++ places.active), v.seqno < batch.seqno)
    (hfrom : ∀ batch ∈ base, batch ∈ places.base ∨ batch ∈ places.journals.flatten)
    (hascending : (places.journals.flatten ++ active).Pairwise fun a b => a.seqno < b.seqno) :
    TreeInv t' name ⟨base, active, places.journals⟩ := by
  have hsegments₀ : segments t' = segments t₀ := hsegments.trans hrebuilt.segments_eq
  -- a row up to the newest one on the disk is of a batch that was published
  have hflushed : ∀ v ∈ versionsOf name (base ++ active), ∀ p, getHighestPersistedSeqno t₀ = some p → v.seqno ≤ p →
      Covered (segments t₀) v := by
    intro v hv p hp hle
    obtain ⟨batch, hbatch, hv⟩ := mem_versionsOf.mp hv
    rcases hold batch hbatch with hmem | hnew
    · exact h.flushed v (mem_versionsOf.mpr ⟨batch, hmem, hv⟩) p hp hle
    · obtain ⟨w, hw, rfl⟩ := (highestSeqno_eq_some.mp hp).1
      have := hnew w (h.versions_sub (List.mem_append_left _ hw))
      rw [seqno_of_mem hv] at hle
      omega
  have hjournaled : ∀ v ∈ versionsOf name base,
      Covered (segments t₀) v ∨ v ∈ versionsOf name places.journals.flatten := by
    intro v hv
    obtain ⟨batch, hbatch, hv⟩ := mem_versionsOf.mp hv
    rcases hfrom batch hbatch with hmem | hmem
    · exact h.journaled v (mem_versionsOf.mpr ⟨batch, hmem, hv⟩)
    · exact .inr (mem_versionsOf.mpr ⟨batch, hmem, hv⟩)
  constructor
  · intro v hv
    rw [hsegments₀, hsealed] at hv
    rcases List.mem_append.mp hv with hv | hv
    · exact versionsOf_subset hbase (h.sealed_sub v (List.mem_append_left _ hv))
    · exact versionsOf_subset hjournals (hrebuilt.sealed_sub v hv)
  · intro v hv
    rw [hactive] at hv
    rw [versionsOf_append]
    exact List.mem_append_right _ hv
  · intro v hv
    have hboth := hv
    rw [versionsOf_append] at hv
    rw [memtables, hsealed, hactive, hsegments₀]
    rcases List.mem_append.mp hv with hv | hv
    · rcases hjournaled v hv with hcovered | hmem
      · exact .inr hcovered
      · rcases hrebuilt.kept v hmem with hmem | ⟨p, hp, hle⟩
        · exact .inl (List.mem_append_left _ hmem)
        · exact .inr (hflushed v hboth p hp hle)
    · exact .inl (List.mem_append_right _ hv)
  · intro v hv p hp hle
    rw [getHighestPersistedSeqno, hsegments₀] at hp
    rw [hsegments₀]
    exact hflushed v hv p hp hle
  · rw [hsealed, hactive]
    refine List.pairwise_append.mpr ⟨hrebuilt.ordered, List.pairwise_singleton _ _, fun a ha b hb u hu v hv => ?_⟩
    rw [List.mem_singleton.mp hb] at hv
    obtain ⟨batch, hbatch, hu⟩ := mem_versionsOf.mp (hrebuilt.sealed_sub u (List.mem_flatten.mpr ⟨a, ha, hu⟩))
    obtain ⟨batch', hbatch', hv⟩ := mem_versionsOf.mp hv
    rw [seqno_of_mem hu, seqno_of_mem hv]
    exact (List.pairwise_append.mp hascending).2.2 batch hbatch batch' hbatch'
  · rw [hsegments₀]
    exact hjournaled

end LeanBbg.Fjall
