import LeanBbg.KeyspaceInvariant
import LeanBbg.LibRefine
import LeanBbg.LsmTree

/-! Crashes, and whole runs of the keyspace. A crash leaves the sealed journals and a beginning of the active one, and
the keyspace that is opened again holds a ledger that the client's ledger allows. -/

namespace LeanBbg.Fjall

open Bytes Bytes.Scanner

/-! ### The next sequence number -/

theorem le_foldl_max (f : String → Nat) (names : List String) (seqno : Nat) :
    seqno ≤ names.foldl (fun seqno name => max seqno (f name)) seqno ∧
      ∀ name ∈ names, f name ≤ names.foldl (fun seqno name => max seqno (f name)) seqno := by
  induction names generalizing seqno with
  | nil => exact ⟨Nat.le_refl _, fun _ hname => absurd hname List.not_mem_nil⟩
  | cons name names ih =>
      obtain ⟨hle, hall⟩ := ih (max seqno (f name))
      rw [List.foldl_cons]
      exact ⟨(le_max_left _ _).trans hle, List.forall_mem_cons.mpr ⟨(le_max_right _ _).trans hle, hall⟩⟩

theorem foldl_max_le {f : String → Nat} {names : List String} {seqno bound : Nat} (hseqno : seqno ≤ bound)
    (h : ∀ name ∈ names, f name ≤ bound) : names.foldl (fun seqno name => max seqno (f name)) seqno ≤ bound := by
  induction names generalizing seqno with
  | nil => exact hseqno
  | cons name names ih =>
      obtain ⟨hname, hnames⟩ := List.forall_mem_cons.mp h
      exact ih (max_le hseqno hname) hnames

/-! ### Recovery -/

/-- The batches that outlive a crash: those of the sealed journals and of the partitions, and some of the active
journal. -/
structure Survives (disk : Disk) (base active : List Batch) : Prop where
  base_sub : ∀ batch ∈ disk.places.base, batch ∈ base
  journals_sub : ∀ batch ∈ disk.places.journals.flatten, batch ∈ base
  base_of : ∀ batch ∈ base, batch ∈ disk.places.base ∨ batch ∈ disk.places.journals.flatten
  all : (base ++ active).Sublist disk.all
  whole : active.Sublist disk.whole

section Runs

variable {T : Type} [AbstractTree T] [LawfulTree T] [Coding] [LawfulCoding] {xxh3 : List UInt8 → UInt64}
  {ks ks' : Keyspace T} {disk : Disk} {n : Nat} {name : String}

omit [Coding] [LawfulCoding] in
theorem rebuilt_reopen (t : T) (name : String) : Rebuilt (AbstractTree.reopen t) name [] (AbstractTree.reopen t) := by
  have hsealed := LawfulTree.sealedMemtables_reopen t
  refine ⟨rfl, LawfulTree.activeMemtable_reopen t, ?_, ?_, ?_⟩
  · rw [hsealed]
    intro v hv
    cases hv
  · intro v hv
    cases hv
  · rw [hsealed]
    exact .nil

namespace Keyspace

omit [LawfulTree T] [LawfulCoding] in
/-- The keyspace that is opened again, when the trees are as they have to be. -/
theorem Inv.reopen (h : ks.Inv xxh3 disk n) {base active : List Batch} (hsurvives : Survives disk base active)
    {tree : String → T} {seqno : Nat}
    (htrees : ∀ name ∈ ks.names, TreeInv (tree name) name ⟨base, active, disk.places.journals⟩)
    (hseqnos : ∀ name ∈ ks.names, (getHighestSeqno (tree name)).elim 0 (· + 1) ≤ seqno) (hseqno : seqno ≤ ks.seqno) :
    Inv xxh3
      { ks with
        tree, seqno, isPoisoned := false, written := batchesBytes xxh3 active,
        synced := (batchesBytes xxh3 active).length, allocated := (batchesBytes xxh3 active).length,
        sealedJournals := disk.places.journals.map fun batches =>
          ⟨batchesBytes xxh3 batches, watermarksOf ks.names batches⟩ }
      ⟨⟨base, active, disk.places.journals⟩, active, none⟩ (n + 1) := by
  have hok : ∀ batch ∈ base ++ active, BatchOk ks.names batch :=
    fun batch hbatch => h.ok batch (hsurvives.all.subset hbatch)
  have hall : Disk.all ⟨⟨base, active, disk.places.journals⟩, active, none⟩ = base ++ active := List.append_nil _
  exact {
    names := h.names
    trees := htrees
    journals := List.forall₂_map_left_iff.mpr (List.forall₂_same.mpr fun batches _ =>
      ⟨⟨zeros 0, tornTail_zeros 0, (List.append_nil _).symm⟩, fun name hname v _ hmem => by
        obtain ⟨lsn, hlsn, hle⟩ := exists_highestSeqno hmem
        exact .inr ⟨lsn, mem_watermarksOf.mpr ⟨hname, hlsn⟩, hle⟩⟩)
    written := ⟨[], (List.append_nil _).symm, .inl rfl⟩
    whole := .inl rfl
    onDisk := fun batch hbatch => .inl (hsurvives.journals_sub batch hbatch)
    sealedDoubt := fun _ _ hsome => absurd hsome.symm (Option.some_ne_none _)
    poisoned := rfl
    ascending := hall ▸ h.ascending.sublist hsurvives.all
    diskAscending := h.diskAscending.sublist (hsurvives.whole.append_left _)
    ok := hall ▸ hok
    below := by
      rw [hall]
      intro batch hbatch
      -- the batch has a row, and a tree has that row or a newer one
      have hbatchOk := hok batch hbatch
      obtain ⟨item, hitem⟩ := List.exists_mem_of_ne_nil _ hbatchOk.valid.items_ne
      have hname := hbatchOk.named item hitem
      obtain ⟨w, hw, -, hle⟩ := (htrees _ hname).covered
        (mem_versionsOf.mpr ⟨batch, hbatch, mem_versions.mpr ⟨item, hitem, rfl, rfl⟩⟩)
      obtain ⟨p, hp, hwp⟩ := exists_highestSeqno hw
      have hseqno := hseqnos _ hname
      rw [getHighestSeqno, hp, Option.elim_some] at hseqno
      exact Nat.lt_of_lt_of_le (Nat.lt_succ_of_le (hle.trans hwp)) hseqno
    bound := hseqno.trans (h.bound.trans (Nat.le_succ n))
    synced := Nat.le_refl _ }

/-- Recovery finds what outlived the crash, and the invariant holds again. -/
theorem Inv.recover (h : ks.Inv xxh3 disk n) {base active : List Batch} (hsurvives : Survives disk base active)
    {tail : List UInt8} (htail : TornTail xxh3 tail) :
    ∃ ks' : Keyspace T, Keyspace.recover xxh3 ks.names ks.tree (ks.sealedJournals.map SealedJournal.file)
        (batchesBytes xxh3 active ++ tail) = .ok ks' ∧
      ks'.Inv xxh3 ⟨⟨base, active, disk.places.journals⟩, active, none⟩ (n + 1) ∧ ks'.names = ks.names ∧
      ks'.synced = (batchesBytes xxh3 active).length := by
  have hall : ∀ batch ∈ base ++ active, batch ∈ disk.all := fun batch hbatch => hsurvives.all.subset hbatch
  have hvalid : ∀ batch ∈ base ++ active, batch.Valid := fun batch hbatch => (h.ok batch (hall batch hbatch)).valid
  have hbelow : ∀ batch ∈ base ++ active, batch.seqno < ks.seqno :=
    fun batch hbatch => h.below batch (hall batch hbatch)
  have hjournals : ∀ batch ∈ disk.places.journals.flatten, batch ∈ base ++ active :=
    fun batch hbatch => List.mem_append_left _ (hsurvives.journals_sub batch hbatch)
  have hascending := h.diskAscending.sublist (hsurvives.whole.append_left _)
  -- the sealed journals
  have hfiles : List.Forall₂ (fun file batches => ∃ tail, TornTail xxh3 tail ∧
      file = batches.flatMap (Batch.bytes xxh3) ++ tail) (ks.sealedJournals.map SealedJournal.file)
      disk.places.journals :=
    List.forall₂_map_left_iff.mpr (h.journals.imp fun _ _ hjournal => hjournal.file)
  have hbound : ∀ name ∈ ks.names, ∀ v ∈ segments (AbstractTree.reopen (ks.tree name)), v.seqno < ks.seqno := by
    intro name hname v hv
    rw [LawfulTree.segments_reopen] at hv
    exact h.versions_below (fun b hb => List.mem_append_left _ hb) v
      ((h.trees name hname).versions_sub (List.mem_append_left _ hv))
  have hnil : ∀ name ∈ ks.names, Rebuilt (AbstractTree.reopen (ks.tree name)) name []
      (AbstractTree.reopen (ks.tree name)) := fun name _ => rebuilt_reopen (ks.tree name) name
  obtain ⟨tree, seqno, hsealed, hseqno, hrebuilt⟩ := recoverSealedMemtables_eq h.names hfiles
    (fun batch hbatch => hvalid batch (hjournals batch hbatch)) hnil
    (List.pairwise_append.mp hascending).1 hbound (fun batch hbatch => hbelow batch (hjournals batch hbatch))
    (Nat.zero_le _)
  -- the active journal
  have htrees : ∀ name ∈ ks.names, TreeInv (replay ks.names tree active name) name
      ⟨base, active, disk.places.journals⟩ := by
    intro name hname
    obtain ⟨hactive, hsealed', hsegments⟩ := replay_eq tree hname active
    have hrebuilt := hrebuilt name hname
    rw [hrebuilt.active_eq, List.nil_append] at hactive
    have hreopen := LawfulTree.segments_reopen (ks.tree name)
    have hrebuilt : Rebuilt (ks.tree name) name disk.places.journals (tree name) :=
      ⟨hrebuilt.segments_eq.trans hreopen, hrebuilt.active_eq, hrebuilt.sealed_sub, fun v hv => by
        have hkept := hrebuilt.kept v hv
        rwa [getHighestPersistedSeqno, hreopen] at hkept, hrebuilt.ordered⟩
    refine (h.trees name hname).recover hrebuilt hactive hsealed' hsegments hsurvives.base_sub
      hsurvives.journals_sub (fun batch hbatch => ?_) hsurvives.base_of hascending
    rcases List.mem_append.mp (hall batch hbatch) with hlog | hdoubt
    · exact .inl hlog
    · exact .inr (h.doubt_newer (Option.mem_toList.mp hdoubt))
  -- the next sequence number is above the rows of all partitions, and not above the one before the crash
  have hrows : ∀ name ∈ ks.names, (getHighestSeqno (replay ks.names tree active name)).elim 0 (· + 1) ≤ ks.seqno := by
    intro name hname
    cases hhighest : getHighestSeqno (replay ks.names tree active name) with
    | none => exact Nat.zero_le _
    | some p =>
        obtain ⟨⟨v, hv, rfl⟩, -⟩ := highestSeqno_eq_some.mp hhighest
        obtain ⟨batch, hbatch, hv⟩ := mem_versionsOf.mp ((htrees name hname).versions_sub hv)
        rw [Option.elim_some, seqno_of_mem hv]
        exact hbelow batch hbatch
  refine ⟨_, ?_, h.reopen hsurvives htrees (le_foldl_max _ ks.names seqno).2 (foldl_max_le hseqno hrows), rfl, rfl⟩
  rw [Keyspace.recover, hsealed]
  dsimp only
  rw [batchesBytes, recoverJournal_torn (fun batch hbatch => hvalid batch (List.mem_append_right _ hbatch)) htail]
  rfl

/-! ### Crashes -/

omit [LawfulTree T] [LawfulCoding] in
theorem Inv.whole_ok (h : ks.Inv xxh3 disk n) : ∀ batch ∈ disk.whole, batch ∈ disk.all := by
  intro batch hbatch
  rcases h.whole with hwhole | ⟨b, hdoubt, hwhole⟩
  · rw [hwhole] at hbatch
    exact List.mem_append_left _ (List.mem_append_right _ hbatch)
  · rw [hwhole] at hbatch
    rcases List.mem_append.mp hbatch with hbatch | hbatch
    · exact List.mem_append_left _ (List.mem_append_right _ hbatch)
    · refine List.mem_append_right _ (Option.mem_toList.mpr ?_)
      rw [List.mem_singleton.mp hbatch]
      exact hdoubt

omit [LawfulTree T] [LawfulCoding] in
/-- A beginning of the active journal is whole batches and a torn tail; no batch is torn that is inside of it. -/
theorem Inv.take (h : ks.Inv xxh3 disk n) (k z : Nat) : ∃ m ≤ disk.whole.length, ∃ tail, TornTail xxh3 tail ∧
    ks.written.take k ++ zeros z = batchesBytes xxh3 (disk.whole.take m) ++ tail ∧
    ∀ d ≤ disk.whole.length, (batchesBytes xxh3 (disk.whole.take d)).length ≤ k → d ≤ m := by
  obtain ⟨front, hwritten, hfront⟩ := h.written
  rw [hwritten, List.take_append]
  rcases Nat.lt_or_ge k (batchesBytes xxh3 disk.whole).length with hlt | hge
  · obtain ⟨m, hm, front', htake, hfront', hinside⟩ := exists_take_flatMap (Batch.bytes xxh3) disk.whole k
    refine ⟨m, hm, front' ++ zeros z, ?_, ?_, hinside⟩
    · rcases hfront' with rfl | ⟨batch, hbatch, hprefix, hne⟩
      · exact tornTail_zeros z
      · exact ⟨batch, front', z, (h.ok batch (h.whole_ok batch hbatch)).valid, hprefix, hne, rfl⟩
    · rw [Nat.sub_eq_zero_of_le hlt.le, List.take_zero, List.append_nil, batchesBytes, htake, List.append_assoc]
      rfl
  · refine ⟨disk.whole.length, Nat.le_refl _, front.take (k - (batchesBytes xxh3 disk.whole).length) ++ zeros z, ?_, ?_,
      fun d hd _ => hd⟩
    · refine tornTail_begun (fun batch hdoubt => (h.doubt_ok hdoubt).valid) ?_ z
      rcases hfront with rfl | ⟨batch, hdoubt, hprefix, hne⟩
      · exact .inl List.take_nil
      · refine .inr ⟨batch, hdoubt, (List.take_prefix _ _).trans hprefix, fun heq => hne ?_⟩
        -- a beginning of what is not the whole batch is not the whole batch
        refine hprefix.eq_of_length_le ?_
        rw [← heq]
        exact (List.take_prefix _ _).length_le
    · rw [List.take_of_length_le hge, List.take_length, List.append_assoc]

end Keyspace

/-- The keyspace holds the ledger: its batches are the published ones, and those that are certain are synced. -/
structure Keyspace.Holds (xxh3 : List UInt8 → UInt64) (ks : Keyspace T) (ledger : Ledger) (disk : Disk) (n : Nat) :
    Prop where
  inv : ks.Inv xxh3 disk n
  log : ledger.log = disk.log.map Batch.items
  doubt : ledger.doubt = disk.doubt.map Batch.items
  durable : ∃ m ≤ disk.places.active.length, ledger.durable ≤ disk.places.base.length + m ∧
    (batchesBytes xxh3 (disk.places.active.take m)).length ≤ ks.synced

namespace Keyspace

variable {ledger : Ledger}

/-- After a recovery all that is there is on the disk. -/
theorem Holds.crash (h : ks.Holds xxh3 ledger disk n) (kept : Nat) : ∃ ks' ledger' disk', ks.crash xxh3 kept = .ok ks' ∧
    ledger.Step (.crash kept) .done ledger' ∧ ks'.Holds xxh3 ledger' disk' (n + 1) ∧ ks'.names = ks.names := by
  obtain ⟨log, durable, doubt⟩ := ledger
  obtain ⟨hinv, rfl, rfl, hdurable⟩ := h
  obtain ⟨m, hm, tail, htail, htake, hinside⟩ := hinv.take (max kept ks.synced)
    (ks.allocated - (ks.written.take (max kept ks.synced)).length)
  -- what survives decides the ledger
  have hstep : ∀ base active, Survives disk base active → disk.whole.take m = active →
      Ledger.Step ⟨disk.log.map Batch.items, durable, disk.doubt.map Batch.items⟩ (.crash kept) .done
        ⟨(base ++ active).map Batch.items, (base ++ active).length, none⟩ →
      ∃ ks' ledger' disk', ks.crash xxh3 kept = .ok ks' ∧
        Ledger.Step ⟨disk.log.map Batch.items, durable, disk.doubt.map Batch.items⟩ (.crash kept) .done ledger' ∧
        ks'.Holds xxh3 ledger' disk' (n + 1) ∧ ks'.names = ks.names := by
    intro base active hsurvives heq hledger
    obtain ⟨ks', hrecover, hinv', hnames, hsynced⟩ := hinv.recover hsurvives htail
    refine ⟨ks', _, _, ?_, hledger, ⟨hinv', rfl, rfl, active.length, Nat.le_refl _, ?_, ?_⟩, hnames⟩
    · rw [Keyspace.crash, htake, heq]
      exact hrecover
    · exact (List.length_append).le
    · rw [List.take_length]
      exact hsynced.ge
  by_cases hsealed : ∃ batch ∈ disk.places.journals.flatten, disk.doubt = some batch
  · -- the batch in doubt is whole, in a sealed journal
    obtain ⟨batch, hbatch, hdoubt⟩ := hsealed
    obtain ⟨hactive, hwhole⟩ := hinv.sealedDoubt batch hbatch hdoubt
    have hlog : disk.log = disk.places.base := by rw [Disk.log, hactive, List.append_nil]
    refine hstep (disk.places.base ++ [batch]) [] ⟨?_, ?_, ?_, ?_, List.nil_sublist _⟩
      (by rw [hwhole, List.take_nil]) ?_
    · exact fun b hb => List.mem_append_left _ hb
    · intro b hb
      rcases hinv.onDisk b hb with hbase | hsome
      · exact List.mem_append_left _ hbase
      · rw [hdoubt] at hsome
        rw [Option.some.inj hsome]
        exact List.mem_append_right _ (List.mem_singleton_self _)
    · intro b hb
      refine (List.mem_append.mp hb).imp_right fun hb => ?_
      rw [List.mem_singleton.mp hb]
      exact hbatch
    · rw [Disk.all, hlog, hdoubt, List.append_nil]
      exact List.Sublist.refl _
    · rw [List.append_nil, hlog, hdoubt, List.map_append, ← List.length_map Batch.items, List.map_append]
      exact .crashWith _ _ _ _
  · have hbase : ∀ batch ∈ disk.places.journals.flatten, batch ∈ disk.places.base := fun batch hbatch =>
      (hinv.onDisk batch hbatch).resolve_right fun hdoubt => hsealed ⟨batch, hbatch, hdoubt⟩
    have hsurvives : (disk.places.base ++ disk.whole.take m).Sublist disk.all →
        Survives disk disk.places.base (disk.whole.take m) := fun hall =>
      ⟨fun _ hb => hb, hbase, fun _ hb => .inl hb, hall, List.take_sublist _ _⟩
    have hlength : disk.places.active.length ≤ disk.whole.length := by
      rcases hinv.whole with hwhole | ⟨b, -, hwhole⟩
      · rw [hwhole]
      · rw [hwhole, List.length_append]
        exact Nat.le_add_right _ _
    have hbegin : ∀ d ≤ disk.places.active.length, disk.whole.take d = disk.places.active.take d := by
      intro d hd
      rcases hinv.whole with hwhole | ⟨b, -, hwhole⟩
      · rw [hwhole]
      · rw [hwhole, List.take_append_of_le_length hd]
    by_cases hle : m ≤ disk.places.active.length
    · -- a beginning of the published batches, with all that are certain
      obtain ⟨d, hd, hcertain, hsynced⟩ := hdurable
      have hdm : d ≤ m := by
        refine hinside d (hd.trans hlength) ?_
        rw [hbegin d hd]
        exact hsynced.trans (le_max_right _ _)
      have hlog : disk.places.base ++ disk.whole.take m = disk.log.take (disk.places.base.length + m) := by
        rw [Disk.log, List.take_length_add_append, hbegin m hle]
      refine hstep _ _ (hsurvives ?_) rfl ?_
      · rw [hlog]
        exact (List.take_sublist _ _).trans (List.sublist_append_left _ _)
      · rw [hlog, ← @List.length_map _ _ (disk.log.take _) Batch.items, List.map_take]
        exact .crash _ _ _ _ _ (hcertain.trans (Nat.add_le_add_left hdm _))
    · -- the batch in doubt is whole, in the active journal
      rcases hinv.whole with hwhole | ⟨batch, hdoubt, hwhole⟩
      · rw [hwhole] at hm
        exact absurd hm hle
      · have hall : disk.whole.take m = disk.places.active ++ [batch] := by
          rw [← hwhole]
          refine List.take_of_length_le ?_
          rw [hwhole, List.length_append, List.length_singleton]
          omega
        refine hstep _ _ (hsurvives ?_) rfl ?_
        · rw [hall, ← List.append_assoc, Disk.all, hdoubt]
          exact List.Sublist.refl _
        · rw [hall, ← List.append_assoc, hdoubt, ← List.length_map Batch.items, List.map_append]
          exact .crashWith _ _ _ _

end Keyspace

/-! ### Steps and runs -/

/-- What a new item asserts of a commit, and that no key is in it twice. Reads are of partitions that are there. -/
def Event.Valid (names : List String) : Event → Prop
  | .commit changes _ _ => changes ≠ [] ∧ changes.length < 2 ^ 32 ∧
      (∀ change ∈ changes, change.item.Valid ∧ change.partition ∈ names) ∧
      (changes.map fun change => (change.partition, change.key)).Nodup
  | .get name _ => name ∈ names
  | _ => True

omit [Coding] [LawfulCoding] in
theorem item_address (change : Change) : (change.item.partition, change.item.key) = (change.partition, change.key) := by
  rw [Change.item]
  cases change.value <;> rfl

omit [Coding] [LawfulCoding] in
theorem item_strong (change : Change) : change.item.valueType ≠ .weakTombstone := by
  rw [Change.item]
  cases change.value <;> exact ValueType.noConfusion

omit [Coding] [LawfulCoding] in
theorem batchOk {names : List String} {changes : List Change} {durability : Option PersistMode} {fault : Option Fault}
    (h : Event.Valid names (.commit changes durability fault)) {seqno : Nat} (hseqno : seqno < 2 ^ 64) :
    BatchOk names ⟨seqno, changes.map Change.item⟩ := by
  obtain ⟨hne, hlt, hitems, hnodup⟩ := h
  have hall : ∀ {P : Item → Prop}, (∀ change ∈ changes, P change.item) → ∀ item ∈ changes.map Change.item, P item := by
    intro P hP item hitem
    obtain ⟨change, hchange, rfl⟩ := List.mem_map.mp hitem
    exact hP change hchange
  refine ⟨⟨?_, ?_, hseqno, hall fun change hchange => (hitems change hchange).1⟩, hall fun change hchange => ?_, ?_,
    hall fun change _ => item_strong change⟩
  · exact fun hnil => hne (List.map_eq_nil_iff.mp hnil)
  · rw [List.length_map]
    exact hlt
  · rw [(Prod.mk.inj (item_address change)).1]
    exact (hitems change hchange).2
  · rw [List.map_map, show (fun item : Item => (item.partition, item.key)) ∘ Change.item =
      fun change => (change.partition, change.key) from funext item_address]
    exact hnodup

namespace Keyspace

variable {ledger : Ledger}

omit [LawfulTree T] [LawfulCoding] in
/-- A batch that failed is in doubt. -/
theorem Holds.fail {log : List (List Item)} {durable : Nat} (h : ks.Holds xxh3 ⟨log, durable, none⟩ disk n)
    {changes : List Change} (hok : BatchOk ks.names ⟨ks.seqno, changes.map Change.item⟩) {front : List UInt8}
    (hfront : front <+: Batch.bytes xxh3 ⟨ks.seqno, changes.map Change.item⟩) :
    ∃ disk', ({ ks with seqno := ks.seqno + 1, written := ks.written ++ front, isPoisoned := true } : Keyspace T).Holds
      xxh3 ⟨log, durable, some (changes.map Change.item)⟩ disk' (n + 1) := by
  obtain ⟨whole, hinv⟩ := h.inv.fail (Option.map_eq_none_iff.mp h.doubt.symm) hok rfl hfront
  exact ⟨_, hinv, h.log, rfl, h.durable⟩

omit [LawfulCoding] in
/-- A batch that is published is the last of the log. -/
theorem Holds.publish {log : List (List Item)} {durable : Nat} (h : ks.Holds xxh3 ⟨log, durable, none⟩ disk n)
    {changes : List Change} (hok : BatchOk ks.names ⟨ks.seqno, changes.map Change.item⟩) {synced durable' : Nat}
    (hsynced : synced = ks.synced ∧ durable' = durable ∨
      synced = (ks.written ++ Batch.bytes xxh3 ⟨ks.seqno, changes.map Change.item⟩).length ∧
        durable' = log.length + 1) :
    ∃ disk', ({ ks with
        seqno := ks.seqno + 1, written := ks.written ++ Batch.bytes xxh3 ⟨ks.seqno, changes.map Change.item⟩, synced,
        tree := applyItems ks.names ks.seqno ks.tree (changes.map Change.item) } : Keyspace T).Holds
      xxh3 ⟨log ++ [changes.map Change.item], durable', none⟩ disk' (n + 1) := by
  have hdoubt : disk.doubt = none := Option.map_eq_none_iff.mp h.doubt.symm
  have hlog := h.log
  have hle : synced ≤ (ks.written ++ Batch.bytes xxh3 ⟨ks.seqno, changes.map Change.item⟩).length := by
    rcases hsynced with ⟨rfl, -⟩ | ⟨rfl, -⟩
    · exact h.inv.synced.trans (by rw [List.length_append]; exact Nat.le_add_right _ _)
    · exact Nat.le_refl _
  refine ⟨_, h.inv.publish hdoubt hok rfl hle, ?_, rfl, ?_⟩
  · change log ++ _ = (disk.places.base ++ (disk.places.active ++ [_])).map Batch.items
    rw [← List.append_assoc, List.map_append, show log = _ from hlog]
    rfl
  · dsimp only
    rcases hsynced with ⟨rfl, rfl⟩ | ⟨rfl, rfl⟩
    · obtain ⟨m, hm, hcertain, hsynced⟩ := h.durable
      refine ⟨m, ?_, hcertain, ?_⟩
      · rw [List.length_append]
        omega
      · rw [List.take_append_of_le_length hm]
        exact hsynced
    · refine ⟨_, Nat.le_refl _, ?_, ?_⟩
      · dsimp only at hlog
        rw [hlog, List.length_map, Disk.log, List.length_append, List.length_append, List.length_singleton,
          Nat.add_assoc]
      · rw [List.take_length, batchesBytes_append, (h.inv.settled hdoubt).2.1]

omit [LawfulCoding] in
theorem Holds.commit (h : ks.Holds xxh3 ledger disk n) {changes : List Change} {durability : Option PersistMode}
    {fault : Option Fault} (hevent : Event.Valid ks.names (.commit changes durability fault)) (hn : n < 2 ^ 64) :
    ∃ answer ks' ledger' disk', ks.commit xxh3 changes durability fault = (answer, ks') ∧
      ledger.Step (.commit changes durability fault) answer ledger' ∧ ks'.Holds xxh3 ledger' disk' (n + 1) ∧
      ks'.names = ks.names := by
  obtain ⟨log, durable, doubt⟩ := ledger
  have hinv := h.inv
  have hdoubt := h.doubt
  dsimp only at hdoubt
  cases doubt with
  | some items =>
      have hpoisoned : ks.isPoisoned = true := by
        rw [hinv.poisoned, ← Option.isSome_map (f := Batch.items), ← hdoubt]
        rfl
      refine ⟨.poisoned, ks, _, disk, ?_, .refuse _ _ _ _ _ _, ⟨hinv.more, h.log, h.doubt, h.durable⟩, rfl⟩
      rw [Keyspace.commit, if_pos hpoisoned]
  | none =>
      have hpoisoned : ¬ks.isPoisoned = true := by
        rw [hinv.poisoned, ← Option.isSome_map (f := Batch.items), ← hdoubt]
        exact Bool.false_ne_true
      have hok := batchOk hevent (Nat.lt_of_le_of_lt hinv.bound hn)
      rw [Keyspace.commit, if_neg hpoisoned]
      dsimp only
      generalize hstruck : fault.filter _ = struck
      cases struck with
      | some fault' =>
          obtain ⟨rfl, -⟩ := Option.filter_eq_some_iff.mp hstruck
          cases fault' with
          | write k =>
              obtain ⟨disk', hfail⟩ := h.fail hok (List.take_prefix k _)
              exact ⟨.io, _, _, disk', rfl, .fail _ _ _ _ _ _ Answer.noConfusion, hfail, rfl⟩
          | persist =>
              obtain ⟨disk', hfail⟩ := h.fail hok (List.prefix_refl _)
              exact ⟨.poisoned, _, _, disk', rfl, .fail _ _ _ _ _ _ Answer.noConfusion, hfail, rfl⟩
      | none =>
          have hbuffered := h.publish hok (.inl ⟨rfl, rfl⟩)
          have hpublished := h.publish hok (.inr ⟨rfl, rfl⟩)
          have hle : durable ≤ log.length + 1 := by
            obtain ⟨m, hm, hcertain, -⟩ := h.durable
            have hlog := congrArg List.length h.log
            rw [List.length_map, Disk.log, List.length_append] at hlog
            dsimp only at hcertain hlog
            omega
          cases durability with
          | none =>
              obtain ⟨disk', hbuffered⟩ := hbuffered
              exact ⟨.done, _, _, disk', rfl,
                .publish _ _ _ _ _ _ (Nat.le_refl _) (fun h => absurd h Bool.false_ne_true),
                hbuffered, rfl⟩
          | some mode =>
              cases mode with
              | buffer =>
                  obtain ⟨disk', hbuffered⟩ := hbuffered
                  exact ⟨.done, _, _, disk', rfl,
                    .publish _ _ _ _ _ _ (Nat.le_refl _) (fun h => absurd h Bool.false_ne_true), hbuffered, rfl⟩
              | syncData =>
                  obtain ⟨disk', hpublished⟩ := hpublished
                  exact ⟨.done, _, _, disk', rfl, .publish _ _ _ _ _ _ hle (fun _ => rfl), hpublished, rfl⟩
              | syncAll =>
                  obtain ⟨disk', hpublished⟩ := hpublished
                  exact ⟨.done, _, _, disk', rfl, .publish _ _ _ _ _ _ hle (fun _ => rfl), hpublished, rfl⟩

omit [LawfulCoding] in
theorem Holds.rotateMemtable (h : ks.Holds xxh3 ledger disk n) (name : String) : ∃ ledger' disk',
    ledger.Step (.rotateMemtable name) .done ledger' ∧ (ks.rotateMemtable name).Holds xxh3 ledger' disk' (n + 1) ∧
      (ks.rotateMemtable name).names = ks.names := by
  have hsame : ∃ ledger' disk', ledger.Step (.rotateMemtable name) .done ledger' ∧
      ks.Holds xxh3 ledger' disk' (n + 1) ∧ ks.names = ks.names :=
    ⟨ledger, disk, .rotateMemtable _ _ _ _ _ (Nat.le_refl _), ⟨h.inv.more, h.log, h.doubt, h.durable⟩, rfl⟩
  rw [Keyspace.rotateMemtable]
  split_ifs with hname
  · cases hrotate : AbstractTree.rotateMemtable (ks.tree name) with
    | none => exact hsame
    | some t =>
        obtain ⟨hactive, hsealed, hsegments⟩ := LawfulTree.rotate_some _ _ hrotate
        have hparts : ∀ other ∈ ks.names, segments (Function.update ks.tree name t other) = segments (ks.tree other) ∧
            (activeMemtable (Function.update ks.tree name t other) = activeMemtable (ks.tree other) ∧
                sealedMemtables (Function.update ks.tree name t other) = sealedMemtables (ks.tree other) ∨
              activeMemtable (Function.update ks.tree name t other) = [] ∧
                sealedMemtables (Function.update ks.tree name t other) =
                  sealedMemtables (ks.tree other) ++ [activeMemtable (ks.tree other)]) := by
          intro other hother
          by_cases heq : other = name
          · rw [heq, Function.update_self]
            exact ⟨hsegments, .inr ⟨hactive, hsealed⟩⟩
          · rw [Function.update_of_ne heq]
            exact ⟨rfl, .inl ⟨rfl, rfl⟩⟩
        obtain ⟨m, hm, hcertain, -⟩ := h.durable
        refine ⟨_, _, .rotateMemtable ledger.log _ disk.log.length ledger.doubt _ ?_,
          ⟨h.inv.rotate hparts, ?_, h.doubt, 0, ?_⟩, rfl⟩
        · rw [Disk.log, List.length_append]
          omega
        · rw [h.log, Disk.log, Disk.log, List.append_nil]
        · exact ⟨Nat.le_refl _, Nat.le_refl _, Nat.le_refl _⟩
  · exact hsame

/-- Each step of the keyspace is a step of the ledger. -/
theorem Holds.step (h : ks.Holds xxh3 ledger disk n) {event : Event} (hevent : event.Valid ks.names) (hn : n < 2 ^ 64) :
    ∃ answer ks' ledger' disk', ks.step xxh3 event = some (answer, ks') ∧ ledger.Step event answer ledger' ∧
      ks'.Holds xxh3 ledger' disk' (n + 1) ∧ ks'.names = ks.names := by
  cases event with
  | get name key =>
      refine ⟨_, ks, ledger, disk, rfl, ?_, ⟨h.inv.more, h.log, h.doubt, h.durable⟩, rfl⟩
      rw [h.inv.get_eq hevent key, ← h.log]
      exact .get ledger name key
  | commit changes durability fault =>
      obtain ⟨answer, ks', ledger', disk', hcommit, hstep⟩ := h.commit hevent hn
      exact ⟨answer, ks', ledger', disk', by rw [Keyspace.step, hcommit], hstep⟩
  | rotateMemtable name =>
      obtain ⟨ledger', disk', hstep⟩ := h.rotateMemtable name
      exact ⟨.done, _, ledger', disk', rfl, hstep⟩
  | flush name k =>
      refine ⟨.done, _, ledger, disk, rfl, .flush _ _ _, ⟨h.inv.flush name k, h.log, h.doubt, ?_⟩, ?_⟩
      · rw [Keyspace.flush]
        split_ifs <;> exact h.durable
      · rw [Keyspace.flush]
        split_ifs <;> rfl
  | maintenance =>
      obtain ⟨journals, hinv⟩ := h.inv.maintenance
      exact ⟨.done, _, ledger, _, rfl, .maintenance _, ⟨hinv.more, h.log, h.doubt, h.durable⟩, rfl⟩
  | crash kept =>
      obtain ⟨ks', ledger', disk', hcrash, hstep⟩ := h.crash kept
      exact ⟨.done, ks', ledger', disk', by rw [Keyspace.step, hcrash], hstep⟩

omit [LawfulCoding] in
theorem holds_create {names : List String} (hnames : names.Nodup) :
    (Keyspace.create names : Keyspace T).Holds xxh3 ⟨[], 0, none⟩ ⟨⟨[], [], []⟩, [], none⟩ 0 where
  inv := {
    names := hnames
    trees := fun name _ => treeInv_create name
    journals := .nil
    written := ⟨[], rfl, .inl rfl⟩
    whole := .inl rfl
    onDisk := fun _ hbatch => absurd hbatch List.not_mem_nil
    sealedDoubt := fun _ hbatch => absurd hbatch List.not_mem_nil
    poisoned := rfl
    ascending := .nil
    diskAscending := .nil
    ok := fun _ hbatch => absurd hbatch List.not_mem_nil
    below := fun _ hbatch => absurd hbatch List.not_mem_nil
    bound := Nat.le_refl _
    synced := Nat.le_refl _ }
  log := rfl
  doubt := rfl
  durable := ⟨0, Nat.le_refl _, Nat.le_refl _, Nat.le_refl _⟩

/-- The keyspace holds the ledger, with the partitions it had from the beginning. -/
def Follows (xxh3 : List UInt8 → UInt64) (names : List String) (n : Nat) (ks : Keyspace T) (ledger : Ledger) : Prop :=
  ks.names = names ∧ ∃ disk, ks.Holds xxh3 ledger disk n

omit [LawfulTree T] [LawfulCoding] in
theorem Follows.more {names : List String} (h : ks.Follows xxh3 names n ledger) :
    ks.Follows xxh3 names (n + 1) ledger := by
  obtain ⟨hnames, disk, hholds⟩ := h
  exact ⟨hnames, disk, hholds.inv.more, hholds.log, hholds.doubt, hholds.durable⟩

omit [LawfulCoding] in
/-- The partitions hold what the ledger says. -/
theorem Follows.get_eq {names : List String} (h : ks.Follows xxh3 names n ledger) (hname : name ∈ names)
    (key : List UInt8) : AbstractTree.get (ks.tree name) key = contents ledger.log name key := by
  obtain ⟨rfl, disk, hholds⟩ := h
  rw [hholds.inv.get_eq hname, hholds.log]

omit [LawfulCoding] in
theorem follows_create {names : List String} (hnames : names.Nodup) :
    (Keyspace.create names : Keyspace T).Follows xxh3 names 0 ⟨[], 0, none⟩ :=
  ⟨rfl, _, holds_create hnames⟩

theorem Follows.step {names : List String} (n : Nat) (hn : n < 2 ^ 64) (ks : Keyspace T) (ledger : Ledger)
    (event : Event) (h : ks.Follows xxh3 names n ledger) (hevent : event.Valid names) : ∃ answer ks' ledger',
      ks.step xxh3 event = some (answer, ks') ∧ ledger.Step event answer ledger' ∧
        ks'.Follows xxh3 names (n + 1) ledger' := by
  obtain ⟨rfl, disk, hholds⟩ := h
  obtain ⟨answer, ks', ledger', disk', hstep, hledger, hholds', hnames⟩ := hholds.step hevent hn
  exact ⟨answer, ks', ledger', hstep, hledger, hnames, disk', hholds'⟩

end Keyspace

/-- Every run of a new keyspace goes through, and its answers are those of a run of the ledger. -/
theorem keyspace_runs_ledger {names : List String} (hnames : names.Nodup) {events : List Event}
    (hevents : ∀ event ∈ events, event.Valid names) (hlen : events.length ≤ 2 ^ 64) : ∃ answers ks ledger,
      Refine.run (Keyspace.step xxh3) (Keyspace.create names : Keyspace T) events = some (answers, ks) ∧
      Refine.Runs Ledger.Step ⟨[], 0, none⟩ events answers ledger := by
  obtain ⟨answers, ks, ledger, hrun, hruns, -⟩ :=
    Refine.exists_runs Keyspace.Follows.step (Keyspace.follows_create (T := T) hnames) hevents (by omega)
  exact ⟨answers, ks, ledger, hrun, hruns⟩

end Runs

/-- A batch is synced, one is torn by a failed write, and the keyspace is opened again and read. -/
theorem keyspace_runs_ledger_torn :
    let events : List Event :=
      [.commit [⟨"axons_out", [1], some [2]⟩] (some .syncAll) none, .rotateMemtable "axons_out",
      .commit [⟨"axons_out", [1], none⟩] none (some (.write 5)), .crash 3, .get "axons_out" [1]]
    ∃ answers ks ledger,
      Refine.run (Keyspace.step fun _ => 0) (Keyspace.create ["axons_out"] : Keyspace LsmTree) events =
        some (answers, ks) ∧
      Refine.Runs Ledger.Step ⟨[], 0, none⟩ events answers ledger := by
  have hvalid : ∀ (value : Option (List UInt8)) (durability : Option PersistMode) (fault : Option Fault),
      value.elim 0 List.length < 2 ^ 32 →
      Event.Valid ["axons_out"] (.commit [⟨"axons_out", [1], value⟩] durability fault) := by
    intro value durability fault hvalue
    have hname : utf8 "axons_out" ≠ [] ∧ (utf8 "axons_out").length < 2 ^ 8 := by decide
    have hkey : ([1] : List UInt8).length < 2 ^ 16 := by decide
    refine ⟨List.cons_ne_nil _ _, show 1 < 2 ^ 32 by decide,
      List.forall_mem_singleton.mpr ⟨?_, List.mem_singleton_self _⟩,
      List.nodup_singleton _⟩
    cases value with
    | none => exact ⟨hname.1, List.cons_ne_nil _ _, hname.2, hkey, hvalue⟩
    | some value => exact ⟨hname.1, List.cons_ne_nil _ _, hname.2, hkey, hvalue⟩
  refine keyspace_runs_ledger (List.nodup_singleton _) ?_ (by decide)
  refine List.forall_mem_cons.mpr ⟨hvalid _ _ _ (by decide), List.forall_mem_cons.mpr ⟨trivial, ?_⟩⟩
  refine List.forall_mem_cons.mpr ⟨hvalid _ _ _ (by decide), List.forall_mem_cons.mpr ⟨trivial, ?_⟩⟩
  exact List.forall_mem_singleton.mpr (List.mem_singleton_self _)

end LeanBbg.Fjall
