import LeanBbg.KeyspaceTrees
import LeanBbg.LibFrames

/-! Whole runs of the keyspace. Whatever fails, whatever is flushed and deleted in between, and wherever a crash cuts
the journal, the partitions hold what a ledger of atomic batches says: every batch is there as a whole or not at all,
in order, and what was acknowledged with a sync is not lost. -/

namespace LeanBbg.Fjall

open Bytes Bytes.Scanner

/-! ### The ledger -/

/-- What a client knows: the batches that were published, how many of them are on the disk for certain, and one that
failed and may be there or not. -/
structure Ledger where
  log : List (List Item)
  durable : Nat
  doubt : Option (List Item)

def Item.read (item : Item) : Option (List UInt8) :=
  match item.valueType with
  | .value => some item.value
  | .tombstone => none
  | .weakTombstone => none

def writeItem (view : String → List UInt8 → Option (List UInt8)) (item : Item) :
    String → List UInt8 → Option (List UInt8) :=
  fun name key => if name = item.partition ∧ key = item.key then item.read else view name key

/-- What a key of a partition holds after the batches. -/
def contents (log : List (List Item)) : String → List UInt8 → Option (List UInt8) :=
  log.foldl (fun view items => items.foldl writeItem view) fun _ _ => none

def syncs : Option PersistMode → Bool
  | some .syncAll => true
  | some .syncData => true
  | _ => false

/-- The steps of a ledger. A batch is published or in doubt, and nothing is published behind one that is in doubt; a
crash loses batches that are not certain, and decides the one that is in doubt. -/
inductive Ledger.Step : Ledger → Event → Answer → Ledger → Prop where
  | get (ledger : Ledger) (name : String) (key : List UInt8) :
      Step ledger (.get name key) (.row (contents ledger.log name key)) ledger
  | publish (log : List (List Item)) (durable durable' : Nat) (changes : List Change) (durability : Option PersistMode)
      (fault : Option Fault) (hle : durable ≤ durable') (hsync : syncs durability = true → durable' = log.length + 1) :
      Step ⟨log, durable, none⟩ (.commit changes durability fault) .done
        ⟨log ++ [changes.map Change.item], durable', none⟩
  | fail (log : List (List Item)) (durable : Nat) (changes : List Change) (durability : Option PersistMode)
      (fault : Fault) (answer : Answer) (hanswer : answer ≠ .done) :
      Step ⟨log, durable, none⟩ (.commit changes durability (some fault)) answer
        ⟨log, durable, some (changes.map Change.item)⟩
  | refuse (log : List (List Item)) (durable : Nat) (items : List Item) (changes : List Change)
      (durability : Option PersistMode) (fault : Option Fault) :
      Step ⟨log, durable, some items⟩ (.commit changes durability fault) .poisoned ⟨log, durable, some items⟩
  | rotateMemtable (log : List (List Item)) (durable durable' : Nat) (doubt : Option (List Item)) (name : String)
      (hle : durable ≤ durable') : Step ⟨log, durable, doubt⟩ (.rotateMemtable name) .done ⟨log, durable', doubt⟩
  | flush (ledger : Ledger) (name : String) (n : Nat) : Step ledger (.flush name n) .done ledger
  | maintenance (ledger : Ledger) : Step ledger .maintenance .done ledger
  | crash (log : List (List Item)) (durable : Nat) (doubt : Option (List Item)) (kept n : Nat) (hn : durable ≤ n) :
      Step ⟨log, durable, doubt⟩ (.crash kept) .done ⟨log.take n, (log.take n).length, none⟩
  | crashWith (log : List (List Item)) (durable : Nat) (items : List Item) (kept : Nat) :
      Step ⟨log, durable, some items⟩ (.crash kept) .done ⟨log ++ [items], (log ++ [items]).length, none⟩

/-! ### What a read returns -/

theorem foldl_writeItem {items : List Item} (h : (items.map fun item => (item.partition, item.key)).Nodup)
    (view : String → List UInt8 → Option (List UInt8)) (name : String) (key : List UInt8) :
    (∃ item ∈ items, item.partition = name ∧ item.key = key ∧ items.foldl writeItem view name key = item.read) ∨
      (∀ item ∈ items, ¬(item.partition = name ∧ item.key = key)) ∧
        items.foldl writeItem view name key = view name key := by
  induction items generalizing view with
  | nil => exact .inr ⟨fun _ hitem => absurd hitem List.not_mem_nil, rfl⟩
  | cons item items ih =>
      rw [List.map_cons] at h
      obtain ⟨hitem, hitems⟩ := List.nodup_cons.mp h
      rw [List.foldl_cons]
      rcases ih hitems (writeItem view item) with ⟨later, hlater, hname, hkey, hread⟩ | ⟨hnone, hread⟩
      · exact .inl ⟨later, List.mem_cons_of_mem _ hlater, hname, hkey, hread⟩
      · by_cases hmatch : item.partition = name ∧ item.key = key
        · refine .inl ⟨item, List.mem_cons_self, hmatch.1, hmatch.2, hread.trans ?_⟩
          rw [writeItem, if_pos ⟨hmatch.1.symm, hmatch.2.symm⟩]
        · refine .inr ⟨List.forall_mem_cons.mpr ⟨hmatch, hnone⟩, hread.trans ?_⟩
          rw [writeItem, if_neg fun h => hmatch ⟨h.1.symm, h.2.symm⟩]

variable {name : String} {key : List UInt8} {batches : List Batch}

variable (name key) in
/-- The newest row of a key is what the ledger holds for it. -/
theorem exists_newest (hascending : batches.Pairwise fun a b => a.seqno < b.seqno)
    (hdistinct : ∀ batch ∈ batches, (batch.items.map fun item => (item.partition, item.key)).Nodup) :
    (∃ v ∈ versionsOf name batches, v.key = key ∧
        (∀ w ∈ versionsOf name batches, w.key = key → w.seqno < v.seqno ∨ w = v) ∧
        contents (batches.map Batch.items) name key = v.read) ∨
      (∀ w ∈ versionsOf name batches, w.key ≠ key) ∧ contents (batches.map Batch.items) name key = none := by
  induction batches using List.reverseRecOn with
  | nil => exact .inr ⟨fun _ hw => absurd hw List.not_mem_nil, rfl⟩
  | append_singleton batches batch ih =>
      obtain ⟨hleft, -, hcross⟩ := List.pairwise_append.mp hascending
      have hitems := hdistinct batch (List.mem_append_right _ (List.mem_singleton_self _))
      have hlast : contents ((batches ++ [batch]).map Batch.items) name key =
          batch.items.foldl writeItem (contents (batches.map Batch.items)) name key := by
        rw [List.map_append, contents, List.foldl_append]
        rfl
      rw [versionsOf_append, versionsOf_singleton, hlast]
      rcases foldl_writeItem hitems (contents (batches.map Batch.items)) name key with
        ⟨item, hitem, hname, hkey, hread⟩ | ⟨hnone, hread⟩
      · -- a row of the last batch is the newest, and the only one of its key in the batch
        refine .inl ⟨_, List.mem_append_right _ (mem_versions.mpr ⟨item, hitem, hname, rfl⟩), hkey, ?_, hread⟩
        intro w hw hwkey
        rcases List.mem_append.mp hw with hw | hw
        · obtain ⟨earlier, hearlier, hw⟩ := mem_versionsOf.mp hw
          rw [seqno_of_mem hw]
          exact .inl (hcross earlier hearlier batch (List.mem_singleton_self _))
        · obtain ⟨item', hitem', hname', rfl⟩ := mem_versions.mp hw
          obtain rfl : item' = item := List.inj_on_of_nodup_map hitems hitem' hitem
            (Prod.ext (hname'.trans hname.symm) (hwkey.trans hkey.symm))
          exact .inr rfl
      · rw [hread]
        have hbatch : ∀ w ∈ batch.versions name, w.key ≠ key := by
          intro w hw hwkey
          obtain ⟨item, hitem, hname, rfl⟩ := mem_versions.mp hw
          exact hnone item hitem ⟨hname, hwkey⟩
        rcases ih hleft (fun batch hbatch => hdistinct batch (List.mem_append_left _ hbatch)) with
          ⟨v, hv, hkey, hmax, hread⟩ | ⟨hnone, hread⟩
        · refine .inl ⟨v, List.mem_append_left _ hv, hkey, fun w hw hwkey => ?_, hread⟩
          rcases List.mem_append.mp hw with hw | hw
          · exact hmax w hw hwkey
          · exact absurd hwkey (hbatch w hw)
        · exact .inr ⟨fun w hw => (List.mem_append.mp hw).elim (hnone w) (hbatch w), hread⟩

variable {T : Type} [AbstractTree T] [LawfulTree T] {t : T} {places : Places}

theorem TreeInv.get_eq (h : TreeInv t name places)
    (hascending : (places.base ++ places.active).Pairwise fun a b => a.seqno < b.seqno)
    (hdistinct : ∀ batch ∈ places.base ++ places.active,
      (batch.items.map fun item => (item.partition, item.key)).Nodup) :
    AbstractTree.get t key = contents ((places.base ++ places.active).map Batch.items) name key := by
  rcases exists_newest name key hascending hdistinct with ⟨v, hv, rfl, hmax, hread⟩ | ⟨hnone, hread⟩
  · rw [hread]
    -- what covers the newest row is that row
    obtain ⟨w, hw, hkey, hle⟩ := h.covered hv
    rcases hmax w (h.versions_sub hw) hkey with hlt | rfl
    · omega
    · exact LawfulTree.get_newest t w hw fun u hu => hmax u (h.versions_sub hu)
  · rw [hread]
    exact LawfulTree.get_missing t key fun w hw => hnone w (h.versions_sub hw)

/-! ### The journals and the partitions -/

/-- A batch as a commit makes it: its keys are distinct, and it has no weak tombstones. -/
structure BatchOk (names : List String) (batch : Batch) : Prop where
  valid : batch.Valid
  named : ∀ item ∈ batch.items, item.partition ∈ names
  distinct : (batch.items.map fun item => (item.partition, item.key)).Nodup
  strong : ∀ item ∈ batch.items, item.valueType ≠ .weakTombstone

/-- What is in the journals besides the published batches: the whole batches of the active journal, and the batch that
failed. -/
structure Disk where
  places : Places
  whole : List Batch
  doubt : Option Batch

def Disk.log (disk : Disk) : List Batch := disk.places.base ++ disk.places.active

def Disk.all (disk : Disk) : List Batch := disk.log ++ disk.doubt.toList

variable [Coding] (xxh3 : List UInt8 → UInt64)

def batchesBytes (batches : List Batch) : List UInt8 := batches.flatMap (Batch.bytes xxh3)

structure JournalInv (ks : Keyspace T) (base : List Batch) (journal : SealedJournal) (batches : List Batch) : Prop where
  file : ∃ tail, TornTail xxh3 tail ∧ journal.file = batchesBytes xxh3 batches ++ tail
  marked : ∀ name ∈ ks.names, ∀ v ∈ versionsOf name base, v ∈ versionsOf name batches →
    Covered (segments (ks.tree name)) v ∨ ∃ lsn, (name, lsn) ∈ journal.watermarks ∧ v.seqno ≤ lsn

/-- What is behind the whole batches of the active journal: a beginning of the batch that failed. -/
def Begun (doubt : Option Batch) (front : List UInt8) : Prop :=
  front = [] ∨ ∃ batch, doubt = some batch ∧ front <+: batch.bytes xxh3 ∧ front ≠ batch.bytes xxh3

structure Keyspace.Inv (ks : Keyspace T) (disk : Disk) (n : Nat) : Prop where
  names : ks.names.Nodup
  trees : ∀ name ∈ ks.names, TreeInv (ks.tree name) name disk.places
  journals : List.Forall₂ (JournalInv xxh3 ks disk.places.base) ks.sealedJournals disk.places.journals
  written : ∃ front, ks.written = batchesBytes xxh3 disk.whole ++ front ∧ Begun xxh3 disk.doubt front
  whole : disk.whole = disk.places.active ∨
    ∃ batch, disk.doubt = some batch ∧ disk.whole = disk.places.active ++ [batch]
  onDisk : ∀ batch ∈ disk.places.journals.flatten, batch ∈ disk.places.base ∨ disk.doubt = some batch
  sealedDoubt : ∀ batch ∈ disk.places.journals.flatten, disk.doubt = some batch →
    disk.places.active = [] ∧ disk.whole = []
  poisoned : ks.isPoisoned = disk.doubt.isSome
  ascending : disk.all.Pairwise fun a b => a.seqno < b.seqno
  diskAscending : (disk.places.journals.flatten ++ disk.whole).Pairwise fun a b => a.seqno < b.seqno
  ok : ∀ batch ∈ disk.all, BatchOk ks.names batch
  below : ∀ batch ∈ disk.all, batch.seqno < ks.seqno
  bound : ks.seqno ≤ n
  synced : ks.synced ≤ ks.written.length

variable {xxh3} {ks ks' : Keyspace T} {disk : Disk} {n : Nat}

omit [LawfulTree T] in
/-- Whatever covers the same rows on the disk keeps the journals. -/
theorem JournalInv.congr {base : List Batch} {journal : SealedJournal} {batches : List Batch}
    (h : JournalInv xxh3 ks base journal batches) (hnames : ks'.names = ks.names)
    (hcovered : ∀ name ∈ ks.names, ∀ v, Covered (segments (ks.tree name)) v → Covered (segments (ks'.tree name)) v) :
    JournalInv xxh3 ks' base journal batches := by
  refine ⟨h.file, fun name hname v hv hbatch => ?_⟩
  rw [hnames] at hname
  exact (h.marked name hname v hv hbatch).imp_left (hcovered name hname v)

namespace Keyspace

omit [LawfulTree T] in
theorem Inv.log_ascending (h : ks.Inv xxh3 disk n) : disk.log.Pairwise fun a b => a.seqno < b.seqno :=
  (List.pairwise_append.mp h.ascending).1

omit [LawfulTree T] in
theorem Inv.log_ok (h : ks.Inv xxh3 disk n) : ∀ batch ∈ disk.log, BatchOk ks.names batch :=
  fun batch hbatch => h.ok batch (List.mem_append_left _ hbatch)

/-- The partitions hold what the ledger says. -/
theorem Inv.get_eq (h : ks.Inv xxh3 disk n) (hname : name ∈ ks.names) (key : List UInt8) :
    AbstractTree.get (ks.tree name) key = contents (disk.log.map Batch.items) name key :=
  (h.trees name hname).get_eq h.log_ascending fun batch hbatch => (h.log_ok batch hbatch).distinct

omit [LawfulTree T] in
theorem Inv.versions_below (h : ks.Inv xxh3 disk n) {batches : List Batch}
    (hbatches : ∀ batch ∈ batches, batch ∈ disk.all) :
    ∀ v ∈ versionsOf name batches, v.seqno < ks.seqno := by
  intro v hv
  obtain ⟨batch, hbatch, hv⟩ := mem_versionsOf.mp hv
  rw [seqno_of_mem hv]
  exact h.below batch (hbatches batch hbatch)

/-! ### A commit -/

omit [LawfulTree T] in
theorem batchesBytes_append {batches : List Batch} {batch : Batch} :
    batchesBytes xxh3 (batches ++ [batch]) = batchesBytes xxh3 batches ++ batch.bytes xxh3 := by
  rw [batchesBytes, List.flatMap_append, List.flatMap_singleton]
  rfl

omit [LawfulTree T] in
/-- Without a batch in doubt the active journal has the published batches and nothing else. -/
theorem Inv.settled (h : ks.Inv xxh3 disk n) (hdoubt : disk.doubt = none) :
    disk.whole = disk.places.active ∧ ks.written = batchesBytes xxh3 disk.places.active ∧
      ∀ batch ∈ disk.places.journals.flatten, batch ∈ disk.places.base := by
  have hwhole : disk.whole = disk.places.active := by
    rcases h.whole with hwhole | ⟨batch, hbatch, -⟩
    · exact hwhole
    · exact absurd (hdoubt.symm.trans hbatch) (Option.some_ne_none _).symm
  refine ⟨hwhole, ?_, fun batch hbatch => ?_⟩
  · obtain ⟨front, hwritten, rfl | ⟨batch, hbatch, -⟩⟩ := h.written
    · rw [hwritten, hwhole, List.append_nil]
    · exact absurd (hdoubt.symm.trans hbatch) (Option.some_ne_none _).symm
  · rcases h.onDisk batch hbatch with hbase | hsome
    · exact hbase
    · exact absurd (hdoubt.symm.trans hsome) (Option.some_ne_none _).symm

omit [LawfulTree T] in
/-- A new batch is newer than all others. -/
theorem Inv.newest (h : ks.Inv xxh3 disk n) (hdoubt : disk.doubt = none) {batch : Batch}
    (hseqno : batch.seqno = ks.seqno) :
    (∀ a ∈ disk.log, a.seqno < batch.seqno) ∧ (disk.log ++ [batch]).Pairwise (fun a b => a.seqno < b.seqno) ∧
      (disk.places.journals.flatten ++ (disk.places.active ++ [batch])).Pairwise fun a b => a.seqno < b.seqno := by
  have hbelow : ∀ a ∈ disk.log, a.seqno < batch.seqno := by
    intro a ha
    rw [hseqno]
    exact h.below a (List.mem_append_left _ ha)
  refine ⟨hbelow, List.pairwise_append.mpr ⟨h.log_ascending, List.pairwise_singleton _ _, fun a ha b hb => ?_⟩, ?_⟩
  · rw [List.mem_singleton.mp hb]
    exact hbelow a ha
  · obtain ⟨hwhole, -, hjournals⟩ := h.settled hdoubt
    have hascending := h.diskAscending
    rw [hwhole] at hascending
    rw [← List.append_assoc]
    refine List.pairwise_append.mpr ⟨hascending, List.pairwise_singleton _ _, fun a ha b hb => ?_⟩
    rw [List.mem_singleton.mp hb]
    exact hbelow a (List.mem_append.mpr ((List.mem_append.mp ha).imp_left (hjournals a)))

omit [LawfulTree T] in
/-- A batch that failed: the journal has some of its bytes, and the trees have none of its rows. -/
theorem Inv.fail (h : ks.Inv xxh3 disk n) (hdoubt : disk.doubt = none) {batch : Batch} (hok : BatchOk ks.names batch)
    (hseqno : batch.seqno = ks.seqno) {front : List UInt8} (hfront : front <+: batch.bytes xxh3) :
    ∃ whole,
      ({ ks with seqno := ks.seqno + 1, written := ks.written ++ front, isPoisoned := true } : Keyspace T).Inv xxh3
      ⟨disk.places, whole, some batch⟩ (n + 1) := by
  obtain ⟨hwhole, hwritten, hjournals⟩ := h.settled hdoubt
  obtain ⟨hbelow, hascending, hdisk⟩ := h.newest hdoubt hseqno
  have hall : ∀ b ∈ disk.log ++ [batch], b ∈ disk.all ∨ b = batch := fun b hb =>
    (List.mem_append.mp hb).imp (List.mem_append_left _) List.mem_singleton.mp
  have hstep : ∀ whole,
      (∃ rest, ks.written ++ front = batchesBytes xxh3 whole ++ rest ∧ Begun xxh3 (some batch) rest) →
      (whole = disk.places.active ∨ whole = disk.places.active ++ [batch]) →
      ({ ks with seqno := ks.seqno + 1, written := ks.written ++ front, isPoisoned := true } : Keyspace T).Inv xxh3
        ⟨disk.places, whole, some batch⟩ (n + 1) := by
    intro whole hrest hwhole'
    exact {
      names := h.names
      trees := h.trees
      journals := h.journals.imp fun _ _ hjournal => hjournal.congr rfl fun _ _ _ hv => hv
      written := hrest
      whole := hwhole'.imp_right fun hwhole => ⟨batch, rfl, hwhole⟩
      onDisk := fun b hb => .inl (hjournals b hb)
      sealedDoubt := fun b hb hsome => by
        have := hbelow b (List.mem_append_left _ (hjournals b hb))
        rw [Option.some.inj hsome] at this
        exact absurd this (Nat.lt_irrefl _)
      poisoned := rfl
      ascending := hascending
      diskAscending := by
        rcases hwhole' with rfl | rfl
        · have := h.diskAscending
          rwa [hwhole] at this
        · exact hdisk
      ok := fun b hb => (hall b hb).elim (h.ok b) fun heq => heq ▸ hok
      below := fun b hb => (hall b hb).elim (fun hb => Nat.lt_succ_of_lt (h.below b hb)) fun heq => by
        rw [heq, hseqno]
        exact Nat.lt_succ_self _
      bound := Nat.succ_le_succ h.bound
      synced := h.synced.trans (by rw [List.length_append]; exact Nat.le_add_right _ _) }
  by_cases heq : front = batch.bytes xxh3
  · refine ⟨disk.places.active ++ [batch], hstep _ ⟨[], ?_, .inl rfl⟩ (.inr rfl)⟩
    rw [hwritten, heq, batchesBytes_append, List.append_nil]
  · exact ⟨disk.places.active, hstep _ ⟨front, by rw [hwritten], .inr ⟨batch, rfl, hfront, heq⟩⟩ (.inl rfl)⟩

/-- A batch that is published: its bytes are in the journal and its rows in the trees. -/
theorem Inv.publish (h : ks.Inv xxh3 disk n) (hdoubt : disk.doubt = none) {batch : Batch} (hok : BatchOk ks.names batch)
    (hseqno : batch.seqno = ks.seqno) {synced : Nat} (hsynced : synced ≤ (ks.written ++ batch.bytes xxh3).length) :
    ({ ks with
        seqno := ks.seqno + 1, written := ks.written ++ batch.bytes xxh3, synced,
        tree := applyItems ks.names batch.seqno ks.tree batch.items } : Keyspace T).Inv xxh3
      ⟨{ disk.places with active := disk.places.active ++ [batch] }, disk.places.active ++ [batch], none⟩ (n + 1) := by
  obtain ⟨hwhole, hwritten, hjournals⟩ := h.settled hdoubt
  obtain ⟨hbelow, hascending, hdisk⟩ := h.newest hdoubt hseqno
  have hlog : (disk.places.base ++ (disk.places.active ++ [batch])) ++ [] = disk.log ++ [batch] := by
    rw [List.append_nil, ← List.append_assoc]
    rfl
  have hall : ∀ b ∈ disk.log ++ [batch], b ∈ disk.all ∨ b = batch := fun b hb =>
    (List.mem_append.mp hb).imp (List.mem_append_left _) List.mem_singleton.mp
  exact {
    names := h.names
    trees := fun name hname => by
      obtain ⟨hactive, hsealed, hsegments⟩ := applyItems_eq ks.tree hname batch.seqno batch.items
      refine (h.trees name hname).commit hactive hsealed hsegments fun v hv => ?_
      rw [hseqno]
      exact h.versions_below (fun b hb => List.mem_append_left _ hb) v hv
    journals := h.journals.imp fun _ _ hjournal => hjournal.congr rfl fun name hname v hv => by
      rw [(applyItems_eq ks.tree hname batch.seqno batch.items).2.2]
      exact hv
    written := ⟨[], by rw [hwritten, batchesBytes_append, List.append_nil], .inl rfl⟩
    whole := .inl rfl
    onDisk := fun b hb => .inl (hjournals b hb)
    sealedDoubt := fun b hb hsome => absurd hsome.symm (Option.some_ne_none _)
    poisoned := by
      rw [← hdoubt]
      exact h.poisoned
    ascending := by
      rw [Disk.all, Disk.log]
      exact hlog ▸ hascending
    diskAscending := hdisk
    ok := fun b hb => by
      rw [Disk.all, Disk.log, Option.toList_none, hlog] at hb
      exact (hall b hb).elim (h.ok b) fun heq => heq ▸ hok
    below := fun b hb => by
      rw [Disk.all, Disk.log, Option.toList_none, hlog] at hb
      rcases hall b hb with hb | rfl
      · exact Nat.lt_succ_of_lt (h.below b hb)
      · rw [hseqno]
        exact Nat.lt_succ_self _
    bound := Nat.succ_le_succ h.bound
    synced := hsynced }

/-! ### A rotation, a flush and the deletion of journals -/

omit [LawfulTree T] in
theorem Inv.more (h : ks.Inv xxh3 disk n) : ks.Inv xxh3 disk (n + 1) :=
  { h with bound := h.bound.trans (Nat.le_succ n) }

omit [LawfulTree T] in
/-- The batches of each journal are among those of all journals. -/
theorem Inv.journals_mem (h : ks.Inv xxh3 disk n) :
    List.Forall₂ (fun journal batches => JournalInv xxh3 ks disk.places.base journal batches ∧
      ∀ batch ∈ batches, batch ∈ disk.places.journals.flatten) ks.sealedJournals disk.places.journals := by
  obtain ⟨hlength, hzip⟩ := List.forall₂_iff_zip.mp h.journals
  refine List.forall₂_iff_zip.mpr ⟨hlength, fun hmem => ⟨hzip hmem, fun batch hbatch => ?_⟩⟩
  exact List.mem_flatten.mpr ⟨_, (List.of_mem_zip hmem).2, hbatch⟩

omit [LawfulTree T] in
/-- The batch in doubt is newer than the published ones. -/
theorem Inv.doubt_newer (h : ks.Inv xxh3 disk n) {batch : Batch} (hdoubt : disk.doubt = some batch) :
    ∀ v ∈ versionsOf name disk.log, v.seqno < batch.seqno := by
  intro v hv
  obtain ⟨b, hb, hv⟩ := mem_versionsOf.mp hv
  rw [seqno_of_mem hv]
  refine (List.pairwise_append.mp h.ascending).2.2 b hb batch ?_
  rw [hdoubt]
  exact List.mem_singleton_self _

omit [LawfulTree T] in
/-- A row that was published and is in a journal is of a batch that was published before the journal was sealed. -/
theorem Inv.base_of_journal (h : ks.Inv xxh3 disk n) {v : Version} (hv : v ∈ versionsOf name disk.log)
    {batches : List Batch} (hbatches : ∀ batch ∈ batches, batch ∈ disk.places.journals.flatten)
    (hmem : v ∈ versionsOf name batches) : v ∈ versionsOf name disk.places.base := by
  obtain ⟨batch, hbatch, hmem⟩ := mem_versionsOf.mp hmem
  rcases h.onDisk batch (hbatches batch hbatch) with hbase | hdoubt
  · exact mem_versionsOf.mpr ⟨batch, hbase, hmem⟩
  · have := h.doubt_newer hdoubt v hv
    rw [seqno_of_mem hmem] at this
    exact absurd this (Nat.lt_irrefl _)

omit [LawfulTree T] in
theorem tornTail_begun (hok : ∀ batch, disk.doubt = some batch → batch.Valid) {front : List UInt8}
    (hfront : Begun xxh3 disk.doubt front) (k : Nat) : TornTail xxh3 (front ++ zeros k) := by
  rcases hfront with rfl | ⟨batch, hdoubt, hprefix, hne⟩
  · exact tornTail_zeros k
  · exact ⟨batch, front, k, hok batch hdoubt, hprefix, hne, rfl⟩

omit [LawfulTree T] in
theorem Inv.doubt_ok (h : ks.Inv xxh3 disk n) {batch : Batch} (hdoubt : disk.doubt = some batch) :
    BatchOk ks.names batch := by
  refine h.ok batch (List.mem_append_right _ ?_)
  rw [hdoubt]
  exact List.mem_singleton_self _

omit [LawfulTree T] in
theorem Inv.rotate (h : ks.Inv xxh3 disk n) {tree : String → T} (hsegments : ∀ name ∈ ks.names,
      segments (tree name) = segments (ks.tree name) ∧ (activeMemtable (tree name) = activeMemtable (ks.tree name) ∧
        sealedMemtables (tree name) = sealedMemtables (ks.tree name) ∨ activeMemtable (tree name) = [] ∧
          sealedMemtables (tree name) = sealedMemtables (ks.tree name) ++ [activeMemtable (ks.tree name)])) :
    ({ ks with
        tree, written := [], synced := 0, allocated := PRE_ALLOCATED_BYTES,
        sealedJournals := ks.sealedJournals ++ [⟨ks.file, ks.names.filterMap fun name =>
          (getHighestMemtableSeqno (tree name)).map fun lsn => (name, lsn)⟩] } : Keyspace T).Inv xxh3
      ⟨⟨disk.log, [], disk.places.journals ++ [disk.whole]⟩, [], disk.doubt⟩ (n + 1) := by
  have hwhole : ∀ batch ∈ disk.places.active, batch ∈ disk.whole := by
    intro batch hbatch
    rcases h.whole with hwhole | ⟨b, -, hwhole⟩
    · rwa [hwhole]
    · rw [hwhole]
      exact List.mem_append_left _ hbatch
  have htrees : ∀ name ∈ ks.names, TreeInv (tree name) name
      ⟨disk.log, [], disk.places.journals ++ [disk.whole]⟩ := fun name hname =>
    (h.trees name hname).seal (hsegments name hname).2 (hsegments name hname).1 hwhole
  exact {
    names := h.names
    trees := htrees
    journals := by
      refine List.rel_append ?_ (.cons ⟨?_, fun name hname v hv hmem => ?_⟩ .nil)
      · refine h.journals_mem.imp fun journal batches hjournal => ⟨hjournal.1.file, fun name hname v hv hmem => ?_⟩
        rw [(hsegments name hname).1]
        exact hjournal.1.marked name hname v (h.base_of_journal hv hjournal.2 hmem) hmem
      · obtain ⟨front, hwritten, hfront⟩ := h.written
        refine ⟨front ++ zeros (ks.allocated - ks.written.length),
          tornTail_begun (fun batch hdoubt => (h.doubt_ok hdoubt).valid) hfront _, ?_⟩
        rw [← List.append_assoc, ← hwritten]
        rfl
      · -- the row is in a memtable, and so not newer than the mark of the partition
        have htree := htrees name hname
        have hlog : v ∈ versionsOf name (disk.log ++ []) := by rwa [List.append_nil]
        rcases htree.kept v hlog with hmem | hcovered
        · obtain ⟨lsn, hlsn, hle⟩ := exists_highestSeqno hmem
          exact .inr ⟨lsn, List.mem_filterMap.mpr ⟨name, hname, by rw [getHighestMemtableSeqno, hlsn]; rfl⟩, hle⟩
        · exact .inl hcovered
    written := ⟨[], rfl, .inl rfl⟩
    whole := .inl rfl
    onDisk := fun batch hbatch => by
      rw [List.flatten_concat] at hbatch
      rcases List.mem_append.mp hbatch with hbatch | hbatch
      · exact (h.onDisk batch hbatch).imp_left (List.mem_append_left _)
      · rcases h.whole with hwhole | ⟨b, hdoubt, hwhole⟩
        · rw [hwhole] at hbatch
          exact .inl (List.mem_append_right _ hbatch)
        · rw [hwhole] at hbatch
          rcases List.mem_append.mp hbatch with hbatch | hbatch
          · exact .inl (List.mem_append_right _ hbatch)
          · rw [List.mem_singleton.mp hbatch]
            exact .inr hdoubt
    sealedDoubt := fun _ _ _ => ⟨rfl, rfl⟩
    poisoned := h.poisoned
    ascending := by
      rw [Disk.all, Disk.log, List.append_nil]
      exact h.ascending
    diskAscending := by
      rw [List.append_nil, List.flatten_concat]
      exact h.diskAscending
    ok := fun batch hbatch => by
      rw [Disk.all, Disk.log, List.append_nil] at hbatch
      exact h.ok batch hbatch
    below := fun batch hbatch => by
      rw [Disk.all, Disk.log, List.append_nil] at hbatch
      exact h.below batch hbatch
    bound := h.bound.trans (Nat.le_succ n)
    synced := Nat.le_refl _ }

theorem Inv.flush (h : ks.Inv xxh3 disk n) (name : String) (k : Nat) : (ks.flush name k).Inv xxh3 disk (n + 1) := by
  rw [Keyspace.flush]
  split_ifs with hname
  · have hweak : ∀ v ∈ versions (ks.tree name), v.valueType ≠ .weakTombstone := by
      intro v hv
      obtain ⟨batch, hbatch, hv⟩ := mem_versionsOf.mp ((h.trees name hname).versions_sub hv)
      obtain ⟨item, hitem, -, rfl⟩ := mem_versions.mp hv
      exact (h.log_ok batch hbatch).strong item hitem
    have hcovered := LawfulTree.covered_register (ks.tree name) k hweak
    refine { h.more with trees := fun other hother => ?_, journals := h.journals.imp fun _ _ hjournal => ?_ }
    · dsimp only
      by_cases heq : other = name
      · rw [heq, Function.update_self]
        exact (h.trees name hname).flush k hweak
      · rw [Function.update_of_ne heq]
        exact h.trees other hother
    · refine hjournal.congr rfl fun other hother v hv => ?_
      dsimp only
      by_cases heq : other = name
      · rw [heq] at hv
        rw [heq, Function.update_self]
        exact hv.trans fun w hw => hcovered w (List.mem_append_left _ hw)
      · rw [Function.update_of_ne heq]
        exact hv
  · exact h.more

omit [LawfulTree T] in
/-- The rows of a flushed journal are on the disk, so it is not needed. -/
theorem Inv.delete (h : ks.Inv xxh3 disk n) {journal : SealedJournal} {rest : List SealedJournal}
    (hsealed : ks.sealedJournals = journal :: rest) (hflushed : ks.isFlushed journal = true) :
    ∃ journals, ({ ks with sealedJournals := rest } : Keyspace T).Inv xxh3
      ⟨{ disk.places with journals }, disk.whole, disk.doubt⟩ n := by
  have hjournals := h.journals_mem
  rw [hsealed] at hjournals
  obtain ⟨batches, journals, hjournal, hrest, hplaces⟩ := List.forall₂_cons_left_iff.mp hjournals
  have hsub : ∀ batch ∈ journals.flatten, batch ∈ disk.places.journals.flatten := by
    intro batch hbatch
    rw [hplaces]
    exact List.mem_append_right _ hbatch
  refine ⟨journals, { h with
    trees := fun name hname => ?_, journals := ?_, onDisk := ?_, sealedDoubt := ?_, diskAscending := ?_ }⟩
  · refine (h.trees name hname).delete hplaces fun v hv hmem => ?_
    rcases hjournal.1.marked name hname v hv hmem with hcovered | ⟨lsn, hmark, hle⟩
    · exact hcovered
    · have hpersisted := List.all_eq_true.mp hflushed _ hmark
      cases hp : getHighestPersistedSeqno (ks.tree name) with
      | none =>
          rw [hp] at hpersisted
          cases hpersisted
      | some p =>
          rw [hp] at hpersisted
          refine (h.trees name hname).flushed v ?_ p hp (hle.trans (of_decide_eq_true hpersisted))
          rw [versionsOf_append]
          exact List.mem_append_left _ hv
  · exact hrest.imp fun _ _ hjournal => hjournal.1.congr rfl fun _ _ _ hv => hv
  · exact fun batch hbatch => h.onDisk batch (hsub batch hbatch)
  · exact fun batch hbatch => h.sealedDoubt batch (hsub batch hbatch)
  · refine h.diskAscending.sublist (List.Sublist.append_right ?_ _)
    rw [hplaces]
    exact List.sublist_append_right _ _

omit [LawfulTree T] in
theorem Inv.deleteWhile {l : List SealedJournal} (h : ({ ks with sealedJournals := l } : Keyspace T).Inv xxh3 disk n) :
    ∃ journals, ({ ks with sealedJournals := l.dropWhile ks.isFlushed } : Keyspace T).Inv xxh3
      ⟨{ disk.places with journals }, disk.whole, disk.doubt⟩ n := by
  induction l generalizing disk with
  | nil => exact ⟨disk.places.journals, h⟩
  | cons journal rest ih =>
      rw [List.dropWhile_cons]
      split_ifs with hflushed
      · obtain ⟨journals, hdelete⟩ := h.delete rfl hflushed
        exact @ih ⟨{ disk.places with journals }, disk.whole, disk.doubt⟩ hdelete
      · exact ⟨disk.places.journals, h⟩

omit [LawfulTree T] in
theorem Inv.maintenance (h : ks.Inv xxh3 disk n) :
    ∃ journals, ks.maintenance.Inv xxh3 ⟨{ disk.places with journals }, disk.whole, disk.doubt⟩ n :=
  @Inv.deleteWhile _ _ _ _ ks disk n ks.sealedJournals h

end Keyspace

end LeanBbg.Fjall
