import LeanBbg.Journal

/-! The keyspace of the engine: partitions with their trees, the active journal and the sealed ones, and the steps
that change them. A batch is written to the journal before the trees; a memtable is sealed together with the journal;
a sealed journal is deleted when the trees have its rows on the disk; and recovery rebuilds the memtables from the
journals that are left. -/

namespace LeanBbg.Fjall

open Bytes Bytes.Scanner

/-- A row of a tree: what was written for a key, and when. -/
structure Version where
  key : List UInt8
  value : List UInt8
  valueType : ValueType
  seqno : Nat

/-- What a read returns for the newest row of a key. -/
def Version.read (version : Version) : Option (List UInt8) :=
  match version.valueType with
  | .value => some version.value
  | .tombstone => none
  | .weakTombstone => none

/-- The tree library as the keyspace uses it: what is in the memtables and on the disk, and the operations. -/
class AbstractTree (T : Type) where
  create : T
  activeMemtable : T → List Version
  sealedMemtables : T → List (List Version)
  segments : T → List Version
  get : T → List UInt8 → Option (List UInt8)
  /-- All keys with their values, as an unbounded range returns them. -/
  range : T → List (List UInt8 × List UInt8)
  insert : T → Version → T
  rotateMemtable : T → Option T
  clearActiveMemtable : T → T
  /-- The oldest sealed memtables are written to the disk. -/
  registerSegments : T → Nat → T
  /-- The tree as it is opened again. -/
  reopen : T → T

export AbstractTree (activeMemtable sealedMemtables segments)

section Tree

variable {T : Type} [AbstractTree T]

def memtables (t : T) : List Version := (sealedMemtables t).flatten ++ activeMemtable t

def versions (t : T) : List Version := segments t ++ memtables t

def highestSeqno (l : List Version) : Option Nat := (l.map Version.seqno).max?

def getHighestPersistedSeqno (t : T) : Option Nat := highestSeqno (segments t)

def getHighestMemtableSeqno (t : T) : Option Nat := highestSeqno (memtables t)

def getHighestSeqno (t : T) : Option Nat := highestSeqno (versions t)

/-- A row of the list is as new as the given one, and of the same key. -/
def Covered (l : List Version) (version : Version) : Prop := ∃ w ∈ l, w.key = version.key ∧ version.seqno ≤ w.seqno

/-- What the keyspace relies on. A flush may drop rows that newer ones cover. -/
class LawfulTree (T : Type) [AbstractTree T] : Prop where
  activeMemtable_create : activeMemtable (AbstractTree.create : T) = []
  sealedMemtables_create : sealedMemtables (AbstractTree.create : T) = []
  segments_create : segments (AbstractTree.create : T) = []
  get_newest : ∀ (t : T) (version : Version), version ∈ versions t →
    (∀ w ∈ versions t, w.key = version.key → w.seqno < version.seqno ∨ w = version) →
    AbstractTree.get t version.key = version.read
  get_missing : ∀ (t : T) (key : List UInt8), (∀ w ∈ versions t, w.key ≠ key) → AbstractTree.get t key = none
  range_ordered : ∀ t : T, (AbstractTree.range t).Pairwise fun a b => compare a.1 b.1 = .lt
  mem_range : ∀ (t : T) (key value : List UInt8),
    (key, value) ∈ AbstractTree.range t ↔ AbstractTree.get t key = some value
  activeMemtable_insert : ∀ (t : T) (v : Version), activeMemtable (AbstractTree.insert t v) = activeMemtable t ++ [v]
  sealedMemtables_insert : ∀ (t : T) (v : Version), sealedMemtables (AbstractTree.insert t v) = sealedMemtables t
  segments_insert : ∀ (t : T) (v : Version), segments (AbstractTree.insert t v) = segments t
  rotate_none : ∀ t : T, AbstractTree.rotateMemtable t = none → activeMemtable t = []
  rotate_some : ∀ t t' : T, AbstractTree.rotateMemtable t = some t' → activeMemtable t' = [] ∧
    sealedMemtables t' = sealedMemtables t ++ [activeMemtable t] ∧ segments t' = segments t
  activeMemtable_clear : ∀ t : T, activeMemtable (AbstractTree.clearActiveMemtable t) = []
  sealedMemtables_clear : ∀ t : T, sealedMemtables (AbstractTree.clearActiveMemtable t) = sealedMemtables t
  segments_clear : ∀ t : T, segments (AbstractTree.clearActiveMemtable t) = segments t
  activeMemtable_register : ∀ (t : T) (n : Nat), activeMemtable (AbstractTree.registerSegments t n) = activeMemtable t
  sealedMemtables_register : ∀ (t : T) (n : Nat),
    sealedMemtables (AbstractTree.registerSegments t n) = (sealedMemtables t).drop n
  mem_of_register : ∀ (t : T) (n : Nat), ∀ v ∈ segments (AbstractTree.registerSegments t n),
    v ∈ segments t ++ ((sealedMemtables t).take n).flatten
  covered_register : ∀ (t : T) (n : Nat), (∀ v ∈ versions t, v.valueType ≠ .weakTombstone) →
    ∀ v ∈ segments t ++ ((sealedMemtables t).take n).flatten, Covered (segments (AbstractTree.registerSegments t n)) v
  activeMemtable_reopen : ∀ t : T, activeMemtable (AbstractTree.reopen t) = []
  sealedMemtables_reopen : ∀ t : T, sealedMemtables (AbstractTree.reopen t) = []
  segments_reopen : ∀ t : T, segments (AbstractTree.reopen t) = segments t

end Tree

/-! ### The keyspace -/

inductive PersistMode where
  | buffer
  | syncData
  | syncAll
  deriving DecidableEq

def PRE_ALLOCATED_BYTES : Nat := 32 * 1024 * 1024

/-- A sealed journal, and the newest row of each partition that has to be on the disk before it is deleted. -/
structure SealedJournal where
  file : List UInt8
  watermarks : List (String × Nat)

structure Keyspace (T : Type) where
  /-- The names of the partitions. -/
  names : List String
  tree : String → T
  seqno : Nat
  isPoisoned : Bool
  sealedJournals : List SealedJournal
  /-- What was written to the active journal. -/
  written : List UInt8
  /-- How many bytes of it are on the disk for certain. -/
  synced : Nat
  /-- The length of its file; behind what was written there are zeros. -/
  allocated : Nat

/-- What goes wrong in a commit: the journal takes only the first bytes of the batch, or does not reach the disk. -/
inductive Fault where
  | write (bytes : Nat)
  | persist
  deriving DecidableEq

/-- A write fails when there is something to write, and a persist when one is asked for. -/
def Fault.strikes (bytes : List UInt8) (durability : Option PersistMode) : Fault → Bool
  | write _ => bytes ≠ []
  | persist => durability.isSome

inductive Answer where
  | done
  | io
  | poisoned
  | row (value : Option (List UInt8))
  deriving DecidableEq

variable {T : Type} [AbstractTree T]

/-- The trees after the items of a batch. Items of unknown partitions are skipped. -/
def applyItems (names : List String) (seqno : Nat) (tree : String → T) (items : List Item) : String → T :=
  items.foldl (fun tree item =>
    if item.partition ∈ names then
      Function.update tree item.partition
        (AbstractTree.insert (tree item.partition) ⟨item.key, item.value, item.valueType, seqno⟩)
    else tree) tree

def replay (names : List String) (tree : String → T) (batches : List Batch) : String → T :=
  batches.foldl (fun tree batch => applyItems names batch.seqno tree batch.items) tree

/-- A change of a batch: a value to insert, or none to remove the key. -/
structure Change where
  partition : String
  key : List UInt8
  value : Option (List UInt8)

def Change.item (change : Change) : Item :=
  match change.value with
  | some value => ⟨change.partition, change.key, value, .value⟩
  | none => ⟨change.partition, change.key, [], .tombstone⟩

variable [Coding] (xxh3 : List UInt8 → UInt64)

namespace Keyspace

/-- `create_new`: a keyspace with new partitions and an empty journal. -/
def create (names : List String) : Keyspace T where
  names := names
  tree := fun _ => AbstractTree.create
  seqno := 0
  isPoisoned := false
  sealedJournals := []
  written := []
  synced := 0
  allocated := PRE_ALLOCATED_BYTES

/-- `Batch::commit`. A failed write or persist poisons the keyspace before the trees see the batch. -/
def commit (ks : Keyspace T) (changes : List Change) (durability : Option PersistMode) (fault : Option Fault) :
    Answer × Keyspace T :=
  if ks.isPoisoned then (.poisoned, ks)
  else
    let batch : Batch := ⟨ks.seqno, changes.map Change.item⟩
    let ks := { ks with seqno := ks.seqno + 1 }
    let bytes := batch.bytes xxh3
    let written := ks.written ++ bytes
    let applied := { ks with written, tree := applyItems ks.names batch.seqno ks.tree batch.items }
    -- an empty batch is not written, so its write does not fail
    match fault.filter (Fault.strikes bytes durability), durability with
    | some (.write n), _ => (.io, { ks with written := ks.written ++ bytes.take n, isPoisoned := true })
    | some .persist, _ => (.poisoned, { ks with written, isPoisoned := true })
    | none, some .syncAll => (.done, { applied with synced := written.length })
    | none, some .syncData => (.done, { applied with synced := written.length })
    | none, some .buffer => (.done, applied)
    | none, none => (.done, applied)

/-- The file of the active journal. -/
def file (ks : Keyspace T) : List UInt8 := ks.written ++ zeros (ks.allocated - ks.written.length)

/-- `PartitionHandle::rotate_memtable`: the memtable and the journal are sealed together. -/
def rotateMemtable (ks : Keyspace T) (name : String) : Keyspace T :=
  if name ∈ ks.names then
    match AbstractTree.rotateMemtable (ks.tree name) with
    | none => ks
    | some t =>
        let tree := Function.update ks.tree name t
        let watermarks := ks.names.filterMap fun name =>
          (getHighestMemtableSeqno (tree name)).map fun lsn => (name, lsn)
        { ks with tree, sealedJournals := ks.sealedJournals ++ [⟨ks.file, watermarks⟩], written := [], synced := 0,
                  allocated := PRE_ALLOCATED_BYTES }
  else ks

/-- The flush worker has written the oldest sealed memtables of a partition. -/
def flush (ks : Keyspace T) (name : String) (n : Nat) : Keyspace T :=
  if name ∈ ks.names then
    { ks with tree := Function.update ks.tree name (AbstractTree.registerSegments (ks.tree name) n) }
  else ks

/-- Every partition has the rows of the journal on the disk. -/
def isFlushed (ks : Keyspace T) (journal : SealedJournal) : Bool :=
  journal.watermarks.all fun watermark => (getHighestPersistedSeqno (ks.tree watermark.1)).any (watermark.2 ≤ ·)

/-- `JournalManager::maintenance`: the oldest journals that are flushed are deleted. -/
def maintenance (ks : Keyspace T) : Keyspace T :=
  { ks with sealedJournals := ks.sealedJournals.dropWhile ks.isFlushed }

end Keyspace

/-! ### Recovery -/

/-- The newest row of each partition that is in the batches of a journal. -/
def watermarksOf (names : List String) (batches : List Batch) : List (String × Nat) :=
  names.filterMap fun name =>
    ((batches.filter fun batch => batch.items.any fun item => item.partition = name).map Batch.seqno).max?.map
      fun lsn => (name, lsn)

/-- A partition takes the memtable of a sealed journal, or drops it when its rows are on the disk already. -/
def settle (state : (String → T) × Nat) (watermark : String × Nat) : Except RecoveryError ((String → T) × Nat) :=
  let (tree, seqno) := state
  let (name, lsn) := watermark
  if (getHighestPersistedSeqno (tree name)).any (lsn ≤ ·) then
    .ok (Function.update tree name (AbstractTree.clearActiveMemtable (tree name)), seqno)
  else
    match AbstractTree.rotateMemtable (tree name) with
    | none => .ok (tree, seqno)
    | some t =>
        if highestSeqno (activeMemtable (tree name)) ≠ some lsn then
          .error (.panic "memtable lsn does not match what was recovered - this is a bug")
        else .ok (Function.update tree name t, max seqno ((getHighestSeqno t).elim 0 (· + 1)))

/-- `recover_sealed_memtables`, for one journal. -/
def recoverSealedJournal (names : List String) (state : (String → T) × Nat) (file : List UInt8) :
    Except RecoveryError (((String → T) × Nat) × SealedJournal) :=
  match recoverJournal xxh3 file with
  | none => .error (.panic "the reader does not end")
  | some (.error e) => .error e
  | some (.ok (batches, file)) =>
      let watermarks := watermarksOf names batches
      (watermarks.foldlM settle (replay names state.1 batches, state.2)).map fun state => (state, ⟨file, watermarks⟩)

def recoverSealedMemtables (names : List String) :
    (String → T) × Nat → List (List UInt8) → Except RecoveryError (((String → T) × Nat) × List SealedJournal)
  | state, [] => .ok (state, [])
  | state, file :: files =>
      match recoverSealedJournal xxh3 names state file with
      | .error e => .error e
      | .ok (state, journal) =>
          (recoverSealedMemtables names state files).map fun result => (result.1, journal :: result.2)

namespace Keyspace

/-- `recover`, from the trees on the disk, the sealed journals and the active one. -/
def recover (names : List String) (tree : String → T) (sealedFiles : List (List UInt8)) (file : List UInt8) :
    Except RecoveryError (Keyspace T) :=
  match recoverSealedMemtables xxh3 names (fun name => AbstractTree.reopen (tree name), 0) sealedFiles with
  | .error e => .error e
  | .ok ((tree, seqno), sealedJournals) =>
      match recoverJournal xxh3 file with
      | none => .error (.panic "the reader does not end")
      | some (.error e) => .error e
      | some (.ok (batches, file)) =>
          let tree := replay names tree batches
          let seqno := names.foldl (fun seqno name => max seqno ((getHighestSeqno (tree name)).elim 0 (· + 1))) seqno
          .ok { names, tree, seqno, isPoisoned := false, sealedJournals, written := file, synced := file.length,
                allocated := file.length }

/-- A crash keeps what is on the disk and some of what was written after that; then the keyspace is opened again. -/
def crash (ks : Keyspace T) (kept : Nat) : Except RecoveryError (Keyspace T) :=
  let kept := ks.written.take (max kept ks.synced)
  recover xxh3 ks.names ks.tree (ks.sealedJournals.map SealedJournal.file) (kept ++ zeros (ks.allocated - kept.length))

end Keyspace

/-! ### Steps -/

inductive Event where
  | get (name : String) (key : List UInt8)
  | commit (changes : List Change) (durability : Option PersistMode) (fault : Option Fault)
  | rotateMemtable (name : String)
  | flush (name : String) (n : Nat)
  | maintenance
  | crash (kept : Nat)

/-- A step answers, unless recovery fails. -/
def Keyspace.step (ks : Keyspace T) : Event → Option (Answer × Keyspace T)
  | .get name key => some (.row (AbstractTree.get (ks.tree name) key), ks)
  | .commit changes durability fault => some (ks.commit xxh3 changes durability fault)
  | .rotateMemtable name => some (.done, ks.rotateMemtable name)
  | .flush name n => some (.done, ks.flush name n)
  | .maintenance => some (.done, ks.maintenance)
  | .crash kept =>
      match ks.crash xxh3 kept with
      | .error _ => none
      | .ok ks => some (.done, ks)

end LeanBbg.Fjall
