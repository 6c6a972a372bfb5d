import LeanBbg.Accounting
import LeanBbg.ChangeIds
import LeanBbg.KeyspaceRuns

/-! The database over the engine. The tables are partitions of one keyspace, a commit is one batch that is synced, and
a failure of the batch leaves the database unusable until it is opened again. Whatever the engine does in between, the
database behaves as one whose commits happen or do not happen as a whole. -/

namespace LeanBbg.Storage

open Bytes Fjall

/-! ### The tables -/

/-- A change as the batch takes it. -/
def FjallEngine.change (change : StagedChange) : Fjall.Change := ⟨change.1.1.name, change.1.2, change.2⟩

theorem mem_tableNames {table : Table} (h : table ∈ NAMED_TABLES) : table.name ∈ NAMED_TABLES.map Table.name :=
  List.mem_map_of_mem h

theorem tableNames_nodup : (NAMED_TABLES.map Table.name).Nodup := by decide +kernel

theorem tableName_injective {table table' : Table} (h : table ∈ NAMED_TABLES) (h' : table' ∈ NAMED_TABLES)
    (hname : table.name = table'.name) : table = table' :=
  List.inj_on_of_nodup_map tableNames_nodup h h' hname

/-- The tables hold what the ledger of the keyspace says. -/
structure TablesOf (log : List (List Item)) (tables : Tables) : Prop where
  named : ∀ table ∈ NAMED_TABLES, ∀ key, (tables table)[key]? = contents log table.name key
  other : ∀ table, table ∉ NAMED_TABLES → tables table = ∅

theorem TablesOf.unique {log : List (List Item)} {tables tables' : Tables} (h : TablesOf log tables)
    (h' : TablesOf log tables') :
    tables = tables' := by
  refine funext fun table => ?_
  by_cases htable : table ∈ NAMED_TABLES
  · exact Std.ExtTreeMap.ext_getElem? fun key => (h.named table htable key).trans (h'.named table htable key).symm
  · rw [h.other table htable, h'.other table htable]

theorem change_read (change : StagedChange) : (FjallEngine.change change).item.read = change.2 := by
  obtain ⟨address, value⟩ := change
  cases value <;> rfl

theorem change_partition (change : StagedChange) : (FjallEngine.change change).item.partition = change.1.1.name := by
  obtain ⟨address, value⟩ := change
  cases value <;> rfl

theorem change_key (change : StagedChange) : (FjallEngine.change change).item.key = change.1.2 := by
  obtain ⟨address, value⟩ := change
  cases value <;> rfl

/-- The changes of a batch are of different rows. -/
theorem change_nodup {changes : Changes} (h : ∀ change ∈ changes.entries, change.1.1 ∈ NAMED_TABLES) :
    (changes.entries.map fun change => (change.1.1.name, change.1.2)).Nodup := by
  have hinj : (changes.entries.map Sigma.fst).map (fun address => (address.1.name, address.2)) =
      changes.entries.map fun change => (change.1.1.name, change.1.2) := by
    rw [List.map_map]
    rfl
  rw [← hinj]
  refine List.Nodup.map_on (fun address haddress address' haddress' heq => ?_) changes.nodupKeys
  obtain ⟨change, hchange, rfl⟩ := List.mem_map.mp haddress
  obtain ⟨change', hchange', rfl⟩ := List.mem_map.mp haddress'
  obtain ⟨hname, hkey⟩ := Prod.mk.inj heq
  exact Prod.ext (tableName_injective (h change hchange) (h change' hchange') hname) hkey

/-- A batch of the engine does to its tables what the changes do. -/
theorem TablesOf.applyChanges {log : List (List Item)} {tables : Tables} (h : TablesOf log tables) {changes : Changes}
    (hchanges : ∀ change ∈ changes.entries, change.1.1 ∈ NAMED_TABLES) :
    TablesOf (log ++ [(changes.entries.map FjallEngine.change).map Fjall.Change.item])
      (applyChanges tables changes) := by
  have hitems : (((changes.entries.map FjallEngine.change).map Fjall.Change.item).map
      fun item => (item.partition, item.key)).Nodup := by
    rw [List.map_map, List.map_map]
    have hnodup := change_nodup hchanges
    refine Eq.mp (congrArg List.Nodup (List.map_congr_left fun change _ => ?_)) hnodup
    exact Prod.ext (change_partition change).symm (change_key change).symm
  constructor
  · intro table htable key
    rw [applyChanges_get, contents, List.foldl_append, List.foldl_cons, List.foldl_nil]
    rcases foldl_writeItem hitems (contents log) table.name key with ⟨item, hitem, hname, hkey, hread⟩ | ⟨hnone, hread⟩
    · obtain ⟨_, hmem, rfl⟩ := List.mem_map.mp hitem
      obtain ⟨⟨address, value⟩, hchange, rfl⟩ := List.mem_map.mp hmem
      rw [change_partition] at hname
      rw [change_key] at hkey
      have haddress : address = (table, key) :=
        Prod.ext (tableName_injective (hchanges ⟨address, value⟩ hchange) htable hname) hkey
      rw [haddress] at hchange
      have hlookup : changes.lookup (table, key) = some value := List.mem_dlookup changes.nodupKeys hchange
      rw [hlookup, Option.getD_some]
      exact (hread.trans (change_read ⟨address, value⟩)).symm
    · have hlookup : changes.lookup (table, key) = none := by
        refine List.dlookup_eq_none.mpr fun hmem => ?_
        obtain ⟨change, hchange, heq⟩ := List.mem_map.mp hmem
        refine hnone _ (List.mem_map_of_mem (List.mem_map_of_mem hchange)) ?_
        rw [change_partition, change_key, heq]
        exact ⟨rfl, rfl⟩
      rw [hlookup, Option.getD_none, h.named table htable key]
      exact hread.symm
  · intro table htable
    refine Std.ExtTreeMap.ext_getElem? fun key => ?_
    have hlookup : changes.lookup (table, key) = none := by
      refine List.dlookup_eq_none.mpr fun hmem => ?_
      obtain ⟨change, hchange, heq⟩ := List.mem_map.mp hmem
      have := hchanges change hchange
      rw [heq] at this
      exact htable this
    rw [applyChanges_get, hlookup, Option.getD_none, h.other table htable]

/-! ### What a transaction may stage -/

/-- A transaction that came about by staging, in tables that are open and under keys that are not empty. -/
structure Transaction.Committable (tx : Transaction) : Prop where
  counted : tx.Counted
  named : ∀ change ∈ tx.changes.entries, change.1.1 ∈ NAMED_TABLES
  key_ne : ∀ change ∈ tx.changes.entries, change.1.2 ≠ []
  key_le : ∀ change ∈ tx.changes.entries, change.1.2.length ≤ 64

theorem committable_begin (tables : Tables) : (Transaction.begin tables).Committable :=
  ⟨counted_begin tables, fun _ hchange => absurd hchange List.not_mem_nil,
    fun _ hchange => absurd hchange List.not_mem_nil, fun _ hchange => absurd hchange List.not_mem_nil⟩

/-- What holds of the staged changes and of one more holds of all of them. -/
theorem forall_mem_insert {changes : Changes} {address : Table × List UInt8} {value : Option (List UInt8)}
    {P : StagedChange → Prop} (h : ∀ change ∈ changes.entries, P change) (hnew : P ⟨address, value⟩) :
    ∀ change ∈ (changes.insert address value).entries, P change := by
  intro change hchange
  rw [AList.entries_insert] at hchange
  rcases List.mem_cons.mp hchange with rfl | hchange
  · exact hnew
  · exact h change ((List.kerase_sublist address changes.entries).subset hchange)

theorem Transaction.Committable.stage {tx tx' : Transaction} (h : tx.Committable) {table : Table} {key : List UInt8}
    {value : Option (List UInt8)} (htable : table ∈ NAMED_TABLES) (hkey : key ≠ [])
    (hstage : tx.stage table key value = .ok tx') : tx'.Committable := by
  refine ⟨h.counted.stage hstage, ?_, ?_, ?_⟩ <;>
    (rw [Transaction.stage] at hstage
     dsimp only at hstage
     split_ifs at hstage with hrecord
     rw [← Except.ok.inj hstage])
  · exact forall_mem_insert h.named htable
  · exact forall_mem_insert h.key_ne hkey
  · exact forall_mem_insert h.key_le (Nat.not_lt.mp fun hlt => hrecord (.inl hlt))

theorem forall_mem_withMarkers {changes : Changes} {id : Bytes32} {P : StagedChange → Prop}
    (h : ∀ change ∈ changes.entries, P change) (hcommit : P ⟨(.metadata, ascii "last_commit"), some id.toList⟩)
    (htransaction : P ⟨(.metadata, ascii "last_transaction"), some id.toList⟩) :
    ∀ change ∈ (withMarkers changes id).entries, P change := by
  rw [withMarkers]
  refine forall_mem_insert ?_ htransaction
  split_ifs
  · exact forall_mem_insert h hcommit
  · exact h

theorem Transaction.Committable.markers_named {tx : Transaction} (h : tx.Committable) (id : Bytes32) :
    ∀ change ∈ (withMarkers tx.changes id).entries, change.1.1 ∈ NAMED_TABLES :=
  have hmetadata : Table.metadata ∈ NAMED_TABLES := by decide
  forall_mem_withMarkers h.named hmetadata hmetadata

/-- The batch of a transaction is one that the engine takes. -/
theorem Transaction.Committable.event {tx : Transaction} (h : tx.Committable) (id : Bytes32) (fault : Option Fault) :
    Fjall.Event.Valid (NAMED_TABLES.map Table.name)
      (.commit ((withMarkers tx.changes id).entries.map FjallEngine.change) (some .syncAll) fault) := by
  have hwithin := h.counted.within id
  have hkey_ne : ∀ change ∈ (withMarkers tx.changes id).entries, change.1.2 ≠ [] :=
    forall_mem_withMarkers h.key_ne (List.cons_ne_nil _ _) (List.cons_ne_nil _ _)
  have hkey_le : ∀ change ∈ (withMarkers tx.changes id).entries, change.1.2.length ≤ 64 :=
    forall_mem_withMarkers h.key_le (show (ascii "last_commit").length ≤ 64 by decide)
      (show (ascii "last_transaction").length ≤ 64 by decide)
  have hname : ∀ table ∈ NAMED_TABLES, utf8 table.name ≠ [] ∧ (utf8 table.name).length < 2 ^ 8 := by decide +kernel
  refine ⟨?_, ?_, ?_, ?_⟩
  · rw [withMarkers, AList.entries_insert]
    exact List.cons_ne_nil _ _
  · rw [List.length_map]
    exact Nat.lt_of_le_of_lt hwithin.keys (by decide)
  · intro _ hmem
    obtain ⟨change, hchange, rfl⟩ := List.mem_map.mp hmem
    have hnamed := h.markers_named id change hchange
    obtain ⟨hne, hlt⟩ := hname _ hnamed
    have hbytes : stagedBytes change ≤ MAX_TRANSACTION_BYTES :=
      (List.le_sum_of_mem (List.mem_map_of_mem hchange)).trans hwithin.bytes
    refine ⟨⟨?_, ?_, ?_, ?_, ?_⟩, mem_tableNames hnamed⟩
    · rwa [change_partition]
    · rw [change_key]
      exact hkey_ne change hchange
    · rwa [change_partition]
    · rw [change_key]
      exact Nat.lt_of_le_of_lt (hkey_le change hchange) (by decide)
    · have hvalue : (FjallEngine.change change).item.value.length ≤ stagedBytes change := by
        obtain ⟨address, value⟩ := change
        cases value with
        | none => exact Nat.zero_le _
        | some value => exact Nat.le_add_left _ _
      exact Nat.lt_of_le_of_lt (hvalue.trans hbytes) (by decide)
  · rw [List.map_map]
    exact change_nodup (h.markers_named id)

section Engine

variable {T : Type} [AbstractTree T] [Coding] (xxh3 : List UInt8 → UInt64)

/-! ### The engine -/

structure FjallEngine (T : Type) where
  keyspace : Keyspace T

namespace FjallEngine

def create : FjallEngine T := ⟨Keyspace.create (NAMED_TABLES.map Table.name)⟩

def table (engine : FjallEngine T) (table : Table) : Except StorageError T :=
  if table ∈ NAMED_TABLES then .ok (engine.keyspace.tree table.name) else .error (.corrupt "unknown database table")

def copyValue (bytes : List UInt8) (maxBytes : Nat) : Except StorageError (List UInt8) :=
  if bytes.length > maxBytes then .error (.limit "database value exceeds read budget") else .ok bytes

def get (engine : FjallEngine T) (table : Table) (key : List UInt8) (maxBytes : Nat) :
    Except StorageError (Option (List UInt8)) := do
  let t ← engine.table table
  (AbstractTree.get t key).mapM fun bytes => copyValue bytes maxBytes

def scan (engine : FjallEngine T) (table : Table) (after : Option (List UInt8)) (pre : List UInt8)
    (limits : ByteLimits) : Except StorageError (List RawEntry) :=
  match scanBounds after pre with
  | none => .ok []
  | some (start, stop) => do
      let t ← engine.table table
      let rows := (AbstractTree.range t).filter fun row => start.below row.1 && stop.above row.1
      scanLoop limits [] 0 (rows.take limits.maxEntries)

/-- The text of an error of the keyspace; that of an error of the system is not known. -/
def errorText (io : String) : Answer → String
  | .poisoned => "FjallError: Poisoned"
  | _ => io

/-- The batch is synced before it is acknowledged, and after any error it is not known whether it is written. -/
def commit (engine : FjallEngine T) (changes : Changes) (id : Bytes32) (fault : Option Fault) (io : String) :
    Except StorageError Unit × FjallEngine T :=
  match engine.keyspace.commit xxh3 (changes.entries.map change) (some .syncAll) fault with
  | (.done, keyspace) => (.ok (), ⟨keyspace⟩)
  | (answer, keyspace) => (.error (.commitUnknown id (errorText io answer)), ⟨keyspace⟩)

theorem commit_error {xxh3 : List UInt8 → UInt64} {engine : FjallEngine T} {changes : Changes} {id : Bytes32}
    {fault : Option Fault} {io : String} {answer : Answer} {keyspace : Keyspace T}
    (hcommit : engine.keyspace.commit xxh3 (changes.entries.map change) (some .syncAll) fault = (answer, keyspace))
    (hanswer : answer ≠ .done) :
    engine.commit xxh3 changes id fault io = (.error (.commitUnknown id (errorText io answer)), ⟨keyspace⟩) := by
  rw [commit, hcommit]
  cases answer with
  | done => exact absurd rfl hanswer
  | io => rfl
  | poisoned => rfl
  | row value => rfl

/-- The tables that the engine shows. -/
def tables (engine : FjallEngine T) : Tables := fun table =>
  if table ∈ NAMED_TABLES then .ofEntries (AbstractTree.range (engine.keyspace.tree table.name)) else ∅

end FjallEngine

/-! ### The database -/

structure FjallDatabase (T : Type) where
  engine : FjallEngine T
  failure : Option StorageError

/-- What happens to a database: transactions with what goes wrong in their commits, the work of the engine in the
background, and the end of a process with what is left of the journal, after which the database is opened again. -/
inductive DatabaseOp (E α : Type) where
  | transaction (execute : Transaction → Except E (α × Transaction)) (fault : Option Fault) (io : String)
  | rotateMemtable (name : String)
  | flush (name : String) (n : Nat)
  | maintenance
  | reopen (kept : Nat)

variable {E α : Type} (hemera : List UInt8 → Bytes32) (ofStorage : StorageError → E)

namespace FjallDatabase

def create : FjallDatabase T := ⟨.create, none⟩

/-- The end of a transaction that has staged something. -/
def write (engine : FjallEngine T) (value : α) (tx : Transaction) (fault : Option Fault) (io : String) :
    Except E α × FjallDatabase T :=
  let id := changeId hemera tx.changes
  match engine.commit xxh3 (withMarkers tx.changes id) id fault io with
  | (.ok (), engine) => (.ok value, ⟨engine, none⟩)
  | (.error e, engine) => (.error (ofStorage e), ⟨engine, if e matches .commitUnknown .. then some e else none⟩)

/-- `Database::transaction`, with the commit of this engine. -/
def transaction (db : FjallDatabase T) (execute : Transaction → Except E (α × Transaction)) (fault : Option Fault)
    (io : String) : Except E α × FjallDatabase T :=
  match db.failure with
  | some e => (.error (ofStorage e), db)
  | none =>
      match execute (.begin db.engine.tables) with
      | .error e => (.error e, db)
      | .ok (value, tx) =>
          if tx.changes.entries.isEmpty then (.ok value, db)
          else write xxh3 hemera ofStorage db.engine value tx fault io

def step (db : FjallDatabase T) : DatabaseOp E α → Option (Option (Except E α) × FjallDatabase T)
  | .transaction execute fault io =>
      let (result, db) := db.transaction xxh3 hemera ofStorage execute fault io
      some (some result, db)
  | .rotateMemtable name => some (none, { db with engine := ⟨db.engine.keyspace.rotateMemtable name⟩ })
  | .flush name n => some (none, { db with engine := ⟨db.engine.keyspace.flush name n⟩ })
  | .maintenance => some (none, { db with engine := ⟨db.engine.keyspace.maintenance⟩ })
  | .reopen kept =>
      match db.engine.keyspace.crash xxh3 kept with
      | .error _ => none
      | .ok keyspace => some (none, ⟨⟨keyspace⟩, none⟩)

end FjallDatabase

/-- What an engine may do with a batch: without a fault it writes it, and with one it is not known to. -/
def CommitOutcome.Of (outcome : CommitOutcome) : Option Fault → Prop
  | none => outcome = .done
  | some _ => ∃ message written, outcome = .unknown message written

/-- The same for a database whose engine is its tables. What the engine does in the background does not show, and
opening the database again ends its failure. -/
inductive Database.Step : Database → DatabaseOp E α → Option (Except E α) → Database → Prop where
  | transaction (db : Database) (execute : Transaction → Except E (α × Transaction)) (fault : Option Fault)
      (io : String) (outcome : CommitOutcome) (houtcome : outcome.Of fault) : Step db (.transaction execute fault io)
        (some (db.transaction hemera ofStorage outcome execute).1.result)
        (db.transaction hemera ofStorage outcome execute).2
  | rotateMemtable (db : Database) (name : String) : Step db (.rotateMemtable name) none db
  | flush (db : Database) (name : String) (n : Nat) : Step db (.flush name n) none db
  | maintenance (db : Database) : Step db .maintenance none db
  | reopen (db : Database) (kept : Nat) : Step db (.reopen kept) none { db with failure := none }

variable {hemera ofStorage} in
omit [Coding] in
theorem Database.Step.transaction_inv {state state' : Database} {execute : Transaction → Except E (α × Transaction)}
    {fault : Option Fault} {io : String} {result : Except E α}
    (h : Database.Step hemera ofStorage state (.transaction execute fault io) (some result) state') :
    ∃ outcome : CommitOutcome, outcome.Of fault ∧
      (state.transaction hemera ofStorage outcome execute).1.result = result ∧
      (state.transaction hemera ofStorage outcome execute).2 = state' := by
  cases h with
  | transaction _ _ _ outcome houtcome => exact ⟨outcome, houtcome, rfl, rfl⟩

/-- A closure stages what a batch of the engine can hold. -/
def DatabaseOp.Valid : DatabaseOp E α → Prop
  | transaction execute _ _ => ∀ tables value tx, execute (.begin tables) = .ok (value, tx) → tx.Committable
  | _ => True

/-! ### Refinement -/

section Refinement

variable [LawfulTree T] [LawfulCoding] {xxh3 hemera ofStorage} {engine : FjallEngine T} {ledger : Fjall.Ledger}
  {n : Nat}

omit [Coding] [LawfulCoding] in
theorem mem_range_unique (t : T) {key value value' : List UInt8} (h : (key, value) ∈ AbstractTree.range t)
    (h' : (key, value') ∈ AbstractTree.range t) : value = value' := by
  rw [LawfulTree.mem_range] at h h'
  exact Option.some_inj.mp (h.symm.trans h')

omit [Coding] [LawfulCoding] in
theorem FjallEngine.tables_getElem? (engine : FjallEngine T) {table : Table} (htable : table ∈ NAMED_TABLES)
    (key : List UInt8) : (engine.tables table)[key]? = AbstractTree.get (engine.keyspace.tree table.name) key := by
  rw [FjallEngine.tables, if_pos htable]
  refine Option.ext fun value => ?_
  rw [OrdMap.getElem?_ofEntries fun _ _ _ => mem_range_unique _, LawfulTree.mem_range]

omit [Coding] [LawfulCoding] in
/-- A table lists its rows as a range of the engine does. -/
theorem FjallEngine.toList_tables (engine : FjallEngine T) {table : Table} (htable : table ∈ NAMED_TABLES) :
    (engine.tables table).toList = AbstractTree.range (engine.keyspace.tree table.name) := by
  have hordered := LawfulTree.range_ordered (engine.keyspace.tree table.name)
  have hnodup : ((AbstractTree.range (engine.keyspace.tree table.name)).map Prod.fst).Nodup := by
    refine List.pairwise_map.mpr (hordered.imp fun {a b} hlt heq => ?_)
    rw [heq, Std.ReflOrd.compare_self] at hlt
    cases hlt
  have hperm := OrdMap.perm_toList (engine.tables table) hnodup fun key value => by
    rw [engine.tables_getElem? htable, LawfulTree.mem_range]
  refine hperm.symm.eq_of_pairwise (fun a b _ _ hab hba => ?_) Std.ExtTreeMap.ordered_keys_toList hordered
  -- two rows are not each before the other
  rw [Std.OrientedOrd.eq_swap, hba] at hab
  cases hab

omit [Coding] [LawfulCoding] in
/-- The reads of the engine are reads of the tables it shows. -/
theorem FjallEngine.get_eq (engine : FjallEngine T) {table : Table} (htable : table ∈ NAMED_TABLES) (key : List UInt8)
    (maxBytes : Nat) : engine.get table key maxBytes = engineGet engine.tables table key maxBytes := by
  rw [engineGet, engine.tables_getElem? htable, FjallEngine.get, FjallEngine.table, if_pos htable]
  change Option.mapM _ _ = _
  cases AbstractTree.get (engine.keyspace.tree table.name) key with
  | none => rfl
  | some bytes =>
      rw [Option.mapM_some, FjallEngine.copyValue]
      dsimp only
      split_ifs <;> rfl

omit [Coding] [LawfulCoding] in
theorem FjallEngine.scan_eq (engine : FjallEngine T) {table : Table} (htable : table ∈ NAMED_TABLES)
    (after : Option (List UInt8)) (pre : List UInt8) (limits : ByteLimits) :
    engine.scan table after pre limits = engineScan engine.tables table after pre limits := by
  rw [engineScan, engine.toList_tables htable, FjallEngine.scan, FjallEngine.table, if_pos htable]
  rfl

/-- The database is at the states of the specification whose tables the ledger allows. -/
def FjallDatabase.Follows (xxh3 : List UInt8 → UInt64) (n : Nat) (db : FjallDatabase T) (states : Set Database) :
    Prop :=
  ∃ ledger, db.engine.keyspace.Follows xxh3 (NAMED_TABLES.map Table.name) n ledger ∧
    ledger.log.length ≤ ledger.durable ∧ db.failure.isSome = ledger.doubt.isSome ∧
    states = {state | state.failure = db.failure ∧ (TablesOf ledger.log state.tables ∨
      ∃ items, ledger.doubt = some items ∧ TablesOf (ledger.log ++ [items]) state.tables)}

omit [LawfulCoding] in
theorem tablesOf_engine (h : engine.keyspace.Follows xxh3 (NAMED_TABLES.map Table.name) n ledger) :
    TablesOf ledger.log engine.tables where
  named table htable key := by rw [engine.tables_getElem? htable, h.get_eq (mem_tableNames htable)]
  other table htable := by rw [FjallEngine.tables, if_neg htable]

omit [Coding] [LawfulCoding] in
theorem exists_outcome (fault : Option Fault) : ∃ outcome : CommitOutcome, outcome.Of fault := by
  cases fault with
  | none => exact ⟨.done, rfl⟩
  | some fault => exact ⟨.unknown "" false, "", false, rfl⟩

namespace FjallDatabase

variable {db : FjallDatabase T} {states : Set Database} {execute : Transaction → Except E (α × Transaction)}
  {fault : Option Fault} {io : String}

omit [LawfulCoding] in
theorem Follows.nonempty (h : db.Follows xxh3 n states) : states.Nonempty := by
  obtain ⟨ledger, hkeyspace, -, -, rfl⟩ := h
  exact ⟨⟨db.engine.tables, db.failure⟩, rfl, .inl (tablesOf_engine hkeyspace)⟩

omit [LawfulTree T] [LawfulCoding] in
theorem Follows.failure_eq (h : db.Follows xxh3 n states) {state : Database} (hstate : state ∈ states) :
    state.failure = db.failure := by
  obtain ⟨ledger, -, -, -, rfl⟩ := h
  exact hstate.1

omit [LawfulTree T] [LawfulCoding] in
/-- A batch that struck a fault is not acknowledged. -/
theorem commit_fault (ks : Keyspace T) {changes : List Fjall.Change} (hne : changes ≠ [])
    (fault : Fault) : (ks.commit xxh3 changes (some .syncAll) (some fault)).1 ≠ .done := by
  have hbytes : Fjall.Batch.bytes xxh3 ⟨ks.seqno, changes.map Fjall.Change.item⟩ ≠ [] := by
    rw [Fjall.Batch.bytes, if_neg fun hlen => hne (List.map_eq_nil_iff.mp (List.length_eq_zero_iff.mp hlen))]
    exact List.append_ne_nil_of_left_ne_nil (List.cons_ne_nil _ _) _
  have hstrikes : (some fault).filter (Fault.strikes (Fjall.Batch.bytes xxh3 ⟨ks.seqno, changes.map Fjall.Change.item⟩)
      (some .syncAll)) = some fault := by
    refine Option.filter_eq_some_iff.mpr ⟨rfl, ?_⟩
    cases fault with
    | write n => exact decide_eq_true hbytes
    | persist => rfl
  rw [Keyspace.commit]
  split_ifs
  · exact Answer.noConfusion
  · dsimp only
    rw [hstrikes]
    cases fault <;> exact Answer.noConfusion

omit [LawfulCoding] in
/-- Without a failure the database is at one state. -/
theorem Follows.settled (h : FjallDatabase.Follows xxh3 n ⟨engine, none⟩ states) :
    ∀ state ∈ states, state = ⟨engine.tables, none⟩ := by
  intro state hstate
  obtain ⟨ledger, hkeyspace, -, hdoubt, rfl⟩ := h
  obtain ⟨hnone, htables | ⟨items, hitems, -⟩⟩ := hstate
  · obtain ⟨tables, failure⟩ := state
    obtain rfl : failure = none := hnone
    exact congrArg (Database.mk · none) (htables.unique (tablesOf_engine hkeyspace))
  · rw [hitems] at hdoubt
    cases hdoubt

omit [LawfulCoding] in
theorem Follows.eq_shown (h : db.Follows xxh3 n states) (hready : db.failure = none) {state : Database}
    (hstate : state ∈ states) : state = ⟨db.engine.tables, none⟩ := by
  obtain ⟨engine, failure⟩ := db
  obtain rfl : failure = none := hready
  exact h.settled state hstate

omit [LawfulTree T] [LawfulCoding] in
/-- A transaction that writes nothing changes nothing. -/
theorem Follows.idle (h : db.Follows xxh3 n states) {result : Except E α}
    (hidle : ∀ outcome, ∀ state ∈ states,
      (state.transaction hemera ofStorage outcome execute).1.result = result ∧
        (state.transaction hemera ofStorage outcome execute).2 = state) :
    ∃ states', (∀ state' ∈ states', ∃ state ∈ states,
        Database.Step hemera ofStorage state (.transaction execute fault io) (some result) state') ∧
      db.Follows xxh3 (n + 1) states' := by
  obtain ⟨ledger, hkeyspace, hdurable, hfailure, hstates⟩ := h
  refine ⟨states, fun state hstate => ⟨state, hstate, ?_⟩, ledger, hkeyspace.more, hdurable, hfailure, hstates⟩
  obtain ⟨outcome, houtcome⟩ := exists_outcome fault
  obtain ⟨hresult, hstate'⟩ := hidle outcome state hstate
  have hstep : Database.Step hemera ofStorage state (.transaction execute fault io)
      (some (state.transaction hemera ofStorage outcome execute).1.result)
      (state.transaction hemera ofStorage outcome execute).2 :=
    .transaction state execute fault io outcome houtcome
  rwa [hresult, hstate'] at hstep

omit [Coding] [LawfulCoding] in
/-- What the specification does with the batch of a transaction. -/
theorem transaction_eq {tables : Tables} {value : α} {tx : Transaction}
    (hexec : execute (.begin tables) = .ok (value, tx))
    (hempty : ¬tx.changes.entries.isEmpty = true) (outcome : CommitOutcome) :
    Database.transaction hemera ofStorage outcome ⟨tables, none⟩ execute =
      let id := changeId hemera tx.changes
      let written := LeanBbg.Storage.applyChanges tables (withMarkers tx.changes id)
      match outcome with
      | .done => (⟨.ok value, true⟩, ⟨written, none⟩)
      | .failed message => (⟨.error (ofStorage (.io message)), false⟩, ⟨tables, none⟩)
      | .unknown message applied =>
          (⟨.error (ofStorage (.commitUnknown id message)), applied⟩,
            ⟨if applied then written else tables, some (.commitUnknown id message)⟩) := by
  rw [Database.transaction]
  dsimp only
  rw [hexec]
  dsimp only
  refine (if_neg hempty).trans ?_
  cases outcome <;> rfl

/-- A transaction that writes: its batch is published, or in doubt from then on. -/
theorem Follows.write (h : FjallDatabase.Follows xxh3 n ⟨engine, none⟩ states) (hn : n < 2 ^ 64) {value : α}
    {tx : Transaction} (htx : tx.Committable) (hexec : execute (.begin engine.tables) = .ok (value, tx))
    (hempty : ¬tx.changes.entries.isEmpty = true) :
    ∃ states', (∀ state' ∈ states', ∃ state ∈ states, Database.Step hemera ofStorage state
        (.transaction execute fault io)
        (some (FjallDatabase.write xxh3 hemera ofStorage engine value tx fault io).1) state') ∧
      (FjallDatabase.write xxh3 hemera ofStorage engine value tx fault io).2.Follows xxh3 (n + 1) states' := by
  have hstates : ∀ state ∈ states, state = ⟨engine.tables, none⟩ := h.settled
  obtain ⟨state₀, hstate₀⟩ := Follows.nonempty h
  have hmem : (⟨engine.tables, none⟩ : Database) ∈ states := by
    rw [← hstates state₀ hstate₀]
    exact hstate₀
  obtain ⟨⟨log, durable, doubt⟩, hkeyspace, hdurable, hdoubt, -⟩ := h
  cases doubt with
  | some items => cases hdoubt
  | none =>
      have htables := tablesOf_engine hkeyspace
      have hwritten := htables.applyChanges (htx.markers_named (changeId hemera tx.changes))
      obtain ⟨answer, keyspace, ledger', hcommit, hstep, hfollows⟩ :=
        hkeyspace.step n hn _ _ _ (htx.event (changeId hemera tx.changes) fault)
      have hcommit := Option.some.inj hcommit
      rw [FjallDatabase.write]
      -- what the specification does with the batch
      have hspec : ∀ outcome : CommitOutcome, outcome.Of fault → ∃ state ∈ states, Database.Step hemera ofStorage state
          (.transaction execute fault io)
          (some (Database.transaction hemera ofStorage outcome ⟨engine.tables, none⟩ execute).1.result)
          (Database.transaction hemera ofStorage outcome ⟨engine.tables, none⟩ execute).2 :=
        fun outcome houtcome => ⟨_, hmem, .transaction _ _ _ _ outcome houtcome⟩
      cases hstep with
      | publish _ _ durable' _ _ _ _ hsync =>
          cases fault with
          | some fault =>
              refine absurd (congrArg Prod.fst hcommit) (commit_fault engine.keyspace ?_ fault)
              exact (htx.event (changeId hemera tx.changes) none).1
          | none =>
              rw [FjallEngine.commit, hcommit]
              refine ⟨_, fun state' hstate' => ?_, _, hfollows, ?_, rfl, rfl⟩
              · have hdone := hspec .done rfl
                rw [transaction_eq hexec hempty] at hdone
                obtain ⟨tables, failure⟩ := state'
                obtain ⟨rfl, htables' | ⟨items, hitems, -⟩⟩ := hstate'
                · obtain rfl := hwritten.unique htables'
                  exact hdone
                · cases hitems
              · rw [hsync rfl, List.length_append, List.length_singleton]
      | fail _ _ _ _ fault answer hanswer =>
          rw [FjallEngine.commit_error hcommit hanswer]
          refine ⟨_, fun state' hstate' => ?_, _, hfollows, hdurable, rfl, rfl⟩
          have hunknown := fun written =>
            hspec (.unknown (FjallEngine.errorText io answer) written) ⟨_, written, rfl⟩
          obtain ⟨tables, failure⟩ := state'
          obtain ⟨rfl, htables' | ⟨items, hitems, htables'⟩⟩ := hstate'
          · have hlost := hunknown false
            rw [transaction_eq hexec hempty] at hlost
            obtain rfl := htables.unique htables'
            exact hlost
          · have hkept := hunknown true
            rw [transaction_eq hexec hempty] at hkept
            obtain rfl := Option.some.inj hitems
            obtain rfl := hwritten.unique htables'
            exact hkept

theorem Follows.transaction (h : db.Follows xxh3 n states) (hn : n < 2 ^ 64)
    (hexecute : ∀ tables value tx, execute (.begin tables) = .ok (value, tx) → tx.Committable) :
    ∃ states', (∀ state' ∈ states', ∃ state ∈ states, Database.Step hemera ofStorage state
        (.transaction execute fault io) (some (db.transaction xxh3 hemera ofStorage execute fault io).1) state') ∧
      (db.transaction xxh3 hemera ofStorage execute fault io).2.Follows xxh3 (n + 1) states' := by
  obtain ⟨engine, failure⟩ := db
  cases failure with
  | some e =>
      rw [FjallDatabase.transaction]
      refine h.idle fun outcome state hstate => ?_
      obtain ⟨_, _, _, _, hstates⟩ := h
      rw [hstates] at hstate
      rw [Database.transaction, show state.failure = some e from hstate.1]
      exact ⟨rfl, rfl⟩
  | none =>
      have hstates : ∀ state ∈ states, state = ⟨engine.tables, none⟩ := fun state => h.settled state
      rw [FjallDatabase.transaction]
      dsimp only
      cases hexec : execute (.begin engine.tables) with
      | error e =>
          refine h.idle fun outcome state hstate => ?_
          rw [hstates state hstate, Database.transaction]
          dsimp only
          rw [hexec]
          exact ⟨rfl, rfl⟩
      | ok result =>
          obtain ⟨value, tx⟩ := result
          dsimp only
          split_ifs with hempty
          · refine h.idle fun outcome state hstate => ?_
            rw [hstates state hstate, Database.transaction]
            dsimp only
            rw [hexec]
            dsimp only
            rw [if_pos hempty]
            exact ⟨rfl, rfl⟩
          · exact h.write hn (hexecute _ _ _ hexec) hexec hempty

/-- Opening the database again decides the batch that is in doubt. -/
theorem Follows.reopen (h : db.Follows xxh3 n states) (hn : n < 2 ^ 64) (kept : Nat) : ∃ keyspace states',
    db.engine.keyspace.crash xxh3 kept = .ok keyspace ∧
      (∀ state' ∈ states', ∃ state ∈ states,
        Database.Step hemera ofStorage state (.reopen kept : DatabaseOp E α) none state') ∧
      FjallDatabase.Follows xxh3 (n + 1) ⟨⟨keyspace⟩, none⟩ states' := by
  obtain ⟨⟨log, durable, doubt⟩, hkeyspace, hdurable, -, rfl⟩ := h
  obtain ⟨answer, keyspace, ledger', hcrash, hstep, hfollows⟩ := hkeyspace.step n hn _ _ (.crash kept) trivial
  have hcrash : db.engine.keyspace.crash xxh3 kept = .ok keyspace := by
    rw [Keyspace.step] at hcrash
    cases hresult : db.engine.keyspace.crash xxh3 kept with
    | error e =>
        rw [hresult] at hcrash
        cases hcrash
    | ok ks =>
        rw [hresult] at hcrash
        rw [(Prod.mk.inj (Option.some.inj hcrash)).2]
  -- a state after it comes from the one with the same tables
  have hfrom : ∀ state' : Database, state'.failure = none → Database.Step hemera ofStorage
      ⟨state'.tables, db.failure⟩ (.reopen kept : DatabaseOp E α) none state' := by
    intro state' hnone
    obtain ⟨tables, failure⟩ := state'
    obtain rfl : failure = none := hnone
    exact .reopen _ kept
  refine ⟨keyspace, _, hcrash, ?_, ledger', hfollows, ?_, ?_, rfl⟩
  · rintro state' ⟨hnone, htables⟩
    refine ⟨⟨state'.tables, db.failure⟩, ⟨rfl, ?_⟩, hfrom state' hnone⟩
    cases hstep with
    | crash _ _ _ _ m hm =>
        -- all that was published is on the disk
        rw [List.take_of_length_le (hdurable.trans hm)] at htables
        rcases htables with htables | ⟨items, hitems, -⟩
        · exact .inl htables
        · cases hitems
    | crashWith _ _ items _ =>
        rcases htables with htables | ⟨items', hitems, -⟩
        · exact .inr ⟨items, rfl, htables⟩
        · cases hitems
  · cases hstep <;> exact Nat.le_refl _
  · cases hstep <;> rfl

/-- Each step of the database is one of the specification. -/
theorem Follows.step (n : Nat) (hn : n < 2 ^ 64) (db : FjallDatabase T) (states : Set Database) (op : DatabaseOp E α)
    (h : db.Follows xxh3 n states) (hop : op.Valid) : ∃ answer db' states',
      db.step xxh3 hemera ofStorage op = some (answer, db') ∧
      (∀ state' ∈ states', ∃ state ∈ states, Database.Step hemera ofStorage state op answer state') ∧
      db'.Follows xxh3 (n + 1) states' := by
  cases op with
  | transaction execute fault io =>
      obtain ⟨states', hstates', hfollows⟩ := h.transaction hn hop
      exact ⟨_, _, states', rfl, hstates', hfollows⟩
  | rotateMemtable name =>
      obtain ⟨ledger, hkeyspace, hdurable, hdoubt, hstates⟩ := h
      obtain ⟨answer, keyspace, ledger', hrotate, hstep, hfollows⟩ :=
        hkeyspace.step n hn _ _ (.rotateMemtable name) trivial
      obtain ⟨rfl, rfl⟩ := Prod.mk.inj (Option.some.inj hrotate)
      cases hstep with
      | rotateMemtable log durable durable' doubt _ hle =>
          exact ⟨none, _, states, rfl, fun state hstate => ⟨state, hstate, .rotateMemtable state name⟩, _, hfollows,
            hdurable.trans hle, hdoubt, hstates⟩
  | flush name k =>
      obtain ⟨ledger, hkeyspace, hdurable, hdoubt, hstates⟩ := h
      obtain ⟨answer, keyspace, ledger', hflush, hstep, hfollows⟩ := hkeyspace.step n hn _ _ (.flush name k) trivial
      obtain ⟨rfl, rfl⟩ := Prod.mk.inj (Option.some.inj hflush)
      cases hstep with
      | flush =>
          exact ⟨none, _, states, rfl, fun state hstate => ⟨state, hstate, .flush state name k⟩, _, hfollows,
            hdurable, hdoubt, hstates⟩
  | maintenance =>
      obtain ⟨ledger, hkeyspace, hdurable, hdoubt, hstates⟩ := h
      obtain ⟨answer, keyspace, ledger', hmaintenance, hstep, hfollows⟩ := hkeyspace.step n hn _ _ .maintenance trivial
      obtain ⟨rfl, rfl⟩ := Prod.mk.inj (Option.some.inj hmaintenance)
      cases hstep with
      | maintenance =>
          exact ⟨none, _, states, rfl, fun state hstate => ⟨state, hstate, .maintenance state⟩, _, hfollows,
            hdurable, hdoubt, hstates⟩
  | reopen kept =>
      obtain ⟨keyspace, states', hcrash, hstates', hfollows⟩ := h.reopen hn kept
      exact ⟨none, _, states', by rw [FjallDatabase.step, hcrash], hstates', hfollows⟩

omit [LawfulCoding] in
theorem follows_create : (create : FjallDatabase T).Follows xxh3 0 {⟨fun _ => ∅, none⟩} := by
  have hempty : TablesOf [] fun _ => ∅ := ⟨fun _ _ _ => Std.ExtTreeMap.getElem?_empty, fun _ _ => rfl⟩
  refine ⟨_, Keyspace.follows_create tableNames_nodup, Nat.le_refl _, rfl, Set.ext fun state => ⟨?_, ?_⟩⟩
  · rintro rfl
    exact ⟨rfl, .inl hempty⟩
  · obtain ⟨tables, failure⟩ := state
    rintro ⟨rfl, htables | ⟨items, hitems, -⟩⟩
    · exact congrArg (Database.mk · none) (htables.unique hempty)
    · cases hitems

end FjallDatabase

/-- Every run of a new database goes through, and its answers are those of a run of the specification from no rows. -/
theorem fjall_runs_database {ops : List (DatabaseOp E α)} (hops : ∀ op ∈ ops, op.Valid) (hlen : ops.length ≤ 2 ^ 64) :
    ∃ answers db state,
      Refine.run (FjallDatabase.step xxh3 hemera ofStorage) (FjallDatabase.create : FjallDatabase T) ops =
        some (answers, db) ∧
      Refine.Runs (Database.Step hemera ofStorage) ⟨fun _ => ∅, none⟩ ops answers state := by
  obtain ⟨answers, db, states, hrun, hfollows, hruns⟩ :=
    Refine.exists_runs_of_sets FjallDatabase.Follows.step (FjallDatabase.follows_create (T := T)) hops (by omega)
  obtain ⟨state, hstate⟩ := hfollows.nonempty
  obtain ⟨start, rfl, hruns⟩ := hruns state hstate
  exact ⟨answers, db, state, hrun, hruns⟩

end Refinement

end Engine

/-- A transaction whose batch does not reach the disk; then the database is opened again and read. -/
theorem fjall_runs_database_reopened :
    let put : Transaction → Except StorageError (Option (List UInt8) × Transaction) := fun tx =>
      (tx.put .content [7] [8]).map fun tx => (none, tx)
    let read : Transaction → Except StorageError (Option (List UInt8) × Transaction) := fun tx =>
      (tx.get .content [7] 1).map fun row => (row, tx)
    let ops : List (DatabaseOp StorageError (Option (List UInt8))) :=
      [.transaction put (some .persist) "", .transaction read none "", .reopen 90, .transaction read none ""]
    ∃ answers db state,
      Refine.run (FjallDatabase.step (fun _ => 0) (fun _ => Vector.replicate 32 0) id)
        (FjallDatabase.create : FjallDatabase LsmTree) ops = some (answers, db) ∧
      Refine.Runs (Database.Step (fun _ => Vector.replicate 32 0) id) ⟨fun _ => ∅, none⟩ ops answers state := by
  intro put read ops
  have hput : ∀ tables value tx, put (.begin tables) = .ok (value, tx) → tx.Committable := by
    intro tables value tx h
    change ((Transaction.begin tables).put .content [7] [8]).map _ = _ at h
    cases hstage : (Transaction.begin tables).put .content [7] [8] with
    | error e =>
        rw [hstage] at h
        cases h
    | ok tx' =>
        rw [hstage] at h
        cases h
        exact (committable_begin tables).stage (by decide) (List.cons_ne_nil _ _) hstage
  have hread : ∀ tables value tx, read (.begin tables) = .ok (value, tx) → tx.Committable := by
    intro tables value tx h
    change ((Transaction.begin tables).get .content [7] 1).map _ = _ at h
    cases hget : (Transaction.begin tables).get .content [7] 1 with
    | error e =>
        rw [hget] at h
        cases h
    | ok row =>
        rw [hget] at h
        cases h
        exact committable_begin tables
  refine fjall_runs_database ?_ (by decide)
  refine List.forall_mem_cons.mpr ⟨hput, List.forall_mem_cons.mpr ⟨hread, List.forall_mem_cons.mpr ⟨trivial, ?_⟩⟩⟩
  exact List.forall_mem_singleton.mpr hread

end LeanBbg.Storage
