import LeanBbg.ApplicationSpec

/-! Transactions as atomic overlays. A closure reads its own staged changes over the committed rows; its
changes become rows all together or not at all; and the markers of the database name the last batches. -/

namespace LeanBbg.Storage

open Bytes

/-- What a transaction tells its caller. -/
structure Commit (α : Type) where
  value : α
  changeId : Option Bytes32

section Transact

variable {E α : Type} (hemera : List UInt8 → Bytes32) (ofStorage : StorageError → E) (outcome : CommitOutcome)

/-- `Database::transaction` with the answer of the source. -/
def Database.transact (db : Database) (execute : Transaction → Except E (α × Transaction)) :
    Except E (Commit α) × Database :=
  match db.failure with
  | some e => (.error (ofStorage e), db)
  | none =>
      match execute (.begin db.tables) with
      | .error e => (.error e, db)
      | .ok (value, tx) =>
          if tx.changes.entries.isEmpty then (.ok ⟨value, none⟩, db)
          else
            let id := changeId hemera tx.changes
            let written := applyChanges db.tables (withMarkers tx.changes id)
            match outcome with
            | .done => (.ok ⟨value, some id⟩, { db with tables := written })
            | .failed message => (.error (ofStorage (.io message)), db)
            | .unknown message applied =>
                let e := .commitUnknown id message
                (.error (ofStorage e), { tables := if applied then written else db.tables, failure := some e })

/-- The two ways of telling the answer are about one transaction. -/
theorem transaction_eq_transact (db : Database) (execute : Transaction → Except E (α × Transaction)) :
    (db.transaction hemera ofStorage outcome execute).1.result =
        (db.transact hemera ofStorage outcome execute).1.map Commit.value ∧
      (db.transaction hemera ofStorage outcome execute).2 = (db.transact hemera ofStorage outcome execute).2 := by
  unfold Database.transaction Database.transact
  cases db.failure with
  | some e => exact ⟨rfl, rfl⟩
  | none =>
      dsimp only
      cases execute (.begin db.tables) with
      | error e => exact ⟨rfl, rfl⟩
      | ok result =>
          dsimp only
          split
          · exact ⟨rfl, rfl⟩
          · cases outcome with
            | done => exact ⟨rfl, rfl⟩
            | failed message => exact ⟨rfl, rfl⟩
            | unknown message applied => exact ⟨rfl, rfl⟩

variable {db : Database} {execute : Transaction → Except E (α × Transaction)}

theorem transact_of_failure {e : StorageError} (h : db.failure = some e) :
    db.transact hemera ofStorage outcome execute = (.error (ofStorage e), db) := by
  simp only [Database.transact, h]

theorem transact_of_error (hready : db.failure = none) {e : E} (h : execute (.begin db.tables) = .error e) :
    db.transact hemera ofStorage outcome execute = (.error e, db) := by
  simp only [Database.transact, hready, h]

theorem transact_of_unchanged (hready : db.failure = none) {value : α} {tx : Transaction}
    (h : execute (.begin db.tables) = .ok (value, tx)) (hempty : tx.changes = ∅) :
    db.transact hemera ofStorage outcome execute = (.ok ⟨value, none⟩, db) := by
  have hisEmpty : tx.changes.entries.isEmpty = true := by
    rw [hempty]
    rfl
  simp only [Database.transact, hready, h, hisEmpty, if_true]

/-- What a batch that is not empty does, by what the engine does with it. -/
theorem transact_of_changed (hready : db.failure = none) {value : α} {tx : Transaction}
    (h : execute (.begin db.tables) = .ok (value, tx)) (hchanged : tx.changes ≠ ∅) :
    db.transact hemera ofStorage outcome execute =
      match outcome with
      | .done => (.ok ⟨value, some (changeId hemera tx.changes)⟩,
          { db with tables := applyChanges db.tables (withMarkers tx.changes (changeId hemera tx.changes)) })
      | .failed message => (.error (ofStorage (.io message)), db)
      | .unknown message applied => (.error (ofStorage (.commitUnknown (changeId hemera tx.changes) message)),
          { tables := if applied then applyChanges db.tables (withMarkers tx.changes (changeId hemera tx.changes))
              else db.tables
            failure := some (.commitUnknown (changeId hemera tx.changes) message) }) := by
  have hisEmpty : tx.changes.entries.isEmpty = false := by
    rw [Bool.eq_false_iff]
    intro hnil
    exact hchanged (AList.ext (List.isEmpty_iff.mp hnil))
  simp only [Database.transact, hready, h, hisEmpty]
  rfl

end Transact

/-! ### Markers -/

def decodeMarker (bytes : List UInt8) : Except StorageError Bytes32 :=
  if h : bytes.length = 32 then .ok ⟨bytes.toArray, size_toArray_of_length h⟩ else .error (.corrupt "commit marker length")

theorem decodeMarker_toList (id : Bytes32) : decodeMarker id.toList = .ok id := by
  rw [decodeMarker, dif_pos (by simp)]
  congr 1

def Database.marker (db : Database) (name : String) : Except StorageError (Option Bytes32) := do
  match ← db.read .metadata (ascii name) 32 with
  | none => .ok none
  | some bytes => (decodeMarker bytes).map some

def Database.transactionMarker (db : Database) : Except StorageError (Option Bytes32) := db.marker "last_transaction"

/-- The marker as `DiskStore` reads it. -/
def Database.commitMarker (db : Database) : Except StorageError (Option Bytes32) := db.marker "last_commit"

/-- Two databases that answer agree on a marker when they agree on its row. -/
theorem marker_congr {db db' : Database} {name : String} (hready : db.failure = none) (hready' : db'.failure = none)
    (hrow : db'.view .metadata (ascii name) = db.view .metadata (ascii name)) : db'.marker name = db.marker name := by
  simp only [Database.marker, Database.read, hready, hready', Transaction.get, Transaction.begin, AList.lookup_empty,
    engineGet]
  rw [Database.view, Database.view] at hrow
  rw [hrow]

theorem marker_of_row {db : Database} {name : String} {id : Bytes32} (hready : db.failure = none)
    (hname : (ascii name).length ≤ 64) (hrow : db.view .metadata (ascii name) = some id.toList) :
    db.marker name = .ok (some id) := by
  have hget : (Transaction.begin db.tables).get .metadata (ascii name) 32 = .ok (some id.toList) := by
    rw [← hrow]
    refine Transaction.get_eq_ok hname (by decide) fun v hv => ?_
    rw [Transaction.view_begin] at hv
    rw [Database.view, hv] at hrow
    obtain rfl := Option.some_inj.mp hrow
    simp
  simp only [Database.marker, Database.read, hready, hget]
  change (decodeMarker id.toList).map some = _
  rw [decodeMarker_toList]
  rfl

/-! ### Closures -/

/-- A closure over a transaction: the calls it makes, each chosen by the answers before it, and what it returns. No
caller of the database stages a row of its own markers. -/
inductive Closure (E α : Type) where
  | done (result : Except E α)
  | get (table : Table) (key : List UInt8) (max : Nat)
      (next : Except StorageError (Option (List UInt8)) → Closure E α)
  | scan (table : Table) (after : Option (List UInt8)) (pre : List UInt8) (limits : ByteLimits)
      (next : Except StorageError (List RawEntry) → Closure E α)
  | stage (table : Table) (key : List UInt8) (value : Option (List UInt8)) (data : table ≠ .metadata)
      (next : Except StorageError Unit → Closure E α)

/-- What a closure has done: a read with its answer, or a change that was staged. -/
inductive Event where
  | got (table : Table) (key : List UInt8) (max : Nat) (answer : Except StorageError (Option (List UInt8)))
  | staged (table : Table) (key : List UInt8) (value : Option (List UInt8))

/-- The events of a closure and its result. A change that the transaction refuses is not staged. -/
def Closure.run {E α : Type} : Closure E α → Transaction → List Event × Except E (α × Transaction)
  | done result, tx => ([], result.map fun value => (value, tx))
  | get table key max next, tx =>
      let rest := (next (tx.get table key max)).run tx
      (.got table key max (tx.get table key max) :: rest.1, rest.2)
  | scan table after pre limits next, tx => (next (tx.scan table after pre limits)).run tx
  | stage table key value _ next, tx =>
      match tx.stage table key value with
      | .error e => (next (.error e)).run tx
      | .ok tx =>
          let rest := (next (.ok ())).run tx
          (.staged table key value :: rest.1, rest.2)

/-- The change of a row by one event. -/
def Event.change (table : Table) (key : List UInt8) : Event → Option (Option (List UInt8))
  | got _ _ _ _ => none
  | staged t k value => if t = table ∧ k = key then some value else none

/-- The latest change of a row. -/
def latest (events : List Event) (table : Table) (key : List UInt8) : Option (Option (List UInt8)) :=
  events.foldl (fun last event => (event.change table key).or last) none

/-- What a read answers after some events, over the committed rows. -/
def overlay (tables : Tables) (events : List Event) (table : Table) (key : List UInt8) (max : Nat) :
    Except StorageError (Option (List UInt8)) :=
  if key.length > 64 ∨ max > MAX_BYTES_VALUE then .error (.limit "byte read budget")
  else
    match latest events table key with
    | some none => .ok none
    | some (some value) =>
        if value.length > max then .error (.limit "value exceeds read budget") else .ok (some value)
    | none => engineGet tables table key max

theorem latest_append (events : List Event) (event : Event) (table : Table) (key : List UInt8) :
    latest (events ++ [event]) table key = (event.change table key).or (latest events table key) := by
  rw [latest, List.foldl_append]
  rfl

/-- A transaction that holds what the events have staged. -/
structure Staged (tables : Tables) (events : List Event) (tx : Transaction) : Prop where
  engine : tx.engine = tables
  changes : ∀ t k, tx.changes.lookup (t, k) = latest events t k
  data : ∀ t k v, Event.staged t k v ∈ events → t ≠ .metadata

theorem Staged.get_eq {tables : Tables} {events : List Event} {tx : Transaction} (h : Staged tables events tx)
    (table : Table) (key : List UInt8) (max : Nat) : tx.get table key max = overlay tables events table key max := by
  rw [Transaction.get, h.changes, h.engine]
  rfl

theorem Staged.got {tables : Tables} {events : List Event} {tx : Transaction} (h : Staged tables events tx)
    (table : Table) (key : List UInt8) (max : Nat) (answer : Except StorageError (Option (List UInt8))) :
    Staged tables (events ++ [.got table key max answer]) tx where
  engine := h.engine
  changes t k := by
    rw [latest_append, h.changes]
    rfl
  data t k v hmem := by
    rcases List.mem_append.mp hmem with hold | hnew
    · exact h.data t k v hold
    · cases List.mem_singleton.mp hnew

theorem Staged.stage {tables : Tables} {events : List Event} {tx tx' : Transaction} (h : Staged tables events tx)
    {table : Table} {key : List UInt8} {value : Option (List UInt8)} (hdata : table ≠ .metadata)
    (hstage : tx.stage table key value = .ok tx') : Staged tables (events ++ [.staged table key value]) tx' := by
  have hchanges : tx'.changes = tx.changes.insert (table, key) value := by
    simp only [Transaction.stage] at hstage
    split_ifs at hstage
    obtain rfl := Except.ok.inj hstage
    rfl
  refine ⟨(Transaction.stage_ok hstage).1.trans h.engine, fun t k => ?_, fun t k v hmem => ?_⟩
  · rw [hchanges, latest_append, Event.change]
    split_ifs with heq
    · obtain ⟨rfl, rfl⟩ := heq
      rw [AList.lookup_insert]
      rfl
    · rw [AList.lookup_insert_ne fun hpair => heq ⟨(Prod.mk.inj hpair).1.symm, (Prod.mk.inj hpair).2.symm⟩, h.changes]
      rfl
  · rcases List.mem_append.mp hmem with hold | hnew
    · exact h.data t k v hold
    · obtain ⟨rfl, -, -⟩ := Event.staged.inj (List.mem_singleton.mp hnew)
      exact hdata

/-- Every read of a closure answers from the overlay, and its result holds what it staged. The induction is on the
calls of the closure; the events before them only grow. -/
theorem Closure.run_overlay {E α : Type} (closure : Closure E α) {tables : Tables} {events : List Event}
    {tx : Transaction} (h : Staged tables events tx) :
    (∀ before table key max answer after, (closure.run tx).1 = before ++ .got table key max answer :: after →
      answer = overlay tables (events ++ before) table key max) ∧
    ∀ value tx', (closure.run tx).2 = .ok (value, tx') → Staged tables (events ++ (closure.run tx).1) tx' := by
  induction closure generalizing events tx with
  | done result =>
      refine ⟨fun before table key max answer after heq => ?_, fun value tx' heq => ?_⟩
      · cases before <;> cases heq
      · cases result with
        | error e => cases heq
        | ok value' =>
            obtain ⟨-, rfl⟩ := Prod.mk.inj (Except.ok.inj heq)
            simpa [Closure.run] using h
  | get table key max next ih =>
      obtain ⟨hanswers, hresult⟩ := ih (tx.get table key max) (h.got table key max (tx.get table key max))
      refine ⟨fun before t k m answer after heq => ?_, fun value tx' heq => ?_⟩
      · cases before with
        | nil =>
            obtain ⟨hevent, -⟩ := List.cons.inj heq
            obtain ⟨rfl, rfl, rfl, rfl⟩ := Event.got.inj hevent
            rw [List.append_nil, h.get_eq]
        | cons event before =>
            obtain ⟨rfl, hrest⟩ := List.cons.inj heq
            have := hanswers before t k m answer after hrest
            rwa [List.append_assoc] at this
      · have := hresult value tx' heq
        rwa [List.append_assoc] at this
  | scan table after pre limits next ih => exact ih (tx.scan table after pre limits) h
  | stage table key value data next ih =>
      rw [Closure.run]
      cases hstage : tx.stage table key value with
      | error e => exact ih (.error e) h
      | ok tx₁ =>
          obtain ⟨hanswers, hresult⟩ := ih (.ok ()) (h.stage data hstage)
          refine ⟨fun before t k m answer after heq => ?_, fun value' tx' heq => ?_⟩
          · cases before with
            | nil => cases (List.cons.inj heq).1
            | cons event before =>
                obtain ⟨rfl, hrest⟩ := List.cons.inj heq
                have := hanswers before t k m answer after hrest
                rwa [List.append_assoc] at this
          · have := hresult value' tx' heq
            rwa [List.append_assoc] at this

theorem staged_begin (tables : Tables) : Staged tables [] (.begin tables) := ⟨rfl, fun _ _ => rfl, nofun⟩

theorem latest_ne_none {events : List Event} {table : Table} {key : List UInt8} :
    latest events table key ≠ none ↔ ∃ value, Event.staged table key value ∈ events := by
  induction events using List.reverseRecOn with
  | nil => exact ⟨fun h => absurd rfl h, nofun⟩
  | append_singleton events event ih =>
      rw [latest_append]
      cases event with
      | got t k max answer => simpa [Event.change] using ih
      | staged t k value =>
          rw [Event.change]
          split_ifs with heq
          · obtain ⟨rfl, rfl⟩ := heq
            exact ⟨fun _ => ⟨value, List.mem_append_right _ (List.mem_singleton.mpr rfl)⟩, fun _ => nofun⟩
          · rw [Option.none_or, ih]
            refine ⟨fun ⟨v, hv⟩ => ⟨v, List.mem_append_left _ hv⟩, fun ⟨v, hv⟩ => ⟨v, ?_⟩⟩
            rcases List.mem_append.mp hv with hold | hnew
            · exact hold
            · obtain ⟨rfl, rfl, -⟩ := Event.staged.inj (List.mem_singleton.mp hnew)
              exact absurd ⟨rfl, rfl⟩ heq

/-- Some row of some shard table is staged. -/
def TouchesShard (events : List Event) : Prop := ∃ d k v, Event.staged (.shard d) k v ∈ events

def StagesNothing (events : List Event) : Prop := ∀ t k v, Event.staged t k v ∉ events

theorem Staged.changes_eq_empty {tables : Tables} {events : List Event} {tx : Transaction}
    (h : Staged tables events tx) : tx.changes = ∅ ↔ StagesNothing events := by
  constructor
  · intro hempty t k v hmem
    refine latest_ne_none.mpr ⟨v, hmem⟩ ?_
    rw [← h.changes, hempty, AList.lookup_empty]
  · intro hnothing
    refine AList.ext ?_
    cases hentries : tx.changes.entries with
    | nil => rfl
    | cons change rest =>
        have hmem : (change.1.1, change.1.2) ∈ tx.changes := by
          rw [AList.mem_keys, AList.keys, hentries]
          exact List.mem_cons_self
        have hsome := AList.lookup_isSome.mpr hmem
        rw [h.changes, Option.isSome_iff_ne_none] at hsome
        obtain ⟨v, hv⟩ := latest_ne_none.mp hsome
        exact absurd hv (hnothing _ _ v)

theorem Staged.shards_iff {tables : Tables} {events : List Event} {tx : Transaction} (h : Staged tables events tx) :
    (tx.changes.keys.any fun address => address.1 matches .shard _) = true ↔ TouchesShard events := by
  rw [List.any_eq_true]
  constructor
  · rintro ⟨⟨t, k⟩, hmem, hshard⟩
    cases t with
    | shard d =>
        have hsome := AList.lookup_isSome.mpr (AList.mem_keys.mp hmem)
        rw [h.changes, Option.isSome_iff_ne_none] at hsome
        obtain ⟨v, hv⟩ := latest_ne_none.mp hsome
        exact ⟨d, k, v, hv⟩
    | _ => cases hshard
  · rintro ⟨d, k, v, hv⟩
    have hsome := latest_ne_none.mpr ⟨v, hv⟩
    rw [← h.changes, ← Option.isSome_iff_ne_none] at hsome
    exact ⟨(.shard d, k), AList.mem_keys.mpr (AList.lookup_isSome.mp hsome), rfl⟩

/-! ### Batches -/

/-- The tables after a batch: every staged change and the markers, and nothing else. -/
structure Appears (events : List Event) (id : Bytes32) (tables tables' : Tables) : Prop where
  rows : ∀ t k, t ≠ .metadata → (tables' t)[k]? = (latest events t k).getD ((tables t)[k]?)
  lastTransaction : (tables' .metadata)[ascii "last_transaction"]? = some id.toList
  touched : TouchesShard events → (tables' .metadata)[ascii "last_commit"]? = some id.toList
  untouched : ¬TouchesShard events →
    (tables' .metadata)[ascii "last_commit"]? = (tables .metadata)[ascii "last_commit"]?
  other : ∀ k, k ≠ ascii "last_transaction" → k ≠ ascii "last_commit" →
    (tables' .metadata)[k]? = (tables .metadata)[k]?

theorem Staged.appears {tables : Tables} {events : List Event} {tx : Transaction} (h : Staged tables events tx)
    (id : Bytes32) : Appears events id tables (applyChanges tables (withMarkers tx.changes id)) := by
  have hmarkers : ascii "last_commit" ≠ ascii "last_transaction" := by decide
  have hnone : ∀ k, tx.changes.lookup (.metadata, k) = none := by
    intro k
    rw [h.changes]
    by_contra hsome
    obtain ⟨v, hv⟩ := latest_ne_none.mp hsome
    exact h.data _ _ _ hv rfl
  have hshards := h.shards_iff
  refine ⟨fun t k ht => ?_, ?_, fun htouched => ?_, fun huntouched => ?_, fun k hk hk' => ?_⟩
  · rw [← h.engine, applyChanges_withMarkers tx id k ht, Transaction.view, h.changes]
  · rw [applyChanges_get, withMarkers, AList.lookup_insert]
    rfl
  · rw [applyChanges_get, withMarkers, AList.lookup_insert_ne fun heq => hmarkers (Prod.mk.inj heq).2]
    split_ifs with hany
    · rw [AList.lookup_insert]
      rfl
    · exact absurd (hshards.mpr htouched) hany
  · rw [applyChanges_get, withMarkers, AList.lookup_insert_ne fun heq => hmarkers (Prod.mk.inj heq).2]
    split_ifs with hany
    · exact absurd (hshards.mp hany) huntouched
    · rw [hnone]
      rfl
  · rw [applyChanges_get, withMarkers, AList.lookup_insert_ne fun heq => hk (Prod.mk.inj heq).2]
    split_ifs
    · rw [AList.lookup_insert_ne fun heq => hk' (Prod.mk.inj heq).2, hnone]
      rfl
    · rw [hnone]
      rfl

/-! ### Runs -/

/-- One call of `transaction` by one of the clones, with what the engine does with its batch. -/
structure Execution : Type 1 where
  E : Type
  α : Type
  ofStorage : StorageError → E
  closure : Closure E α
  outcome : CommitOutcome

variable (hemera : List UInt8 → Bytes32)

def Execution.trace (x : Execution) (db : Database) : List Event := (x.closure.run (.begin db.tables)).1

def Execution.result (x : Execution) (db : Database) : Except x.E (x.α × Transaction) :=
  (x.closure.run (.begin db.tables)).2

/-- The clones share one state behind a lock, so that a call is one step of it. -/
def Execution.run (x : Execution) (db : Database) : Except x.E (Commit x.α) × Database :=
  db.transact hemera x.ofStorage x.outcome fun tx => (x.closure.run tx).2

def executeAll (db : Database) (xs : List Execution) : Database := xs.foldl (fun db x => (x.run hemera db).2) db

/-- A call on a database that answers. -/
structure Overlays (x : Execution) (db : Database) : Prop where
  answers : ∀ before table key max answer after, x.trace db = before ++ .got table key max answer :: after →
    answer = overlay db.tables before table key max
  refused : ∀ e, x.result db = .error e → x.run hemera db = (.error e, db)
  unchanged : ∀ value tx, x.result db = .ok (value, tx) → StagesNothing (x.trace db) →
    x.run hemera db = (.ok ⟨value, none⟩, db)
  committed : ∀ value tx, x.result db = .ok (value, tx) → ¬StagesNothing (x.trace db) →
    ∃ written, Appears (x.trace db) (changeId hemera tx.changes) db.tables written ∧
      x.run hemera db =
        match x.outcome with
        | .done => (.ok ⟨value, some (changeId hemera tx.changes)⟩, { db with tables := written })
        | .failed message => (.error (x.ofStorage (.io message)), db)
        | .unknown message applied => (.error (x.ofStorage (.commitUnknown (changeId hemera tx.changes) message)),
            { tables := if applied then written else db.tables
              failure := some (.commitUnknown (changeId hemera tx.changes) message) })

theorem Execution.overlays (x : Execution) {db : Database} (hready : db.failure = none) : Overlays hemera x db := by
  obtain ⟨hanswers, hresult⟩ := x.closure.run_overlay (staged_begin db.tables)
  refine ⟨fun before table key max answer after htrace => ?_, fun e he => ?_, fun value tx htx hnothing => ?_,
    fun value tx htx hsomething => ?_⟩
  · exact hanswers before table key max answer after htrace
  · exact transact_of_error hemera x.ofStorage x.outcome hready he
  · have hempty := (hresult value tx htx).changes_eq_empty.mpr hnothing
    exact transact_of_unchanged hemera x.ofStorage x.outcome hready htx hempty
  · have hstaged := hresult value tx htx
    have hchanged : tx.changes ≠ ∅ := fun hempty => hsomething (hstaged.changes_eq_empty.mp hempty)
    exact ⟨_, hstaged.appears (changeId hemera tx.changes),
      transact_of_changed hemera x.ofStorage x.outcome hready htx hchanged⟩

theorem Execution.run_of_failure (x : Execution) {db : Database} {e : StorageError} (h : db.failure = some e) :
    x.run hemera db = (.error (x.ofStorage e), db) := transact_of_failure hemera x.ofStorage x.outcome h

theorem executeAll_of_failure {db : Database} {e : StorageError} (h : db.failure = some e) (xs : List Execution) :
    executeAll hemera db xs = db := by
  induction xs with
  | nil => rfl
  | cons x xs ih =>
      rw [executeAll, List.foldl_cons, x.run_of_failure hemera h]
      exact ih

/-- A batch that was committed: its identity and whether a shard table is in it. -/
structure Batch where
  id : Bytes32
  shards : Prop

/-- The batch of a call that answers with one. -/
def Execution.batch (x : Execution) (db : Database) : Option Batch :=
  match (x.run hemera db).1 with
  | .ok commit => commit.changeId.map fun id => ⟨id, TouchesShard (x.trace db)⟩
  | .error _ => none

/-- The batches that a list of calls commits, in their order. -/
def batches (db : Database) : List Execution → List Batch
  | [] => []
  | x :: xs => (x.batch hemera db).toList ++ batches (x.run hemera db).2 xs

/-- The rows of the markers after some batches: what the last of them says, or what stood there before. -/
structure Marked (db₀ : Database) (done : List Batch) (db : Database) : Prop where
  lastTransaction : ∀ b, done.getLast? = some b → db.view .metadata (ascii "last_transaction") = some b.id.toList
  noTransaction : done = [] →
    db.view .metadata (ascii "last_transaction") = db₀.view .metadata (ascii "last_transaction")
  lastCommit : ∀ older b newer, done = older ++ b :: newer → b.shards → (∀ b' ∈ newer, ¬b'.shards) →
    db.view .metadata (ascii "last_commit") = some b.id.toList
  noCommit : (∀ b ∈ done, ¬b.shards) →
    db.view .metadata (ascii "last_commit") = db₀.view .metadata (ascii "last_commit")

theorem Marked.appears {db₀ db db' : Database} {done : List Batch} (h : Marked db₀ done db) {events : List Event}
    {id : Bytes32} (happears : Appears events id db.tables db'.tables) :
    Marked db₀ (done ++ [⟨id, TouchesShard events⟩]) db' := by
  refine ⟨fun b hb => ?_, fun hnil => ?_, fun older b newer hsplit hshards hnewer => ?_, fun hall => ?_⟩
  · rw [List.getLast?_concat] at hb
    obtain rfl := Option.some_inj.mp hb
    exact happears.lastTransaction
  · exact absurd hnil (by simp)
  · -- the batch is the new one, or the new one holds no shard row
    rcases List.eq_nil_or_concat newer with rfl | ⟨newer, last, rfl⟩
    · obtain ⟨-, heq⟩ := List.append_inj' hsplit rfl
      obtain rfl := (List.cons.inj heq).1
      exact happears.touched hshards
    · rw [List.concat_eq_append] at hsplit hnewer
      rw [← List.cons_append, ← List.append_assoc] at hsplit
      obtain ⟨hdone, heq⟩ := List.append_inj' hsplit rfl
      obtain rfl := (List.cons.inj heq).1
      have huntouched := hnewer _ (List.mem_append_right _ (List.mem_singleton.mpr rfl))
      have hold := h.lastCommit older b newer hdone hshards fun b' hb' => hnewer b' (List.mem_append_left _ hb')
      exact (happears.untouched huntouched).trans hold
  · have huntouched := hall _ (List.mem_append_right _ (List.mem_singleton.mpr rfl))
    have hold := h.noCommit fun b hb => hall b (List.mem_append_left _ hb)
    exact (happears.untouched huntouched).trans hold

/-- One call: it leaves the database as it is, or commits one batch, or leaves it without an answer. -/
theorem Execution.run_cases (x : Execution) {db : Database} (hready : db.failure = none) :
    ((x.run hemera db).2 = db ∧ x.batch hemera db = none) ∨
    (∃ id, (x.run hemera db).2.failure = none ∧ x.batch hemera db = some ⟨id, TouchesShard (x.trace db)⟩ ∧
      Appears (x.trace db) id db.tables (x.run hemera db).2.tables) ∨
    ∃ id message, (x.run hemera db).2.failure = some (.commitUnknown id message) ∧
      (x.run hemera db).1 = .error (x.ofStorage (.commitUnknown id message)) := by
  have hoverlay := x.overlays hemera hready
  rw [Execution.batch]
  cases hresult : x.result db with
  | error e =>
      rw [hoverlay.refused e hresult]
      exact .inl ⟨rfl, rfl⟩
  | ok pair =>
      obtain ⟨value, tx⟩ := pair
      by_cases hnothing : StagesNothing (x.trace db)
      · rw [hoverlay.unchanged value tx hresult hnothing]
        exact .inl ⟨rfl, rfl⟩
      · obtain ⟨written, happears, hrun⟩ := hoverlay.committed value tx hresult hnothing
        rw [hrun]
        cases x.outcome with
        | done => exact .inr (.inl ⟨_, hready, rfl, happears⟩)
        | failed message => exact .inl ⟨rfl, rfl⟩
        | unknown message applied => exact .inr (.inr ⟨_, message, rfl, rfl⟩)

theorem marked_executeAll {db₀ : Database} (xs : List Execution) {done : List Batch} {db : Database}
    (hmarked : Marked db₀ done db) (hready : db.failure = none) (hready' : (executeAll hemera db xs).failure = none) :
    Marked db₀ (done ++ batches hemera db xs) (executeAll hemera db xs) := by
  induction xs generalizing done db with
  | nil =>
      rw [batches, List.append_nil]
      exact hmarked
  | cons x xs ih =>
      rw [executeAll, List.foldl_cons] at hready' ⊢
      rw [batches, ← List.append_assoc]
      rcases x.run_cases hemera hready with ⟨hsame, hbatch⟩ | ⟨id, hnext, hbatch, happears⟩ | ⟨id, message, hfailed, -⟩
      · rw [hsame] at hready' ⊢
        rw [hbatch, Option.toList_none, List.append_nil]
        exact ih hmarked hready hready'
      · rw [hbatch, Option.toList_some]
        exact ih (hmarked.appears happears) hnext hready'
      · change (executeAll hemera (x.run hemera db).2 xs).failure = none at hready'
        rw [executeAll_of_failure hemera hfailed, hfailed] at hready'
        cases hready'

/-- A database without an answer got there by a commit whose outcome nobody knows. -/
theorem exists_unknown {db : Database} (hready : db.failure = none) (xs : List Execution) {e : StorageError}
    (h : (executeAll hemera db xs).failure = some e) : ∃ before x after id message, xs = before ++ x :: after ∧
      (executeAll hemera db before).failure = none ∧ e = .commitUnknown id message ∧
      (x.run hemera (executeAll hemera db before)).1 = .error (x.ofStorage e) ∧
      (x.run hemera (executeAll hemera db before)).2 = executeAll hemera db xs := by
  induction xs generalizing db with
  | nil =>
      rw [executeAll, List.foldl_nil, hready] at h
      cases h
  | cons x xs ih =>
      have hcons : executeAll hemera db (x :: xs) = executeAll hemera (x.run hemera db).2 xs := rfl
      rw [hcons] at h ⊢
      cases hnext : (x.run hemera db).2.failure with
      | none =>
          obtain ⟨before, y, after, id, message, rfl, hbefore, he, hanswer, hfinal⟩ := ih hnext h
          exact ⟨x :: before, y, after, id, message, rfl, hbefore, he, hanswer, hfinal⟩
      | some e' =>
          have hfrozen := executeAll_of_failure hemera hnext xs
          rw [hfrozen, hnext] at h
          obtain rfl := Option.some_inj.mp h
          rcases x.run_cases hemera hready with ⟨hsame, -⟩ | ⟨id, hnone, -⟩ | ⟨id, message, hfailed, hanswer⟩
          · rw [hsame, hready] at hnext
            cases hnext
          · rw [hnone] at hnext
            cases hnext
          · rw [hfailed] at hnext
            obtain rfl := Option.some_inj.mp hnext
            exact ⟨[], x, xs, id, message, rfl, hready, rfl, hanswer, hfrozen.symm⟩

/-- What holds of a database that has served a list of calls. While it answers, the next call is an overlay over its
tables and its markers name the last batches; once a commit is unknown, it answers with that error and nothing else. -/
structure Served (db₀ : Database) (xs : List Execution) (db : Database) : Prop where
  overlays : db.failure = none → ∀ x, Overlays hemera x db
  lastTransaction : db.failure = none → ∀ b, (batches hemera db₀ xs).getLast? = some b →
    db.transactionMarker = .ok (some b.id)
  noTransaction : db.failure = none → batches hemera db₀ xs = [] → db.transactionMarker = db₀.transactionMarker
  lastCommit : db.failure = none → ∀ older b newer, batches hemera db₀ xs = older ++ b :: newer → b.shards →
    (∀ b' ∈ newer, ¬b'.shards) → db.commitMarker = .ok (some b.id)
  noCommit : db.failure = none → (∀ b ∈ batches hemera db₀ xs, ¬b.shards) → db.commitMarker = db₀.commitMarker
  unknown : ∀ e, db.failure = some e → ∃ before x after id message, xs = before ++ x :: after ∧
    (executeAll hemera db₀ before).failure = none ∧ e = .commitUnknown id message ∧
    (x.run hemera (executeAll hemera db₀ before)).1 = .error (x.ofStorage e) ∧
    (x.run hemera (executeAll hemera db₀ before)).2 = db
  frozen : ∀ e, db.failure = some e → (∀ x : Execution, x.run hemera db = (.error (x.ofStorage e), db)) ∧
    (∀ table key max, db.read table key max = .error e) ∧
    ∀ table after pre limits, db.scan table after pre limits = .error e

/-- Transactions are atomic overlays, over every sequence of calls with any closures and any outcomes of their
commits. -/
theorem executeAll_served (db : Database) (hready : db.failure = none) (xs : List Execution) :
    Served hemera db xs (executeAll hemera db xs) := by
  have hstart : Marked db [] db := ⟨nofun, fun _ => rfl, fun older b newer hsplit => by simp at hsplit, fun _ => rfl⟩
  have hmarked := marked_executeAll hemera xs hstart hready
  rw [List.nil_append] at hmarked
  refine ⟨fun hanswers x => x.overlays hemera hanswers, fun hanswers b hb => ?_, fun hanswers hnil => ?_,
    fun hanswers older b newer hsplit hshards hnewer => ?_, fun hanswers hall => ?_,
    fun e he => exists_unknown hemera hready xs he, fun e he => ⟨fun x => x.run_of_failure hemera he, ?_, ?_⟩⟩
  · exact marker_of_row hanswers (by decide) ((hmarked hanswers).lastTransaction b hb)
  · exact marker_congr hready hanswers ((hmarked hanswers).noTransaction hnil)
  · exact marker_of_row hanswers (by decide) ((hmarked hanswers).lastCommit older b newer hsplit hshards hnewer)
  · exact marker_congr hready hanswers ((hmarked hanswers).noCommit hall)
  · intro table key max
    simp only [Database.read, he]
  · intro table after pre limits
    simp only [Database.scan, he]

/-- A closure that stages a shard row and reads it back. -/
def putAndGet (outcome : CommitOutcome) : Execution where
  E := StorageError
  α := Option (List UInt8)
  ofStorage e := e
  closure := .stage (.shard 0) [1] (some [2, 3]) nofun fun _ => .get (.shard 0) [1] 8 fun answer => .done answer
  outcome := outcome

theorem executeAll_served_putAndGet :
    let db : Database := ⟨fun _ => ∅, none⟩
    let hemera : List UInt8 → Bytes32 := fun bytes => Vector.replicate 32 (UInt8.ofNat bytes.length)
    (((putAndGet .done).run hemera db).1.toOption.map Commit.value : Option (Option (List UInt8))) = some (some [2, 3]) ∧
      (executeAll hemera db [putAndGet .done, putAndGet (.unknown "sync" true)]).failure.isSome = true ∧
      Served hemera db [putAndGet .done, putAndGet (.unknown "sync" true)]
        (executeAll hemera db [putAndGet .done, putAndGet (.unknown "sync" true)]) :=
  ⟨by decide +kernel, by decide +kernel, executeAll_served _ _ rfl _⟩

end LeanBbg.Storage
