import LeanBbg.ChainRuns
import LeanBbg.Overlay
import LeanBbg.Validation

/-! Import of a legacy store into a destination that must not exist. The file system is explicit: the guard beside the
destination, the store, and the lock of its engine. Calls of `migrate` and of `Database::open` take their steps in any
order, and any of them may be killed between two steps. -/

namespace LeanBbg.Storage

open Bytes Attempt

/-! ### The file system -/

inductive Backend where
  | ssd
  | hdd
  deriving DecidableEq

/-- What stands at the destination: a directory of the SSD engine or a file of the HDD engine. `importer` is the call
whose `create_destination` made it. -/
structure Store where
  backend : Backend
  importer : Option Nat
  tables : Tables

/-- A destination: its guard, with the call that created it, its store, and the process that has the engine's lock. -/
structure Destination where
  guard : Option Nat
  store : Option Store
  lock : Option Nat

def Store.database (store : Store) : Database := ⟨store.tables, none⟩

/-- The import of the store has written its last status. -/
def Store.Complete (store : Store) : Prop := store.database.view .migration statusKey = some (ascii "complete")

namespace Destination

/-- The first part of `Engine::open`: a missing store is created. -/
def createStore (d : Destination) (backend : Backend) : Except StorageError Destination :=
  match d.store with
  | none => .ok { d with store := some ⟨backend, none, fun _ => ∅⟩ }
  | some store =>
      if store.backend = backend then .ok d
      else if backend = .ssd then .error (.unsupported "legacy redb file requires explicit migration")
      else .error (.io "Is a directory")

/-- The second part of `Engine::open`: the exclusive lock. -/
def acquire (d : Destination) (i : Nat) : Except StorageError Destination :=
  match d.lock with
  | some _ => .error .busy
  | none => .ok { d with lock := some i }

def release (d : Destination) (i : Nat) : Destination := if d.lock = some i then { d with lock := none } else d

def database (d : Destination) : Database := (d.store.map Store.database).getD Database.empty

/-- The store with the rows that a transaction of its owner has left. -/
def withTables (d : Destination) (tables : Tables) : Destination :=
  { d with store := d.store.map fun store => { store with tables := tables } }

end Destination

/-! ### Openers -/

/-- Where a call of `Database::open` is. -/
inductive Opener where
  | check
  | create
  | acquire
  | recheck
  | validate
  | opened
  | failed (error : StorageError)
  | closed

/-- The reads of `validate_open` after its check of the guard. -/
def validateOpen (db : Database) : Except StorageError Unit := do
  let status ← db.read .migration statusKey 16
  let _ ← decodeGeneration status
  let _ ← db.transactionMarker
  let _ ← db.commitMarker
  .ok ()

/-- One step of `Database::open`; a handle that is opened is dropped at last. -/
def Opener.step (i : Nat) (backend : Backend) (d : Destination) : Opener → Opener × Destination
  | check =>
      if d.guard.isSome then (.failed (.corrupt "incomplete application migration"), d) else (.create, d)
  | create =>
      match d.createStore backend with
      | .error e => (.failed e, d)
      | .ok d => (.acquire, d)
  | acquire =>
      match d.acquire i with
      | .error e => (.failed e, d)
      | .ok d => (.recheck, d)
  | recheck =>
      if d.guard.isSome then (.failed (.corrupt "incomplete application migration"), d.release i) else (.validate, d)
  | validate =>
      match validateOpen d.database with
      | .error e => (.failed e, d.release i)
      | .ok () => (.opened, d)
  | opened => (.closed, d.release i)
  | failed e => (.failed e, d)
  | closed => (.closed, d)

/-! ### Importers -/

/-- The application tables, in the order in which they are imported. -/
def APPLICATION_TABLES : List Table := [.content, .heads, .history, .requests, .claims]

/-- The loop of `source_page`. -/
def sourceLoop : List RawEntry → Nat → List RawEntry → Except Error (List RawEntry)
  | page, _, [] => .ok page
  | page, bytes, row :: rows =>
      if row.1.length > 64 ∨ row.2.length > MAX_BYTES_VALUE then .error .corrupt
      else if rowBytes row > linkLimits.maxBytes then .error .limit
      else if rowBytes row > linkLimits.maxBytes - bytes then .ok page
      else sourceLoop (page ++ [row]) (bytes + rowBytes row) rows

def sourcePage (source : Tables) (table : Table) (after : Option (List UInt8)) : Except Error (List RawEntry) :=
  sourceLoop [] 0 ((rowsAfter source table after).take linkLimits.maxEntries)

def hashRow (row : RawEntry) : List UInt8 :=
  u64LeBytes (UInt64.ofNat row.1.length) ++ row.1 ++ u64LeBytes (UInt64.ofNat row.2.length) ++ row.2

/-- Where a call of `migrate` is, from its look at the destination on. -/
inductive Importer where
  | look
  | guard
  | create
  | withdraw
  | reopen
  | acquire
  | begin
  | copy (tables : List Table) (after : Option (List UInt8)) (hashed : List UInt8)
  | verify (rest : List Table) (table : Table) (after : Option (List UInt8)) (expected : Bytes32) (actual : List UInt8)
  | links (links : Links)
  | complete
  | release
  | unguard
  | done (result : Except Error Unit)

namespace Importer

def copyBody (table : Table) (rows : List RawEntry) (tx : Transaction) : Except StorageError (Unit × Transaction) := do
  let tx ← rows.foldlM (fun tx row => tx.put table row.1 row.2) tx
  .ok ((), tx)

def statusBody (status : String) (tx : Transaction) : Except StorageError (Unit × Transaction) := do
  let tx ← tx.put .migration statusKey (ascii status)
  .ok ((), tx)

/-- An import that fails drops its target; the guard stays. -/
def fail (i : Nat) (d : Destination) (e : Error) : Importer × Destination := (.done (.error e), d.release i)

variable (hemera : List UInt8 → Bytes32)

/-- A transaction of the target, and the place after it. -/
def commit (i : Nat) (d : Destination) (outcome : CommitOutcome)
    (body : Transaction → Except StorageError (Unit × Transaction)) (next : Importer) : Importer × Destination :=
  let (reply, db) := d.database.transaction hemera id outcome body
  match reply.result with
  | .error e => fail i (d.withTables db.tables) (.ofStorage e)
  | .ok () => (next, d.withTables db.tables)

/-- One step of `migrate`, with at most one action on the file system or transaction of the target. An error of the
file system elsewhere leaves what a kill leaves. -/
def step (i : Nat) (source : Tables) (outcome : CommitOutcome) (d : Destination) : Importer → Importer × Destination
  | look =>
      if d.store.isSome then (.done (.error (.storage "migration destination already exists")), d) else (.guard, d)
  | guard =>
      if d.guard.isSome then (.done (.error (.storage "File exists")), d) else (.create, { d with guard := some i })
  | create =>
      -- `create_destination` refuses an existing path, and may fail otherwise
      match outcome, d.store with
      | .done, none => (.reopen, { d with store := some ⟨.ssd, some i, fun _ => ∅⟩ })
      | _, _ => (.withdraw, d)
  | withdraw => (.done (.error (.storage "File exists")), { d with guard := none })
  | reopen =>
      match d.createStore .ssd with
      | .error e => (.done (.error (.ofStorage e)), d)
      | .ok d => (.acquire, d)
  | acquire =>
      match d.acquire i with
      | .error e => (.done (.error (.ofStorage e)), d)
      | .ok d => (.begin, d)
  | begin => commit hemera i d outcome (statusBody "copying") (.copy APPLICATION_TABLES none [])
  | copy [] _ _ => (.links .start, d)
  | copy (table :: rest) after hashed =>
      match sourcePage source table after with
      | .error e => fail i d e
      | .ok [] => (.verify rest table none (hemera hashed) [], d)
      | .ok rows =>
          match rows.forM (validateRecord table) with
          | .error e => fail i d e
          | .ok () =>
              commit hemera i d outcome (copyBody table rows)
                (.copy (table :: rest) (rows.getLast?.map Prod.fst) (hashed ++ rows.flatMap hashRow))
  | verify rest table after expected actual =>
      match lift (d.database.scan table after [] linkLimits) with
      | .error e => fail i d e
      | .ok [] => if expected ≠ hemera actual then fail i d .corrupt else (.copy rest none [], d)
      | .ok rows =>
          (.verify rest table (rows.getLast?.map Prod.fst) expected (actual ++ rows.flatMap hashRow), d)
  | links (.done (.error e)) => fail i d e
  | links (.done (.ok ())) => (.complete, d)
  | links l =>
      let (l, db) := l.step hemera outcome d.database
      (.links l, d.withTables db.tables)
  | complete => commit hemera i d outcome (statusBody "complete") .release
  | release => (.unguard, d.release i)
  | unguard => (.done (.ok ()), { d with guard := none })
  | done result => (.done result, d)

end Importer

/-! ### Runs -/

/-- A process: an opener, an import of a snapshot, or one that has been killed. -/
inductive Process where
  | opener (backend : Backend) (place : Opener)
  | importer (source : Tables) (place : Importer)
  | killed

structure World where
  destination : Destination
  processes : List Process

inductive WorldEvent where
  | openStore (backend : Backend)
  | migrate (source : Tables)
  | move (process : Nat) (outcome : CommitOutcome)
  | kill (process : Nat)

namespace Process

variable (hemera : List UInt8 → Bytes32)

def step (i : Nat) (outcome : CommitOutcome) (d : Destination) : Process → Process × Destination
  | opener backend place =>
      let (place, d) := place.step i backend d
      (.opener backend place, d)
  | importer source place =>
      let (place, d) := place.step hemera i source outcome d
      (.importer source place, d)
  | killed => (.killed, d)

end Process

namespace World

variable (hemera : List UInt8 → Bytes32)

/-- A killed process keeps nothing but what is on disk: the system drops its lock. -/
def step (w : World) : WorldEvent → World
  | .openStore backend => { w with processes := w.processes ++ [.opener backend .check] }
  | .migrate source => { w with processes := w.processes ++ [.importer source .look] }
  | .move i outcome =>
      match w.processes[i]? with
      | none => w
      | some process =>
          let (process, d) := process.step hemera i outcome w.destination
          ⟨d, w.processes.set i process⟩
  | .kill i =>
      match w.processes[i]? with
      | none => w
      | some _ => ⟨w.destination.release i, w.processes.set i .killed⟩

def run (w : World) (events : List WorldEvent) : World := events.foldl (step hemera) w

end World

/-! ### What a process does to the destination -/

/-- One action of process `k`. -/
inductive Moves (k : Nat) (d : Destination) : Destination → Prop
  | guarded (h : d.guard = none) : Moves k d { d with guard := some k }
  | unguarded (h : d.guard = some k) (hcomplete : ∀ store, d.store = some store → store.importer = some k → store.Complete) :
      Moves k d { d with guard := none }
  | created (h : d.store = none) (store : Store)
      (himporter : store.importer = none ∨ store.importer = some k ∧ d.guard = some k) :
      Moves k d { d with store := some store }
  | locked (h : d.lock = none) : Moves k d { d with lock := some k }
  | released (h : d.lock = some k) : Moves k d { d with lock := none }
  | wrote (hguard : d.guard = some k) (hlock : d.lock = some k) {store : Store} (hstore : d.store = some store)
      (himporter : store.importer = some k) (tables : Tables) :
      Moves k d { d with store := some { store with tables := tables } }

/-- A store that an import has not completed is guarded by the call that made it. -/
def Destination.Guarded (d : Destination) : Prop :=
  ∀ store k, d.store = some store → store.importer = some k → store.Complete ∨ d.guard = some k

theorem Destination.Guarded.moves {d d' : Destination} {k : Nat} (h : d.Guarded) (hmoves : Moves k d d') : d'.Guarded := by
  intro store j hstore hj
  cases hmoves with
  | guarded hnone =>
      rcases h store j hstore hj with hcomplete | hguard
      · exact .inl hcomplete
      · rw [hnone] at hguard
        cases hguard
  | unguarded hk hcomplete =>
      rcases h store j hstore hj with hdone | hguard
      · exact .inl hdone
      · obtain rfl := Option.some_inj.mp (hk.symm.trans hguard)
        exact .inl (hcomplete store hstore hj)
  | created hnone new himporter =>
      obtain rfl := Option.some_inj.mp hstore
      rcases himporter with hnew | ⟨hnew, hguard⟩
      · rw [hnew] at hj
        cases hj
      · rw [hnew] at hj
        exact .inr (hj ▸ hguard)
  | locked hnone => exact h store j hstore hj
  | released hk => exact h store j hstore hj
  | wrote hguard hlock hold himporter tables =>
      obtain rfl := Option.some_inj.mp hstore
      exact .inr (hj ▸ himporter ▸ hguard)

/-! ### Invariants -/

/-- The tables that are still to be imported are empty, but for the rows of the first one up to a key. -/
def Copied (source tables : Tables) (rest : List Table) (after : Option (List UInt8)) : Prop :=
  ∀ t ∈ TABLES, ∀ k : List UInt8, (tables t)[k]? =
    if t ∈ rest then
      if rest.head? = some t ∧ after.any (fun a => (compare k a).isLE) = true then (source t)[k]? else none
    else (source t)[k]?

/-- The rows of a source are imported. -/
def Imported (source tables : Tables) : Prop := ∀ t ∈ TABLES, ∀ k : List UInt8, (tables t)[k]? = (source t)[k]?

/-- One step of `validate_links` on a store that its owner alone uses. -/
def LinkStep (hemera : List UInt8 → Bytes32) (before after : Links × Tables) : Prop :=
  ∃ outcome, after = ((before.1.step hemera outcome ⟨before.2, none⟩).1, (before.1.step hemera outcome ⟨before.2, none⟩).2.tables)

/-- `validate_links` accepts the rows of a source. -/
def Accepted (hemera : List UInt8 → Bytes32) (source : Tables) : Prop :=
  ∃ before after, Imported source before ∧
    Relation.ReflTransGen (LinkStep hemera) (.start, before) (.done (.ok ()), after)

namespace Destination

/-- The store is the one that call `i` made. -/
def Made (d : Destination) (i : Nat) (P : Store → Prop) : Prop :=
  ∃ store, d.store = some store ∧ store.importer = some i ∧ P store

/-- The store is not the one that call `i` made. -/
def Unmade (d : Destination) (i : Nat) : Prop := ∀ store, d.store = some store → store.importer ≠ some i

/-- The store may be used: it is no import, or one that is complete. -/
def Usable (d : Destination) : Prop := ∃ store, d.store = some store ∧ (store.importer ≠ none → store.Complete)

end Destination

def Opener.Inv (d : Destination) (i : Nat) : Opener → Prop
  | acquire => d.store.isSome = true
  | recheck => d.lock = some i ∧ d.store.isSome = true
  | validate => d.lock = some i ∧ d.Usable
  | opened => d.lock = some i ∧ d.Usable
  | _ => True

def Importer.Inv (hemera : List UInt8 → Bytes32) (source : Tables) (d : Destination) (i : Nat) : Importer → Prop
  | look => d.Unmade i
  | guard => d.Unmade i
  | create => d.guard = some i ∧ d.Unmade i
  | withdraw => d.guard = some i ∧ d.Unmade i
  | reopen => d.guard = some i ∧ d.Made i fun store => store.tables = fun _ => ∅
  | acquire => d.guard = some i ∧ d.Made i fun store => store.tables = fun _ => ∅
  | begin => d.guard = some i ∧ d.lock = some i ∧ d.Made i fun store => store.tables = fun _ => ∅
  | copy tables after _ => d.guard = some i ∧ d.lock = some i ∧ tables.Nodup ∧ tables ⊆ TABLES ∧
      d.Made i fun store => Copied source store.tables tables after
  | verify rest _ _ _ _ => d.guard = some i ∧ d.lock = some i ∧ rest.Nodup ∧ rest ⊆ TABLES ∧
      d.Made i fun store => Copied source store.tables rest none
  | links l => d.guard = some i ∧ d.lock = some i ∧ l.Erases ∧
      d.Made i fun store => Imported source store.tables ∧ ∃ before, Imported source before ∧
        Relation.ReflTransGen (LinkStep hemera) (.start, before) (l, store.tables)
  | complete => d.guard = some i ∧ d.lock = some i ∧
      d.Made i fun store => Imported source store.tables ∧ Accepted hemera source
  | release => d.guard = some i ∧ d.lock = some i ∧
      d.Made i fun store => Imported source store.tables ∧ Accepted hemera source ∧ store.Complete
  | unguard => d.guard = some i ∧
      d.Made i fun store => Imported source store.tables ∧ Accepted hemera source ∧ store.Complete
  | done (.ok ()) => d.Made i fun store => Imported source store.tables ∧ Accepted hemera source ∧ store.Complete
  | done (.error _) => True

def Process.Inv (hemera : List UInt8 → Bytes32) (d : Destination) (i : Nat) : Process → Prop
  | opener _ place => place.Inv d i
  | importer source place => place.Inv hemera source d i
  | killed => True

section Frame

variable {hemera : List UInt8 → Bytes32} {d d' : Destination} {i k : Nat}

theorem made_moves {P : Store → Prop} (hne : i ≠ k) (h : d.Made i P) (hmoves : Moves k d d') : d'.Made i P := by
  obtain ⟨store, hstore, himporter, hP⟩ := h
  cases hmoves with
  | guarded _ => exact ⟨store, hstore, himporter, hP⟩
  | unguarded _ _ => exact ⟨store, hstore, himporter, hP⟩
  | created hnone _ _ =>
      rw [hnone] at hstore
      cases hstore
  | locked _ => exact ⟨store, hstore, himporter, hP⟩
  | released _ => exact ⟨store, hstore, himporter, hP⟩
  | wrote _ _ hold hk _ =>
      obtain rfl := Option.some_inj.mp (hold.symm.trans hstore)
      exact absurd (Option.some_inj.mp (himporter.symm.trans hk)) hne

theorem unmade_moves (hne : i ≠ k) (h : d.Unmade i) (hmoves : Moves k d d') : d'.Unmade i := by
  cases hmoves with
  | guarded _ => exact h
  | unguarded _ _ => exact h
  | created _ new himporter =>
      intro store hstore heq
      obtain rfl := Option.some_inj.mp hstore
      rcases himporter with hnone | ⟨hk, -⟩
      · rw [hnone] at heq
        cases heq
      · exact hne (Option.some_inj.mp (heq.symm.trans hk))
  | locked _ => exact h
  | released _ => exact h
  | wrote _ _ hold _ _ =>
      intro store hstore
      obtain rfl := Option.some_inj.mp hstore
      exact fun heq => h _ hold heq

theorem guard_moves (hne : i ≠ k) (h : d.guard = some i) (hmoves : Moves k d d') : d'.guard = some i := by
  cases hmoves with
  | guarded hnone =>
      rw [hnone] at h
      cases h
  | unguarded hk _ => exact absurd (Option.some_inj.mp (h.symm.trans hk)) hne
  | created _ _ _ => exact h
  | locked _ => exact h
  | released _ => exact h
  | wrote _ _ _ _ _ => exact h

theorem lock_moves (hne : i ≠ k) (h : d.lock = some i) (hmoves : Moves k d d') : d'.lock = some i := by
  cases hmoves with
  | guarded _ => exact h
  | unguarded _ _ => exact h
  | created _ _ _ => exact h
  | locked hnone =>
      rw [hnone] at h
      cases h
  | released hk => exact absurd (Option.some_inj.mp (h.symm.trans hk)) hne
  | wrote _ _ _ _ _ => exact h

theorem store_moves (h : d.store.isSome = true) (hmoves : Moves k d d') : d'.store.isSome = true := by
  cases hmoves with
  | created _ _ _ => rfl
  | wrote _ _ _ _ _ => rfl
  | _ => exact h

theorem usable_moves (hne : i ≠ k) (hlock : d.lock = some i) (h : d.Usable) (hmoves : Moves k d d') : d'.Usable := by
  obtain ⟨store, hstore, husable⟩ := h
  cases hmoves with
  | created hnone _ _ =>
      rw [hnone] at hstore
      cases hstore
  | wrote _ hk _ _ _ => exact absurd (Option.some_inj.mp (hlock.symm.trans hk)) hne
  | _ => exact ⟨store, hstore, husable⟩

/-- What a process knows of the destination, the actions of the others leave as it is. -/
theorem Process.Inv.moves {p : Process} (hne : i ≠ k) (h : p.Inv hemera d i) (hmoves : Moves k d d') :
    p.Inv hemera d' i := by
  cases p with
  | killed => trivial
  | opener backend place =>
      cases place with
      | acquire => exact store_moves h hmoves
      | recheck => exact ⟨lock_moves hne h.1 hmoves, store_moves h.2 hmoves⟩
      | validate => exact ⟨lock_moves hne h.1 hmoves, usable_moves hne h.1 h.2 hmoves⟩
      | opened => exact ⟨lock_moves hne h.1 hmoves, usable_moves hne h.1 h.2 hmoves⟩
      | _ => trivial
  | importer source place =>
      cases place with
      | look => exact unmade_moves hne h hmoves
      | guard => exact unmade_moves hne h hmoves
      | create => exact ⟨guard_moves hne h.1 hmoves, unmade_moves hne h.2 hmoves⟩
      | withdraw => exact ⟨guard_moves hne h.1 hmoves, unmade_moves hne h.2 hmoves⟩
      | reopen => exact ⟨guard_moves hne h.1 hmoves, made_moves hne h.2 hmoves⟩
      | acquire => exact ⟨guard_moves hne h.1 hmoves, made_moves hne h.2 hmoves⟩
      | begin => exact ⟨guard_moves hne h.1 hmoves, lock_moves hne h.2.1 hmoves, made_moves hne h.2.2 hmoves⟩
      | copy tables after hashed =>
          obtain ⟨hguard, hlock, hnodup, hsub, hmade⟩ := h
          exact ⟨guard_moves hne hguard hmoves, lock_moves hne hlock hmoves, hnodup, hsub, made_moves hne hmade hmoves⟩
      | verify rest table after expected actual =>
          obtain ⟨hguard, hlock, hnodup, hsub, hmade⟩ := h
          exact ⟨guard_moves hne hguard hmoves, lock_moves hne hlock hmoves, hnodup, hsub, made_moves hne hmade hmoves⟩
      | links l =>
          obtain ⟨hguard, hlock, herases, hmade⟩ := h
          exact ⟨guard_moves hne hguard hmoves, lock_moves hne hlock hmoves, herases, made_moves hne hmade hmoves⟩
      | complete => exact ⟨guard_moves hne h.1 hmoves, lock_moves hne h.2.1 hmoves, made_moves hne h.2.2 hmoves⟩
      | release => exact ⟨guard_moves hne h.1 hmoves, lock_moves hne h.2.1 hmoves, made_moves hne h.2.2 hmoves⟩
      | unguard => exact ⟨guard_moves hne h.1 hmoves, made_moves hne h.2 hmoves⟩
      | done result =>
          cases result with
          | ok u => exact made_moves hne h hmoves
          | error e => trivial

end Frame

/-! ### Pages of the source -/

theorem sourceLoop_ok {page rows out : List RawEntry} {bytes : Nat} (h : sourceLoop page bytes rows = .ok out) :
    ∃ taken rest, rows = taken ++ rest ∧ out = page ++ taken := by
  induction rows generalizing page bytes with
  | nil =>
      obtain rfl := Except.ok.inj h
      exact ⟨[], [], rfl, (List.append_nil _).symm⟩
  | cons row rows ih =>
      rw [sourceLoop] at h
      split_ifs at h
      · obtain rfl := Except.ok.inj h
        exact ⟨[], row :: rows, rfl, (List.append_nil _).symm⟩
      · obtain ⟨taken, rest, rfl, rfl⟩ := ih h
        exact ⟨row :: taken, rest, rfl, by simp⟩

/-- The rows of a page follow its key without a gap, and an empty page means that none is left. -/
theorem sourcePage_ok {source : Tables} {table : Table} {after : Option (List UInt8)} {rows : List RawEntry}
    (h : sourcePage source table after = .ok rows) :
    (∃ rest, rowsAfter source table after = rows ++ rest) ∧ (rows = [] → rowsAfter source table after = []) := by
  rw [sourcePage] at h
  obtain ⟨taken, rest, hsplit, rfl⟩ := sourceLoop_ok h
  refine ⟨⟨rest ++ (rowsAfter source table after).drop linkLimits.maxEntries, ?_⟩, fun hnil => ?_⟩
  · rw [← List.append_assoc, ← hsplit, List.take_append_drop]
  · rw [hnil] at h
    cases hrows : rowsAfter source table after with
    | nil => rfl
    | cons row above =>
        have htake : (row :: above).take linkLimits.maxEntries = row :: above.take 4095 := rfl
        rw [hrows, htake, sourceLoop] at h
        split_ifs at h
        · omega
        · obtain ⟨taken', rest', -, hout⟩ := sourceLoop_ok h
          cases hout

theorem mem_rowsAfter {tables : Tables} {table : Table} {after : Option (List UInt8)} {k x : List UInt8} :
    (k, x) ∈ rowsAfter tables table after ↔ (tables table)[k]? = some x ∧
      ¬after.any (fun a => (compare k a).isLE) = true := by
  rw [rowsAfter, List.mem_filter, OrdMap.mem_toList]
  refine and_congr_right fun _ => ?_
  cases after with
  | none => simp
  | some a =>
      rw [Option.all_some, Option.any_some, @Std.OrientedCmp.eq_swap _ compare _ a k]
      cases compare k a <;> simp

/-- Writing a page takes the copy of a table from one key to the last key of the page. -/
theorem copied_page {source : Tables} {table : Table} {after : Option (List UInt8)} {before : List RawEntry}
    {last : RawEntry} {rest : List RawEntry} (hrows : rowsAfter source table after = before ++ [last] ++ rest)
    {old new : List UInt8 → Option (List UInt8)}
    (hold : ∀ k, old k = if after.any (fun a => (compare k a).isLE) = true then (source table)[k]? else none)
    (hput : ∀ row ∈ before ++ [last], new row.1 = some row.2)
    (hsame : ∀ k, (∀ row ∈ before ++ [last], row.1 ≠ k) → new k = old k) (k : List UInt8) :
    new k = if (compare k last.1).isLE = true then (source table)[k]? else none := by
  have hincreasing : Increasing (before ++ [last] ++ rest) := by
    rw [← hrows]
    exact (increasing_toList _).filter _
  obtain ⟨hpage, -, habove⟩ := List.pairwise_append.mp hincreasing
  obtain ⟨-, -, hbelow⟩ := List.pairwise_append.mp hpage
  have hsource : ∀ row ∈ before ++ [last] ++ rest, (source table)[row.1]? = some row.2 ∧
      ¬after.any (fun a => (compare row.1 a).isLE) = true := by
    intro row hrow
    rw [← hrows] at hrow
    exact mem_rowsAfter.mp hrow
  have hself : (compare last.1 last.1).isLE = true := by
    rw [@Std.ReflCmp.compare_self _ compare _ last.1]
    rfl
  by_cases hmem : ∃ row ∈ before ++ [last], row.1 = k
  · obtain ⟨row, hrow, rfl⟩ := hmem
    have hle : (compare row.1 last.1).isLE = true := by
      rcases List.mem_append.mp hrow with hbefore | hlast
      · rw [hbelow row hbefore last (List.mem_singleton_self last)]
        rfl
      · obtain rfl := List.mem_singleton.mp hlast
        exact hself
    rw [if_pos hle, hput row hrow, (hsource row (List.mem_append_left _ hrow)).1]
  · have hnot : ∀ row ∈ before ++ [last], row.1 ≠ k := fun row hrow heq => hmem ⟨row, hrow, heq⟩
    rw [hsame k hnot, hold k]
    by_cases hpast : after.any (fun a => (compare k a).isLE) = true
    · -- a key at or below the old one is below the last row
      have hle : (compare k last.1).isLE = true := by
        obtain ⟨a, ha, hka⟩ := (Option.any_eq_true _ _).mp hpast
        have hlast := (hsource last (by simp)).2
        rw [ha, Option.any_some, Bool.not_eq_true] at hlast
        have hal : (compare a last.1).isLE = true := by
          rw [@Std.OrientedCmp.eq_swap _ compare _ a last.1]
          cases hcmp : compare last.1 a with
          | lt =>
              rw [hcmp] at hlast
              cases hlast
          | eq =>
              rw [hcmp] at hlast
              cases hlast
          | gt => rfl
        exact Std.TransCmp.isLE_trans hka hal
      rw [if_pos hpast, if_pos hle]
    · rw [if_neg hpast]
      split
      · next hle =>
          -- a row between the two keys would be in the page
          cases hrow : (source table)[k]? with
          | none => rfl
          | some x =>
              have hin : (k, x) ∈ before ++ [last] ++ rest := by
                rw [← hrows]
                exact mem_rowsAfter.mpr ⟨hrow, hpast⟩
              rcases List.mem_append.mp hin with hpage | hrest
              · exact absurd rfl (hnot _ hpage)
              · have hlt := habove last (by simp) (k, x) hrest
                rw [not_isLE_of_lt hlt] at hle
                cases hle
      · rfl

/-! ### Steps -/

section Steps

variable {hemera : List UInt8 → Bytes32} {d : Destination} {i : Nat}

/-- A step of a process: actions of its own, after which it knows what its place says. -/
structure Process.Acts (hemera : List UInt8 → Bytes32) (d : Destination) (i : Nat) (next : Process × Destination) :
    Prop where
  moves : Relation.ReflTransGen (Moves i) d next.2
  inv : next.1.Inv hemera next.2 i

theorem moves_release (d : Destination) (i : Nat) : Relation.ReflTransGen (Moves i) d (d.release i) := by
  rw [Destination.release]
  split
  · next h => exact .single (.released h)
  · exact .refl

theorem opener_acts (hguarded : d.Guarded) {backend : Backend} {place : Opener} (h : place.Inv d i) :
    Process.Acts hemera d i (.opener backend (place.step i backend d).1, (place.step i backend d).2) := by
  cases place with
  | check =>
      rw [Opener.step]
      split
      · exact ⟨.refl, trivial⟩
      · exact ⟨.refl, trivial⟩
  | create =>
      rw [Opener.step]
      split
      · exact ⟨.refl, trivial⟩
      · next d' hcreate =>
          rw [Destination.createStore] at hcreate
          split at hcreate
          · next hnone =>
              obtain rfl := Except.ok.inj hcreate
              exact ⟨.single (.created hnone _ (.inl rfl)), rfl⟩
          · next store hstore =>
              split_ifs at hcreate
              obtain rfl := Except.ok.inj hcreate
              refine ⟨.refl, ?_⟩
              change d.store.isSome = true
              rw [hstore]
              rfl
  | acquire =>
      rw [Opener.step]
      split
      · exact ⟨.refl, trivial⟩
      · next d' hacquire =>
          rw [Destination.acquire] at hacquire
          split at hacquire
          · cases hacquire
          · next hnone =>
              obtain rfl := Except.ok.inj hacquire
              exact ⟨.single (.locked hnone), rfl, h⟩
  | recheck =>
      obtain ⟨hlock, hstore⟩ := h
      rw [Opener.step]
      split
      · exact ⟨moves_release d i, trivial⟩
      · next hguard =>
          obtain ⟨store, hstore⟩ := Option.isSome_iff_exists.mp hstore
          refine ⟨.refl, hlock, store, hstore, fun himporter => ?_⟩
          obtain ⟨k, hk⟩ := Option.ne_none_iff_exists'.mp himporter
          rcases hguarded store k hstore hk with hcomplete | hguard'
          · exact hcomplete
          · rw [hguard'] at hguard
            exact absurd rfl hguard
  | validate =>
      rw [Opener.step]
      split
      · exact ⟨moves_release d i, trivial⟩
      · exact ⟨.refl, h⟩
  | opened => exact ⟨moves_release d i, trivial⟩
  | failed e => exact ⟨.refl, trivial⟩
  | closed => exact ⟨.refl, trivial⟩

/-- What a body of the import leaves in the view of its transaction. -/
structure Transaction.Puts (tx tx' : Transaction) (table : Table) (rows : List RawEntry) : Prop where
  engine : tx'.engine = tx.engine
  put : rows.Pairwise (fun a b => a.1 ≠ b.1) → ∀ row ∈ rows, tx'.view table row.1 = some row.2
  same : ∀ t k, (t = table → ∀ row ∈ rows, row.1 ≠ k) → tx'.view t k = tx.view t k

theorem puts_of_foldlM {table : Table} {rows : List RawEntry} {tx tx' : Transaction}
    (h : rows.foldlM (fun tx row => tx.put table row.1 row.2) tx = .ok tx') : tx.Puts tx' table rows := by
  induction rows generalizing tx with
  | nil =>
      obtain rfl := Except.ok.inj h
      exact ⟨rfl, nofun, fun _ _ _ => rfl⟩
  | cons first rest ih =>
      rw [List.foldlM_cons] at h
      obtain ⟨middle, hfirst, h⟩ := exists_of_bind_ok h
      obtain ⟨hengine, -, hview⟩ := Transaction.stage_ok hfirst
      have hrest := ih h
      refine ⟨hrest.engine.trans hengine, fun hdistinct row hrow => ?_, fun t k hne => ?_⟩
      · obtain ⟨hfresh, hdistinct⟩ := List.pairwise_cons.mp hdistinct
        rcases List.mem_cons.mp hrow with rfl | hrow
        · rw [hrest.same table row.1 fun _ other hother heq => hfresh other hother heq.symm, hview, if_pos ⟨rfl, rfl⟩]
        · exact hrest.put hdistinct row hrow
      · rw [hrest.same t k fun ht row hrow => hne ht row (List.mem_cons_of_mem _ hrow), hview, if_neg]
        rintro ⟨ht, rfl⟩
        exact hne ht first List.mem_cons_self rfl

/-- A transaction that reports success leaves the view of its body. -/
theorem view_of_ok {db : Database} {outcome : CommitOutcome} {u : Unit}
    {body : Transaction → Except StorageError (Unit × Transaction)}
    (hbody : ∀ tx, body (.begin db.tables) = .ok (u, tx) → tx.engine = db.tables)
    (h : (db.transaction hemera id outcome body).1.result = .ok u) :
    ∃ tx, body (.begin db.tables) = .ok (u, tx) ∧
      ∀ t k, t ≠ .metadata → (db.transaction hemera id outcome body).2.view t k = tx.view t k := by
  cases htransaction : db.transaction hemera id outcome body with
  | mk reply db' =>
      rw [htransaction] at h
      obtain ⟨tx, hexecute, ⟨hempty, rfl⟩ | ⟨-, htables⟩⟩ := transaction_ok hemera id outcome htransaction h
      · refine ⟨tx, hexecute, fun t k _ => ?_⟩
        rw [Transaction.view, hempty, hbody tx hexecute]
        rfl
      · exact ⟨tx, hexecute, fun t k ht => view_of_written (hbody tx hexecute) htables t k ht⟩

theorem database_of_store {store : Store} (h : d.store = some store) : d.database = store.database := by
  rw [Destination.database, h]
  rfl

theorem withTables_of_store {store : Store} (h : d.store = some store) (tables : Tables) :
    d.withTables tables = { d with store := some { store with tables := tables } } := by
  rw [Destination.withTables, h]
  rfl

/-- A transaction of the import, with what its success gives. -/
theorem commit_acts {store : Store} {outcome : CommitOutcome}
    {body : Transaction → Except StorageError (Unit × Transaction)} {source : Tables} {next : Importer}
    (hguard : d.guard = some i) (hlock : d.lock = some i) (hstore : d.store = some store)
    (himporter : store.importer = some i)
    (hnext : ∀ tables, (store.database.transaction hemera id outcome body).1.result = .ok () →
      tables = (store.database.transaction hemera id outcome body).2.tables →
      next.Inv hemera source { d with store := some { store with tables := tables } } i) :
    Process.Acts hemera d i (.importer source (Importer.commit hemera i d outcome body next).1,
      (Importer.commit hemera i d outcome body next).2) := by
  have hwith := withTables_of_store hstore
  rw [Importer.commit, database_of_store hstore]
  dsimp only
  split
  · refine ⟨?_, trivial⟩
    rw [Importer.fail, hwith]
    exact .trans (.single (.wrote hguard hlock hstore himporter _)) (moves_release _ i)
  · next hresult =>
      refine ⟨?_, ?_⟩
      · rw [hwith]
        exact .single (.wrote hguard hlock hstore himporter _)
      · dsimp only
        rw [hwith]
        exact hnext _ hresult rfl

theorem statusBody_ok {status : String} {db : Database} {outcome : CommitOutcome}
    (h : (db.transaction hemera id outcome (Importer.statusBody status)).1.result = .ok ()) :
    (∀ t ∈ TABLES, ∀ k, (db.transaction hemera id outcome (Importer.statusBody status)).2.view t k = db.view t k) ∧
      (db.transaction hemera id outcome (Importer.statusBody status)).2.view .migration statusKey =
        some (ascii status) := by
  have hbody : ∀ tx, Importer.statusBody status (.begin db.tables) = .ok ((), tx) → tx.engine = db.tables ∧
      ∀ t k, tx.view t k = if t = .migration ∧ k = statusKey then some (ascii status) else db.view t k := by
    intro tx h
    obtain ⟨moved, hput, h⟩ := exists_of_bind_ok h
    obtain ⟨-, rfl⟩ := Prod.mk.inj (Except.ok.inj h)
    obtain ⟨hengine, -, hview⟩ := Transaction.stage_ok hput
    exact ⟨hengine, hview⟩
  obtain ⟨tx, hexecute, hview⟩ := view_of_ok (fun tx h => (hbody tx h).1) h
  obtain ⟨-, hput⟩ := hbody tx hexecute
  refine ⟨fun t ht k => ?_, ?_⟩
  · have hne : t ≠ .metadata ∧ t ≠ .migration := by
      fin_cases ht <;> exact ⟨nofun, nofun⟩
    rw [hview t k hne.1, hput, if_neg fun heq => hne.2 heq.1]
  · rw [hview .migration statusKey nofun, hput, if_pos ⟨rfl, rfl⟩]

theorem mem_applicationTables {t : Table} : t ∈ APPLICATION_TABLES ↔ t ∈ TABLES := by
  simp only [APPLICATION_TABLES, TABLES, List.mem_cons, List.not_mem_nil, or_false]
  tauto

/-- A table whose last page is empty is imported. -/
theorem Copied.next {source tables : Tables} {table : Table} {rest : List Table} {after : Option (List UInt8)}
    (h : Copied source tables (table :: rest) after) (hnodup : (table :: rest).Nodup)
    (hnone : rowsAfter source table after = []) : Copied source tables rest none := by
  obtain ⟨hfresh, -⟩ := List.nodup_cons.mp hnodup
  intro t ht k
  rw [h t ht k]
  by_cases heq : t = table
  · subst heq
    rw [if_pos List.mem_cons_self, if_neg hfresh]
    split
    · rfl
    · next hpast =>
        cases hrow : (source t)[k]? with
        | none => rfl
        | some x =>
            have hmem : (k, x) ∈ rowsAfter source t after :=
              mem_rowsAfter.mpr ⟨hrow, fun hany => hpast ⟨rfl, hany⟩⟩
            rw [hnone] at hmem
            cases hmem
  · by_cases hmem : t ∈ rest
    · rw [if_pos (List.mem_cons_of_mem _ hmem), if_pos hmem, if_neg, if_neg]
      · rintro ⟨-, hany⟩
        cases hany
      · rintro ⟨hhead, -⟩
        exact heq (Option.some_inj.mp hhead).symm
    · rw [if_neg hmem, if_neg]
      intro hcons
      rcases List.mem_cons.mp hcons with h | h
      · exact heq h
      · exact hmem h

/-- A page of a table is imported by the transaction that writes it. -/
theorem Copied.page {source : Tables} {store : Store} {table : Table} {rest : List Table} {after : Option (List UInt8)}
    {rows : List RawEntry} {outcome : CommitOutcome} (h : Copied source store.tables (table :: rest) after)
    (hsub : table :: rest ⊆ TABLES) (hpage : sourcePage source table after = .ok rows) (hne : rows ≠ [])
    (hok : (store.database.transaction hemera id outcome (Importer.copyBody table rows)).1.result = .ok ()) :
    Copied source (store.database.transaction hemera id outcome (Importer.copyBody table rows)).2.tables
      (table :: rest) (rows.getLast?.map Prod.fst) := by
  have hbody : ∀ tx, Importer.copyBody table rows (.begin store.database.tables) = .ok ((), tx) →
      (Transaction.begin store.database.tables).Puts tx table rows := by
    intro tx h
    obtain ⟨moved, hput, h⟩ := exists_of_bind_ok h
    obtain ⟨-, rfl⟩ := Prod.mk.inj (Except.ok.inj h)
    exact puts_of_foldlM hput
  obtain ⟨tx, hexecute, hview⟩ := view_of_ok (fun tx h => (hbody tx h).engine) hok
  have hputs := hbody tx hexecute
  obtain ⟨⟨above, habove⟩, -⟩ := sourcePage_ok hpage
  obtain ⟨before, last, rfl⟩ : ∃ before last, rows = before ++ [last] :=
    ⟨_, _, (List.dropLast_append_getLast hne).symm⟩
  have hmetadata : ∀ t ∈ TABLES, t ≠ .metadata := by
    intro t ht
    fin_cases ht <;> exact nofun
  have hdistinct : (before ++ [last]).Pairwise fun a b => a.1 ≠ b.1 := by
    have hincreasing : Increasing (before ++ [last] ++ above) := by
      rw [← habove]
      exact (increasing_toList _).filter _
    refine (List.pairwise_append.mp hincreasing).1.imp fun hlt heq => ?_
    rw [heq, @Std.ReflCmp.compare_self _ compare _ _] at hlt
    cases hlt
  intro t ht k
  change (store.database.transaction hemera id outcome (Importer.copyBody table (before ++ [last]))).2.view t k = _
  rw [hview t k (hmetadata t ht)]
  by_cases heq : t = table
  · subst heq
    have hold : ∀ k, store.database.view t k =
        if after.any (fun a => (compare k a).isLE) = true then (source t)[k]? else none := by
      intro k
      have hcopied := h t ht k
      rw [if_pos List.mem_cons_self] at hcopied
      refine hcopied.trans ?_
      simp
    have hnew := copied_page habove hold (hputs.put hdistinct) (fun k hk => hputs.same t k fun _ => hk) k
    rw [if_pos List.mem_cons_self, hnew]
    simp
  · have hcopied := h t ht k
    rw [hputs.same t k fun h => absurd h heq]
    refine hcopied.trans ?_
    have hhead : ¬(table :: rest).head? = some t := fun hhead => heq (Option.some_inj.mp hhead).symm
    simp only [hhead, false_and, if_false]

theorem copied_start {source tables : Tables} (h : ∀ t ∈ TABLES, ∀ k : List UInt8, (tables t)[k]? = none) :
    Copied source tables APPLICATION_TABLES none := by
  intro t ht k
  rw [h t ht k, if_pos (mem_applicationTables.mpr ht), if_neg]
  rintro ⟨-, hany⟩
  cases hany

theorem Copied.imported {source tables : Tables} {after : Option (List UInt8)} (h : Copied source tables [] after) :
    Imported source tables := by
  intro t ht k
  rw [h t ht k, if_neg List.not_mem_nil]

/-- One step of `validate_links` on the target. -/
theorem links_acts {source : Tables} (outcome : CommitOutcome) {l : Links}
    (h : (Importer.links l).Inv hemera source d i) :
    Process.Acts hemera d i (.importer source (.links (l.step hemera outcome d.database).1),
      d.withTables (l.step hemera outcome d.database).2.tables) := by
  obtain ⟨hguard, hlock, herases, store, hstore, himporter, himported, before, hbefore, hreaches⟩ := h
  have hsame : SameSource store.database.view (l.step hemera outcome store.database).2.view :=
    Links.sameSource_step outcome _ herases
  rw [database_of_store hstore, withTables_of_store hstore]
  refine ⟨.single (.wrote hguard hlock hstore himporter _), hguard, hlock, Links.erases_step outcome _ l, _, rfl,
    himporter, fun t ht k => ?_, before, hbefore, hreaches.tail ⟨outcome, rfl⟩⟩
  exact (hsame.rows t ht k).trans (himported t ht k)

/-- A step of an import. -/
theorem importer_acts {source : Tables} {outcome : CommitOutcome} {place : Importer}
    (h : place.Inv hemera source d i) :
    Process.Acts hemera d i (.importer source (place.step hemera i source outcome d).1,
      (place.step hemera i source outcome d).2) := by
  have hfail : ∀ e, Process.Acts hemera d i (.importer source (Importer.fail i d e).1, (Importer.fail i d e).2) :=
    fun e => ⟨moves_release d i, trivial⟩
  cases place with
  | look =>
      rw [Importer.step]
      split
      · exact ⟨.refl, trivial⟩
      · exact ⟨.refl, h⟩
  | guard =>
      rw [Importer.step]
      split
      · exact ⟨.refl, trivial⟩
      · next hguard => exact ⟨.single (.guarded (Option.not_isSome_iff_eq_none.mp hguard)), rfl, h⟩
  | create =>
      obtain ⟨hguard, hunmade⟩ := h
      rw [Importer.step.eq_def]
      dsimp only
      split
      · next hnone =>
          exact ⟨.single (.created hnone _ (.inr ⟨rfl, hguard⟩)), hguard, _, rfl, rfl, rfl⟩
      · exact ⟨.refl, hguard, hunmade⟩
  | withdraw =>
      obtain ⟨hguard, hunmade⟩ := h
      exact ⟨.single (.unguarded hguard fun store hstore hi => absurd hi (hunmade store hstore)), trivial⟩
  | reopen =>
      obtain ⟨hguard, store, hstore, himporter, hempty⟩ := h
      rw [Importer.step]
      split
      · exact ⟨.refl, trivial⟩
      · next d' hcreate =>
          simp only [Destination.createStore, hstore] at hcreate
          split_ifs at hcreate
          obtain rfl := Except.ok.inj hcreate
          exact ⟨.refl, hguard, store, hstore, himporter, hempty⟩
  | acquire =>
      obtain ⟨hguard, hmade⟩ := h
      rw [Importer.step]
      split
      · exact ⟨.refl, trivial⟩
      · next d' hacquire =>
          rw [Destination.acquire] at hacquire
          split at hacquire
          · cases hacquire
          · next hnone =>
              obtain rfl := Except.ok.inj hacquire
              exact ⟨.single (.locked hnone), hguard, rfl, hmade⟩
  | begin =>
      obtain ⟨hguard, hlock, store, hstore, himporter, hempty⟩ := h
      rw [Importer.step]
      refine commit_acts hguard hlock hstore himporter fun tables hok htables => ?_
      have hsame := (statusBody_ok hok).1
      subst htables
      refine ⟨hguard, hlock, by decide, fun t ht => mem_applicationTables.mp ht, _, rfl, himporter, copied_start ?_⟩
      intro t ht k
      refine (hsame t ht k).trans ?_
      change (store.tables t)[k]? = none
      rw [hempty]
      rfl
  | copy tables after hashed =>
      obtain ⟨hguard, hlock, hnodup, hsub, store, hstore, himporter, hcopied⟩ := h
      cases tables with
      | nil =>
          exact ⟨.refl, hguard, hlock, trivial, store, hstore, himporter, hcopied.imported, _, hcopied.imported, .refl⟩
      | cons table rest =>
          rw [Importer.step]
          split
          · exact hfail _
          · next hpage =>
              have hnone := (sourcePage_ok hpage).2 rfl
              exact ⟨.refl, hguard, hlock, (List.nodup_cons.mp hnodup).2, fun t ht => hsub (List.mem_cons_of_mem _ ht),
                store, hstore, himporter, hcopied.next hnodup hnone⟩
          · next rows hne hpage =>
              split
              · exact hfail _
              · refine commit_acts hguard hlock hstore himporter fun tables hok htables => ?_
                subst htables
                exact ⟨hguard, hlock, hnodup, hsub, _, rfl, himporter, hcopied.page hsub hpage hne hok⟩
  | verify rest table after expected actual =>
      rw [Importer.step]
      split
      · exact hfail _
      · split
        · exact hfail _
        · exact ⟨.refl, h⟩
      · exact ⟨.refl, h⟩
  | links l =>
      cases l with
      | done result =>
          cases result with
          | error e => exact hfail e
          | ok u =>
              obtain ⟨hguard, hlock, -, store, hstore, himporter, himported, before, hbefore, hreaches⟩ := h
              exact ⟨.refl, hguard, hlock, store, hstore, himporter, himported, before, _, hbefore, hreaches⟩
      | scan tables after previous => exact links_acts outcome h
      | index table rest rows previous => exact links_acts outcome h
      | check table rest rows last previous => exact links_acts outcome h
      | clear => exact links_acts outcome h
      | erase rows => exact links_acts outcome h
  | complete =>
      obtain ⟨hguard, hlock, store, hstore, himporter, himported, haccepted⟩ := h
      rw [Importer.step]
      refine commit_acts hguard hlock hstore himporter fun tables hok htables => ?_
      obtain ⟨hsame, hstatus⟩ := statusBody_ok hok
      subst htables
      refine ⟨hguard, hlock, _, rfl, himporter, fun t ht k => ?_, haccepted, hstatus⟩
      exact (hsame t ht k).trans (himported t ht k)
  | release =>
      obtain ⟨hguard, hlock, hmade⟩ := h
      rw [Importer.step, Destination.release, if_pos hlock]
      exact ⟨.single (.released hlock), hguard, hmade⟩
  | unguard =>
      obtain ⟨hguard, store, hstore, himporter, hdone⟩ := h
      refine ⟨.single (.unguarded hguard fun other hother _ => ?_), store, hstore, himporter, hdone⟩
      obtain rfl := Option.some_inj.mp (hstore.symm.trans hother)
      exact hdone.2.2
  | done result =>
      cases result with
      | ok u => exact ⟨.refl, h⟩
      | error e => exact ⟨.refl, trivial⟩

end Steps

/-! ### Worlds -/

namespace World

variable {hemera : List UInt8 → Bytes32}

/-- What holds in every state of the processes on one destination. -/
structure Inv (hemera : List UInt8 → Bytes32) (w : World) : Prop where
  guarded : w.destination.Guarded
  known : ∀ store k, w.destination.store = some store → store.importer = some k → k < w.processes.length
  processes : ∀ i (p : Process), w.processes[i]? = some p → p.Inv hemera w.destination i

/-- No import yet, and no process. -/
structure Fresh (w : World) : Prop where
  idle : w.processes = []
  noImport : ∀ store, w.destination.store = some store → store.importer = none

theorem Fresh.inv {w : World} (h : w.Fresh) : w.Inv hemera := by
  refine ⟨fun store k hstore hk => ?_, fun store k hstore hk => ?_, fun i p hp => ?_⟩
  · rw [h.noImport store hstore] at hk
    cases hk
  · rw [h.noImport store hstore] at hk
    cases hk
  · rw [h.idle] at hp
    cases hp

/-- The actions of one process, as the world and the other processes see them. -/
theorem moves_all (hemera : List UInt8 → Bytes32) {d d' : Destination} {k n : Nat} (hmoves : Relation.ReflTransGen (Moves k) d d')
    (hk : k < n) (hguarded : d.Guarded) (hknown : ∀ store j, d.store = some store → store.importer = some j → j < n) :
    d'.Guarded ∧ (∀ store j, d'.store = some store → store.importer = some j → j < n) ∧
      ∀ i p, i ≠ k → Process.Inv hemera d i p → Process.Inv hemera d' i p := by
  induction hmoves with
  | refl => exact ⟨hguarded, hknown, fun _ _ _ h => h⟩
  | tail _ hlast ih =>
      obtain ⟨hguarded, hknown, hothers⟩ := ih
      refine ⟨hguarded.moves hlast, fun store j hstore hj => ?_, fun i p hne h => (hothers i p hne h).moves hne hlast⟩
      cases hlast with
      | created _ new himporter =>
          obtain rfl := Option.some_inj.mp hstore
          rcases himporter with hnone | ⟨hnew, -⟩
          · rw [hnone] at hj
            cases hj
          · obtain rfl := Option.some_inj.mp (hnew.symm.trans hj)
            exact hk
      | wrote _ _ hold _ _ =>
          obtain rfl := Option.some_inj.mp hstore
          exact hknown _ j hold hj
      | guarded _ => exact hknown store j hstore hj
      | unguarded _ _ => exact hknown store j hstore hj
      | locked _ => exact hknown store j hstore hj
      | released _ => exact hknown store j hstore hj

/-- A process that acts, with what it knows afterwards. -/
theorem Inv.act {w : World} (h : w.Inv hemera) {i : Nat} (hi : i < w.processes.length) {next : Process × Destination}
    (hacts : Process.Acts hemera w.destination i next) : (⟨next.2, w.processes.set i next.1⟩ : World).Inv hemera := by
  obtain ⟨hguarded, hknown, hothers⟩ := moves_all hemera hacts.moves hi h.guarded h.known
  refine ⟨hguarded, fun store k hstore hk => ?_, fun j p hp => ?_⟩
  · rw [List.length_set]
    exact hknown store k hstore hk
  · by_cases heq : j = i
    · subst heq
      rw [List.getElem?_set_self hi] at hp
      obtain rfl := Option.some_inj.mp hp
      exact hacts.inv
    · rw [List.getElem?_set_ne (Ne.symm heq)] at hp
      exact hothers j p heq (h.processes j p hp)

/-- A new process knows nothing that the destination could deny. -/
theorem Inv.spawn {w : World} (h : w.Inv hemera) {p : Process} (hp : p.Inv hemera w.destination w.processes.length) :
    ({ w with processes := w.processes ++ [p] } : World).Inv hemera := by
  refine ⟨h.guarded, fun store k hstore hk => ?_, fun i q hq => ?_⟩
  · have := h.known store k hstore hk
    rw [List.length_append, List.length_singleton]
    omega
  · rcases Nat.lt_or_ge i w.processes.length with hlt | hge
    · rw [List.getElem?_append_left hlt] at hq
      exact h.processes i q hq
    · rw [List.getElem?_append_right hge] at hq
      obtain ⟨hzero, rfl⟩ : i - w.processes.length = 0 ∧ p = q := by
        obtain ⟨hlt, hget⟩ := List.getElem?_eq_some_iff.mp hq
        rw [List.length_singleton] at hlt
        obtain hzero : i - w.processes.length = 0 := by omega
        rw [hzero] at hq
        exact ⟨hzero, Option.some_inj.mp hq⟩
      obtain rfl : i = w.processes.length := by omega
      exact hp

theorem Inv.step {w : World} (h : w.Inv hemera) (event : WorldEvent) : (w.step hemera event).Inv hemera := by
  cases event with
  | openStore backend => exact h.spawn trivial
  | migrate source =>
      refine h.spawn fun store hstore hk => ?_
      exact Nat.lt_irrefl _ (h.known store _ hstore hk)
  | move i outcome =>
      rw [World.step]
      split
      · exact h
      · next p hp =>
          have hi := (List.getElem?_eq_some_iff.mp hp).1
          have hinv := h.processes i p hp
          cases p with
          | opener backend place => exact h.act hi (opener_acts h.guarded hinv)
          | importer source place => exact h.act hi (importer_acts hinv)
          | killed =>
              have hacts : Process.Acts hemera w.destination i (.killed, w.destination) := ⟨.refl, trivial⟩
              exact h.act hi hacts
  | kill i =>
      rw [World.step]
      split
      · exact h
      · next hp =>
          have hacts : Process.Acts hemera w.destination i (.killed, w.destination.release i) :=
            ⟨moves_release _ i, trivial⟩
          exact h.act (List.getElem?_eq_some_iff.mp hp).1 hacts

theorem Inv.run {w : World} (h : w.Inv hemera) (events : List WorldEvent) : (w.run hemera events).Inv hemera := by
  induction events generalizing w with
  | nil => exact h
  | cons event events ih => exact ih (h.step event)

end World

end LeanBbg.Storage
