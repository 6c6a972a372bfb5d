import Mathlib.Data.List.AList
import LeanBbg.NativeRecords

/-! The physical owner of all durable views: tables of byte rows, transactions that stage changes over them,
and the commit of a transaction, which happens as a whole or not at all. -/

namespace LeanBbg.Storage

open Bytes

/-! ### Tables -/

inductive RecordDomain where
  | nativeState
  | nativeHistory
  | nativeRequests
  | nativeMetadata
  | nativeBalances
  | nativeBlocks
  | nativeExport
  deriving DecidableEq

inductive Table where
  | shard (dimension : UInt8)
  | metadata
  | content
  | heads
  | history
  | requests
  | claims
  | migration
  | native (domain : RecordDomain)
  deriving DecidableEq

/-- The bytes of a text of the source. -/
def ascii (s : String) : List UInt8 := s.toList.map fun c => UInt8.ofNat c.toNat

def RecordDomain.name : RecordDomain → String
  | nativeState => "native_state_v1"
  | nativeHistory => "native_history_v1"
  | nativeRequests => "native_requests_v1"
  | nativeMetadata => "native_metadata_v1"
  | nativeBalances => "native_balances_v1"
  | nativeBlocks => "native_blocks_v1"
  | nativeExport => "native_export_v1"

def SHARD_NAMES : List String :=
  ["particles", "axons_out", "axons_in", "neurons", "locations", "coins", "cards", "files", "time", "signals",
    "commitments", "nullifiers", "intents", "ephemeral"]

/-- The name of a table; no table of a dimension past the fourteenth is ever opened. -/
def Table.name : Table → String
  | shard d => SHARD_NAMES.getD d.toNat ""
  | metadata => "bbg_storage_v1"
  | content => "application_content"
  | heads => "application_heads"
  | history => "application_history"
  | requests => "application_requests"
  | claims => "application_unique_claims"
  | migration => "bbg_import_v1"
  | native domain => domain.name

abbrev RawEntry := List UInt8 × List UInt8

/-- What an engine holds: the rows of every table, in key order. -/
abbrev Tables := Table → OrdMap (List UInt8) (List UInt8)

inductive StorageError where
  | invalidDimension (dimension : UInt8)
  | limit (message : String)
  | corrupt (message : String)
  | io (message : String)
  | busy
  | pendingWrites
  | unsupported (message : String)
  | commitUnknown (changeId : Bytes32) (message : String)
  deriving DecidableEq

def MAX_TRANSACTION_BYTES : Nat := 32 * 1024 * 1024

def MAX_TRANSACTION_KEYS : Nat := 150000

def MAX_BYTES_VALUE : Nat := 16 * 1024 * 1024 + 1

/-! ### Reads of an engine -/

/-- The row of a table, when it is no longer than the reader's budget. -/
def engineGet (tables : Tables) (table : Table) (key : List UInt8) (max : Nat) :
    Except StorageError (Option (List UInt8)) :=
  match (tables table)[key]? with
  | none => .ok none
  | some bytes =>
      if bytes.length > max then .error (.limit "database value exceeds read budget")
      else .ok (some bytes)

structure ByteLimits where
  maxEntries : Nat
  maxBytes : Nat

def ByteLimits.validate (limits : ByteLimits) : Except StorageError Unit :=
  if limits.maxEntries = 0 ∨ limits.maxEntries > 4096 ∨ limits.maxBytes > MAX_TRANSACTION_BYTES then
    .error (.limit "byte scan budget")
  else .ok ()

inductive Bound where
  | included (key : List UInt8)
  | excluded (key : List UInt8)
  | unbounded

def Bound.below : Bound → List UInt8 → Bool
  | included bound, key => (compare bound key).isLE
  | excluded bound, key => (compare bound key).isLT
  | unbounded, _ => true

def Bound.above : Bound → List UInt8 → Bool
  | included bound, key => (compare key bound).isLE
  | excluded bound, key => (compare key bound).isLT
  | unbounded, _ => true

/-- The least string above all those that begin as given, if there is one. -/
def scanUpper (pre : List UInt8) : Option (List UInt8) :=
  match pre.reverse.dropWhile (· == 255) with
  | [] => none
  | byte :: rest => some (((byte + 1) :: rest).reverse)

/-- An empty prefix starts unbounded so malformed short keys remain visible. -/
def scanBounds (after : Option (List UInt8)) (pre : List UInt8) : Option (Bound × Bound) :=
  let upper := scanUpper pre
  if upper.any fun upper => after.any fun after => (compare after upper).isGE then none
  else
    let start :=
      match after with
      | some after =>
          if pre = [] ∨ (compare after pre).isGE then .excluded after
          else if pre ≠ [] then .included pre
          else .unbounded
      | none => if pre ≠ [] then .included pre else .unbounded
    some (start, match upper with
      | some upper => .excluded upper
      | none => .unbounded)

/-- `push_row`: the page and the bytes in it after the row, or `none` when the row has to wait. -/
def pushRow (page : List RawEntry) (used : Nat) (row : RawEntry) (limits : ByteLimits) :
    Except StorageError (Option (List RawEntry × Nat)) :=
  if row.1.length > 64 then .error (.corrupt "database key length")
  else if row.2.length > 16 * 1024 * 1024 + 1 then .error (.limit "database value length")
  else
    let bytes := row.1.length + row.2.length
    if bytes > limits.maxBytes then .error (.limit "database row exceeds page budget")
    else if bytes > limits.maxBytes - used then .ok none
    else .ok (some (page ++ [row], used + bytes))

def scanLoop (limits : ByteLimits) : List RawEntry → Nat → List RawEntry → Except StorageError (List RawEntry)
  | page, _, [] => .ok page
  | page, used, row :: rows =>
      match pushRow page used row limits with
      | .error e => .error e
      | .ok none => .ok page
      | .ok (some (page, used)) => scanLoop limits page used rows

def engineScan (tables : Tables) (table : Table) (after : Option (List UInt8)) (pre : List UInt8)
    (limits : ByteLimits) : Except StorageError (List RawEntry) :=
  match scanBounds after pre with
  | none => .ok []
  | some (start, stop) =>
      let rows := (tables table).toList.filter fun row => start.below row.1 && stop.above row.1
      scanLoop limits [] 0 (rows.take limits.maxEntries)

/-! ### Transactions -/

/-- The staged changes: a value to write, or none to remove the row. -/
abbrev Changes := AList fun _ : Table × List UInt8 => Option (List UInt8)

structure Transaction where
  engine : Tables
  changes : Changes
  bytes : Nat

namespace Transaction

def begin (tables : Tables) : Transaction := ⟨tables, ∅, 0⟩

def get (tx : Transaction) (table : Table) (key : List UInt8) (max : Nat) :
    Except StorageError (Option (List UInt8)) :=
  if key.length > 64 ∨ max > MAX_BYTES_VALUE then .error (.limit "byte read budget")
  else
    match tx.changes.lookup (table, key) with
    | some none => .ok none
    | some (some value) =>
        if value.length > max then .error (.limit "value exceeds read budget")
        else .ok (some value)
    | none => engineGet tx.engine table key max

def stage (tx : Transaction) (table : Table) (key : List UInt8) (value : Option (List UInt8)) :
    Except StorageError Transaction :=
  if key.length > 64 ∨ value.any (fun v => v.length > MAX_BYTES_VALUE) then .error (.limit "transaction record")
  else
    let previous := tx.changes.lookup (table, key)
    -- Two records are kept free for the markers that a commit adds.
    if previous.isNone ∧ tx.changes.entries.length ≥ MAX_TRANSACTION_KEYS - 2 then
      .error (.limit "transaction key count")
    else
      let old := previous.elim 0 fun v => key.length + v.elim 0 List.length
      let bytes := tx.bytes - old + key.length + value.elim 0 List.length
      if bytes > MAX_TRANSACTION_BYTES - 91 then .error (.limit "transaction bytes")
      else .ok { tx with changes := tx.changes.insert (table, key) value, bytes := bytes }

def put (tx : Transaction) (table : Table) (key value : List UInt8) : Except StorageError Transaction :=
  tx.stage table key (some value)

def remove (tx : Transaction) (table : Table) (key : List UInt8) : Except StorageError Transaction :=
  tx.stage table key none

def scan (tx : Transaction) (table : Table) (after : Option (List UInt8)) (pre : List UInt8) (limits : ByteLimits) :
    Except StorageError (List RawEntry) := do
  limits.validate
  if after.any (fun v => v.length > 64) ∨ pre.length > 64 then .error (.limit "scan key")
  else if tx.changes.keys.any fun address => address.1 = table then .error .pendingWrites
  else engineScan tx.engine table after pre limits

/-- The row that a transaction sees. -/
def view (tx : Transaction) (table : Table) (key : List UInt8) : Option (List UInt8) :=
  (tx.changes.lookup (table, key)).getD ((tx.engine table)[key]?)

@[simp] theorem view_begin (tables : Tables) (table : Table) (key : List UInt8) :
    (begin tables).view table key = (tables table)[key]? := rfl

theorem get_ok {tx : Transaction} {table : Table} {key : List UInt8} {max : Nat} {value : Option (List UInt8)}
    (h : tx.get table key max = .ok value) : value = tx.view table key := by
  rw [get] at h
  split_ifs at h
  rw [view]
  cases hchange : tx.changes.lookup (table, key) with
  | none =>
      rw [hchange] at h
      dsimp only at h
      rw [engineGet] at h
      cases hrow : (tx.engine table)[key]? with
      | none =>
          rw [hrow] at h
          exact (Except.ok.inj h).symm
      | some bytes =>
          rw [hrow] at h
          dsimp only at h
          split_ifs at h
          exact (Except.ok.inj h).symm
  | some change =>
      rw [hchange] at h
      cases change with
      | none => exact (Except.ok.inj h).symm
      | some bytes =>
          dsimp only at h
          split_ifs at h
          exact (Except.ok.inj h).symm

/-- A read within the budgets succeeds. -/
theorem get_eq_ok {tx : Transaction} {table : Table} {key : List UInt8} {max : Nat} (hkey : key.length ≤ 64)
    (hmax : max ≤ MAX_BYTES_VALUE) (hvalue : ∀ v, tx.view table key = some v → v.length ≤ max) :
    tx.get table key max = .ok (tx.view table key) := by
  rw [view] at hvalue ⊢
  rw [get, if_neg (by omega)]
  cases hchange : tx.changes.lookup (table, key) with
  | none =>
      rw [hchange, Option.getD_none] at hvalue
      dsimp only [Option.getD_none]
      rw [engineGet]
      cases hrow : (tx.engine table)[key]? with
      | none => rfl
      | some bytes =>
          have := hvalue bytes hrow
          dsimp only
          rw [if_neg (by omega)]
  | some change =>
      rw [hchange, Option.getD_some] at hvalue
      cases change with
      | none => rfl
      | some bytes =>
          have := hvalue bytes rfl
          dsimp only [Option.getD_some]
          rw [if_neg (by omega)]

/-- Staging changes the view at one row and nothing else. -/
theorem stage_ok {tx tx' : Transaction} {table : Table} {key : List UInt8} {value : Option (List UInt8)}
    (h : tx.stage table key value = .ok tx') : tx'.engine = tx.engine ∧ tx'.changes ≠ ∅ ∧
      ∀ t k, tx'.view t k = if t = table ∧ k = key then value else tx.view t k := by
  simp only [stage] at h
  split_ifs at h
  obtain rfl := Except.ok.inj h
  refine ⟨rfl, fun hempty => ?_, fun t k => ?_⟩
  · have hlookup := AList.lookup_insert (a := (table, key)) (b := value) tx.changes
    dsimp only at hempty
    rw [hempty, AList.lookup_empty] at hlookup
    cases hlookup
  · simp only [view]
    split_ifs with heq
    · obtain ⟨rfl, rfl⟩ := heq
      rw [AList.lookup_insert, Option.getD_some]
    · rw [AList.lookup_insert_ne fun hpair => heq (Prod.mk.inj hpair)]

end Transaction

/-! ### Commits -/

/-- A row of the batch as it is hashed. -/
def changeRow (address : Table × List UInt8) (value : Option (List UInt8)) : List UInt8 :=
  let name := ascii address.1.name
  leBytes 8 name.length ++ name ++ leBytes 8 address.2.length ++ address.2 ++
    (match value with
      | none => [0]
      | some value => 1 :: leBytes 8 value.length ++ value)

/-- `change_id`: the hash of the batch, its rows ordered by the name of their table and by their key. -/
def changeId (hemera : List UInt8 → Bytes32) (changes : Changes) : Bytes32 :=
  let ordered := changes.entries.insertionSort fun a b =>
    ((compare (ascii a.1.1.name) (ascii b.1.1.name)).then (compare a.1.2 b.1.2)).isLE = true
  hemera (ascii "bbg/database-batch/v1\x00" ++ ordered.flatMap fun change => changeRow change.1 change.2)

/-- The tables after a batch. -/
def applyChanges (tables : Tables) (changes : Changes) : Tables :=
  changes.entries.foldr (fun change tables =>
    Function.update tables change.1.1 ((tables change.1.1).put change.1.2 change.2)) tables

theorem applyChanges_get (tables : Tables) (changes : Changes) (table : Table) (key : List UInt8) :
    (applyChanges tables changes table)[key]? = (changes.lookup (table, key)).getD ((tables table)[key]?) := by
  obtain ⟨entries, hnodup⟩ := changes
  rw [applyChanges, AList.lookup]
  dsimp only
  induction entries with
  | nil => rfl
  | cons change entries ih =>
      obtain ⟨⟨t, k⟩, v⟩ := change
      have hrest := ih (List.nodupKeys_cons.mp hnodup).2
      rw [List.foldr_cons]
      dsimp only
      by_cases heq : (t, k) = (table, key)
      · obtain ⟨rfl, rfl⟩ := Prod.mk.inj heq
        rw [Function.update_self, OrdMap.getElem?_put, if_pos rfl, List.dlookup_cons_eq, Option.getD_some]
      · rw [List.dlookup_cons_ne _ _ (Ne.symm heq), ← hrest]
        by_cases ht : table = t
        · subst ht
          rw [Function.update_self, OrdMap.getElem?_put, if_neg fun hk => heq (by rw [hk])]
        · rw [Function.update_of_ne ht]

/-- What an engine does with a batch: write it, fail before writing it, or fail so that nobody knows whether
it is written. -/
inductive CommitOutcome where
  | done
  | failed (message : String)
  | unknown (message : String) (written : Bool)

structure Database where
  tables : Tables
  failure : Option StorageError

/-- What a transaction tells its caller, and whether it wrote a batch. -/
structure Reply (E α : Type) where
  result : Except E α
  written : Bool

/-- The batch of a transaction with the markers of a commit. -/
def withMarkers (changes : Changes) (id : Bytes32) : Changes :=
  let shards := changes.keys.any fun address => address.1 matches .shard _
  let changes := if shards then changes.insert (.metadata, ascii "last_commit") (some id.toList) else changes
  changes.insert (.metadata, ascii "last_transaction") (some id.toList)

/-- `Database::transaction`. The lock of the source makes it one step; `outcome` is what the engine does with
the batch, if it gets one. -/
def Database.transaction {E α : Type} (hemera : List UInt8 → Bytes32) (ofStorage : StorageError → E)
    (outcome : CommitOutcome) (db : Database) (execute : Transaction → Except E (α × Transaction)) :
    Reply E α × Database :=
  match db.failure with
  | some e => (⟨.error (ofStorage e), false⟩, db)
  | none =>
      match execute (.begin db.tables) with
      | .error e => (⟨.error e, false⟩, db)
      | .ok (value, tx) =>
          if tx.changes.entries.isEmpty then (⟨.ok value, false⟩, db)
          else
            let id := changeId hemera tx.changes
            let written := applyChanges db.tables (withMarkers tx.changes id)
            match outcome with
            | .done => (⟨.ok value, true⟩, { db with tables := written })
            | .failed message => (⟨.error (ofStorage (.io message)), false⟩, db)
            | .unknown message applied =>
                let e := .commitUnknown id message
                (⟨.error (ofStorage e), applied⟩,
                  { tables := if applied then written else db.tables, failure := some e })

def Database.read (db : Database) (table : Table) (key : List UInt8) (max : Nat) :
    Except StorageError (Option (List UInt8)) :=
  match db.failure with
  | some e => .error e
  | none => (Transaction.begin db.tables).get table key max

def Database.scan (db : Database) (table : Table) (after : Option (List UInt8)) (pre : List UInt8)
    (limits : ByteLimits) : Except StorageError (List RawEntry) :=
  match db.failure with
  | some e => .error e
  | none => (Transaction.begin db.tables).scan table after pre limits

end LeanBbg.Storage
