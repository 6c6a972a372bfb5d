import LeanBbg.Database

/-! Application history over the database: heads, receipts and claims of a namespace, the exactly-once write
and the semantic migration of namespaces. -/

namespace LeanBbg.Storage

open Bytes

inductive Error where
  | storage (message : String)
  | commitUnknown (message : String)
  | conflict
  | headMismatch
  | fenced
  | invalidSequence
  | limit
  | corrupt
  deriving DecidableEq

def StorageError.display : StorageError → String
  | invalidDimension d => "invalid storage dimension " ++ toString d
  | limit s => "storage limit: " ++ s
  | corrupt s => "corrupt storage: " ++ s
  | io s => "storage I/O: " ++ s
  | busy => "storage already has an exclusive writer"
  | pendingWrites => "commit pending writes before scanning disk"
  | unsupported s => "unsupported storage operation: " ++ s
  | commitUnknown _ message => "unknown commit outcome; reopen and resolve: " ++ message

def Error.ofStorage : StorageError → Error
  | .commitUnknown _ message => .commitUnknown message
  | .limit _ => .limit
  | .corrupt _ => .corrupt
  | e => .storage e.display

/-- The `?` of a storage result in application code. -/
def lift {α : Type} (x : Except StorageError α) : Except Error α := x.mapError Error.ofStorage

/-- Return an error when a condition holds. -/
def refuse (cond : Prop) [Decidable cond] (e : Error) : Except Error Unit := if cond then .error e else .ok ()

/-! ### Records -/

structure Head where
  index : UInt64
  commit : Particle
  deriving DecidableEq

/-- `try_into` of a slice to 32 bytes. -/
def particle (bytes : List UInt8) : Except Error Particle :=
  if h : bytes.length = 32 then .ok ⟨bytes.toArray, by simpa using h⟩ else .error .corrupt

def encodeHead (head : Head) : List UInt8 := u64LeBytes head.index ++ head.commit.toList

def decodeHead (bytes : List UInt8) : Except Error Head := do
  refuse (bytes.length ≠ 40) .corrupt
  let commit ← particle (bytes.drop 8)
  .ok ⟨u64FromLe (bytes.take 8), commit⟩

/-- A receipt: the fingerprint of the request and the head it published. -/
def encodeRequest (fingerprint : Particle) (head : Head) : List UInt8 := fingerprint.toList ++ encodeHead head

def decodeRequest (bytes : List UInt8) : Except Error (Particle × Head) := do
  refuse (bytes.length ≠ 72) .corrupt
  let fingerprint ← particle (bytes.take 32)
  let head ← decodeHead (bytes.drop 32)
  .ok (fingerprint, head)

def requestKey (space request : Particle) : List UInt8 := space.toList ++ request.toList

def historyKey (space : Particle) (index : UInt64) : List UInt8 := space.toList ++ u64BeBytes index

def fenceKey (space : Particle) : List UInt8 := ascii "neuron-fence\x00" ++ space.toList

/-- `b's'`, then the namespace. -/
def stageKey (id : Particle) : List UInt8 := 115 :: id.toList

/-- `b't'`, then the manifest. -/
def cursorKey (id : Particle) : List UInt8 := 116 :: id.toList

/-- `b'u'`, then the manifest. -/
def targetKey (id : Particle) : List UInt8 := 117 :: id.toList

/-- `b"status"`. -/
def statusKey : List UInt8 := ascii "status"

structure Cursor where
  table : UInt8
  after : Option (List UInt8)
  rows : UInt64
  bytes : UInt64
  deriving DecidableEq

namespace Cursor

def encode (cursor : Cursor) : List UInt8 :=
  [cursor.table, cursor.after.elim 0 fun a => UInt8.ofNat a.length] ++ u64LeBytes cursor.rows ++
    u64LeBytes cursor.bytes ++ cursor.after.getD []

def decode : List UInt8 → Except Error Cursor
  | table :: length :: rest => do
      refuse (rest.length < 16 ∨ table > 5 ∨ length > 64 ∨ rest.length ≠ 16 + length.toNat) .corrupt
      .ok {
        table := table
        after := if length = 0 then none else some (rest.drop 16)
        rows := u64FromLe (rest.take 8)
        bytes := u64FromLe ((rest.drop 8).take 8) }
  | _ => .error .corrupt

end Cursor

/-! ### Reader generations -/

/-- How far the readers of a database have been promoted. -/
inductive ReaderGeneration where
  | original
  | neuronV1
  | authenticatedV1
  deriving DecidableEq

def decodeGeneration (status : Option (List UInt8)) : Except StorageError ReaderGeneration :=
  if status = none ∨ status = some (ascii "complete") then .ok .original
  else if status = some (ascii "neuron-v1") then .ok .neuronV1
  else if status = some (ascii "auth-v1") then .ok .authenticatedV1
  else .error (.corrupt "unsupported reader generation or incomplete migration")

/-- `promote` to `NeuronV1`, the only generation that the application asks for. -/
def promoteNeuron (tx : Transaction) : Except StorageError Transaction := do
  let status ← tx.get .migration statusKey 16
  match ← decodeGeneration status with
  | .original => tx.put .migration statusKey (ascii "neuron-v1")
  | _ => .ok tx

/-! ### Closures of a caller -/

def diskDimension (dimension : UInt8) : Except StorageError Unit :=
  if dimension > 13 then .error (.invalidDimension dimension)
  else if dimension = 13 then .error (.unsupported "EPHEMERAL in disk transaction")
  else .ok ()

def MAX_VALUE_ELEMENTS : Nat := 131072

def checkReadLimit (maxElements : Nat) : Except StorageError Unit :=
  if maxElements > MAX_VALUE_ELEMENTS then .error (.limit "read element count") else .ok ()

/-- Field elements as their representatives, eight little-endian bytes each. -/
def serializeGoldilocks (values : List UInt64) : List UInt8 := values.flatMap u64LeBytes

def deserializeGoldilocks (bytes : List UInt8) (maxElements : Nat) : Except StorageError (List UInt64) := do
  checkReadLimit maxElements
  if bytes.length % 8 ≠ 0 then .error (.corrupt "field encoding length")
  else if bytes.length / 8 > maxElements then .error (.limit "value exceeds read budget")
  else (bytes.toChunks 8).mapM fun chunk =>
    let value := u64FromLe chunk
    if value.toNat ≥ P then .error (.corrupt "noncanonical field element") else .ok value

namespace Transaction

def readShard (tx : Transaction) (dimension : UInt8) (key : Bytes32) (maxElements : Nat) :
    Except StorageError (Option (List UInt64)) := do
  diskDimension dimension
  checkReadLimit maxElements
  let bytes ← tx.get (.shard dimension) key.toList (maxElements * 8)
  bytes.mapM fun bytes => deserializeGoldilocks bytes maxElements

def putShard (tx : Transaction) (dimension : UInt8) (key : Bytes32) (value : List UInt64) :
    Except StorageError Transaction := do
  diskDimension dimension
  checkReadLimit value.length
  tx.put (.shard dimension) key.toList (serializeGoldilocks value)

def removeShard (tx : Transaction) (dimension : UInt8) (key : Bytes32) :
    Except StorageError (Option (List UInt64) × Transaction) := do
  let previous ← tx.readShard dimension key MAX_VALUE_ELEMENTS
  let tx ← tx.remove (.shard dimension) key.toList
  .ok (previous, tx)

end Transaction

/-- A closure over a transaction: any program of the operations a transaction has outside its crate. A failed
operation stages nothing, and the program may go on after it. -/
inductive Program where
  | done (result : Except Error Unit)
  | readShard (dimension : UInt8) (key : Bytes32) (maxElements : Nat)
      (next : Except StorageError (Option (List UInt64)) → Program)
  | putShard (dimension : UInt8) (key : Bytes32) (value : List UInt64) (next : Except StorageError Unit → Program)
  | removeShard (dimension : UInt8) (key : Bytes32) (next : Except StorageError (Option (List UInt64)) → Program)
  | readRecord (domain : RecordDomain) (key : List UInt8) (max : Nat)
      (next : Except StorageError (Option (List UInt8)) → Program)
  | putRecord (domain : RecordDomain) (key value : List UInt8) (next : Except StorageError Unit → Program)
  | removeRecord (domain : RecordDomain) (key : List UInt8) (next : Except StorageError Unit → Program)
  | scanRecords (domain : RecordDomain) (after : Option (List UInt8)) (pre : List UInt8) (limits : ByteLimits)
      (next : Except StorageError (List RawEntry) → Program)

/-- The answer of a write and the transaction after it. -/
def settle (tx : Transaction) : Except StorageError Transaction → Except StorageError Unit × Transaction
  | .ok tx' => (.ok (), tx')
  | .error e => (.error e, tx)

def settleRemoval {α : Type} (tx : Transaction) :
    Except StorageError (α × Transaction) → Except StorageError α × Transaction
  | .ok (previous, tx') => (.ok previous, tx')
  | .error e => (.error e, tx)

def Program.run : Program → Transaction → Except Error Transaction
  | done result, tx => result.map fun _ => tx
  | readShard dimension key maxElements next, tx => (next (tx.readShard dimension key maxElements)).run tx
  | putShard dimension key value next, tx =>
      let (answer, tx) := settle tx (tx.putShard dimension key value)
      (next answer).run tx
  | removeShard dimension key next, tx =>
      let (answer, tx) := settleRemoval tx (tx.removeShard dimension key)
      (next answer).run tx
  | readRecord domain key max next, tx => (next (tx.get (.native domain) key max)).run tx
  | putRecord domain key value next, tx =>
      let (answer, tx) := settle tx (tx.put (.native domain) key value)
      (next answer).run tx
  | removeRecord domain key next, tx =>
      let (answer, tx) := settle tx (tx.remove (.native domain) key)
      (next answer).run tx
  | scanRecords domain after pre limits next, tx => (next (tx.scan (.native domain) after pre limits)).run tx

/-! ### Writes -/

structure Write where
  space : Particle
  request : Particle
  /-- Must bind all inputs to the application and optional shard transition. -/
  fingerprint : Particle
  expected : Option Head
  head : Head
  content : List (Particle × List UInt8)
  claims : List (Particle × Particle)

structure NamespaceMigration where
  manifest : Particle
  sources : List (Particle × Head)

def validateWrite (write : Write) : Except Error Unit := do
  refuse (write.content.length > 131072 ∨ write.claims.length > 4096) .limit
  refuse ((write.content.map fun entry => entry.2.length).sum > 16 * 1024 * 1024) .limit

def immutablePut (tx : Transaction) (table : Table) (key value : List UInt8) (max : Nat) :
    Except Error Transaction := do
  match ← lift (tx.get table key max) with
  | some previous => if previous ≠ value then .error .conflict else .ok tx
  | none => lift (tx.put table key value)

/-- The index of the publication after a head. -/
def nextIndex : Option Head → Except Error UInt64
  | none => .ok 0
  | some head => if head.index.toNat + 1 < 2 ^ 64 then .ok (head.index + 1) else .error .invalidSequence

/-- The checks of a request that has no receipt, and its claims and content. -/
def admitFresh (write : Write) (tx : Transaction) : Except Error Transaction := do
  let fence ← lift (tx.get .migration (fenceKey write.space) 64)
  refuse (fence.isSome = true) .fenced
  let status ← lift (tx.get .migration statusKey 16)
  refuse (status = some (ascii "export-v1")) .fenced
  let staged ← lift (tx.get .migration (stageKey write.space) 32)
  refuse (staged.isSome = true) .fenced
  let row ← lift (tx.get .heads write.space.toList 40)
  let current ← row.mapM decodeHead
  refuse (current ≠ write.expected) .headMismatch
  let next ← nextIndex current
  refuse (write.head.index ≠ next) .invalidSequence
  let tx ← write.claims.foldlM (fun tx claim => immutablePut tx .claims claim.1.toList claim.2.toList 32) tx
  let tx ← write.content.foldlM (fun tx entry => immutablePut tx .content entry.1.toList entry.2 MAX_BYTES_VALUE) tx
  let committed ← lift (tx.get .content write.head.commit.toList MAX_BYTES_VALUE)
  refuse (committed.isNone = true) .corrupt
  .ok tx

/-- `apply_checked` up to the closure: the head of a retry, or the transaction that the closure gets. -/
def admission (write : Write) (allowRetry : Bool) (tx : Transaction) : Except Error (Head ⊕ Transaction) := do
  match ← lift (tx.get .requests (requestKey write.space write.request) 72) with
  | some prior =>
      if !allowRetry then .error .conflict
      else do
        let (fingerprint, head) ← decodeRequest prior
        if fingerprint = write.fingerprint then .ok (.inl head) else .error .conflict
  | none => (admitFresh write tx).map .inr

/-- `apply_checked` after the closure: the history row, the head and the receipt. -/
def publish (write : Write) (tx : Transaction) : Except Error Transaction := do
  let tx ← lift (tx.put .history (historyKey write.space write.head.index) write.head.commit.toList)
  let tx ← lift (tx.put .heads write.space.toList (encodeHead write.head))
  lift (tx.put .requests (requestKey write.space write.request) (encodeRequest write.fingerprint write.head))

def applyBody (write : Write) (allowRetry : Bool) (transition : Transaction → Except Error Transaction)
    (tx : Transaction) : Except Error (Head × Transaction) := do
  match ← admission write allowRetry tx with
  | .inl head => .ok (head, tx)
  | .inr tx =>
      let tx ← transition tx
      let tx ← publish write tx
      .ok (write.head, tx)

section Calls

variable (hemera : List UInt8 → Bytes32)

def applyChecked (db : Database) (outcome : CommitOutcome) (write : Write) (allowRetry : Bool)
    (transition : Transaction → Except Error Transaction) : Reply Error Head × Database :=
  match validateWrite write with
  | .error e => (⟨.error e, false⟩, db)
  | .ok () => db.transaction hemera Error.ofStorage outcome (applyBody write allowRetry transition)

/-- A source that was staged into this database must be complete, and staged for this target. -/
def requireComplete (tx : Transaction) (origin target : Particle) : Except Error Unit := do
  match ← lift (tx.get .migration (stageKey origin) 32) with
  | none => .ok ()
  | some manifest =>
      let manifest ← particle manifest
      match ← lift (tx.get .migration (cursorKey manifest) 82) with
      | none => .error .corrupt
      | some cursor =>
          let cursor ← Cursor.decode cursor
          refuse (cursor.table ≠ 5) .fenced
          let staged ← lift (tx.get .migration (targetKey manifest) 32)
          refuse (staged ≠ some target.toList) .conflict

/-- Validate the head of one source and fence it. -/
def fenceSource (write : Write) (manifest : Particle) (tx : Transaction) (source : Particle × Head) :
    Except Error Transaction := do
  requireComplete tx source.1 write.space
  let row ← lift (tx.get .heads source.1.toList 40)
  let current ← row.mapM decodeHead
  refuse (current ≠ some source.2) .headMismatch
  immutablePut tx .migration (fenceKey source.1) (write.space.toList ++ manifest.toList) 64

def migrateSources (write : Write) (migration : NamespaceMigration) (tx : Transaction) :
    Except Error Transaction := do
  let tx ← migration.sources.foldlM (fenceSource write migration.manifest) tx
  lift (promoteNeuron tx)

/-- The sources of a migration are a few namespaces in increasing order, without the target. -/
def NamespaceMigration.admissible (migration : NamespaceMigration) (write : Write) : Bool :=
  !migration.sources.isEmpty && migration.sources.length ≤ 256 &&
    (migration.sources.zip migration.sources.tail).all (fun w => (compare w.1.1.toList w.2.1.toList).isLT) &&
    migration.sources.all fun source => source.1 ≠ write.space

inductive Call where
  | apply (write : Write)
  | applyOnce (write : Write)
  | applyWith (write : Write) (transition : Program)
  | applyMigration (write : Write) (migration : NamespaceMigration)

def Call.run (db : Database) (outcome : CommitOutcome) : Call → Reply Error Head × Database
  | apply write => applyChecked hemera db outcome write true .ok
  | applyOnce write => applyChecked hemera db outcome write false .ok
  | applyWith write transition => applyChecked hemera db outcome write true transition.run
  | applyMigration write migration =>
      if migration.admissible write then applyChecked hemera db outcome write true (migrateSources write migration)
      else (⟨.error .limit, false⟩, db)

end Calls

structure MigrationTarget where
  space : Particle
  manifest : Particle
  deriving DecidableEq

def decodeTarget (bytes : List UInt8) : Except Error MigrationTarget := do
  refuse (bytes.length ≠ 64) .corrupt
  let space ← particle (bytes.take 32)
  let manifest ← particle (bytes.drop 32)
  .ok ⟨space, manifest⟩

def migrationTarget (db : Database) (space : Particle) : Except Error (Option MigrationTarget) := do
  let row ← lift (db.read .migration (fenceKey space) 64)
  row.mapM decodeTarget

end LeanBbg.Storage
