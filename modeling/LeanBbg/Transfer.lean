import LeanBbg.Application

/-! Restartable transfer of a sealed application-only store into a shared owner: the archive and its seal, the
reservation of the target, and the copy of one page with the cursor that it advances. -/

namespace LeanBbg.Storage

open Bytes

/-- The application tables, in the order in which they are copied. -/
def TABLES : List Table := [.content, .claims, .requests, .history, .heads]

/-- `SEAL`. -/
def sealKey : List UInt8 := ascii "application-export"

/-! ### Archives -/

/-- The hash of a manifest is taken of this message: target, key and prior transaction, then the sources. -/
def manifestMessage (pinned : List UInt8) (sources : List (Particle × Head)) : List UInt8 :=
  ascii "bbg/application-transfer/1\x00" ++ pinned ++
    sources.flatMap fun source => source.1.toList ++ encodeHead source.2

structure ApplicationArchive where
  store : Database
  sources : List (Particle × Head)

def decodeSource (row : RawEntry) : Except Error (Particle × Head) := do
  let id ← particle row.1
  let head ← decodeHead row.2
  .ok (id, head)

/-- The archive holds no row of a table that is not the application's. -/
def requireUnused (db : Database) (table : Table) : Except Error Unit := do
  let rows ← lift (db.scan table none [] ⟨1, MAX_TRANSACTION_BYTES⟩)
  refuse (rows ≠ []) .conflict

/-- The tables that an archive must not use. -/
def FOREIGN_TABLES : List Table :=
  (List.range 14).map (fun d => .shard (UInt8.ofNat d)) ++
    [RecordDomain.nativeState, .nativeHistory, .nativeRequests, .nativeMetadata, .nativeBalances, .nativeBlocks,
      .nativeExport].map .native

/-- `decode_marker` of the last transaction. -/
def Database.lastTransaction (db : Database) : Except Error (Option Particle) := do
  let row ← lift (db.read .metadata (ascii "last_transaction") 32)
  row.mapM particle

section Sealing

variable (hemera : List UInt8 → Bytes32)

/-- `ApplicationArchive::open` after the database is open. -/
def ApplicationArchive.open (db : Database) : Except Error ApplicationArchive := do
  let status ← lift (db.read .migration statusKey 16)
  refuse (status ≠ none ∧ status ≠ some (ascii "complete") ∧ status ≠ some (ascii "export-v1")) .conflict
  FOREIGN_TABLES.forM (requireUnused db)
  let heads ← lift (db.scan .heads none [] ⟨257, 32768⟩)
  refuse (heads = [] ∨ heads.length > 256) .limit
  let sources ← heads.mapM decodeSource
  let sealRow ← lift (db.read .migration sealKey 128)
  refuse (∃ bytes ∈ sealRow, bytes.length ≠ 128 ∨ status ≠ some (ascii "export-v1") ∨
    (hemera (manifestMessage (bytes.take 96) sources)).toList ≠ bytes.drop 96) .corrupt
  refuse (status = some (ascii "export-v1") ∧ sealRow = none) .corrupt
  let _ ← db.lastTransaction
  .ok ⟨db, sources⟩

structure TransferSource where
  store : Database
  manifest : Particle
  target : Particle
  sources : List (Particle × Head)

/-- The seal of an archive: the one it has (`inl`), or the one to write. -/
def sealFor (archive : ApplicationArchive) (target key : Particle) : Except Error (List UInt8 ⊕ List UInt8) := do
  let status ← lift (archive.store.read .migration statusKey 16)
  refuse (∃ source ∈ archive.sources, source.1 = target) .conflict
  match ← lift (archive.store.read .migration sealKey 128) with
  | some sealRow =>
      refuse (sealRow.length ≠ 128 ∨ sealRow.take 32 ≠ target.toList ∨ (sealRow.drop 32).take 32 ≠ key.toList) .conflict
      .ok (.inl sealRow)
  | none =>
      refuse (status = some (ascii "export-v1")) .corrupt
      let prior ← archive.store.lastTransaction
      let pinned := target.toList ++ key.toList ++ (prior.getD (Vector.replicate 32 0)).toList
      .ok (.inr (pinned ++ (hemera (manifestMessage pinned archive.sources)).toList))

def sealBody (sources : List (Particle × Head)) (sealRow : List UInt8) (tx : Transaction) :
    Except Error (Unit × Transaction) := do
  sources.forM fun source => do
    let row ← lift (tx.get .heads source.1.toList 40)
    refuse (row ≠ some (encodeHead source.2)) .conflict
  let tx ← immutablePut tx .migration sealKey sealRow 128
  let tx ← lift (tx.put .migration statusKey (ascii "export-v1"))
  .ok ((), tx)

/-- The manifest of a seal, checked against its hash. -/
def openSeal (store : Database) (target : Particle) (sources : List (Particle × Head)) (sealRow : List UInt8) :
    Except Error TransferSource := do
  let manifest ← particle (sealRow.drop 96)
  refuse (hemera (manifestMessage (sealRow.take 96) sources) ≠ manifest) .corrupt
  .ok ⟨store, manifest, target, sources⟩

/-- `TransferSource::from_archive`, with the archive's store after it. -/
def TransferSource.fromArchive (archive : ApplicationArchive) (target key : Particle) (outcome : CommitOutcome) :
    Except Error TransferSource × Database :=
  match sealFor hemera archive target key with
  | .error e => (.error e, archive.store)
  | .ok (.inl sealRow) => (openSeal hemera archive.store target archive.sources sealRow, archive.store)
  | .ok (.inr sealRow) =>
      let (reply, store) := archive.store.transaction hemera Error.ofStorage outcome (sealBody archive.sources sealRow)
      match reply.result with
      | .error e => (.error e, store)
      | .ok () => (openSeal hemera store target archive.sources sealRow, store)

end Sealing

/-! ### Staging -/

namespace TransferSource

/-- Reserve one namespace of the source in the target. -/
def reserve (source : TransferSource) (tx : Transaction) (id : Particle) : Except Error Transaction := do
  refuse (id = source.target) .conflict
  let head ← lift (tx.get .heads id.toList 40)
  refuse (head ≠ none) .conflict
  let fence ← lift (tx.get .migration (fenceKey id) 64)
  refuse (fence ≠ none) .conflict
  let staged ← lift (tx.get .migration (stageKey id) 32)
  refuse (staged ≠ none) .conflict
  lift (tx.put .migration (stageKey id) source.manifest.toList)

def prepareBody (source : TransferSource) (tx : Transaction) : Except Error (Unit × Transaction) := do
  match ← lift (tx.get .migration (cursorKey source.manifest) 82) with
  | some _ => .ok ((), tx)
  | none =>
      let tx ← lift (promoteNeuron tx)
      let tx ← (source.sources.map Prod.fst).foldlM source.reserve tx
      let tx ← lift (tx.put .migration (targetKey source.manifest) source.target.toList)
      let tx ← lift (tx.put .migration (cursorKey source.manifest) (Cursor.encode ⟨0, none, 0, 0⟩))
      .ok ((), tx)

/-- `limits`. -/
def pageLimits : ByteLimits := ⟨512, MAX_TRANSACTION_BYTES - 4096⟩

def scanPage (source : TransferSource) (cursor : Cursor) (table : Table) : Except Error (List RawEntry) :=
  lift (source.store.scan table cursor.after [] pageLimits)

end TransferSource

def validateRecord (table : Table) (row : RawEntry) : Except Error Unit :=
  let valid : Bool :=
    match table with
    | .content => row.1.length = 32
    | .heads => row.1.length = 32 && (decodeHead row.2).isOk
    | .history => row.1.length = 40 && row.2.length = 32
    | .requests => row.1.length = 64 && (decodeRequest row.2).isOk
    | .claims => row.1.length = 32 && row.2.length = 32
    | _ => false
  if valid then .ok () else .error .corrupt

/-- The caller's validator of content, which may read the source. -/
abbrev ContentValidator := Particle → List UInt8 → Database → Except Error Unit

/-- `checked_add`, or the limit error. -/
def addWithin (a : UInt64) (b : Nat) : Except Error UInt64 :=
  if a.toNat + b < 2 ^ 64 then .ok (a + UInt64.ofNat b) else .error .limit

namespace TransferSource

def checkContent (source : TransferSource) (validate : ContentValidator) (table : Table) (row : RawEntry) :
    Except Error Unit :=
  if table = .content then do
    let id ← particle row.1
    validate id row.2 source.store
  else .ok ()

/-- Validate one row of a page and count it. -/
def countRow (source : TransferSource) (validate : ContentValidator) (table : Table) (next : Cursor) (row : RawEntry) :
    Except Error Cursor := do
  validateRecord table row
  source.checkContent validate table row
  let rows ← addWithin next.rows 1
  let bytes ← addWithin next.bytes (row.1.length + row.2.length)
  .ok { next with rows := rows, bytes := bytes }

/-- The source is validated as a whole when its last table is left. -/
def leaveTable (links : Except Error Unit) (table : UInt8) : Except Error Unit :=
  if table = 5 then links else .ok ()

/-- The cursor after a page. `links` is what the validation of the whole source says, if it runs. -/
def advance (source : TransferSource) (validate : ContentValidator) (links : Except Error Unit) (table : Table)
    (cursor : Cursor) : List RawEntry → Except Error Cursor
  | [] => do
      leaveTable links (cursor.table + 1)
      .ok { cursor with table := cursor.table + 1, after := none }
  | rows => do
      let next ← rows.foldlM (source.countRow validate table) cursor
      .ok { next with after := rows.getLast?.map Prod.fst }

def pageBody (source : TransferSource) (table : Table) (cursor next : Cursor) (rows : List RawEntry)
    (tx : Transaction) : Except Error (Unit × Transaction) := do
  let stored ← lift (tx.get .migration (cursorKey source.manifest) 82)
  refuse (stored ≠ some cursor.encode) .conflict
  let tx ← rows.foldlM (fun tx row => immutablePut tx table row.1 row.2 MAX_BYTES_VALUE) tx
  let tx ← lift (tx.put .migration (cursorKey source.manifest) next.encode)
  .ok ((), tx)

variable (hemera : List UInt8 → Bytes32)

/-- The transaction of `prepare_target`. -/
def prepareTarget (source : TransferSource) (target : Database) (outcome : CommitOutcome) :
    Reply Error Unit × Database :=
  target.transaction hemera Error.ofStorage outcome source.prepareBody

/-- What a stager reads and computes for a page before its transaction. -/
def readPage (source : TransferSource) (validate : ContentValidator) (links : Except Error Unit) (table : Table)
    (cursor : Cursor) : Except Error (List RawEntry × Cursor) := do
  let rows ← source.scanPage cursor table
  let next ← source.advance validate links table cursor rows
  .ok (rows, next)

/-- One turn of the loop of `stage`, from the cursor that this stager holds: the cursor it holds next. -/
def stagePage (source : TransferSource) (target : Database) (outcome : CommitOutcome) (validate : ContentValidator)
    (links : Except Error Unit) (cursor : Cursor) : Except Error Cursor × Database :=
  match TABLES[cursor.table.toNat]? with
  | none => (.ok cursor, target)
  | some table =>
      match source.readPage validate links table cursor with
      | .error e => (.error e, target)
      | .ok (rows, next) =>
          let (reply, target) := target.transaction hemera Error.ofStorage outcome
            (source.pageBody table cursor next rows)
          (reply.result.map fun _ => next, target)

/-- The loop of `stage` over its pages, on engines that do not fail and without another stager. -/
def stageLoop (source : TransferSource) (validate : ContentValidator) (links : Except Error Unit) :
    Nat → Cursor → Database → Except Error Cursor × Database
  | 0, cursor, target => (.ok cursor, target)
  | pages + 1, cursor, target =>
      if cursor.table = 5 then (.ok cursor, target)
      else
        match source.stagePage hemera target .done validate links cursor with
        | (.error e, target) => (.error e, target)
        | (.ok next, target) => stageLoop source validate links pages next target

end TransferSource

structure TransferProgress where
  manifest : Particle
  rows : UInt64
  bytes : UInt64
  complete : Bool
  deriving DecidableEq

namespace TransferSource

/-- The cursor of a transfer, as a stager reads it at the start of a call. -/
def readCursor (source : TransferSource) (target : Database) : Except Error Cursor := do
  match ← lift (target.read .migration (cursorKey source.manifest) 82) with
  | none => .error .corrupt
  | some row => Cursor.decode row

def progress (source : TransferSource) (cursor : Cursor) : TransferProgress :=
  ⟨source.manifest, cursor.rows, cursor.bytes, cursor.table = 5⟩

variable (hemera : List UInt8 → Bytes32)

/-- `stage`, on engines that do not fail and without another stager. -/
def stage (source : TransferSource) (target : Database) (pages : Nat) (validate : ContentValidator)
    (links : Except Error Unit) : Except Error TransferProgress × Database :=
  if pages = 0 ∨ pages > 4096 then (.error .limit, target)
  else
    let (reply, target) := source.prepareTarget hemera target .done
    match reply.result with
    | .error e => (.error e, target)
    | .ok () =>
        match source.readCursor target with
        | .error e => (.error e, target)
        | .ok cursor =>
            let (result, target) := source.stageLoop hemera validate links pages cursor target
            (result.map source.progress, target)

end TransferSource

end LeanBbg.Storage
