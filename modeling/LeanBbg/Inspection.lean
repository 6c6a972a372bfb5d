import LeanBbg.ChainVerdict
import LeanBbg.Migration

/-! Read-only inspection of an archive. It streams the five tables once, with the receipts that have not met their
row of the history in a set, and accepts the contents that `validate_links` accepts with its reverse index. -/

namespace LeanBbg.Storage

open Bytes Attempt

/-! ### The inspection -/

def MAX_INSPECTION_ROWS : UInt64 := 1000000

def MAX_INSPECTION_BYTES : UInt64 := 8 * 1024 * 1024 * 1024

structure ArchiveSummary where
  rows : UInt64
  bytes : UInt64
  tables : List UInt64
  digest : Particle
  deriving DecidableEq

/-- An archive with the last transaction that it was opened at. -/
structure PinnedArchive extends ApplicationArchive where
  transaction : Option Particle

/-- The caller's validator of content, which may read the archive. -/
abbrev ArchiveValidator := Particle → List UInt8 → PinnedArchive → Except Error Unit

/-- What the inspection remembers of the links it has passed. -/
structure Trail where
  receipts : Finset (Particle × UInt64)
  previous : Option (Particle × UInt64)

/-- An inspection under way: the summary so far, the bytes that are hashed, and the trail. -/
structure Inspection where
  rows : UInt64
  bytes : UInt64
  tables : List UInt64
  message : List UInt8
  trail : Trail

def Inspection.initial : Inspection :=
  ⟨0, 0, List.replicate 5 0, ascii "bbg/application-archive-rows/1\x00", ∅, none⟩

/-- A table is entered. -/
def Inspection.enter (state : Inspection) (ordinal : Nat) : Inspection :=
  { state with message := state.message ++ [UInt8.ofNat ordinal], trail := { state.trail with previous := none } }

/-- The head that a row names, and the trail after it. -/
def trailHead (table : Table) (trail : Trail) (space : Particle) (row : RawEntry) : Except Error (Head × Trail) :=
  match table with
  | .heads => do
      let head ← decodeHead row.2
      .ok (head, trail)
  | .requests => do
      let (_, head) ← decodeRequest row.2
      refuse ((space, head.index) ∈ trail.receipts) .corrupt
      .ok (head, { trail with receipts := insert (space, head.index) trail.receipts })
  | .history => do
      refuse ((row.1.drop 32).length ≠ 8) .corrupt
      let index := u64FromBe (row.1.drop 32)
      let expected ← expectedIndex trail.previous space
      refuse (index ≠ expected ∨ (space, index) ∉ trail.receipts) .corrupt
      let commit ← particle row.2
      .ok (⟨index, commit⟩, ⟨trail.receipts.erase (space, index), some (space, index)⟩)
  | _ => .error .corrupt

/-- `ApplicationStore::head`. -/
def storeHead (db : Database) (space : Particle) : Except Error (Option Head) := do
  let row ← lift (db.read .heads space.toList 40)
  row.mapM decodeHead

/-- A named head is checked against the store. -/
def inspectHead (db : Database) (space : Particle) (head : Head) : Except Error Unit := do
  match ← storeHead db space with
  | none => .error .corrupt
  | some selected => do
      refuse (head.index > selected.index) .corrupt
      let recorded ← lift (db.read .history (historyKey space head.index) 32)
      refuse (recorded ≠ some head.commit.toList) .corrupt
      let content ← lift (db.read .content head.commit.toList MAX_BYTES_VALUE)
      refuse (content = none) .corrupt

/-- What the inspection checks of a row against the archive. -/
def inspectLinks (archive : PinnedArchive) (validate : ArchiveValidator) (table : Table) (trail : Trail)
    (row : RawEntry) : Except Error Trail :=
  if table = .content then do
    let id ← particle row.1
    validate id row.2 archive
    .ok trail
  else if table = .claims then .ok trail
  else do
    let space ← particle (row.1.take 32)
    let (head, trail) ← trailHead table trail space row
    inspectHead archive.store space head
    .ok trail

/-- One row: it is counted, validated, hashed and checked. -/
def inspectRow (archive : PinnedArchive) (validate : ArchiveValidator) (maxRows maxBytes : UInt64) (table : Table)
    (ordinal : Nat) (state : Inspection) (row : RawEntry) : Except Error Inspection := do
  let rows ← addWithin state.rows 1
  let bytes ← addWithin state.bytes (row.1.length + row.2.length)
  refuse (rows > maxRows ∨ bytes > maxBytes) .limit
  validateRecord table row
  let trail ← inspectLinks archive validate table state.trail row
  .ok ⟨rows, bytes, state.tables.modify ordinal (· + 1), state.message ++ hashRow row, trail⟩

section Inspect

variable (archive : PinnedArchive) (validate : ArchiveValidator) (maxRows maxBytes : UInt64)

/-- The pages of a table; none when the fuel runs out. -/
def inspectPages (table : Table) (ordinal : Nat) : Nat → Option (List UInt8) → Inspection →
    Option (Except Error Inspection)
  | 0, _, _ => none
  | fuel + 1, after, state =>
      match lift (archive.store.scan table after [] TransferSource.pageLimits) with
      | .error e => some (.error e)
      | .ok [] => some (.ok state)
      | .ok (row :: rows) =>
          match (row :: rows).foldlM (inspectRow archive validate maxRows maxBytes table ordinal) state with
          | .error e => some (.error e)
          | .ok state => inspectPages table ordinal fuel ((row :: rows).getLast?.map Prod.fst) state

def inspectTables (fuel : Nat) : List (Table × Nat) → Inspection → Option (Except Error Inspection)
  | [], state => some (.ok state)
  | (table, ordinal) :: rest, state =>
      match inspectPages archive validate maxRows maxBytes table ordinal fuel none (state.enter ordinal) with
      | none => none
      | some (.error e) => some (.error e)
      | some (.ok state) => inspectTables fuel rest state

variable (hemera : List UInt8 → Bytes32)

/-- The end of the inspection: every receipt has met its row, and the store is the one that was opened. -/
def finishInspection (state : Inspection) : Except Error ArchiveSummary := do
  refuse (state.trail.receipts ≠ ∅) .corrupt
  let found ← archive.store.lastTransaction
  refuse (found ≠ archive.transaction) .corrupt
  .ok ⟨state.rows, state.bytes, state.tables, hemera state.message⟩

def PinnedArchive.inspect (fuel : Nat) : Option (Except Error ArchiveSummary) :=
  if maxRows = 0 ∨ maxRows > MAX_INSPECTION_ROWS ∨ maxBytes = 0 ∨ maxBytes > MAX_INSPECTION_BYTES then
    some (.error .limit)
  else
    match inspectTables archive validate maxRows maxBytes fuel TABLES.zipIdx .initial with
    | none => none
    | some (.error e) => some (.error e)
    | some (.ok state) => some (finishInspection archive hemera state)

/-- `ApplicationArchive::open` with the transaction that it pins. -/
def PinnedArchive.open (db : Database) : Except Error PinnedArchive := do
  let opened ← ApplicationArchive.open hemera db
  let transaction ← db.lastTransaction
  .ok ⟨opened, transaction⟩

end Inspect

/-! ### Pages and tables -/

section Tables

variable {db : Database} {archive : PinnedArchive} {validate : ArchiveValidator} {maxRows maxBytes : UInt64}

theorem roomy_pageLimits : Roomy TransferSource.pageLimits := ⟨rfl, by decide, by decide⟩

/-- With more fuel than rows, the pages of a table are its rows. -/
theorem inspectPages_eq (hready : archive.store.failure = none) (hfits : Fits archive.store.view) {table : Table}
    (ht : table ∈ TABLES) (ordinal : Nat) {fuel : Nat} {after : Option (List UInt8)} (hafter : ∀ k ∈ after, k.length ≤ 64)
    (hfuel : (rowsAfter archive.store.tables table after).length < fuel) (state : Inspection) :
    inspectPages archive validate maxRows maxBytes table ordinal fuel after state =
      some ((rowsAfter archive.store.tables table after).foldlM
        (inspectRow archive validate maxRows maxBytes table ordinal) state) := by
  induction fuel generalizing after state with
  | zero => exact absurd hfuel (Nat.not_lt_zero _)
  | succ fuel ih =>
      obtain ⟨page, remaining, hscan, hsplit, -, hempty, hlast⟩ := scan_page roomy_pageLimits hready hfits ht hafter
      rw [inspectPages, hscan]
      cases page with
      | nil =>
          rw [hempty rfl]
          rfl
      | cons row page =>
          have hfold : (rowsAfter archive.store.tables table after).foldlM
              (inspectRow archive validate maxRows maxBytes table ordinal) state =
                (row :: page).foldlM (inspectRow archive validate maxRows maxBytes table ordinal) state >>= fun state =>
                  remaining.foldlM (inspectRow archive validate maxRows maxBytes table ordinal) state := by
            rw [hsplit, List.foldlM_append]
          rw [hfold]
          dsimp only
          cases hrows : (row :: page).foldlM (inspectRow archive validate maxRows maxBytes table ordinal) state with
          | error e => rfl
          | ok state' =>
              obtain ⟨key, hlastKey, hkey, hremaining⟩ := hlast (List.cons_ne_nil row page)
              have hshorter : (rowsAfter archive.store.tables table (some key)).length < fuel := by
                rw [hsplit, List.length_append, List.length_cons] at hfuel
                rw [hremaining]
                omega
              dsimp only
              rw [hlastKey, ih hkey hshorter state', hremaining]
              rfl

/-- The rows of a table, inspected in order. -/
def tableFold (archive : PinnedArchive) (validate : ArchiveValidator) (maxRows maxBytes : UInt64) (state : Inspection)
    (table : Table × Nat) : Except Error Inspection :=
  (rowsAfter archive.store.tables table.1 none).foldlM (inspectRow archive validate maxRows maxBytes table.1 table.2)
    (state.enter table.2)

theorem inspectTables_eq (hready : archive.store.failure = none) (hfits : Fits archive.store.view) {fuel : Nat}
    {tables : List (Table × Nat)} (htables : ∀ table ∈ tables, table.1 ∈ TABLES)
    (hfuel : ∀ table ∈ tables, (rowsAfter archive.store.tables table.1 none).length < fuel) (state : Inspection) :
    inspectTables archive validate maxRows maxBytes fuel tables state =
      some (tables.foldlM (tableFold archive validate maxRows maxBytes) state) := by
  induction tables generalizing state with
  | nil => rfl
  | cons table tables ih =>
      obtain ⟨table, ordinal⟩ := table
      obtain ⟨ht, hrest⟩ := List.forall_mem_cons.mp htables
      obtain ⟨hlt, hfuel⟩ := List.forall_mem_cons.mp hfuel
      have hnone : ∀ k ∈ (none : Option (List UInt8)), k.length ≤ 64 := by simp
      rw [inspectTables, inspectPages_eq hready hfits ht ordinal hnone hlt, List.foldlM_cons, tableFold]
      cases (rowsAfter archive.store.tables table none).foldlM
        (inspectRow archive validate maxRows maxBytes table ordinal) (state.enter ordinal) with
      | error e => rfl
      | ok state' => exact ih hrest hfuel state'

/-! ### Counting -/

/-- The counts have room for more rows and bytes. -/
structure Room (maxRows maxBytes : UInt64) (state : Inspection) (rows bytes : Nat) : Prop where
  rows : state.rows.toNat + rows ≤ maxRows.toNat
  bytes : state.bytes.toNat + bytes ≤ maxBytes.toNat

theorem addWithin_eq {a : UInt64} {b bound : Nat} (h : a.toNat + b ≤ bound) (hbound : bound < 2 ^ 64) :
    ∃ sum, addWithin a b = .ok sum ∧ sum.toNat = a.toNat + b := by
  have hlt : a.toNat + b < 2 ^ 64 := by omega
  refine ⟨a + UInt64.ofNat b, if_pos hlt, ?_⟩
  rw [UInt64.toNat_add, UInt64.toNat_ofNat', Nat.mod_eq_of_lt (show b < 2 ^ 64 by omega), Nat.mod_eq_of_lt hlt]

/-- A row that is accepted is well formed, and its links are. -/
theorem inspectRow_ok {table : Table} {ordinal : Nat} {state state' : Inspection} {row : RawEntry}
    (h : inspectRow archive validate maxRows maxBytes table ordinal state row = .ok state') :
    validateRecord table row = .ok () ∧ inspectLinks archive validate table state.trail row = .ok state'.trail := by
  obtain ⟨rows, -, h⟩ := exists_of_bind_ok h
  obtain ⟨bytes, -, h⟩ := exists_of_bind_ok h
  obtain ⟨_, -, h⟩ := exists_of_bind_ok h
  obtain ⟨_, hvalid, h⟩ := exists_of_bind_ok h
  obtain ⟨trail, htrail, h⟩ := exists_of_bind_ok h
  obtain rfl := Except.ok.inj h
  exact ⟨hvalid, htrail⟩

/-- Where the counts have room, only the row and its links matter. -/
theorem inspectRow_of {table : Table} {ordinal : Nat} {state : Inspection} {row : RawEntry} {trail : Trail} {r b : Nat}
    (hroom : Room maxRows maxBytes state (r + 1) (b + rowBytes row)) (hvalid : validateRecord table row = .ok ())
    (hlinks : inspectLinks archive validate table state.trail row = .ok trail) :
    ∃ state', inspectRow archive validate maxRows maxBytes table ordinal state row = .ok state' ∧
      state'.trail = trail ∧ Room maxRows maxBytes state' r b := by
  obtain ⟨hrows, hbytes⟩ := hroom
  rw [rowBytes] at hbytes
  obtain ⟨rows, hrowsEq, hrowsNat⟩ := @addWithin_eq state.rows 1 maxRows.toNat (by omega) maxRows.toNat_lt
  obtain ⟨bytes, hbytesEq, hbytesNat⟩ :=
    @addWithin_eq state.bytes (row.1.length + row.2.length) maxBytes.toNat (by omega) maxBytes.toNat_lt
  have hwithin : ¬(rows > maxRows ∨ bytes > maxBytes) := by
    rintro (hgt | hgt)
    · have := UInt64.lt_iff_toNat_lt.mp hgt
      omega
    · have := UInt64.lt_iff_toNat_lt.mp hgt
      omega
  refine ⟨⟨rows, bytes, state.tables.modify ordinal (· + 1), state.message ++ hashRow row, trail⟩, ?_, rfl, ?_, ?_⟩
  · rw [inspectRow, hrowsEq]
    change (addWithin state.bytes (row.1.length + row.2.length) >>= _) = _
    rw [hbytesEq]
    change (refuse _ _ >>= _) = _
    rw [refuse_of_not hwithin]
    change (validateRecord table row >>= _) = _
    rw [hvalid]
    change (inspectLinks archive validate table state.trail row >>= _) = _
    rw [hlinks]
    rfl
  · dsimp only
    omega
  · dsimp only
    omega

theorem inspectRows_ok {table : Table} {ordinal : Nat} {state state' : Inspection} {rows : List RawEntry}
    (h : rows.foldlM (inspectRow archive validate maxRows maxBytes table ordinal) state = .ok state') :
    (∀ row ∈ rows, validateRecord table row = .ok ()) ∧
      rows.foldlM (inspectLinks archive validate table) state.trail = .ok state'.trail := by
  induction rows generalizing state with
  | nil =>
      obtain rfl := Except.ok.inj h
      exact ⟨nofun, rfl⟩
  | cons row rows ih =>
      rw [List.foldlM_cons] at h
      obtain ⟨middle, hrow, h⟩ := exists_of_bind_ok h
      obtain ⟨hvalid, hlinks⟩ := inspectRow_ok hrow
      obtain ⟨hrest, hfold⟩ := ih h
      refine ⟨List.forall_mem_cons.mpr ⟨hvalid, hrest⟩, ?_⟩
      rw [List.foldlM_cons, hlinks]
      exact hfold

theorem inspectRows_of {table : Table} {ordinal : Nat} {state : Inspection} {rows : List RawEntry} {trail : Trail}
    {r b : Nat} (hroom : Room maxRows maxBytes state (r + rows.length) (b + (rows.map rowBytes).sum))
    (hvalid : ∀ row ∈ rows, validateRecord table row = .ok ())
    (hlinks : rows.foldlM (inspectLinks archive validate table) state.trail = .ok trail) :
    ∃ state', rows.foldlM (inspectRow archive validate maxRows maxBytes table ordinal) state = .ok state' ∧
      state'.trail = trail ∧ Room maxRows maxBytes state' r b := by
  induction rows generalizing state with
  | nil => exact ⟨state, rfl, Except.ok.inj hlinks, hroom⟩
  | cons row rows ih =>
      obtain ⟨hrow, hrest⟩ := List.forall_mem_cons.mp hvalid
      rw [List.foldlM_cons] at hlinks
      obtain ⟨middle, hlink, hlinks⟩ := exists_of_bind_ok hlinks
      rw [List.length_cons, List.map_cons, List.sum_cons, ← Nat.add_assoc, Nat.add_comm (rowBytes row),
        ← Nat.add_assoc] at hroom
      obtain ⟨state₁, hstate₁, rfl, hroom₁⟩ := @inspectRow_of archive validate maxRows maxBytes table ordinal state row
        middle _ _ hroom hrow hlink
      obtain ⟨state', hfold, htrail, hroom'⟩ := ih hroom₁ hrest hlinks
      refine ⟨state', ?_, htrail, hroom'⟩
      rw [List.foldlM_cons, hstate₁]
      exact hfold

/-- The trail after a table. -/
def tableTrail (archive : PinnedArchive) (validate : ArchiveValidator) (trail : Trail) (table : Table) :
    Except Error Trail :=
  (rowsAfter archive.store.tables table none).foldlM (inspectLinks archive validate table) { trail with previous := none }

theorem inspectTables_ok {tables : List (Table × Nat)} {state state' : Inspection}
    (h : tables.foldlM (tableFold archive validate maxRows maxBytes) state = .ok state') :
    (∀ table ∈ tables, ∀ row ∈ rowsAfter archive.store.tables table.1 none, validateRecord table.1 row = .ok ()) ∧
      (tables.map Prod.fst).foldlM (tableTrail archive validate) state.trail = .ok state'.trail := by
  induction tables generalizing state with
  | nil =>
      obtain rfl := Except.ok.inj h
      exact ⟨nofun, rfl⟩
  | cons table tables ih =>
      rw [List.foldlM_cons] at h
      obtain ⟨middle, htable, h⟩ := exists_of_bind_ok h
      obtain ⟨hvalid, hlinks⟩ := inspectRows_ok htable
      obtain ⟨hrest, hfold⟩ := ih h
      refine ⟨List.forall_mem_cons.mpr ⟨hvalid, hrest⟩, ?_⟩
      rw [List.map_cons, List.foldlM_cons, tableTrail]
      rw [show (rowsAfter archive.store.tables table.1 none).foldlM (inspectLinks archive validate table.1)
        { state.trail with previous := none } = .ok middle.trail from hlinks]
      exact hfold

/-- The rows of a table, and their bytes. -/
def tableRows (db : Database) (table : Table) : Nat := (rowsAfter db.tables table none).length

def tableBytes (db : Database) (table : Table) : Nat := ((rowsAfter db.tables table none).map rowBytes).sum

theorem inspectTables_of {tables : List (Table × Nat)} {state : Inspection} {trail : Trail} {r b : Nat}
    (hroom : Room maxRows maxBytes state (r + (tables.map fun table => tableRows archive.store table.1).sum)
      (b + (tables.map fun table => tableBytes archive.store table.1).sum))
    (hvalid : ∀ table ∈ tables, ∀ row ∈ rowsAfter archive.store.tables table.1 none, validateRecord table.1 row = .ok ())
    (hlinks : (tables.map Prod.fst).foldlM (tableTrail archive validate) state.trail = .ok trail) :
    ∃ state', tables.foldlM (tableFold archive validate maxRows maxBytes) state = .ok state' ∧ state'.trail = trail ∧
      Room maxRows maxBytes state' r b := by
  induction tables generalizing state with
  | nil => exact ⟨state, rfl, Except.ok.inj hlinks, hroom⟩
  | cons table tables ih =>
      obtain ⟨hfirst, hrest⟩ := List.forall_mem_cons.mp hvalid
      rw [List.map_cons, List.foldlM_cons] at hlinks
      obtain ⟨middle, hlink, hlinks⟩ := exists_of_bind_ok hlinks
      have hentered : Room maxRows maxBytes (state.enter table.2)
          (r + (tables.map fun table => tableRows archive.store table.1).sum +
            (rowsAfter archive.store.tables table.1 none).length)
          (b + (tables.map fun table => tableBytes archive.store table.1).sum +
            ((rowsAfter archive.store.tables table.1 none).map rowBytes).sum) := by
        obtain ⟨hrows, hbytes⟩ := hroom
        rw [List.map_cons, List.sum_cons, tableRows] at hrows
        rw [List.map_cons, List.sum_cons, tableBytes] at hbytes
        exact ⟨by change state.rows.toNat + _ ≤ _; omega, by change state.bytes.toNat + _ ≤ _; omega⟩
      obtain ⟨state₁, hstate₁, rfl, hroom₁⟩ := inspectRows_of hentered hfirst hlink
      obtain ⟨state', hfold, htrail, hroom'⟩ := ih hroom₁ hrest hlinks
      refine ⟨state', ?_, htrail, hroom'⟩
      rw [List.foldlM_cons, tableFold, hstate₁]
      exact hfold

/-! ### The trail of each table -/

/-- The check of a named head is `Linked`. -/
theorem inspectHead_iff (hready : db.failure = none) (hfits : Fits db.view) (hw : WellFormed db.view) {s : Particle}
    {head : Head} : inspectHead db s head = .ok () ↔ Linked db.view s head := by
  constructor
  · intro h
    rw [inspectHead, storeHead] at h
    obtain ⟨selected, hselected, h⟩ := exists_of_bind_ok h
    obtain ⟨row, hrow, hselected⟩ := exists_of_bind_ok hselected
    have hrow := (read_ok (lift_ok hrow)).2
    cases row with
    | none =>
        obtain rfl := Except.ok.inj hselected
        cases h
    | some row =>
        obtain ⟨top, htop, hselected⟩ := exists_of_bind_ok hselected
        obtain rfl := Except.ok.inj hselected
        obtain ⟨_, hbelow, h⟩ := exists_of_bind_ok h
        obtain ⟨recorded, hrecorded, h⟩ := exists_of_bind_ok h
        obtain ⟨_, hmatch, h⟩ := exists_of_bind_ok h
        obtain ⟨content, hcontent, h⟩ := exists_of_bind_ok h
        refine ⟨?_, ?_, top, ?_, UInt64.not_lt.mp (refuse_ok hbelow)⟩
        · rw [← (read_ok (lift_ok hrecorded)).2]
          exact not_not.mp (refuse_ok hmatch)
        · rw [← (read_ok (lift_ok hcontent)).2]
          exact refuse_ok h
        · rw [← hrow, encodeHead_of_decodeHead htop]
  · rintro ⟨hrecorded, hcontent, selected, hselected, hbelow⟩
    have hhead : storeHead db s = .ok (some selected) := by
      rw [storeHead, lift_eq (read_eq hready (by simp) (by decide) fun x hx => ?_), hselected]
      · change (decodeHead (encodeHead selected) >>= _) = _
        rw [decodeHead_encodeHead]
        rfl
      · obtain ⟨s', head', -, rfl⟩ := hw.head hx
        rw [encodeHead_length]
    have hread : db.read .history (historyKey s head.index) 32 = .ok (some head.commit.toList) := by
      rw [read_eq hready (by rw [historyKey_length]; decide) (by decide), hrecorded]
      intro x hx
      rw [hrecorded] at hx
      rw [← Option.some.inj hx, Vector.length_toList]
    have hread' : db.read .content head.commit.toList MAX_BYTES_VALUE = .ok (db.view .content head.commit.toList) := by
      refine read_eq hready (by simp) (Nat.le_refl _) fun x hx => (hfits _ (by decide) _ _ hx).2
    rw [inspectHead, hhead]
    change (refuse _ _ >>= _) = _
    rw [refuse_of_not (UInt64.not_lt.mpr hbelow)]
    change (lift (db.read .history (historyKey s head.index) 32) >>= _) = _
    rw [lift_eq hread]
    change (refuse _ _ >>= _) = _
    rw [refuse_of_not (not_not.mpr rfl)]
    change (lift (db.read .content head.commit.toList MAX_BYTES_VALUE) >>= _) = _
    rw [lift_eq hread']
    exact refuse_of_not hcontent

/-- The validator accepts every content row of the archive. -/
def Accepts (validate : ArchiveValidator) (archive : PinnedArchive) : Prop :=
  ∀ (id : Particle) bytes, archive.store.view .content id.toList = some bytes → validate id bytes archive = .ok ()

theorem contentTrail_eq (hw : WellFormed archive.store.view) (haccepts : Accepts validate archive) (trail : Trail) :
    tableTrail archive validate trail .content = .ok { trail with previous := none } := by
  have hrows : ∀ rows : List RawEntry, (∀ row ∈ rows, row ∈ rowsAfter archive.store.tables .content none) →
      ∀ trail : Trail, rows.foldlM (inspectLinks archive validate .content) trail = .ok trail := by
    intro rows
    induction rows with
    | nil => exact fun _ _ => rfl
    | cons row rows ih =>
        intro hmem trail
        obtain ⟨hrow, hrest⟩ := List.forall_mem_cons.mp hmem
        have hfound := mem_rowsAfter_none.mp hrow
        have hvalid := hw .content (by decide) row.1 row.2 hfound
        simp only [validateRecord, decide_eq_true_eq] at hvalid
        split_ifs at hvalid with hlen
        obtain ⟨id, hid⟩ := particle_of_length hlen
        rw [hid] at hfound
        have hlink : inspectLinks archive validate .content trail row = .ok trail := by
          rw [inspectLinks, if_pos rfl, hid, particle_toList]
          change (validate id row.2 archive >>= _) = _
          rw [haccepts id row.2 hfound]
          rfl
        rw [List.foldlM_cons, hlink]
        exact ih hrest trail
  exact hrows _ (fun _ h => h) _

theorem claimsTrail_eq (trail : Trail) : tableTrail archive validate trail .claims = .ok { trail with previous := none } := by
  have hrows : ∀ (rows : List RawEntry) (trail : Trail),
      rows.foldlM (inspectLinks archive validate .claims) trail = .ok trail := by
    intro rows
    induction rows with
    | nil => exact fun _ => rfl
    | cons row rows ih => exact fun trail => ih trail
  exact hrows _ _

/-- A row with a space and a named head is checked against the store. -/
theorem inspectLinks_named (hready : archive.store.failure = none) (hfits : Fits archive.store.view)
    (hw : WellFormed archive.store.view) {table : Table} (hcontent : table ≠ .content) (hclaims : table ≠ .claims)
    {trail trail' : Trail} {row : RawEntry} {s : Particle} (hspace : particle (row.1.take 32) = .ok s) :
    inspectLinks archive validate table trail row = .ok trail' ↔
      ∃ head, trailHead table trail s row = .ok (head, trail') ∧ Linked archive.store.view s head := by
  rw [inspectLinks, if_neg hcontent, if_neg hclaims, hspace]
  change (trailHead table trail s row >>= _) = _ ↔ _
  constructor
  · intro h
    obtain ⟨⟨head, next⟩, hnamed, h⟩ := exists_of_bind_ok h
    obtain ⟨u, hhead, h⟩ := exists_of_bind_ok h
    obtain rfl := Except.ok.inj h
    exact ⟨head, hnamed, (inspectHead_iff hready hfits hw).mp hhead⟩
  · rintro ⟨head, hnamed, hlinked⟩
    rw [hnamed]
    change (inspectHead archive.store s head >>= _) = _
    rw [(inspectHead_iff hready hfits hw).mpr hlinked]
    rfl

/-- The row of a receipt. -/
def receiptRow (entry : (Particle × UInt64) × Particle × Particle × Particle) : RawEntry :=
  (requestKey entry.1.1 entry.2.1, encodeRequest entry.2.2.1 ⟨entry.1.2, entry.2.2.2⟩)

/-- A receipt is inspected: it is linked, and its place is new. -/
theorem inspectReceipt_iff (hready : archive.store.failure = none) (hfits : Fits archive.store.view)
    (hw : WellFormed archive.store.view) (trail middle : Trail) (s : Particle) (i : UInt64) (r fingerprint commit : Particle) :
    inspectLinks archive validate .requests trail (receiptRow ((s, i), r, fingerprint, commit)) = .ok middle ↔
      (s, i) ∉ trail.receipts ∧ Linked archive.store.view s ⟨i, commit⟩ ∧
        middle = { trail with receipts := insert (s, i) trail.receipts } := by
  have hspace : particle ((receiptRow ((s, i), r, fingerprint, commit)).1.take 32) = .ok s := by
    rw [receiptRow, take_requestKey, particle_toList]
  rw [inspectLinks_named hready hfits hw (by decide) (by decide) hspace, trailHead, receiptRow,
    decodeRequest_encodeRequest]
  change (∃ head, (refuse ((s, i) ∈ trail.receipts) Error.corrupt >>= fun _ => Except.ok
    ((⟨i, commit⟩ : Head), { trail with receipts := insert (s, i) trail.receipts })) = .ok (head, middle) ∧ _) ↔ _
  by_cases hmem : (s, i) ∈ trail.receipts
  · rw [refuse, if_pos hmem]
    constructor
    · rintro ⟨_, h, -⟩
      cases h
    · exact fun h => absurd hmem h.1
  · rw [refuse_of_not hmem]
    constructor
    · rintro ⟨head, h, hlinked⟩
      obtain ⟨rfl, rfl⟩ := Prod.mk.inj (Except.ok.inj h)
      exact ⟨hmem, hlinked, rfl⟩
    · rintro ⟨-, hlinked, rfl⟩
      exact ⟨_, rfl, hlinked⟩

/-- The receipts of a store are inspected: each is linked, and their places are new. -/
theorem requests_fold (hready : archive.store.failure = none) (hfits : Fits archive.store.view)
    (hw : WellFormed archive.store.view) (entries : List ((Particle × UInt64) × Particle × Particle × Particle))
    (trail trail' : Trail) :
    (entries.map receiptRow).foldlM (inspectLinks archive validate .requests) trail = .ok trail' ↔
      ((entries.map Prod.fst).Nodup ∧ ∀ entry ∈ entries, entry.1 ∉ trail.receipts ∧
        Linked archive.store.view entry.1.1 ⟨entry.1.2, entry.2.2.2⟩) ∧
      trail' = { trail with receipts := trail.receipts ∪ (entries.map Prod.fst).toFinset } := by
  induction entries generalizing trail with
  | nil =>
      rw [List.map_nil, List.map_nil, List.foldlM_nil, List.toFinset_nil, Finset.union_empty]
      exact ⟨fun h => ⟨⟨.nil, List.forall_mem_nil _⟩, (Except.ok.inj h).symm⟩, fun h => congrArg Except.ok h.2.symm⟩
  | cons entry entries ih =>
      obtain ⟨⟨s, i⟩, r, fingerprint, commit⟩ := entry
      have hstep := fun middle => @inspectReceipt_iff archive validate hready hfits hw trail middle s i r fingerprint commit
      have hunion : insert (s, i) trail.receipts ∪ (entries.map Prod.fst).toFinset =
          trail.receipts ∪ ((((s, i), r, fingerprint, commit) :: entries).map Prod.fst).toFinset := by
        rw [List.map_cons, List.toFinset_cons, Finset.insert_union, Finset.union_insert]
      rw [List.map_cons, List.foldlM_cons]
      constructor
      · intro h
        obtain ⟨middle, hrow, h⟩ := exists_of_bind_ok h
        obtain ⟨hnew, hlinked, rfl⟩ := (hstep middle).mp hrow
        obtain ⟨⟨hnodup, hrest⟩, rfl⟩ := (ih _).mp h
        refine ⟨⟨?_, List.forall_mem_cons.mpr ⟨⟨hnew, hlinked⟩, fun e he => ⟨?_, (hrest e he).2⟩⟩⟩, ?_⟩
        · rw [List.map_cons, List.nodup_cons]
          refine ⟨fun hmem => ?_, hnodup⟩
          obtain ⟨e, he, heq⟩ := List.mem_map.mp hmem
          exact (hrest e he).1 (by rw [heq]; exact Finset.mem_insert_self _ _)
        · exact fun hmem => (hrest e he).1 (Finset.mem_insert_of_mem hmem)
        · rw [← hunion]
      · rintro ⟨⟨hnodup, hall⟩, rfl⟩
        obtain ⟨⟨hnew, hlinked⟩, hrest⟩ := List.forall_mem_cons.mp hall
        rw [List.map_cons, List.nodup_cons] at hnodup
        rw [(hstep _).mpr ⟨hnew, hlinked, rfl⟩]
        refine (ih _).mpr ⟨⟨hnodup.2, fun e he => ⟨?_, (hrest e he).2⟩⟩, ?_⟩
        · intro hmem
          rcases Finset.mem_insert.mp hmem with heq | hmem
          · exact hnodup.1 (List.mem_map.mpr ⟨e, he, heq⟩)
          · exact (hrest e he).1 hmem
        · rw [hunion]

/-- A row of the history is inspected: it is next in sequence, linked, and takes the place of a receipt. -/
theorem inspectHistoryRow_iff (hready : archive.store.failure = none) (hfits : Fits archive.store.view)
    (hw : WellFormed archive.store.view) (trail middle : Trail) (s : Particle) (i : UInt64) (commit : Particle) :
    inspectLinks archive validate .history trail (historyRow ((s, i), commit)) = .ok middle ↔
      (expectedIndex trail.previous s = .ok i ∧ (s, i) ∈ trail.receipts ∧ Linked archive.store.view s ⟨i, commit⟩) ∧
        middle = ⟨trail.receipts.erase (s, i), some (s, i)⟩ := by
  have hlen : ¬((historyRow ((s, i), commit)).1.drop 32).length ≠ 8 := by
    rw [historyRow, drop_historyKey]
    simp
  have hindex : u64FromBe ((historyRow ((s, i), commit)).1.drop 32) = i := by
    rw [historyRow, drop_historyKey, u64FromBe_u64BeBytes]
  rw [inspectLinks_named hready hfits hw (by decide) (by decide) (space_historyRow _), trailHead,
    refuse_of_not hlen, hindex]
  change (∃ head, (expectedIndex trail.previous s >>= _) = .ok (head, middle) ∧ _) ↔ _
  cases hexpected : expectedIndex trail.previous s with
  | error e =>
      constructor
      · rintro ⟨_, h, -⟩
        cases h
      · rintro ⟨⟨h, -⟩, -⟩
        cases h
  | ok expected =>
      change (∃ head, (refuse (i ≠ expected ∨ (s, i) ∉ trail.receipts) Error.corrupt >>= _) =
        .ok (head, middle) ∧ _) ↔ _
      by_cases hbad : i ≠ expected ∨ (s, i) ∉ trail.receipts
      · rw [refuse, if_pos hbad]
        constructor
        · rintro ⟨_, h, -⟩
          cases h
        · intro h
          rcases hbad with hne | hmem
          · exact absurd (Except.ok.inj h.1.1).symm hne
          · exact absurd h.1.2.1 hmem
      · rw [refuse_of_not hbad]
        obtain ⟨heq, hmem⟩ := not_or.mp hbad
        obtain rfl := not_not.mp heq
        change (∃ head, (particle commit.toList >>= _) = .ok (head, middle) ∧ _) ↔ _
        rw [particle_toList]
        constructor
        · rintro ⟨head, h, hlinked⟩
          obtain ⟨rfl, rfl⟩ := Prod.mk.inj (Except.ok.inj h)
          exact ⟨⟨rfl, not_not.mp hmem, hlinked⟩, rfl⟩
        · rintro ⟨⟨-, -, hlinked⟩, rfl⟩
          exact ⟨_, rfl, hlinked⟩

/-- The history of a store is inspected: it is in sequence, and each row is linked and takes the place of a receipt. -/
theorem inspectHistory_fold (hready : archive.store.failure = none) (hfits : Fits archive.store.view)
    (hw : WellFormed archive.store.view) (entries : List ((Particle × UInt64) × Particle))
    (hnodup : (entries.map Prod.fst).Nodup) (trail trail' : Trail) :
    (entries.map historyRow).foldlM (inspectLinks archive validate .history) trail = .ok trail' ↔
      (InSequence trail.previous (entries.map Prod.fst) ∧ ∀ entry ∈ entries, entry.1 ∈ trail.receipts ∧
        Linked archive.store.view entry.1.1 ⟨entry.1.2, entry.2⟩) ∧
      trail' = ⟨trail.receipts \ (entries.map Prod.fst).toFinset,
        (entries.map Prod.fst).getLast?.or trail.previous⟩ := by
  induction entries generalizing trail with
  | nil =>
      rw [List.map_nil, List.map_nil, List.foldlM_nil, List.toFinset_nil, Finset.sdiff_empty]
      exact ⟨fun h => ⟨⟨trivial, List.forall_mem_nil _⟩, (Except.ok.inj h).symm⟩, fun h => congrArg Except.ok h.2.symm⟩
  | cons entry entries ih =>
      obtain ⟨⟨s, i⟩, commit⟩ := entry
      rw [List.map_cons, List.nodup_cons] at hnodup
      obtain ⟨hfirst, hnodup⟩ := hnodup
      have hstep := fun middle => @inspectHistoryRow_iff archive validate hready hfits hw trail middle s i commit
      have hlast : (((s, i), commit) :: entries).map Prod.fst = (s, i) :: entries.map Prod.fst := rfl
      have hor : ((s, i) :: entries.map Prod.fst).getLast?.or trail.previous =
          (entries.map Prod.fst).getLast?.or (some (s, i)) := by
        rw [List.getLast?_cons]
        cases (entries.map Prod.fst).getLast? with
        | none => rfl
        | some p => rfl
      have hsdiff : trail.receipts.erase (s, i) \ (entries.map Prod.fst).toFinset =
          trail.receipts \ ((s, i) :: entries.map Prod.fst).toFinset := by
        rw [List.toFinset_cons, Finset.sdiff_insert, Finset.erase_sdiff_comm]
      rw [List.map_cons, List.foldlM_cons, hlast, hor, ← hsdiff, List.forall_mem_cons]
      constructor
      · intro h
        obtain ⟨middle, hrow, h⟩ := exists_of_bind_ok h
        obtain ⟨⟨hexpected, hmem, hlinked⟩, rfl⟩ := (hstep middle).mp hrow
        obtain ⟨⟨hsequence, hrest⟩, rfl⟩ := (ih hnodup _).mp h
        refine ⟨⟨⟨hexpected, hsequence⟩, ⟨hmem, hlinked⟩, fun e he => ?_⟩, rfl⟩
        exact ⟨Finset.mem_of_mem_erase (hrest e he).1, (hrest e he).2⟩
      · rintro ⟨⟨⟨hexpected, hsequence⟩, ⟨hmem, hlinked⟩, hrest⟩, rfl⟩
        rw [(hstep _).mpr ⟨⟨hexpected, hmem, hlinked⟩, rfl⟩]
        refine (ih hnodup _).mpr ⟨⟨hsequence, fun e he => ⟨?_, (hrest e he).2⟩⟩, rfl⟩
        exact Finset.mem_erase.mpr ⟨fun heq => hfirst (List.mem_map.mpr ⟨e, he, heq⟩), (hrest e he).1⟩

/-- The heads of a store are inspected: each is linked. -/
theorem heads_fold (hready : archive.store.failure = none) (hfits : Fits archive.store.view)
    (hw : WellFormed archive.store.view) (entries : List (Particle × Head)) (trail trail' : Trail) :
    (entries.map fun entry => (entry.1.toList, encodeHead entry.2)).foldlM (inspectLinks archive validate .heads) trail =
        .ok trail' ↔
      (∀ entry ∈ entries, Linked archive.store.view entry.1 entry.2) ∧ trail' = trail := by
  induction entries generalizing trail with
  | nil => exact ⟨fun h => ⟨nofun, (Except.ok.inj h).symm⟩, fun h => congrArg Except.ok h.2.symm⟩
  | cons entry entries ih =>
      obtain ⟨s, head⟩ := entry
      have hspace : particle ((s.toList, encodeHead head).1.take 32) = .ok s := by
        rw [List.take_of_length_le (by simp), particle_toList]
      have hstep : ∀ middle, inspectLinks archive validate .heads trail (s.toList, encodeHead head) = .ok middle ↔
          Linked archive.store.view s head ∧ middle = trail := by
        intro middle
        rw [inspectLinks_named hready hfits hw (by decide) (by decide) hspace, trailHead, decodeHead_encodeHead]
        constructor
        · rintro ⟨head', h, hlinked⟩
          obtain ⟨rfl, rfl⟩ := Prod.mk.inj (Except.ok.inj h)
          exact ⟨hlinked, rfl⟩
        · rintro ⟨hlinked, rfl⟩
          exact ⟨head, rfl, hlinked⟩
      rw [List.map_cons, List.foldlM_cons, List.forall_mem_cons]
      constructor
      · intro h
        obtain ⟨middle, hrow, hfold⟩ := exists_of_bind_ok h
        obtain ⟨hlinked, hsame⟩ := (hstep middle).mp hrow
        rw [hsame] at hfold
        obtain ⟨hrest, hlast⟩ := (ih trail).mp hfold
        exact ⟨⟨hlinked, hrest⟩, hlast⟩
      · rintro ⟨⟨hlinked, hrest⟩, rfl⟩
        rw [(hstep _).mpr ⟨hlinked, rfl⟩]
        exact (ih _).mpr ⟨hrest, rfl⟩

/-! ### The verdict of the inspection -/

theorem nodup_rowsAfter (db : Database) (table : Table) : (rowsAfter db.tables table none).Nodup := by
  have hincreasing : Increasing (rowsAfter db.tables table none) := (increasing_toList _).filter _
  refine hincreasing.imp fun hlt heq => ?_
  rw [heq, @Std.ReflCmp.compare_self _ compare] at hlt
  cases hlt

/-- The receipts of a well formed store. -/
theorem WellFormed.receiptEntries (hw : WellFormed db.view) :
    ∃ entries : List ((Particle × UInt64) × Particle × Particle × Particle),
      rowsAfter db.tables .requests none = entries.map receiptRow ∧ entries.Nodup ∧
        ∀ s i r fingerprint commit, ((s, i), r, fingerprint, commit) ∈ entries ↔
          db.view .requests (requestKey s r) = some (encodeRequest fingerprint ⟨i, commit⟩) := by
  have hrows : ∀ row ∈ rowsAfter db.tables .requests none, ∃ entry, receiptRow entry = row := by
    rintro ⟨k, x⟩ hrow
    obtain ⟨s, r, fingerprint, head, rfl, rfl⟩ := hw.receipt (mem_rowsAfter_none.mp hrow)
    exact ⟨((s, head.index), r, fingerprint, head.commit), rfl⟩
  obtain ⟨entries, hentries⟩ : ∃ entries : List ((Particle × UInt64) × Particle × Particle × Particle),
      rowsAfter db.tables .requests none = entries.map receiptRow := (exists_map_eq hrows).imp fun _ => Eq.symm
  refine ⟨entries, hentries, ?_, fun s i r fingerprint commit => ⟨fun hmem => ?_, fun hfound => ?_⟩⟩
  · have hnodup := nodup_rowsAfter db .requests
    rw [hentries] at hnodup
    exact hnodup.of_map _
  · have hrow : receiptRow ((s, i), r, fingerprint, commit) ∈ rowsAfter db.tables .requests none := by
      rw [hentries]
      exact List.mem_map_of_mem hmem
    exact mem_rowsAfter_none.mp hrow
  · have hrow : receiptRow ((s, i), r, fingerprint, commit) ∈ rowsAfter db.tables .requests none :=
      mem_rowsAfter_none.mpr hfound
    rw [hentries] at hrow
    obtain ⟨⟨⟨s', i'⟩, r', fingerprint', commit'⟩, hmem, heq⟩ := List.mem_map.mp hrow
    obtain ⟨hkey, hvalue⟩ := Prod.mk.inj heq
    obtain ⟨rfl, rfl⟩ := requestKey_injective hkey
    have hdecoded := congrArg decodeRequest hvalue
    rw [decodeRequest_encodeRequest, decodeRequest_encodeRequest] at hdecoded
    obtain ⟨rfl, hhead⟩ := Prod.mk.inj (Except.ok.inj hdecoded)
    obtain ⟨rfl, rfl⟩ := Head.mk.inj hhead
    exact hmem

/-- The places of the receipts. -/
theorem mem_receiptPlaces {entries : List ((Particle × UInt64) × Particle × Particle × Particle)}
    (hentries : ∀ s i r fingerprint commit, ((s, i), r, fingerprint, commit) ∈ entries ↔
      db.view .requests (requestKey s r) = some (encodeRequest fingerprint ⟨i, commit⟩)) (s : Particle) (i : UInt64) :
    (s, i) ∈ entries.map Prod.fst ↔ ∃ r fingerprint head,
      db.view .requests (requestKey s r) = some (encodeRequest fingerprint head) ∧ head.index = i := by
  constructor
  · intro hmem
    obtain ⟨⟨place, r, fingerprint, commit⟩, hmem, rfl⟩ := List.mem_map.mp hmem
    exact ⟨r, fingerprint, ⟨i, commit⟩, (hentries s i r fingerprint commit).mp hmem, rfl⟩
  · rintro ⟨r, fingerprint, head, hfound, rfl⟩
    exact List.mem_map.mpr ⟨_, (hentries s head.index r fingerprint head.commit).mpr hfound, rfl⟩

/-- The places of the receipts are distinct when no two requests have one index. -/
theorem nodup_receiptPlaces {entries : List ((Particle × UInt64) × Particle × Particle × Particle)}
    (hentries : ∀ s i r fingerprint commit, ((s, i), r, fingerprint, commit) ∈ entries ↔
      db.view .requests (requestKey s r) = some (encodeRequest fingerprint ⟨i, commit⟩)) (hnodup : entries.Nodup) :
    (entries.map Prod.fst).Nodup ↔ ∀ s r r' fingerprint fingerprint' head head',
      db.view .requests (requestKey s r) = some (encodeRequest fingerprint head) →
      db.view .requests (requestKey s r') = some (encodeRequest fingerprint' head') →
      head.index = head'.index → r = r' := by
  constructor
  · intro hplaces s r r' fingerprint fingerprint' head head' hrow hrow' hindex
    have hmem := (hentries s head.index r fingerprint head.commit).mpr hrow
    have hmem' := (hentries s head'.index r' fingerprint' head'.commit).mpr hrow'
    have hsame := List.inj_on_of_nodup_map hplaces hmem hmem' (by rw [hindex])
    exact congrArg (fun entry => entry.2.1) hsame
  · intro h
    refine (List.nodup_map_iff_inj_on hnodup).mpr ?_
    rintro ⟨⟨s, i⟩, r, fingerprint, commit⟩ hmem ⟨⟨s', i'⟩, r', fingerprint', commit'⟩ hmem' heq
    obtain ⟨rfl, rfl⟩ := Prod.mk.inj heq
    have hrow := (hentries s i r fingerprint commit).mp hmem
    have hrow' := (hentries s i r' fingerprint' commit').mp hmem'
    obtain rfl := h s r r' fingerprint fingerprint' _ _ hrow hrow' rfl
    rw [hrow] at hrow'
    have hdecoded := congrArg decodeRequest (Option.some.inj hrow')
    rw [decodeRequest_encodeRequest, decodeRequest_encodeRequest] at hdecoded
    obtain ⟨rfl, hhead⟩ := Prod.mk.inj (Except.ok.inj hdecoded)
    obtain ⟨-, rfl⟩ := Head.mk.inj hhead
    rfl

/-- The heads of a well formed store. -/
theorem WellFormed.headEntries (hw : WellFormed db.view) : ∃ entries : List (Particle × Head),
    rowsAfter db.tables .heads none = entries.map (fun entry => (entry.1.toList, encodeHead entry.2)) ∧
      ∀ s head, (s, head) ∈ entries ↔ db.view .heads s.toList = some (encodeHead head) := by
  have hrows : ∀ row ∈ rowsAfter db.tables .heads none,
      ∃ entry : Particle × Head, (entry.1.toList, encodeHead entry.2) = row := by
    rintro ⟨k, x⟩ hrow
    obtain ⟨s, head, rfl, rfl⟩ := hw.head (mem_rowsAfter_none.mp hrow)
    exact ⟨(s, head), rfl⟩
  obtain ⟨entries, hentries⟩ : ∃ entries : List (Particle × Head), rowsAfter db.tables .heads none =
      entries.map fun entry => (entry.1.toList, encodeHead entry.2) := (exists_map_eq hrows).imp fun _ => Eq.symm
  refine ⟨entries, hentries, fun s head => ⟨fun hmem => ?_, fun hfound => ?_⟩⟩
  · have hrow : (s.toList, encodeHead head) ∈ rowsAfter db.tables .heads none := by
      rw [hentries]
      exact List.mem_map.mpr ⟨(s, head), hmem, rfl⟩
    exact mem_rowsAfter_none.mp hrow
  · have hrow : (s.toList, encodeHead head) ∈ rowsAfter db.tables .heads none := mem_rowsAfter_none.mpr hfound
    rw [hentries] at hrow
    obtain ⟨⟨s', head'⟩, hmem, heq⟩ := List.mem_map.mp hrow
    obtain ⟨hkey, hvalue⟩ := Prod.mk.inj heq
    obtain rfl := Vector.toList_inj.mp hkey
    have hdecoded := congrArg decodeHead hvalue
    rw [decodeHead_encodeHead, decodeHead_encodeHead] at hdecoded
    obtain rfl := Except.ok.inj hdecoded
    exact hmem

/-- The trail goes through the five tables and ends without receipts exactly when the local checks hold. -/
theorem trail_iff (hready : archive.store.failure = none) (hfits : Fits archive.store.view)
    (hw : WellFormed archive.store.view) (haccepts : Accepts validate archive) :
    (∃ trail, TABLES.foldlM (tableTrail archive validate) ⟨∅, none⟩ = .ok trail ∧ trail.receipts = ∅) ↔
      LocallyLinked archive.store.view := by
  obtain ⟨receipts, hreceiptRows, hreceiptNodup, hreceipts⟩ := hw.receiptEntries
  obtain ⟨history, hhistoryRows, hsorted, hhistory⟩ := hw.entries
  obtain ⟨heads, hheadRows, hheads⟩ := hw.headEntries
  have hsequence := inSequence_iff hw hsorted hhistory
  have hhistoryNodup : (history.map Prod.fst).Nodup := by
    refine hsorted.imp fun hbefore heq => ?_
    rw [heq] at hbefore
    exact not_before_self _ hbefore
  have hrequestsTrail : ∀ trail trail', tableTrail archive validate trail .requests = .ok trail' ↔
      ((receipts.map Prod.fst).Nodup ∧ ∀ entry ∈ receipts, entry.1 ∉ trail.receipts ∧
        Linked archive.store.view entry.1.1 ⟨entry.1.2, entry.2.2.2⟩) ∧
      trail' = ⟨trail.receipts ∪ (receipts.map Prod.fst).toFinset, none⟩ := by
    intro trail trail'
    rw [tableTrail, hreceiptRows]
    exact requests_fold hready hfits hw receipts _ trail'
  have hhistoryTrail : ∀ trail trail', tableTrail archive validate trail .history = .ok trail' ↔
      (InSequence none (history.map Prod.fst) ∧ ∀ entry ∈ history, entry.1 ∈ trail.receipts ∧
        Linked archive.store.view entry.1.1 ⟨entry.1.2, entry.2⟩) ∧
      trail' = ⟨trail.receipts \ (history.map Prod.fst).toFinset, (history.map Prod.fst).getLast?.or none⟩ := by
    intro trail trail'
    rw [tableTrail, hhistoryRows]
    exact inspectHistory_fold hready hfits hw history hhistoryNodup _ trail'
  have hheadsTrail : ∀ trail trail', tableTrail archive validate trail .heads = .ok trail' ↔
      (∀ entry ∈ heads, Linked archive.store.view entry.1 entry.2) ∧ trail' = ⟨trail.receipts, none⟩ := by
    intro trail trail'
    rw [tableTrail, hheadRows]
    exact heads_fold hready hfits hw heads _ trail'
  have hplaceReceipt := mem_receiptPlaces hreceipts
  have hplaceHistory := mem_places hw hhistory
  have hunique := nodup_receiptPlaces hreceipts hreceiptNodup
  rw [TABLES]
  simp only [List.foldlM_cons, List.foldlM_nil, contentTrail_eq hw haccepts, claimsTrail_eq]
  change (∃ trail, (tableTrail archive validate ⟨∅, none⟩ .requests >>= fun trail =>
    tableTrail archive validate trail .history >>= fun trail =>
      tableTrail archive validate trail .heads >>= fun trail => .ok trail) = .ok trail ∧ _) ↔ _
  constructor
  · rintro ⟨trail, h, -⟩
    obtain ⟨trail₁, hfirst, h⟩ := exists_of_bind_ok h
    obtain ⟨trail₂, hsecond, h⟩ := exists_of_bind_ok h
    obtain ⟨trail₃, hthird, -⟩ := exists_of_bind_ok h
    obtain ⟨⟨hnodup, hreceiptLinked⟩, rfl⟩ := (hrequestsTrail _ _).mp hfirst
    obtain ⟨⟨hinSequence, hhistoryLinked⟩, rfl⟩ := (hhistoryTrail _ _).mp hsecond
    obtain ⟨hheadLinked, -⟩ := (hheadsTrail _ _).mp hthird
    refine ⟨fun s head hrow => hheadLinked _ ((hheads s head).mpr hrow), fun s r fingerprint head hrow => ?_,
      hunique.mp hnodup, fun s i commit hrow => (hhistoryLinked _ ((hhistory s i commit).mpr hrow)).2,
      hsequence.mp hinSequence, fun s i hne => ?_⟩
    · exact (hreceiptLinked _ ((hreceipts s head.index r fingerprint head.commit).mpr hrow)).2
    · obtain ⟨⟨place, commit⟩, hmem, rfl⟩ := List.mem_map.mp ((hplaceHistory s i).mpr hne)
      have hplace := (hhistoryLinked _ hmem).1
      rw [Finset.empty_union, List.mem_toFinset] at hplace
      exact (hplaceReceipt s i).mp hplace
  · intro hlinked
    have hfirst := (hrequestsTrail ⟨∅, none⟩ _).mpr ⟨⟨hunique.mpr hlinked.unique, fun entry hentry => ?_⟩, rfl⟩
    · have hsecond := (hhistoryTrail ⟨∅ ∪ (receipts.map Prod.fst).toFinset, none⟩ _).mpr
        ⟨⟨hsequence.mpr hlinked.steps, fun entry hentry => ?_⟩, rfl⟩
      · have hthird := (hheadsTrail ⟨(∅ ∪ (receipts.map Prod.fst).toFinset) \ (history.map Prod.fst).toFinset,
          (history.map Prod.fst).getLast?.or none⟩ _).mpr
          ⟨fun entry hentry => hlinked.heads _ _ ((hheads _ _).mp hentry), rfl⟩
        refine ⟨⟨(∅ ∪ (receipts.map Prod.fst).toFinset) \ (history.map Prod.fst).toFinset, none⟩, ?_, ?_⟩
        · rw [hfirst]
          change (tableTrail archive validate _ .history >>= _) = _
          rw [hsecond]
          change (tableTrail archive validate _ .heads >>= _) = _
          rw [hthird]
          rfl
        · rw [Finset.empty_union, Finset.sdiff_eq_empty_iff_subset]
          intro place hplace
          obtain ⟨s, i⟩ := place
          obtain ⟨r, fingerprint, head, hrow, rfl⟩ := (hplaceReceipt s i).mp (List.mem_toFinset.mp hplace)
          refine List.mem_toFinset.mpr ((hplaceHistory s head.index).mpr ?_)
          rw [(hlinked.receipts s r fingerprint head hrow).recorded]
          exact Option.some_ne_none _
      · obtain ⟨⟨s, i⟩, commit⟩ := entry
        have hrow := (hhistory s i commit).mp hentry
        refine ⟨?_, hlinked.history s i commit hrow⟩
        rw [Finset.empty_union, List.mem_toFinset]
        exact (hplaceReceipt s i).mpr (hlinked.covered s i (by rw [hrow]; exact Option.some_ne_none _))
    · obtain ⟨⟨s, i⟩, r, fingerprint, commit⟩ := entry
      exact ⟨Finset.notMem_empty _, hlinked.receipts s r fingerprint ⟨i, commit⟩ ((hreceipts s i r fingerprint commit).mp hentry)⟩

/-- Limits that an inspection of the store stays within. -/
structure Sufficient (maxRows maxBytes : UInt64) (db : Database) : Prop where
  rows : (TABLES.map (tableRows db)).sum ≤ maxRows.toNat
  bytes : (TABLES.map (tableBytes db)).sum ≤ maxBytes.toNat
  rowsPos : maxRows ≠ 0
  bytesPos : maxBytes ≠ 0
  rowsMax : maxRows ≤ MAX_INSPECTION_ROWS
  bytesMax : maxBytes ≤ MAX_INSPECTION_BYTES

theorem open_pinned {hemera : List UInt8 → Bytes32} (h : PinnedArchive.open hemera db = .ok archive) :
    archive.store = db ∧ archive.store.lastTransaction = .ok archive.transaction := by
  rw [PinnedArchive.open] at h
  obtain ⟨opened, hopened, h⟩ := exists_of_bind_ok h
  obtain ⟨transaction, htransaction, h⟩ := exists_of_bind_ok h
  obtain rfl := Except.ok.inj h
  rw [ApplicationArchive.open] at hopened
  obtain ⟨status, -, hopened⟩ := exists_of_bind_ok hopened
  obtain ⟨_, -, hopened⟩ := exists_of_bind_ok hopened
  obtain ⟨_, -, hopened⟩ := exists_of_bind_ok hopened
  obtain ⟨heads, -, hopened⟩ := exists_of_bind_ok hopened
  obtain ⟨_, -, hopened⟩ := exists_of_bind_ok hopened
  obtain ⟨sources, -, hopened⟩ := exists_of_bind_ok hopened
  obtain ⟨sealRow, -, hopened⟩ := exists_of_bind_ok hopened
  obtain ⟨_, -, hopened⟩ := exists_of_bind_ok hopened
  obtain ⟨_, -, hopened⟩ := exists_of_bind_ok hopened
  obtain ⟨_, -, hopened⟩ := exists_of_bind_ok hopened
  obtain rfl := Except.ok.inj hopened
  exact ⟨rfl, htransaction⟩

/-- An inspection within its limits returns, and it accepts exactly the well formed stores whose local checks hold. -/
theorem inspect_verdict {hemera : List UInt8 → Bytes32} {fuel : Nat} (hready : db.failure = none) (hfits : Fits db.view)
    (hopen : PinnedArchive.open hemera db = .ok archive) (haccepts : Accepts validate archive)
    (hlimits : Sufficient maxRows maxBytes db) (hfuel : ∀ table ∈ TABLES, tableRows db table < fuel) :
    ∃ result, archive.inspect validate maxRows maxBytes hemera fuel = some result ∧
      ((∃ summary, result = .ok summary) ↔ WellFormed db.view ∧ LocallyLinked db.view) := by
  obtain ⟨rfl, hlast⟩ := open_pinned hopen
  have hbounds : ¬(maxRows = 0 ∨ maxRows > MAX_INSPECTION_ROWS ∨ maxBytes = 0 ∨ maxBytes > MAX_INSPECTION_BYTES) := by
    rintro (h | h | h | h)
    · exact hlimits.rowsPos h
    · exact absurd hlimits.rowsMax (UInt64.not_le.mpr h)
    · exact hlimits.bytesPos h
    · exact absurd hlimits.bytesMax (UInt64.not_le.mpr h)
  have htable : ∀ table ∈ TABLES.zipIdx, table.1 ∈ TABLES := fun table htable =>
    (List.mem_map_of_mem htable : table.1 ∈ TABLES.zipIdx.map Prod.fst)
  have hfold := @inspectTables_eq archive validate maxRows maxBytes hready hfits fuel TABLES.zipIdx htable
    (fun table hmem => hfuel table.1 (htable table hmem)) .initial
  have hroom : Room maxRows maxBytes .initial
      (0 + (TABLES.zipIdx.map fun table => tableRows archive.store table.1).sum)
      (0 + (TABLES.zipIdx.map fun table => tableBytes archive.store table.1).sum) := by
    constructor
    · rw [Nat.zero_add]
      exact (Nat.zero_add _).trans_le hlimits.rows
    · rw [Nat.zero_add]
      exact (Nat.zero_add _).trans_le hlimits.bytes
  rw [PinnedArchive.inspect, if_neg hbounds, hfold]
  cases hstate : TABLES.zipIdx.foldlM (tableFold archive validate maxRows maxBytes) .initial with
  | error e =>
      refine ⟨.error e, rfl, fun ⟨_, h⟩ => (nomatch h), fun ⟨hw, hlinked⟩ => ?_⟩
      obtain ⟨trail, htrail, -⟩ := (trail_iff hready hfits hw haccepts).mpr hlinked
      have hvalid : ∀ table ∈ TABLES.zipIdx, ∀ row ∈ rowsAfter archive.store.tables table.1 none,
          validateRecord table.1 row = .ok () := fun table hmem => hw.valid (htable table hmem)
      obtain ⟨state, hok, -⟩ := inspectTables_of hroom hvalid htrail
      rw [hok] at hstate
      cases hstate
  | ok state =>
      refine ⟨_, rfl, ?_⟩
      obtain ⟨hvalid, htrail⟩ := inspectTables_ok hstate
      have hw : WellFormed archive.store.view := by
        intro t ht k x hx
        have hmem : t ∈ TABLES.zipIdx.map Prod.fst := ht
        obtain ⟨table, htable, rfl⟩ := List.mem_map.mp hmem
        exact hvalid table htable (k, x) (mem_rowsAfter_none.mpr hx)
      have hfinish : (∃ summary, finishInspection archive hemera state = .ok summary) ↔ state.trail.receipts = ∅ := by
        rw [finishInspection, hlast]
        constructor
        · rintro ⟨summary, h⟩
          obtain ⟨_, hempty, -⟩ := exists_of_bind_ok h
          exact not_not.mp (refuse_ok hempty)
        · intro hempty
          rw [refuse_of_not (not_not.mpr hempty)]
          refine ⟨⟨state.rows, state.bytes, state.tables, hemera state.message⟩, ?_⟩
          change (refuse _ _ >>= _) = _
          rw [refuse_of_not (not_not.mpr rfl)]
          rfl
      rw [hfinish, ← trail_iff hready hfits hw haccepts, and_iff_right hw]
      constructor
      · exact fun hempty => ⟨_, htrail, hempty⟩
      · rintro ⟨trail, htrail', hempty⟩
        obtain rfl := Except.ok.inj (htrail.symm.trans htrail')
        exact hempty

end Tables

/-! ### Two validators -/

/-- The two validators of stored history agree. On any rows that fit the database, without keys of the reverse index,
`validate_links` ends; with the records well formed it accepts exactly the stores whose namespaces are whole chains,
and so does the inspection of an archive; and a run that accepts leaves the rows as they were. -/
theorem validators_agree {hemera : List UInt8 → Bytes32} {db : Database} (hready : db.failure = none)
    (hfits : Fits db.view) (hclean : Clean db.view) :
    (∃ result db', Links.Leads hemera (.start, db) (.done result, db')) ∧
    (WellFormed db.view ∧ (∃ db', Links.Leads hemera (.start, db) (.done (.ok ()), db')) ↔
      WellFormed db.view ∧ ∀ s, Chained db.view s) ∧
    (∀ (archive : PinnedArchive) (validate : ArchiveValidator) (maxRows maxBytes : UInt64) (fuel : Nat),
      PinnedArchive.open hemera db = .ok archive → Accepts validate archive → Sufficient maxRows maxBytes db →
      (∀ table ∈ TABLES, tableRows db table < fuel) →
      ∃ result, archive.inspect validate maxRows maxBytes hemera fuel = some result ∧
        ((∃ summary, result = .ok summary) ↔ WellFormed db.view ∧ ∀ s, Chained db.view s)) ∧
    ∀ db', Links.Leads hemera (.start, db) (.done (.ok ()), db') →
      ∀ t k, ¬(t = .metadata ∧ k = ascii "last_transaction") → db'.view t k = db.view t k := by
  refine ⟨?_, ?_, fun archive validate maxRows maxBytes fuel hopen haccepts hlimits hfuel => ?_,
    fun db' hlead t k hmarker => links_preserve hready hfits hclean hlead hmarker⟩
  · rcases @links_leads db hemera hready hfits hclean with ⟨-, db', -, hlead, -⟩ | ⟨-, e, db', hlead⟩
    · exact ⟨_, db', hlead⟩
    · exact ⟨_, db', hlead⟩
  · refine and_congr_right fun hw => ?_
    rw [links_verdict hready hfits hclean hw, locallyLinked_iff hw]
  · obtain ⟨result, hresult, hverdict⟩ := inspect_verdict hready hfits hopen haccepts hlimits hfuel
    refine ⟨result, hresult, hverdict.trans (and_congr_right fun hw => ?_)⟩
    rw [locallyLinked_iff hw]

/-- The store of two writes. -/
def twoWritesStore : Database := runCalls (twoWrites (repeated 3)) Database.empty

theorem fits_twoWritesStore : Fits twoWritesStore.view := by
  have hrows : ∀ t ∈ TABLES, ∀ row ∈ rowsAfter twoWritesStore.tables t none,
      row.1.length ≤ 64 ∧ row.2.length ≤ MAX_BYTES_VALUE := by
    decide +kernel
  exact fun t ht k x hx => hrows t ht (k, x) (mem_rowsAfter_none.mpr hx)

theorem clean_twoWritesStore : Clean twoWritesStore.view := by
  have hrows : ∀ row ∈ rowsAfter twoWritesStore.tables .migration none, row.1.head? ≠ some 114 := by decide +kernel
  rintro k ⟨rest, rfl⟩
  by_contra hne
  obtain ⟨x, hx⟩ := Option.ne_none_iff_exists'.mp hne
  exact hrows (114 :: rest, x) (mem_rowsAfter_none.mpr hx) rfl

theorem sufficient_twoWritesStore : Sufficient 100 10000 twoWritesStore where
  rows := by decide +kernel
  bytes := by decide +kernel
  rowsPos := by decide
  bytesPos := by decide
  rowsMax := by decide
  bytesMax := by decide

/-- The archive of two writes, opened and inspected. -/
def inspectTwoWrites : Option (Except Error ArchiveSummary) :=
  match PinnedArchive.open polynomialHash twoWritesStore with
  | .error e => some (.error e)
  | .ok archive => archive.inspect (fun _ _ _ => .ok ()) 100 10000 polynomialHash 10

/-- The inspection accepts the archive of two writes, so its namespaces are chains and `validate_links` accepts it. -/
theorem validators_agree_twoWrites : (∀ s, Chained twoWritesStore.view s) ∧
    ∃ db', Links.Leads polynomialHash (.start, twoWritesStore) (.done (.ok ()), db') := by
  have hready : twoWritesStore.failure = none := by decide +kernel
  have hfuel : ∀ table ∈ TABLES, tableRows twoWritesStore table < 10 := by decide +kernel
  have haccepted : inspectTwoWrites.any Except.isOk = true := by decide +kernel
  obtain ⟨-, hlinks, hinspect, -⟩ :=
    @validators_agree polynomialHash twoWritesStore hready fits_twoWritesStore clean_twoWritesStore
  rw [inspectTwoWrites] at haccepted
  cases hopen : PinnedArchive.open polynomialHash twoWritesStore with
  | error e =>
      rw [hopen] at haccepted
      cases haccepted
  | ok archive =>
      obtain ⟨result, hresult, hverdict⟩ := hinspect archive (fun _ _ _ => .ok ()) 100 10000 10 hopen
        (fun _ _ _ => rfl) sufficient_twoWritesStore hfuel
      rw [hopen] at haccepted
      dsimp only at haccepted
      rw [hresult, Option.any_some] at haccepted
      cases result with
      | error e => cases haccepted
      | ok summary =>
          have hchained := hverdict.mp ⟨summary, rfl⟩
          exact ⟨hchained.2, (hlinks.mpr hchained).2⟩

end LeanBbg.Storage
