import LeanBbg.ChainRuns
import LeanBbg.Validation

/-! Restartable transfer of a sealed source. Stagers of one manifest take their steps in any order, between any two
of which everything may crash and the source may be opened again. -/

namespace LeanBbg.Storage

open Bytes Attempt

/-! ### Stagers -/

/-- Where a call of `stage` is: before its reservation, before it reads the cursor, at the top of its loop, in the
validation that completes the copy, before the transaction of a page, or at its end. -/
inductive Stager where
  | start (pages : Nat)
  | prepared (pages : Nat)
  | turn (pages : Nat) (cursor : Cursor)
  | completing (pages : Nat) (table : Table) (cursor next : Cursor) (links : Links)
  | write (pages : Nat) (table : Table) (cursor next : Cursor) (rows : List RawEntry)
  | done (result : Except Error TransferProgress)

namespace Stager

/-- What a stager makes of a page that it has read: a page without rows in the last table completes the copy. -/
def afterPage (pages : Nat) (table : Table) (cursor : Cursor) (page : List RawEntry × Cursor) : Stager :=
  if page.1 = [] ∧ page.2.table = 5 then .completing pages table cursor page.2 .start
  else .write pages table cursor page.2 page.1

variable (hemera : List UInt8 → Bytes32) (source : TransferSource) (validate : ContentValidator)
  (outcome : CommitOutcome) (target : Database)

/-- One step of a stager, with at most one transaction: the stager, the source's store and the target after it. -/
def step : Stager → Stager × Database × Database
  | start pages =>
      if pages = 0 ∨ pages > 4096 then (.done (.error .limit), source.store, target)
      else
        let (reply, target) := source.prepareTarget hemera target outcome
        match reply.result with
        | .error e => (.done (.error e), source.store, target)
        | .ok () => (.prepared pages, source.store, target)
  | prepared pages =>
      match source.readCursor target with
      | .error e => (.done (.error e), source.store, target)
      | .ok cursor => (.turn pages cursor, source.store, target)
  | turn 0 cursor => (.done (.ok (source.progress cursor)), source.store, target)
  | turn (pages + 1) cursor =>
      match TABLES[cursor.table.toNat]? with
      | none => (.done (.ok (source.progress cursor)), source.store, target)
      | some table =>
          match source.readPage validate (.ok ()) table cursor with
          | .error e => (.done (.error e), source.store, target)
          | .ok page => (afterPage pages table cursor page, source.store, target)
  | completing pages table cursor next links =>
      match links with
      | .done (.error e) => (.done (.error e), source.store, target)
      | .done (.ok ()) => (.write pages table cursor next [], source.store, target)
      | links =>
          let (links, store) := links.step hemera outcome source.store
          (.completing pages table cursor next links, store, target)
  | write pages table cursor next rows =>
      let (reply, target) := target.transaction hemera Error.ofStorage outcome (source.pageBody table cursor next rows)
      match reply.result with
      | .error e => (.done (.error e), source.store, target)
      | .ok () => (.turn pages next, source.store, target)
  | done result => (.done result, source.store, target)

end Stager

/-! ### Runs -/

/-- A transfer: the source as it is open, if it is, the store of the source, the target, and the stagers. -/
structure Transfer where
  opened : Option TransferSource
  store : Database
  target : Database
  stagers : List Stager

inductive TransferEvent where
  | stage (pages : Nat)
  | move (stager : Nat) (validate : ContentValidator) (outcome : CommitOutcome)
  | crash
  | reopen (target key : Particle) (outcome : CommitOutcome)

namespace Transfer

variable (hemera : List UInt8 → Bytes32)

def step (transfer : Transfer) : TransferEvent → Transfer
  | .stage pages =>
      if transfer.opened.isSome then { transfer with stagers := transfer.stagers ++ [.start pages] } else transfer
  | .move i validate outcome =>
      match transfer.opened, transfer.stagers[i]? with
      | some source, some stager =>
          let (stager, store, target) :=
            stager.step hemera { source with store := transfer.store } validate outcome transfer.target
          ⟨transfer.opened, store, target, transfer.stagers.set i stager⟩
      | _, _ => transfer
  | .crash => ⟨none, { transfer.store with failure := none }, { transfer.target with failure := none }, []⟩
  | .reopen target key outcome =>
      match transfer.opened with
      | some _ => transfer
      | none =>
          match ApplicationArchive.open hemera transfer.store with
          | .error _ => transfer
          | .ok archive =>
              let (result, store) := TransferSource.fromArchive hemera archive target key outcome
              { transfer with opened := result.toOption, store := store }

def run (transfer : Transfer) (events : List TransferEvent) : Transfer := events.foldl (step hemera) transfer

end Transfer

/-! ### Cursors and pages -/

/-- The order in which cursors move. -/
def Cursor.Behind (a b : Cursor) : Prop :=
  a.table < b.table ∨ a.table = b.table ∧ ∀ k ∈ a.after, ∃ k' ∈ b.after, (compare k k').isLE = true

theorem Cursor.Behind.refl (a : Cursor) : a.Behind a := by
  refine .inr ⟨rfl, fun k hk => ⟨k, hk, ?_⟩⟩
  rw [@Std.ReflCmp.compare_self _ compare _ k]
  rfl

theorem Cursor.Behind.trans {a b c : Cursor} (h : a.Behind b) (h' : b.Behind c) : a.Behind c := by
  rcases h with hlt | ⟨heq, hafter⟩
  · rcases h' with hlt' | ⟨heq', -⟩
    · exact .inl (UInt8.lt_trans hlt hlt')
    · exact .inl (heq' ▸ hlt)
  · rcases h' with hlt' | ⟨heq', hafter'⟩
    · exact .inl (heq ▸ hlt')
    · refine .inr ⟨heq.trans heq', fun k hk => ?_⟩
      obtain ⟨k', hk', hle⟩ := hafter k hk
      obtain ⟨k'', hk'', hle'⟩ := hafter' k' hk'
      exact ⟨k'', hk'', Std.TransCmp.isLE_trans hle hle'⟩

/-- A page moves the cursor forward. -/
theorem readPage_behind {source : TransferSource} {validate : ContentValidator} {links : Except Error Unit}
    {table : Table} {cursor next : Cursor} {rows : List RawEntry} (htable : TABLES[cursor.table.toNat]? = some table)
    (h : source.readPage validate links table cursor = .ok (rows, next)) : cursor.Behind next := by
  obtain ⟨page, hpage, h⟩ := exists_of_bind_ok h
  obtain ⟨after, hadvance, h⟩ := exists_of_bind_ok h
  obtain ⟨rfl, rfl⟩ := Prod.mk.inj (Except.ok.inj h)
  obtain ⟨-, ⟨rest, hrest⟩, -⟩ := scanPage_ok hpage
  rcases advance_ok hadvance with ⟨rfl, rfl, -⟩ | ⟨before, last, rfl, hsame, hafter, -⟩
  · refine .inl ?_
    have hlt := TABLES_lt htable
    rw [UInt8.lt_iff_toNat_lt]
    dsimp only
    rw [UInt8.toNat_add, UInt8.toNat_one, Nat.mod_eq_of_lt (by omega)]
    omega
  · refine .inr ⟨hsame.symm, fun k hk => ⟨last.1, hafter, ?_⟩⟩
    have hlast : last ∈ rowsAfter source.store.tables table cursor.after := by
      rw [hrest]
      simp
    have hafter := (List.mem_filter.mp hlast).2
    rw [hk, Option.all_some] at hafter
    cases hcmp : compare k last.1 with
    | lt => rfl
    | eq => rfl
    | gt =>
        rw [hcmp] at hafter
        cases hafter

variable {hemera : List UInt8 → Bytes32} {tables : Tables} {manifest : Particle} {v v' : View}

/-- A cursor that a target has got to: its counters are those of the rows that it has passed, and these are copied. -/
structure Reached (tables : Tables) (v : View) (cursor : Cursor) : Prop where
  reads : Cursor.decode cursor.encode = .ok cursor
  rows : cursor.rows.toNat = (passed tables cursor).length
  bytes : cursor.bytes.toNat = ((passed tables cursor).map fun row => rowBytes row.2).sum
  copied : ∀ t row, (t, row) ∈ passed tables cursor → v t row.1 = some row.2

/-- The rows of a page from one cursor to the next. -/
structure Page (tables : Tables) (table : Table) (cursor next : Cursor) (rows : List RawEntry) : Prop where
  position : TABLES[cursor.table.toNat]? = some table
  grown : passed tables next = passed tables cursor ++ rows.map (fun row => (table, row))
  counted : next.rows.toNat = cursor.rows.toNat + rows.length
  sized : next.bytes.toNat = cursor.bytes.toNat + (rows.map rowBytes).sum
  reads : Cursor.decode next.encode = .ok next
  forward : cursor.Behind next

theorem Page.of_readPage {source : TransferSource} {validate : ContentValidator} {links : Except Error Unit}
    {table : Table} {cursor next : Cursor} {rows : List RawEntry}
    (hsource : ∀ t ∈ TABLES, source.store.tables t = tables t) (htable : TABLES[cursor.table.toNat]? = some table)
    (h : source.readPage validate links table cursor = .ok (rows, next)) : Page tables table cursor next rows := by
  obtain ⟨hpassed, hrows, hbytes, hreads, -⟩ := readPage_ok htable h
  rw [passed_congr hsource, passed_congr hsource] at hpassed
  exact ⟨htable, hpassed, hrows, hbytes, hreads, readPage_behind htable h⟩

/-- The copied rows stay. -/
def KeepsCopies (v v' : View) : Prop := ∀ t ∈ TABLES, ∀ k x, v t k = some x → v' t k = some x

theorem Reached.mono {cursor : Cursor} (h : Reached tables v cursor) (hkept : KeepsCopies v v') :
    Reached tables v' cursor :=
  ⟨h.reads, h.rows, h.bytes, fun t row hrow =>
    hkept t (mem_TABLES_of_passed hrow).1 row.1 row.2 (h.copied t row hrow)⟩

theorem reached_start (tables : Tables) (v : View) : Reached tables v ⟨0, none, 0, 0⟩ := by
  refine ⟨cursor_decode_encode (by decide) nofun, ?_, ?_, fun t row hrow => ?_⟩
  · rw [passed_start]
    rfl
  · rw [passed_start]
    rfl
  · rw [passed_start] at hrow
    cases hrow

theorem Reached.page {table : Table} {cursor next : Cursor} {rows : List RawEntry} (h : Reached tables v cursor)
    (hpage : Page tables table cursor next rows) (hkept : KeepsCopies v v')
    (hcopied : ∀ row ∈ rows, v' table row.1 = some row.2) : Reached tables v' next := by
  refine ⟨hpage.reads, ?_, ?_, fun t row hrow => ?_⟩
  · rw [hpage.counted, hpage.grown, List.length_append, List.length_map, h.rows]
  · rw [hpage.sized, hpage.grown, List.map_append, List.sum_append, List.map_map, h.bytes]
    rfl
  · rw [hpage.grown, List.mem_append] at hrow
    rcases hrow with hold | hnew
    · exact (h.mono hkept).copied t row hold
    · obtain ⟨row', hrow', heq⟩ := List.mem_map.mp hnew
      obtain ⟨rfl, rfl⟩ := Prod.mk.inj heq
      exact hcopied row' hrow'

/-! ### Targets -/

/-- The cursor that a target stores. -/
def StoresCursor (manifest : Particle) (v : View) (cursor : Cursor) : Prop :=
  v .migration (cursorKey manifest) = some cursor.encode ∧ Cursor.decode cursor.encode = .ok cursor

/-- What a target stores of a manifest is a cursor that it has got to. -/
def Stored (tables : Tables) (manifest : Particle) (v : View) : Prop :=
  ∀ row, v .migration (cursorKey manifest) = some row → ∃ cursor, row = cursor.encode ∧ Reached tables v cursor

/-- What a step does to a target. -/
structure Advances (tables : Tables) (manifest : Particle) (v v' : View) : Prop where
  kept : KeepsCopies v v'
  stored : Stored tables manifest v'
  forward : ∀ cursor, StoresCursor manifest v cursor → ∃ cursor', StoresCursor manifest v' cursor' ∧ cursor.Behind cursor'

theorem Advances.refl (h : Stored tables manifest v) : Advances tables manifest v v :=
  ⟨fun _ _ _ _ hx => hx, h, fun cursor hcursor => ⟨cursor, hcursor, .refl _⟩⟩

theorem Advances.trans {v'' : View} (h : Advances tables manifest v v') (h' : Advances tables manifest v' v'') :
    Advances tables manifest v v'' := by
  refine ⟨fun t ht k x hx => h'.kept t ht k x (h.kept t ht k x hx), h'.stored, fun cursor hcursor => ?_⟩
  obtain ⟨cursor', hcursor', hbehind⟩ := h.forward cursor hcursor
  obtain ⟨cursor'', hcursor'', hbehind'⟩ := h'.forward cursor' hcursor'
  exact ⟨cursor'', hcursor'', hbehind.trans hbehind'⟩

theorem Advances.of_tables {db db' : Database} (h : Stored tables manifest db.view) (htables : db'.tables = db.tables) :
    Advances tables manifest db.view db'.view := by
  have hview : db'.view = db.view := by
    unfold Database.view
    rw [htables]
  rw [hview]
  exact .refl h

theorem Advances.reserve {source : TransferSource} (h : Reservation source v v') (hmanifest : source.manifest = manifest) :
    Advances tables manifest v v' := by
  subst hmanifest
  refine ⟨fun t ht k x hx => ?_, fun row hrow => ?_, fun cursor hcursor => ?_⟩
  · rw [← hx]
    fin_cases ht <;> exact h.same _ k nofun nofun
  · rw [h.cursor] at hrow
    exact ⟨_, (Option.some_inj.mp hrow).symm, reached_start tables v'⟩
  · rw [StoresCursor, h.fresh] at hcursor
    exact absurd hcursor.1 nofun

theorem Advances.copy {source : TransferSource} {table : Table} {cursor next : Cursor} {rows : List RawEntry}
    (h : Copy source table cursor next rows v v') (hmanifest : source.manifest = manifest)
    (hreached : Reached tables v cursor) (hpage : Page tables table cursor next rows) :
    Advances tables manifest v v' ∧ Reached tables v' next := by
  subst hmanifest
  have hkept : KeepsCopies v v' := fun t ht k x hx => h.rows_kept ht hx
  have hnext := hreached.page hpage hkept h.copied
  refine ⟨⟨hkept, fun row hrow => ?_, fun cursor' hcursor' => ⟨next, ⟨h.moved, hpage.reads⟩, ?_⟩⟩, hnext⟩
  · rw [h.moved] at hrow
    exact ⟨next, (Option.some_inj.mp hrow).symm, hnext⟩
  · have hsame : cursor' = cursor := by
      obtain ⟨hrow, hreads⟩ := hcursor'
      rw [h.stored] at hrow
      rw [← Option.some_inj.mp hrow, hreached.reads] at hreads
      exact (Except.ok.inj hreads).symm
    rw [hsame]
    exact hpage.forward

/-! ### Invariants -/

/-- What a stager knows of the target: the cursor it holds is one that the target has got to. -/
def Stager.Sound (tables : Tables) (manifest : Particle) (v : View) : Stager → Prop
  | .start _ => True
  | .prepared _ => True
  | .turn _ cursor => Reached tables v cursor
  | .completing _ table cursor next links => Reached tables v cursor ∧ Page tables table cursor next [] ∧ links.Erases
  | .write _ table cursor next rows => Reached tables v cursor ∧ Page tables table cursor next rows
  | .done (.ok progress) =>
      ∃ cursor, Reached tables v cursor ∧ progress = ⟨manifest, cursor.rows, cursor.bytes, cursor.table = 5⟩
  | .done (.error _) => True

theorem Stager.Sound.mono {stager : Stager} (h : stager.Sound tables manifest v) (hkept : KeepsCopies v v') :
    stager.Sound tables manifest v' := by
  cases stager with
  | start pages => trivial
  | prepared pages => trivial
  | turn pages cursor => exact Reached.mono h hkept
  | completing pages table cursor next links => exact ⟨h.1.mono hkept, h.2⟩
  | write pages table cursor next rows => exact ⟨h.1.mono hkept, h.2⟩
  | done result =>
      cases result with
      | error e => trivial
      | ok progress =>
          obtain ⟨cursor, hreached, hprogress⟩ := h
          exact ⟨cursor, hreached.mono hkept, hprogress⟩

/-- The rows of the source that a transfer must not change: the five tables and the seal. -/
structure Keeps (tables : Tables) (sealRow : List UInt8) (store : Database) : Prop where
  rows : ∀ t ∈ TABLES, store.tables t = tables t
  sealed : store.view .migration sealKey = some sealRow

theorem Keeps.of_sameSource {sealRow : List UInt8} {store store' : Database} (h : Keeps tables sealRow store)
    (hsame : SameSource store.view store'.view) : Keeps tables sealRow store' := by
  refine ⟨fun t ht => ?_, ?_⟩
  · rw [← h.rows t ht]
    exact Std.ExtTreeMap.ext_getElem? fun k => hsame.rows t ht k
  · rw [← h.sealed]
    exact hsame.migration sealKey not_isReceiptIndex_sealKey

/-- What holds in every state of a transfer. -/
structure Transfer.Inv (tables : Tables) (sealRow : List UInt8) (manifest : Particle) (transfer : Transfer) : Prop where
  kept : Keeps tables sealRow transfer.store
  opened : ∀ source ∈ transfer.opened, source.manifest = manifest
  stored : Stored tables manifest transfer.target.view
  stagers : ∀ stager ∈ transfer.stagers, stager.Sound tables manifest transfer.target.view

/-- What a step of a stager does. -/
structure Stager.Moves (tables : Tables) (sealRow : List UInt8) (manifest : Particle) (v : View)
    (next : Stager × Database × Database) : Prop where
  kept : Keeps tables sealRow next.2.1
  advances : Advances tables manifest v next.2.2.view
  sound : next.1.Sound tables manifest next.2.2.view

/-- The cursor that a stager reads is one that the target has got to. -/
theorem reached_of_readCursor {source : TransferSource} {target : Database} {cursor : Cursor}
    (hstored : Stored tables source.manifest target.view) (h : source.readCursor target = .ok cursor) :
    Reached tables target.view cursor := by
  obtain ⟨row, hrow, h⟩ := exists_of_bind_ok h
  obtain ⟨-, hrow⟩ := read_ok (lift_ok hrow)
  cases row with
  | none => cases h
  | some row =>
      obtain ⟨stored, rfl, hreached⟩ := hstored row hrow.symm
      have heq := hreached.reads.symm.trans h
      rwa [← Except.ok.inj heq]

/-- A page that is reported as written is written. -/
theorem copy_of_ok {source : TransferSource} {db : Database} {outcome : CommitOutcome} {table : Table}
    {cursor next : Cursor} {rows : List RawEntry} {u : Unit} (htable : TABLES[cursor.table.toNat]? = some table)
    (h : (db.transaction hemera Error.ofStorage outcome (source.pageBody table cursor next rows)).1.result = .ok u) :
    Copy source table cursor next rows db.view
      (db.transaction hemera Error.ofStorage outcome (source.pageBody table cursor next rows)).2.view := by
  obtain ⟨tx, hbody, ⟨hempty, -⟩ | ⟨-, htables⟩⟩ := transaction_ok hemera Error.ofStorage outcome rfl h
  · obtain ⟨_, -, hbody⟩ := exists_of_bind_ok hbody
    obtain ⟨_, -, hbody⟩ := exists_of_bind_ok hbody
    obtain ⟨_, -, hbody⟩ := exists_of_bind_ok hbody
    obtain ⟨moved, hmove, hbody⟩ := exists_of_bind_ok hbody
    obtain ⟨-, rfl⟩ := Prod.mk.inj (Except.ok.inj hbody)
    exact absurd hempty (Transaction.stage_ok (lift_ok hmove)).2.1
  · exact copy_of_written hemera htable hbody htables

variable {sealRow : List UInt8}

/-- A step of a stager keeps the source, moves the target forward, and leaves the stager sound. -/
theorem Stager.step_moves (hemera : List UInt8 → Bytes32) {source : TransferSource} (validate : ContentValidator) (outcome : CommitOutcome)
    {target : Database} {stager : Stager} (hmanifest : source.manifest = manifest) (hkept : Keeps tables sealRow source.store)
    (hstored : Stored tables manifest target.view) (hsound : stager.Sound tables manifest target.view) :
    Moves tables sealRow manifest target.view (stager.step hemera source validate outcome target) := by
  subst hmanifest
  have hstay : Advances tables source.manifest target.view target.view := .refl hstored
  cases stager with
  | start pages =>
      rw [step]
      split
      · exact ⟨hkept, hstay, trivial⟩
      · have hadvances : Advances tables source.manifest target.view (source.prepareTarget hemera target outcome).2.view := by
          rcases prepareTarget_cases hemera source target outcome with htables | hreservation
          · exact .of_tables hstored htables
          · exact .reserve hreservation rfl
        dsimp only
        split
        · exact ⟨hkept, hadvances, trivial⟩
        · exact ⟨hkept, hadvances, trivial⟩
  | prepared pages =>
      rw [step]
      split
      · exact ⟨hkept, hstay, trivial⟩
      · next cursor hcursor => exact ⟨hkept, hstay, reached_of_readCursor hstored hcursor⟩
  | turn pages cursor =>
      cases pages with
      | zero => exact ⟨hkept, hstay, cursor, hsound, rfl⟩
      | succ pages =>
          rw [step]
          split
          · exact ⟨hkept, hstay, cursor, hsound, rfl⟩
          · next table htable =>
              split
              · exact ⟨hkept, hstay, trivial⟩
              · next page hpage =>
                  obtain ⟨rows, next⟩ := page
                  have hpage := Page.of_readPage hkept.rows htable hpage
                  rw [afterPage]
                  split
                  · next hlast =>
                      obtain ⟨rfl, -⟩ := hlast
                      exact ⟨hkept, hstay, hsound, hpage, trivial⟩
                  · exact ⟨hkept, hstay, hsound, hpage⟩
  | completing pages table cursor next links =>
      obtain ⟨hreached, hpage, herases⟩ := hsound
      rw [step.eq_def]
      dsimp only
      split
      · exact ⟨hkept, hstay, trivial⟩
      · exact ⟨hkept, hstay, hreached, hpage⟩
      · exact ⟨hkept.of_sameSource (Links.sameSource_step outcome source.store herases), hstay, hreached, hpage,
          Links.erases_step outcome source.store links⟩
  | write pages table cursor next rows =>
      obtain ⟨hreached, hpage⟩ := hsound
      have hcases := pageBody_cases hemera source target outcome next rows hpage.position
      rw [step]
      dsimp only
      split
      · refine ⟨hkept, ?_, trivial⟩
        rcases hcases with htables | hcopy
        · exact .of_tables hstored htables
        · exact (Advances.copy hcopy rfl hreached hpage).1
      · next hresult =>
          obtain ⟨hadvances, hnext⟩ := Advances.copy (copy_of_ok hpage.position hresult) rfl hreached hpage
          exact ⟨hkept, hadvances, hnext⟩
  | done result =>
      cases result with
      | error e => exact ⟨hkept, hstay, trivial⟩
      | ok progress => exact ⟨hkept, hstay, hsound⟩

/-- A page whose comparison fails commits nothing. -/
theorem Stager.write_conflict (source : TransferSource) (validate : ContentValidator) (outcome : CommitOutcome)
    {target : Database} {table : Table} {cursor next : Cursor} {rows : List RawEntry} (pages : Nat)
    (htable : TABLES[cursor.table.toNat]? = some table)
    (h : target.view .migration (cursorKey source.manifest) ≠ some cursor.encode) :
    (Stager.step hemera source validate outcome target (.write pages table cursor next rows)).2.2.tables =
      target.tables := by
  have hsame : (target.transaction hemera Error.ofStorage outcome (source.pageBody table cursor next rows)).2.tables =
      target.tables := by
    rcases pageBody_cases hemera source target outcome next rows htable with htables | hcopy
    · exact htables
    · exact absurd hcopy.stored h
  rw [step]
  dsimp only
  split
  · exact hsame
  · exact hsame

theorem manifest_of_openSeal {store : Database} {target : Particle} {sources : List (Particle × Head)}
    {source : TransferSource} (h : openSeal hemera store target sources sealRow = .ok source) :
    source.manifest.toList = sealRow.drop 96 := by
  obtain ⟨manifest, hmanifest, h⟩ := exists_of_bind_ok h
  obtain ⟨_, -, h⟩ := exists_of_bind_ok h
  obtain rfl := Except.ok.inj h
  exact (toList_of_particle hmanifest).symm

/-- An opened source has a seal that ends in its manifest. -/
theorem sealed_of_fromArchive {archive : ApplicationArchive} {target key : Particle} {outcome : CommitOutcome}
    {source : TransferSource} (h : (TransferSource.fromArchive hemera archive target key outcome).1 = .ok source) :
    ∃ sealRow : List UInt8, source.store.view .migration sealKey = some sealRow ∧
      source.manifest.toList = sealRow.drop 96 := by
  rw [TransferSource.fromArchive] at h
  cases hseal : sealFor hemera archive target key with
  | error e =>
      rw [hseal] at h
      cases h
  | ok found =>
      rw [hseal] at h
      cases found with
      | inl sealRow =>
          refine ⟨sealRow, ?_, manifest_of_openSeal h⟩
          rw [(openSeal_ok h).1]
          exact sealFor_inl hseal
      | inr sealRow =>
          dsimp only at h
          split at h
          · cases h
          · next hresult =>
              refine ⟨sealRow, ?_, manifest_of_openSeal h⟩
              rw [(openSeal_ok h).1]
              exact sealBody_written rfl hresult

/-- Opening a sealed source again writes nothing and gives the manifest of its seal. -/
theorem fromArchive_sealed (hemera : List UInt8 → Bytes32) {archive : ApplicationArchive} (target key : Particle)
    (outcome : CommitOutcome)
    (hsealed : archive.store.view .migration sealKey = some sealRow) :
    (TransferSource.fromArchive hemera archive target key outcome).2 = archive.store ∧
      ∀ source, (TransferSource.fromArchive hemera archive target key outcome).1 = .ok source →
        source.manifest.toList = sealRow.drop 96 := by
  rw [TransferSource.fromArchive]
  cases hseal : sealFor hemera archive target key with
  | error e =>
      refine ⟨rfl, fun source h => ?_⟩
      cases h
  | ok found =>
      cases found with
      | inl row =>
          have hrow := (sealFor_inl hseal).symm.trans hsealed
          obtain rfl := Option.some_inj.mp hrow
          exact ⟨rfl, fun source => manifest_of_openSeal⟩
      | inr row =>
          obtain ⟨status, -, hseal⟩ := exists_of_bind_ok hseal
          obtain ⟨_, -, hseal⟩ := exists_of_bind_ok hseal
          obtain ⟨found, hfound, hseal⟩ := exists_of_bind_ok hseal
          rw [(read_ok (lift_ok hfound)).2, hsealed] at hseal
          obtain ⟨_, -, hseal⟩ := exists_of_bind_ok hseal
          cases hseal

namespace Transfer

theorem Inv.step (hemera : List UInt8 → Bytes32) {transfer : Transfer} (hmanifest : sealRow.drop 96 = manifest.toList)
    (h : transfer.Inv tables sealRow manifest) (event : TransferEvent) :
    (transfer.step hemera event).Inv tables sealRow manifest ∧
      Advances tables manifest transfer.target.view (transfer.step hemera event).target.view := by
  have hstay : Advances tables manifest transfer.target.view transfer.target.view := .refl h.stored
  cases event with
  | stage pages =>
      rw [Transfer.step]
      split
      · refine ⟨⟨h.kept, h.opened, h.stored, fun stager hstager => ?_⟩, hstay⟩
        rcases List.mem_append.mp hstager with hold | hnew
        · exact h.stagers stager hold
        · obtain rfl := List.mem_singleton.mp hnew
          trivial
      · exact ⟨h, hstay⟩
  | move i validate outcome =>
      rw [Transfer.step]
      split
      · next source stager hopened hstager =>
          have hsound := h.stagers stager (List.mem_of_getElem? hstager)
          have hsource : { source with store := transfer.store }.manifest = manifest := h.opened source hopened
          have hmoves := Stager.step_moves hemera validate outcome hsource h.kept h.stored hsound
          refine ⟨⟨hmoves.kept, h.opened, hmoves.advances.stored, fun stager' hstager' => ?_⟩, hmoves.advances⟩
          rcases List.mem_or_eq_of_mem_set hstager' with hold | rfl
          · exact (h.stagers stager' hold).mono hmoves.advances.kept
          · exact hmoves.sound
      · exact ⟨h, hstay⟩
  | crash =>
      rw [Transfer.step]
      refine ⟨⟨⟨h.kept.rows, h.kept.sealed⟩, fun source hsource => ?_, h.stored, fun stager hstager => ?_⟩, hstay⟩
      · cases hsource
      · cases hstager
  | reopen target key outcome =>
      rw [Transfer.step]
      split
      · exact ⟨h, hstay⟩
      · split
        · exact ⟨h, hstay⟩
        · next archive harchive =>
            have hstore := (open_ok hemera harchive).1
            have hsealed : archive.store.view .migration sealKey = some sealRow := by
              rw [hstore]
              exact h.kept.sealed
            obtain ⟨hsame, hopened⟩ := fromArchive_sealed hemera target key outcome hsealed
            dsimp only
            refine ⟨⟨?_, fun source hsource => ?_, h.stored, h.stagers⟩, hstay⟩
            · rw [hsame, hstore]
              exact h.kept
            · cases hresult : (TransferSource.fromArchive hemera archive target key outcome).1 with
              | error e =>
                  rw [hresult] at hsource
                  cases hsource
              | ok opened =>
                  rw [hresult] at hsource
                  obtain rfl := Option.some_inj.mp hsource
                  exact Vector.toList_inj.mp ((hopened opened hresult).trans hmanifest)

/-- From every state of a transfer, further events keep the invariant and move the target forward. -/
theorem Inv.run (hemera : List UInt8 → Bytes32) (hmanifest : sealRow.drop 96 = manifest.toList) (events : List TransferEvent) {transfer : Transfer}
    (h : transfer.Inv tables sealRow manifest) :
    (transfer.run hemera events).Inv tables sealRow manifest ∧
      Advances tables manifest transfer.target.view (transfer.run hemera events).target.view := by
  induction events generalizing transfer with
  | nil => exact ⟨h, .refl h.stored⟩
  | cons event events ih =>
      obtain ⟨hnext, hstep⟩ := h.step hemera hmanifest event
      obtain ⟨hlast, hrest⟩ := ih hnext
      exact ⟨hlast, hstep.trans hrest⟩

theorem run_append (transfer : Transfer) (events later : List TransferEvent) :
    transfer.run hemera (events ++ later) = (transfer.run hemera events).run hemera later :=
  List.foldl_append

/-- The rows of the source, in the order in which they are copied. -/
def sourceRows (tables : Tables) : List (Table × RawEntry) :=
  TABLES.flatMap fun t => (tables t).toList.map fun row => (t, row)

theorem passed_complete {cursor : Cursor} (h : cursor.table = 5) : passed tables cursor = sourceRows tables := by
  rw [passed, h]
  exact List.append_nil _

/-- A source that has just been opened, and the target of its transfer. -/
def begin (source : TransferSource) (target : Database) : Transfer := ⟨some source, source.store, target, []⟩

theorem inv_begin {archive : ApplicationArchive} {into key : Particle} {outcome : CommitOutcome}
    {source : TransferSource} (hopen : (TransferSource.fromArchive hemera archive into key outcome).1 = .ok source)
    {target : Database} (hfresh : target.view .migration (cursorKey source.manifest) = none) :
    ∃ sealRow : List UInt8, sealRow.drop 96 = source.manifest.toList ∧
      (begin source target).Inv source.store.tables sealRow source.manifest := by
  obtain ⟨sealRow, hsealed, hmanifest⟩ := sealed_of_fromArchive hopen
  refine ⟨sealRow, hmanifest.symm, ⟨fun _ _ => rfl, hsealed⟩, ?_, fun row hrow => ?_, fun stager hstager => ?_⟩
  · intro opened hopened
    obtain rfl := Option.some_inj.mp hopened
    rfl
  · rw [begin, hfresh] at hrow
    cases hrow
  · cases hstager

/-- Restartable transfer loses and repeats nothing. `start` is a source that has been opened, with a target that
has no cursor of its manifest; `events` are the steps of any stagers, crashes and openings, and `later` those that
follow. -/
theorem transfer_exact {archive : ApplicationArchive} {into key : Particle} {outcome : CommitOutcome}
    {source : TransferSource} (hopen : (TransferSource.fromArchive hemera archive into key outcome).1 = .ok source)
    {target : Database} (hfresh : target.view .migration (cursorKey source.manifest) = none)
    (events later : List TransferEvent) :
    let start := begin source target
    let now := start.run hemera events
    let after := start.run hemera (events ++ later)
    -- the source
    (∀ t ∈ TABLES, now.store.tables t = source.store.tables t) ∧
    -- the stored cursor
    (∀ row, now.target.view .migration (cursorKey source.manifest) = some row → ∃ cursor, row = cursor.encode ∧
      Cursor.decode row = .ok cursor ∧ cursor.rows.toNat = (passed source.store.tables cursor).length ∧
      cursor.bytes.toNat = ((passed source.store.tables cursor).map fun row => rowBytes row.2).sum ∧
      ∃ cursor', after.target.view .migration (cursorKey source.manifest) = some cursor'.encode ∧
        cursor.Behind cursor') ∧
    -- completion
    (∀ progress, .done (.ok progress) ∈ now.stagers → progress.complete = true →
      (∀ t ∈ TABLES, ∀ k x, source.store.view t k = some x → after.target.view t k = some x) ∧
      progress.rows.toNat = (sourceRows source.store.tables).length ∧
      progress.bytes.toNat = ((sourceRows source.store.tables).map fun row => rowBytes row.2).sum) ∧
    -- a comparison that fails
    ∀ i pages table cursor next rows, now.stagers[i]? = some (.write pages table cursor next rows) →
      now.target.view .migration (cursorKey source.manifest) ≠ some cursor.encode →
      ∀ validate outcome, (now.step hemera (.move i validate outcome)).target.tables = now.target.tables := by
  obtain ⟨sealRow, hseal, hinv⟩ := inv_begin hopen hfresh
  intro start now after
  obtain ⟨hnow, -⟩ := hinv.run hemera hseal events
  have hafter : Advances source.store.tables source.manifest now.target.view after.target.view := by
    have hlater := (hnow.run hemera hseal later).2
    rwa [← run_append] at hlater
  refine ⟨hnow.kept.rows, fun row hrow => ?_, fun progress hprogress hcomplete => ?_, ?_⟩
  · obtain ⟨cursor, rfl, hreached⟩ := hnow.stored row hrow
    obtain ⟨cursor', hcursor', hbehind⟩ := hafter.forward cursor ⟨hrow, hreached.reads⟩
    exact ⟨cursor, rfl, hreached.reads, hreached.rows, hreached.bytes, cursor', hcursor'.1, hbehind⟩
  · obtain ⟨cursor, hreached, rfl⟩ := hnow.stagers _ hprogress
    have hfive : cursor.table = 5 := of_decide_eq_true hcomplete
    have hrows := hreached.rows
    have hbytes := hreached.bytes
    rw [passed_complete hfive] at hrows hbytes
    refine ⟨fun t ht k x hx => ?_, hrows, hbytes⟩
    exact hafter.kept t ht k x (hreached.copied t (k, x) (mem_passed_of_complete hfive ht hx))
  · intro i pages table cursor next rows hstager hne validate outcome
    obtain ⟨-, hpage⟩ := hnow.stagers _ (List.mem_of_getElem? hstager)
    rw [step]
    cases hopened : now.opened with
    | none => rfl
    | some opened =>
        have hmanifest := hnow.opened opened hopened
        rw [hstager]
        dsimp only
        rw [← hmanifest] at hne
        exact Stager.write_conflict { opened with store := now.store } validate outcome pages hpage.position hne

end Transfer

/-- The stager has reported completion. -/
def Stager.isComplete : Stager → Bool
  | .done (.ok progress) => progress.complete
  | _ => false

theorem Stager.exists_of_isComplete {stager : Stager} (h : stager.isComplete = true) :
    ∃ progress, stager = .done (.ok progress) ∧ progress.complete = true := by
  cases stager with
  | done result =>
      cases result with
      | ok progress => exact ⟨progress, rfl, h⟩
      | error e => cases h
  | _ => cases h

/-- A stager copies a page and is killed; the source is opened again, and a second stager copies the rest. -/
def killedTransfer : List TransferEvent :=
  .stage 2 :: List.replicate 5 (.move 0 acceptAll .done) ++
    [.crash, .reopen (repeated 6) (repeated 7) .done, .stage 20] ++ List.replicate 41 (.move 0 acceptAll .done)

/-- The killed transfer completes, with every row in the target. -/
theorem transfer_exact_killedTransfer : ∃ progress : TransferProgress, progress.complete = true ∧
    ∀ t ∈ TABLES, ∀ k x, (sourceOf (repeated 3)).store.view t k = some x →
      ((Transfer.begin (sourceOf (repeated 3)) Database.empty).run polynomialHash killedTransfer).target.view t k =
        some x := by
  have hisOk : (openTwoWrites (repeated 3)).isOk = true := by decide +kernel
  have hcomplete : ((Transfer.begin (sourceOf (repeated 3)) Database.empty).run polynomialHash
      killedTransfer).stagers.any Stager.isComplete = true := by decide +kernel
  cases hsource : openTwoWrites (repeated 3) with
  | error e =>
      rw [hsource] at hisOk
      cases hisOk
  | ok source =>
      have heq : sourceOf (repeated 3) = source := by
        unfold sourceOf
        rw [hsource, okOr]
      obtain ⟨archive, -, hopen⟩ := exists_of_bind_ok hsource
      rw [heq] at hcomplete ⊢
      have hfresh : Database.empty.view .migration (cursorKey source.manifest) = none := rfl
      obtain ⟨-, -, hdone, -⟩ := Transfer.transfer_exact hopen hfresh killedTransfer []
      obtain ⟨stager, hstager, hstatus⟩ := List.any_eq_true.mp hcomplete
      obtain ⟨progress, rfl, hcomplete⟩ := Stager.exists_of_isComplete hstatus
      have hrows := (hdone progress hstager hcomplete).1
      rw [List.append_nil] at hrows
      exact ⟨progress, hcomplete, hrows⟩

end LeanBbg.Storage
