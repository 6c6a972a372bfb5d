import LeanBbg.Chain

/-! Sources of a transfer. A scan returns a run of consecutive rows, so an archive pins all heads of its store;
its tables hold whole chains of exactly the pinned namespaces. -/

namespace LeanBbg.Storage

open Bytes Attempt

/-! ### Scans -/

/-- The bytes of a row as budgets count them. -/
def rowBytes (row : RawEntry) : Nat := row.1.length + row.2.length

/-- A scan takes rows from the front and stops at the end, or at a row that exceeds the rest of its budget. -/
theorem scanLoop_ok {limits : ByteLimits} {page rows out : List RawEntry} {used : Nat}
    (h : scanLoop limits page used rows = .ok out) : ∃ taken rest, rows = taken ++ rest ∧ out = page ++ taken ∧
      (∀ row ∈ taken, row.1.length ≤ 64) ∧
      (∀ row rest', rest = row :: rest' → limits.maxBytes < used + (taken.map rowBytes).sum + rowBytes row ∧
        rowBytes row ≤ limits.maxBytes) := by
  induction rows generalizing page used with
  | nil =>
      obtain rfl := Except.ok.inj h
      exact ⟨[], [], rfl, (List.append_nil _).symm, nofun, nofun⟩
  | cons row rows ih =>
      rw [scanLoop] at h
      cases hpush : pushRow page used row limits with
      | error e =>
          rw [hpush] at h
          cases h
      | ok pushed =>
          rw [hpush] at h
          rw [pushRow] at hpush
          dsimp only at hpush
          split_ifs at hpush with hkey hvalue hbudget hwait
          · obtain rfl := Except.ok.inj hpush
            obtain rfl := Except.ok.inj h
            refine ⟨[], row :: rows, rfl, (List.append_nil _).symm, nofun, fun row' rest' heq => ?_⟩
            obtain ⟨rfl, -⟩ := List.cons.inj heq
            simp only [rowBytes, List.map_nil, List.sum_nil]
            omega
          · obtain rfl := Except.ok.inj hpush
            obtain ⟨taken, rest, rfl, rfl, hkeys, hrest⟩ := ih h
            refine ⟨row :: taken, rest, rfl, by simp, ?_, fun row' rest' heq => ?_⟩
            · rw [List.forall_mem_cons]
              exact ⟨by omega, hkeys⟩
            · have := hrest row' rest' heq
              simp only [rowBytes, List.map_cons, List.sum_cons] at this ⊢
              omega

/-- The rows of a table above a key, or all of them. -/
def rowsAfter (tables : Tables) (table : Table) (after : Option (List UInt8)) : List RawEntry :=
  (tables table).toList.filter fun row => after.all fun key => (compare key row.1).isLT

theorem scan_eq {db : Database} {table : Table} {after : Option (List UInt8)} {limits : ByteLimits}
    {rows : List RawEntry} (h : db.scan table after [] limits = .ok rows) :
    db.failure = none ∧
      scanLoop limits [] 0 ((rowsAfter db.tables table after).take limits.maxEntries) = .ok rows := by
  rw [Database.scan] at h
  cases hready : db.failure with
  | some e =>
      rw [hready] at h
      cases h
  | none =>
      rw [hready] at h
      obtain ⟨_, -, h⟩ := exists_of_bind_ok h
      split_ifs at h with hafter hpending
      refine ⟨rfl, ?_⟩
      rw [engineScan] at h
      cases after with
      | none =>
          simp only [scanBounds, scanUpper, List.reverse_nil, List.dropWhile_nil, Option.any_none, Bool.false_eq_true,
            if_false, ne_eq, not_true_eq_false, Bound.below, Bound.above, Bool.and_true] at h
          simpa only [rowsAfter, Option.all_none, Transaction.begin] using h
      | some key =>
          simp only [scanBounds, scanUpper, List.reverse_nil, List.dropWhile_nil, Option.any_none, Bool.false_eq_true,
            if_false, true_or, if_true, Bound.below, Bound.above, Bool.and_true] at h
          simpa only [rowsAfter, Option.all_some, Transaction.begin] using h

/-! ### Archives -/

variable {hemera : List UInt8 → Bytes32} {db : Database}

theorem exists_mem_right {X Y : Type} {R : X → Y → Prop} {l : List X} {l' : List Y} (h : List.Forall₂ R l l') {x : X}
    (hx : x ∈ l) : ∃ y ∈ l', R x y := by
  induction h with
  | nil => cases hx
  | cons hR _ ih =>
      rcases List.mem_cons.mp hx with rfl | hmem
      · exact ⟨_, List.mem_cons_self .., hR⟩
      · obtain ⟨y, hy, hR⟩ := ih hmem
        exact ⟨y, List.mem_cons_of_mem _ hy, hR⟩

theorem row_of_decodeSource {row : RawEntry} {source : Particle × Head} (h : decodeSource row = .ok source) :
    row.1 = source.1.toList ∧ row.2 = encodeHead source.2 := by
  obtain ⟨id, hid, h⟩ := exists_of_bind_ok h
  obtain ⟨head, hhead, h⟩ := exists_of_bind_ok h
  obtain rfl := Except.ok.inj h
  exact ⟨toList_of_particle hid, encodeHead_of_decodeHead hhead⟩

/-- The heads that an archive pins are all heads of its store. -/
theorem sources_of_open {archive : ApplicationArchive} (h : ApplicationArchive.open hemera db = .ok archive)
    (hkeyed : WellKeyed db.view) :
    ∀ k row, db.view .heads k = some row ↔ ∃ source ∈ archive.sources, k = source.1.toList ∧ row = encodeHead source.2 := by
  obtain ⟨-, -, heads, hheads, hcount, hsources⟩ := open_ok hemera h
  obtain ⟨-, hscan⟩ := scan_eq hheads
  have hall : rowsAfter db.tables .heads none = (db.tables .heads).toList := by
    simp [rowsAfter]
  have hsize : ∀ row ∈ (db.tables .heads).toList, rowBytes row = 72 := by
    intro row hrow
    obtain ⟨s, head, hk, hv⟩ := hkeyed.heads row.1 row.2 ((OrdMap.mem_toList _).mp hrow)
    rw [rowBytes, hk, hv, encodeHead_length, Vector.length_toList]
  rw [hall] at hscan
  obtain ⟨_, rest, hsplit, rfl, -, hrest⟩ := scanLoop_ok hscan
  have hsub : ∀ row ∈ heads ++ rest, row ∈ (db.tables .heads).toList := by
    intro row hrow
    rw [← hsplit] at hrow
    exact List.mem_of_mem_take hrow
  -- The budget has room for one more row than an archive may have heads.
  have hnil : rest = [] := by
    cases rest with
    | nil => rfl
    | cons row rest =>
        have hlimit := (hrest row rest rfl).1
        have hsum : (heads.map rowBytes).sum ≤ heads.length * 72 := by
          refine (List.sum_le_card_nsmul _ 72 ?_).trans (by simp)
          intro n hn
          obtain ⟨row', hrow', rfl⟩ := List.mem_map.mp hn
          exact (hsize row' (hsub row' (List.mem_append_left _ hrow'))).le
        have hrow := hsize row (hsub row (by simp))
        dsimp only at hlimit
        omega
  rw [hnil, List.append_nil] at hsplit
  have htoList : (db.tables .heads).toList = heads := by
    rw [← hsplit]
    refine (List.take_of_length_le ?_).symm
    have hlen := congrArg List.length hsplit
    rw [List.length_take] at hlen
    dsimp only at hlen ⊢
    omega
  have hforall := forall₂_of_mapM hsources
  intro k row
  rw [Database.view, ← OrdMap.mem_toList, htoList]
  constructor
  · intro hmem
    obtain ⟨source, hsource, hdecode⟩ := exists_mem_right hforall hmem
    obtain ⟨hk, hv⟩ := row_of_decodeSource hdecode
    exact ⟨source, hsource, hk, hv⟩
  · rintro ⟨source, hsource, rfl, rfl⟩
    obtain ⟨row, hrow, hdecode⟩ := exists_mem_right hforall.flip hsource
    obtain ⟨hk, hv⟩ := row_of_decodeSource hdecode
    rw [← hk, ← hv]
    exact hrow

theorem openSeal_ok {store : Database} {target : Particle} {sources : List (Particle × Head)} {sealRow : List UInt8}
    {opened : TransferSource} (h : openSeal hemera store target sources sealRow = .ok opened) :
    opened.store = store ∧ opened.sources = sources ∧ opened.target = target ∧
      opened.manifest = hemera (manifestMessage (sealRow.take 96) sources) := by
  obtain ⟨manifest, -, h⟩ := exists_of_bind_ok h
  obtain ⟨_, hhash, h⟩ := exists_of_bind_ok h
  obtain rfl := Except.ok.inj h
  exact ⟨rfl, rfl, rfl, (not_not.mp (refuse_ok hhash)).symm⟩

/-- The seal that an archive has is the row of its store. -/
theorem sealFor_inl {archive : ApplicationArchive} {target key : Particle} {sealRow : List UInt8}
    (h : sealFor hemera archive target key = .ok (.inl sealRow)) :
    archive.store.view .migration sealKey = some sealRow := by
  obtain ⟨status, -, h⟩ := exists_of_bind_ok h
  obtain ⟨_, -, h⟩ := exists_of_bind_ok h
  obtain ⟨row, hrow, h⟩ := exists_of_bind_ok h
  have hrow := (read_ok (lift_ok hrow)).2
  cases row with
  | some row =>
      obtain ⟨_, -, h⟩ := exists_of_bind_ok h
      obtain rfl := Sum.inl.inj (Except.ok.inj h)
      exact hrow.symm
  | none =>
      obtain ⟨_, -, h⟩ := exists_of_bind_ok h
      obtain ⟨prior, -, h⟩ := exists_of_bind_ok h
      cases h

theorem sealKey_ne_statusKey : sealKey ≠ statusKey := by decide

/-- A seal that was written is the row of the store. -/
theorem sealBody_written {store store' : Database} {sources : List (Particle × Head)} {sealRow : List UInt8}
    {outcome : CommitOutcome} {reply : Reply Error Unit} {u : Unit}
    (h : store.transaction hemera Error.ofStorage outcome (sealBody sources sealRow) = (reply, store'))
    (hok : reply.result = .ok u) : store'.view .migration sealKey = some sealRow := by
  obtain ⟨tx, hbody, hwritten⟩ := transaction_ok hemera Error.ofStorage outcome h hok
  obtain ⟨_, -, hbody⟩ := exists_of_bind_ok hbody
  obtain ⟨tx₁, hput, hbody⟩ := exists_of_bind_ok hbody
  obtain ⟨tx₂, hstatus, hbody⟩ := exists_of_bind_ok hbody
  obtain ⟨-, rfl⟩ := Prod.mk.inj (Except.ok.inj hbody)
  obtain ⟨hengine₁, -, hview₁⟩ := immutablePut_ok hput
  obtain ⟨hengine₂, hchanges, hview₂⟩ := Transaction.stage_ok (lift_ok hstatus)
  rcases hwritten with ⟨hempty, -⟩ | ⟨-, htables⟩
  · exact absurd hempty hchanges
  · rw [view_of_written (hengine₂.trans hengine₁) htables .migration _ nofun, hview₂,
      if_neg fun heq => sealKey_ne_statusKey heq.2, hview₁, if_pos ⟨rfl, rfl⟩]

theorem sealFor_length {archive : ApplicationArchive} {target key : Particle} {found : List UInt8 ⊕ List UInt8}
    (h : sealFor hemera archive target key = .ok found) : (found.elim id id).length = 128 := by
  obtain ⟨status, -, h⟩ := exists_of_bind_ok h
  obtain ⟨_, -, h⟩ := exists_of_bind_ok h
  obtain ⟨row, -, h⟩ := exists_of_bind_ok h
  cases row with
  | some sealRow =>
      obtain ⟨_, hlen, h⟩ := exists_of_bind_ok h
      obtain rfl := Except.ok.inj h
      have hlen := refuse_ok hlen
      rw [not_or] at hlen
      exact not_not.mp hlen.1
  | none =>
      obtain ⟨_, -, h⟩ := exists_of_bind_ok h
      obtain ⟨prior, -, h⟩ := exists_of_bind_ok h
      obtain rfl := Except.ok.inj h
      simp

/-- What the manifest of a source is the hash of: the first part of its seal, and the heads it pins. -/
def TransferSource.message (source : TransferSource) : List UInt8 :=
  manifestMessage (((source.store.view .migration sealKey).getD []).take 96) source.sources

/-- An opened source has the heads and the store of its archive, and its manifest is the hash of its message. -/
theorem fromArchive_ok {archive : ApplicationArchive} {target key : Particle} {outcome : CommitOutcome}
    {opened : TransferSource} (h : (TransferSource.fromArchive hemera archive target key outcome).1 = .ok opened) :
    opened.store = (TransferSource.fromArchive hemera archive target key outcome).2 ∧
      opened.sources = archive.sources ∧ opened.target = target ∧
      opened.manifest = hemera opened.message ∧
      ∃ sealRow : List UInt8, sealRow.length = 128 ∧ opened.store.view .migration sealKey = some sealRow := by
  have hpinned : ∀ store sealRow, sealRow.length = 128 → store.view .migration sealKey = some sealRow →
      openSeal hemera store target archive.sources sealRow = .ok opened →
      opened.store = store ∧ opened.sources = archive.sources ∧ opened.target = target ∧
        opened.manifest = hemera opened.message ∧
        ∃ sealRow : List UInt8, sealRow.length = 128 ∧ opened.store.view .migration sealKey = some sealRow := by
    intro store sealRow hlen hrow hopen
    obtain ⟨hstore, hsources, htarget, hmanifest⟩ := openSeal_ok hopen
    refine ⟨hstore, hsources, htarget, ?_, sealRow, hlen, ?_⟩
    · rw [hmanifest, TransferSource.message, hstore, hrow, hsources]
      rfl
    · rw [hstore, hrow]
  rw [TransferSource.fromArchive] at h ⊢
  cases hseal : sealFor hemera archive target key with
  | error e =>
      rw [hseal] at h
      cases h
  | ok found =>
      have hlen := sealFor_length hseal
      rw [hseal] at h
      cases found with
      | inl sealRow => exact hpinned _ sealRow hlen (sealFor_inl hseal) h
      | inr sealRow =>
          dsimp only at h ⊢
          cases htransaction : archive.store.transaction hemera Error.ofStorage outcome
            (sealBody archive.sources sealRow) with
          | mk reply store =>
              rw [htransaction] at h
              dsimp only at h
              cases hresult : reply.result with
              | error e =>
                  simp only [hresult] at h
                  cases h
              | ok u =>
                  simp only [hresult] at h ⊢
                  exact hpinned store sealRow hlen (sealBody_written htransaction hresult) h

theorem sources_injective {sources sources' : List (Particle × Head)}
    (h : sources.flatMap (fun source => source.1.toList ++ encodeHead source.2) =
      sources'.flatMap fun source => source.1.toList ++ encodeHead source.2) : sources = sources' := by
  refine flatMap_injective (by decide : 0 < 72) (fun source => by simp) (fun source source' hrow => ?_) h
  obtain ⟨hid, hhead⟩ := List.append_inj hrow (by simp)
  exact Prod.ext (Vector.toList_inj.mp hid) (encodeHead_injective hhead)

theorem manifestMessage_injective {pinned pinned' : List UInt8} {sources sources' : List (Particle × Head)}
    (hlen : pinned.length = 96) (hlen' : pinned'.length = 96)
    (h : manifestMessage pinned sources = manifestMessage pinned' sources') : pinned = pinned' ∧ sources = sources' := by
  rw [manifestMessage, manifestMessage, List.append_assoc, List.append_assoc] at h
  obtain ⟨hpinned, hsources⟩ := List.append_inj (List.append_cancel_left h) (hlen.trans hlen'.symm)
  exact ⟨hpinned, sources_injective hsources⟩

variable (hemera) in
/-- What the rest of the development uses of a source: whole chains of exactly the pinned namespaces. -/
structure SourceSpec (source : TransferSource) : Prop where
  keyed : WellKeyed source.store.view
  chained : ∀ s, Chained source.store.view s
  heads : ∀ k row, source.store.view .heads k = some row ↔
    ∃ p ∈ source.sources, k = p.1.toList ∧ row = encodeHead p.2
  manifest : source.manifest = hemera source.message
  pinned : ∃ sealRow : List UInt8, sealRow.length = 128 ∧ source.store.view .migration sealKey = some sealRow

theorem Opened.spec {source : TransferSource} (h : Opened hemera source) : SourceSpec hemera source := by
  obtain ⟨n, db, archive, target, key, outcome, opened, hreach, hopen, harchive, halike⟩ := h
  obtain ⟨hstore, hunpromoted, -⟩ := open_ok hemera hopen
  have hplain : Plain db.view := by
    cases n with
    | zero => exact hreach.elim
    | succ n => exact (promoted_or_plain hreach).resolve_left hunpromoted
  have hheads := sources_of_open hopen hplain.keyed
  obtain ⟨hopened, hsources, -, hmanifest, sealRow, hlen, hrow⟩ := fromArchive_ok harchive
  -- The seal touches none of the five tables.
  have hview : ∀ t ∈ TABLES, ∀ k, source.store.view t k = db.view t k := by
    intro t ht k
    have hother : t ≠ .metadata ∧ t ≠ .migration := by
      fin_cases ht <;> exact ⟨nofun, nofun⟩
    rw [Database.view, halike.tables t ht, hopened]
    rcases fromArchive_cases hemera hopen target key outcome with htables | hseal
    · rw [htables]
      rfl
    · exact hseal.same t k hother.1 fun heq => hother.2 heq.1
  have hH : ∀ k, source.store.view .heads k = db.view .heads k := hview .heads (by decide)
  have hY : ∀ k, source.store.view .history k = db.view .history k := hview .history (by decide)
  have hR : ∀ k, source.store.view .requests k = db.view .requests k := hview .requests (by decide)
  have hC : ∀ k, source.store.view .content k = db.view .content k := hview .content (by decide)
  refine ⟨⟨?_, ?_, ?_⟩, fun s => ?_, ?_, ?_, sealRow, hlen, ?_⟩
  · simpa only [hH] using hplain.keyed.heads
  · simpa only [hY] using hplain.keyed.history
  · simpa only [hR] using hplain.keyed.requests
  · refine (hplain.chained s).congr (hH _) (fun i => hY _) (fun r => hR _) fun k x hx => ?_
    rw [hC, hx]
  · rw [halike.sources, hsources]
    simpa only [hH] using hheads
  · rw [halike.manifest, hmanifest, TransferSource.message, TransferSource.message, halike.sources, halike.sealed]
  · rw [halike.sealed, hrow]

/-- Sources with one message pin the same heads. -/
theorem SourceSpec.sources_eq {a b : TransferSource} (ha : SourceSpec hemera a) (hb : SourceSpec hemera b)
    (h : a.message = b.message) : a.sources = b.sources := by
  obtain ⟨sealRow, hlen, hrow⟩ := ha.pinned
  obtain ⟨sealRow', hlen', hrow'⟩ := hb.pinned
  rw [TransferSource.message, TransferSource.message, hrow, hrow'] at h
  refine (manifestMessage_injective ?_ ?_ h).2
  · simp [hlen]
  · simp [hlen']

end LeanBbg.Storage
