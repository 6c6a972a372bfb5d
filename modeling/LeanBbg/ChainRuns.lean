import LeanBbg.Fences

/-! Every namespace that is not under incomplete staging has a whole chain, in every store that calls and stagers
reach. A namespace that is staged holds rows of its source only, and all of them once the transfer is complete. -/

namespace LeanBbg.Storage

open Bytes Attempt

variable {hemera : List UInt8 → Bytes32} {S : TransferSource → Prop} {v v' : View} {db db' : Database}

/-- The namespaces of a source. -/
def TransferSource.ids (source : TransferSource) : List Particle := source.sources.map Prod.fst

/-- Sources with one manifest have the same application tables. -/
def ManifestsBind (S : TransferSource → Prop) : Prop :=
  ∀ a b, S a → S b → a.manifest = b.manifest → ∀ t ∈ TABLES, a.store.tables t = b.store.tables t

/-- The namespace is staged, and its transfer is not complete. -/
def UnderStaging (v : View) (s : Particle) : Prop :=
  ∃ row, v .migration (stageKey s) = some row ∧ ∀ manifest : Particle, row = manifest.toList →
    ∀ bytes cursor, v .migration (cursorKey manifest) = some bytes → Cursor.decode bytes = .ok cursor → cursor.table ≠ 5

/-- The rows of a namespace are rows of the source. -/
structure Within (source : TransferSource) (v : View) (s : Particle) : Prop where
  head : ∀ x, v .heads s.toList = some x → source.store.view .heads s.toList = some x
  history : ∀ i x, v .history (historyKey s i) = some x → source.store.view .history (historyKey s i) = some x
  requests : ∀ r x, v .requests (requestKey s r) = some x → source.store.view .requests (requestKey s r) = some x

/-- A transfer that has got to a cursor. -/
structure Staging (source : TransferSource) (cursor : Cursor) (v : View) : Prop where
  stored : v .migration (cursorKey source.manifest) = some cursor.encode
  reads : Cursor.decode cursor.encode = .ok cursor
  staged : ∀ id ∈ source.ids, v .migration (stageKey id) = some source.manifest.toList
  copied : ∀ t row, (t, row) ∈ passed source.store.tables cursor → v t row.1 = some row.2
  within : ∀ id ∈ source.ids, Within source v id

structure StageInv (S : TransferSource → Prop) (v : View) : Prop where
  unstaged : ∀ s, v .migration (stageKey s) = none → Chained v s
  staged : ∀ s row, v .migration (stageKey s) = some row → ∃ source, S source ∧ row = source.manifest.toList ∧
    s ∈ source.ids ∧ v .migration (cursorKey source.manifest) ≠ none
  staging : ∀ manifest, v .migration (cursorKey manifest) ≠ none → ∃ source cursor, S source ∧
    source.manifest = manifest ∧ Staging source cursor v

theorem StageInv.empty : StageInv S Database.empty.view :=
  ⟨fun s _ => plain_empty.chained s, nofun, fun _ h => absurd rfl h⟩

/-! ### Rows of sources -/

theorem mem_TABLES_of_passed {tables : Tables} {cursor : Cursor} {t : Table} {row : RawEntry}
    (h : (t, row) ∈ passed tables cursor) : t ∈ TABLES ∧ (tables t)[row.1]? = some row.2 := by
  rw [passed, List.mem_append] at h
  rcases h with h | h
  · obtain ⟨t', ht', h⟩ := List.mem_flatMap.mp h
    obtain ⟨row', hrow', heq⟩ := List.mem_map.mp h
    obtain ⟨rfl, rfl⟩ := Prod.mk.inj heq
    exact ⟨List.mem_of_mem_take ht', (OrdMap.mem_toList _).mp hrow'⟩
  · cases htable : TABLES[cursor.table.toNat]? with
    | none =>
        rw [htable] at h
        cases h
    | some t' =>
        rw [htable] at h
        obtain ⟨row', hrow', heq⟩ := List.mem_map.mp h
        obtain ⟨rfl, rfl⟩ := Prod.mk.inj heq
        exact ⟨List.mem_of_getElem? htable, (OrdMap.mem_toList _).mp (List.mem_filter.mp hrow').1⟩

theorem passed_congr {tables tables' : Tables} (h : ∀ t ∈ TABLES, tables t = tables' t) (cursor : Cursor) :
    passed tables cursor = passed tables' cursor := by
  rw [passed, passed]
  congr 1
  · refine List.flatMap_congr fun t ht => ?_
    rw [h t (List.mem_of_mem_take ht)]
  · cases htable : TABLES[cursor.table.toNat]? with
    | none => rfl
    | some t =>
        dsimp only
        rw [h t (List.mem_of_getElem? htable)]

/-- A complete cursor has passed every row of the five tables. -/
theorem mem_passed_of_complete {tables : Tables} {cursor : Cursor} (h : cursor.table = 5) {t : Table} (ht : t ∈ TABLES)
    {k x : List UInt8} (hx : (tables t)[k]? = some x) : (t, (k, x)) ∈ passed tables cursor := by
  rw [passed, List.mem_append, h]
  refine .inl (List.mem_flatMap.mpr ⟨t, ht, ?_⟩)
  exact List.mem_map_of_mem ((OrdMap.mem_toList _).mpr hx)

/-- Sources with the same tables have the same namespaces. -/
theorem mem_ids_of_tables {a b : TransferSource} (ha : SourceSpec hemera a) (hb : SourceSpec hemera b)
    (htables : ∀ t ∈ TABLES, a.store.tables t = b.store.tables t) {s : Particle} (hs : s ∈ a.ids) : s ∈ b.ids := by
  obtain ⟨p, hp, rfl⟩ := List.mem_map.mp hs
  have hrow := (ha.heads _ _).mpr ⟨p, hp, rfl, rfl⟩
  rw [Database.view, htables .heads (by decide)] at hrow
  obtain ⟨q, hq, hkey, -⟩ := (hb.heads _ _).mp hrow
  rw [Vector.toList_inj.mp hkey]
  exact List.mem_map_of_mem hq

/-- Rows of the five tables that a page does not overwrite. -/
theorem Copy.rows_kept {source : TransferSource} {table : Table} {cursor next : Cursor} {rows : List RawEntry}
    (h : Copy source table cursor next rows v v') {t : Table} (ht : t ∈ TABLES) {k x : List UInt8}
    (hx : v t k = some x) : v' t k = some x := by
  by_cases heq : t = table
  · subst heq
    exact h.kept k x hx
  · have hother : t ≠ .metadata ∧ t ≠ .migration := by
      fin_cases ht <;> exact ⟨nofun, nofun⟩
    rw [h.same t k hother.1 (fun hm => absurd hm hother.2) fun ht' => absurd ht' heq, hx]

/-- Whether the rows of a namespace are rows of a source depends on these rows. -/
theorem Within.congr {source : TransferSource} {s : Particle} (h : Within source v s)
    (hhead : v' .heads s.toList = v .heads s.toList)
    (hhistory : ∀ i, v' .history (historyKey s i) = v .history (historyKey s i))
    (hrequests : ∀ r, v' .requests (requestKey s r) = v .requests (requestKey s r)) : Within source v' s := by
  refine ⟨?_, ?_, ?_⟩
  · simpa only [hhead] using h.head
  · simpa only [hhistory] using h.history
  · simpa only [hrequests] using h.requests

/-- A step that leaves the five tables, and the rows of stagers, as they are. -/
theorem StageInv.congr (h : StageInv S v) (hrows : ∀ t ∈ TABLES, ∀ k, v' t k = v t k)
    (hkeys : ∀ k, k.length = 33 → v' .migration k = v .migration k) : StageInv S v' := by
  have hstage := fun s => hkeys _ (stageKey_length s)
  have hcursor := fun m => hkeys _ (cursorKey_length m)
  have hH := hrows .heads (by decide)
  have hY := hrows .history (by decide)
  have hR := hrows .requests (by decide)
  have hC := hrows .content (by decide)
  refine ⟨fun s hs => ?_, ?_, fun m hm => ?_⟩
  · rw [hstage] at hs
    exact (h.unstaged s hs).congr (hH _) (fun i => hY _) (fun r => hR _) fun k x hx => by rw [hC, hx]
  · simpa only [hstage, hcursor] using h.staged
  · rw [hcursor] at hm
    obtain ⟨source, cursor, hsource, hmanifest, hstaging⟩ := h.staging m hm
    refine ⟨source, cursor, hsource, hmanifest, ?_, hstaging.reads, fun id hid => ?_, fun t row hrow => ?_,
      fun id hid => (hstaging.within id hid).congr (hH _) (fun i => hY _) fun r => hR _⟩
    · rw [hcursor, hstaging.stored]
    · rw [hstage, hstaging.staged id hid]
    · rw [hrows t (mem_TABLES_of_passed hrow).1, hstaging.copied t row hrow]

/-! ### Steps -/

/-- A publication leaves the migration rows of stagers. -/
theorem Fencing.keys_same {call : Call} (h : Fencing call v v') (k : List UInt8) (hk : k.length = 33) :
    v' .migration k = v .migration k := by
  cases h with
  | none hsame => exact hsame k
  | fences hcall hsources hsame hpromoted =>
      refine hsame k (ne_statusKey_of_length hk) fun source _ heq => ?_
      rw [heq, fenceKey_length] at hk
      omega

theorem StageInv.publish {call : Call} (h : StageInv S db.view) (hspec : ∀ a, S a → SourceSpec hemera a)
    (hpub : Publication call db db') : StageInv S db'.view := by
  have hkeys := hpub.fencing.keys_same
  have hstage := fun s => hkeys _ (stageKey_length s)
  have hcursor := fun m => hkeys _ (cursorKey_length m)
  have hunstaged : db.view .migration (stageKey call.write.space) = none := hpub.admitted.staged
  have hchain := h.unstaged _ hunstaged
  have hindex : db.view .history (historyKey call.write.space call.write.head.index) = none := by
    by_contra hrow
    exact lt_irrefl _ ((hchain.history_lt hpub.admitted _).mp hrow)
  refine ⟨fun s hs => ?_, ?_, fun m hm => ?_⟩
  · rw [hstage] at hs
    exact Chained.publish_any hpub.admitted hpub.published hchain (h.unstaged s hs)
  · simpa only [hstage, hcursor] using h.staged
  rw [hcursor] at hm
  obtain ⟨source, cursor, hsource, hmanifest, hstaging⟩ := h.staging m hm
  have hne : ∀ id ∈ source.ids, id ≠ call.write.space := by
    rintro id hid rfl
    rw [hstaging.staged _ hid] at hunstaged
    cases hunstaged
  refine ⟨source, cursor, hsource, hmanifest, ?_, hstaging.reads, fun id hid => ?_, fun t row hrow => ?_,
    fun id hid => ?_⟩
  · rw [hcursor, hstaging.stored]
  · rw [hstage, hstaging.staged id hid]
  · have hold := hstaging.copied t row hrow
    obtain ⟨ht, hsrc⟩ := mem_TABLES_of_passed hrow
    fin_cases ht
    · exact hpub.published.content _ _ hold
    · exact hpub.published.claims _ _ hold
    · rw [hpub.published.requests, if_neg, hold]
      intro heq
      rw [heq, hpub.admitted.receipt] at hold
      cases hold
    · rw [hpub.published.history, if_neg, hold]
      intro heq
      rw [heq, hindex] at hold
      cases hold
    · rw [hpub.published.heads, if_neg, hold]
      intro heq
      obtain ⟨p, hp, hkey, -⟩ := ((hspec _ hsource).heads _ _).mp hsrc
      rw [hkey] at heq
      exact hne _ (List.mem_map_of_mem hp) (Vector.toList_inj.mp heq)
  · obtain ⟨hhead, hhistory, hrequests⟩ := hpub.published.other (hne id hid)
    exact (hstaging.within id hid).congr hhead hhistory hrequests

theorem passed_start (tables : Tables) : passed tables ⟨0, none, 0, 0⟩ = [] := by
  simp [passed, TABLES]

theorem StageInv.reserve {source : TransferSource} (h : StageInv S v) (hsource : S source)
    (hreservation : Reservation source v v') : StageInv S v' := by
  have hrows : ∀ t ∈ TABLES, ∀ k, v' t k = v t k := by
    intro t ht k
    fin_cases ht <;> exact hreservation.same _ k nofun nofun
  have hH := hrows .heads (by decide)
  have hY := hrows .history (by decide)
  have hR := hrows .requests (by decide)
  have hC := hrows .content (by decide)
  have hstage : ∀ s, s ∉ source.ids → v' .migration (stageKey s) = v .migration (stageKey s) := by
    intro s hs
    refine hreservation.same .migration _ nofun fun _ => ⟨ne_statusKey_of_length (stageKey_length s),
      stageKey_ne_targetKey _ _, stageKey_ne_cursorKey _ _, fun id hid heq => ?_⟩
    exact hs (stageKey_injective heq ▸ hid)
  have hcursor : ∀ m, m ≠ source.manifest → v' .migration (cursorKey m) = v .migration (cursorKey m) := by
    intro m hm
    refine hreservation.same .migration _ nofun fun _ => ⟨ne_statusKey_of_length (cursorKey_length m),
      (targetKey_ne_cursorKey _ _).symm, fun heq => hm (Vector.toList_inj.mp (List.cons.inj heq).2),
      fun id _ => (stageKey_ne_cursorKey _ _).symm⟩
  -- The namespaces of the source are free: they have no row at all.
  have hfree : ∀ id ∈ source.ids, (∀ i, v .history (historyKey id i) = none) ∧
      (∀ r, v .requests (requestKey id r) = none) ∧ v .heads id.toList = none := by
    intro id hid
    obtain ⟨-, hhead, -, hnone⟩ := hreservation.free id hid
    have hchain := h.unstaged id hnone
    exact ⟨hchain.history_eq_none hhead, hchain.requests_eq_none hhead, hhead⟩
  refine ⟨fun s hs => ?_, fun s row hrow => ?_, fun m hm => ?_⟩
  · have hnot : s ∉ source.ids := by
      intro hmem
      rw [hreservation.staged s hmem] at hs
      cases hs
    rw [hstage s hnot] at hs
    exact (h.unstaged s hs).congr (hH _) (fun i => hY _) (fun r => hR _) fun k x hx => by rw [hC, hx]
  · by_cases hmem : s ∈ source.ids
    · rw [hreservation.staged s hmem] at hrow
      refine ⟨source, hsource, (Option.some_inj.mp hrow).symm, hmem, ?_⟩
      rw [hreservation.cursor]
      nofun
    · rw [hstage s hmem] at hrow
      obtain ⟨other, hother, hmanifest, hid, hnone⟩ := h.staged s row hrow
      refine ⟨other, hother, hmanifest, hid, ?_⟩
      by_cases heq : other.manifest = source.manifest
      · rw [heq, hreservation.cursor]
        nofun
      · rwa [hcursor _ heq]
  · by_cases heq : m = source.manifest
    · subst heq
      refine ⟨source, ⟨0, none, 0, 0⟩, hsource, rfl, hreservation.cursor, cursor_decode_encode (by decide) nofun,
        hreservation.staged, fun t row hrow => ?_, fun id hid => ?_⟩
      · rw [passed_start] at hrow
        cases hrow
      · obtain ⟨hhistory, hrequests, hhead⟩ := hfree id hid
        refine ⟨fun x hx => ?_, fun i x hx => ?_, fun r x hx => ?_⟩
        · rw [hH, hhead] at hx
          cases hx
        · rw [hY, hhistory] at hx
          cases hx
        · rw [hR, hrequests] at hx
          cases hx
    · rw [hcursor m heq] at hm
      obtain ⟨other, cursor, hother, rfl, hstaging⟩ := h.staging m hm
      refine ⟨other, cursor, hother, rfl, ?_, hstaging.reads, fun id hid => ?_, fun t row hrow => ?_,
        fun id hid => (hstaging.within id hid).congr (hH _) (fun i => hY _) fun r => hR _⟩
      · rw [hcursor _ heq, hstaging.stored]
      · rw [hstage, hstaging.staged id hid]
        intro hmem
        have hnone := (hreservation.free id hmem).2.2.2
        rw [hstaging.staged id hid] at hnone
        cases hnone
      · rw [hrows t (mem_TABLES_of_passed hrow).1, hstaging.copied t row hrow]

/-- The rows that a page of the source may write in a namespace. -/
theorem Copy.other_rows {source : TransferSource} {table : Table} {cursor next : Cursor} {rows : List RawEntry}
    (hcopy : Copy source table cursor next rows v v') (hspec : SourceSpec hemera source)
    (hrows : ∀ row ∈ rows, source.store.view table row.1 = some row.2) {s : Particle} (hs : s ∉ source.ids) :
    v' .heads s.toList = v .heads s.toList ∧ (∀ i, v' .history (historyKey s i) = v .history (historyKey s i)) ∧
      ∀ r, v' .requests (requestKey s r) = v .requests (requestKey s r) := by
  obtain ⟨hhead, hhistory, hrequests⟩ := mem_sources_of_row hspec s
  have hrow : ∀ k, (source.store.view table k ≠ none → s ∈ source.sources.map Prod.fst) → ∀ row ∈ rows, row.1 ≠ k := by
    rintro k hmem row hrow rfl
    exact hs (hmem (by rw [hrows row hrow]; nofun))
  refine ⟨?_, fun i => ?_, fun r => ?_⟩
  · refine hcopy.same .heads _ nofun nofun fun heq => ?_
    subst heq
    exact hrow _ hhead
  · refine hcopy.same .history _ nofun nofun fun heq => ?_
    subst heq
    exact hrow _ (hhistory i)
  · refine hcopy.same .requests _ nofun nofun fun heq => ?_
    subst heq
    exact hrow _ (hrequests r)

/-- A row that is there after a page was there before, or is a row of the source. -/
theorem Copy.row_cases {source : TransferSource} {table : Table} {cursor next : Cursor} {rows : List RawEntry}
    (hcopy : Copy source table cursor next rows v v')
    (hrows : ∀ row ∈ rows, source.store.view table row.1 = some row.2) {t : Table} (ht : t ∈ TABLES) {k x : List UInt8}
    (hx : v' t k = some x) : v t k = some x ∨ source.store.view t k = some x := by
  have hother : t ≠ .metadata ∧ t ≠ .migration := by
    fin_cases ht <;> exact ⟨nofun, nofun⟩
  by_cases hmem : t = table ∧ ∃ row ∈ rows, row.1 = k
  · obtain ⟨rfl, row, hrow, rfl⟩ := hmem
    rw [hcopy.copied row hrow] at hx
    rw [← Option.some_inj.mp hx]
    exact .inr (hrows row hrow)
  · rw [hcopy.same t k hother.1 (fun hm => absurd hm hother.2) fun heq row hrow hk =>
      hmem ⟨heq, row, hrow, hk⟩] at hx
    exact .inl hx

/-- A page moves the transfer of its manifest on. -/
theorem Staging.copy {source first : TransferSource} {table : Table} {cursor next : Cursor} {rows : List RawEntry}
    (h : Staging first cursor v) (hmanifest : first.manifest = source.manifest)
    (htables : ∀ t ∈ TABLES, first.store.tables t = source.store.tables t)
    (hrows : ∀ row ∈ rows, source.store.view table row.1 = some row.2)
    (hpassed : passed source.store.tables next = passed source.store.tables cursor ++ rows.map fun row => (table, row))
    (hnext : Cursor.decode next.encode = .ok next) (hstage : ∀ s, v' .migration (stageKey s) = v .migration (stageKey s))
    (hcopy : Copy source table cursor next rows v v') : Staging first next v' := by
  refine ⟨?_, hnext, fun id hid => ?_, fun t row hrow => ?_, fun id hid => ?_⟩
  · rw [hmanifest, hcopy.moved]
  · rw [hstage, h.staged id hid]
  · rw [passed_congr htables, hpassed, List.mem_append] at hrow
    rcases hrow with hold | hnew
    · rw [← passed_congr htables] at hold
      exact hcopy.rows_kept (mem_TABLES_of_passed hold).1 (h.copied t row hold)
    · obtain ⟨row', hrow', heq⟩ := List.mem_map.mp hnew
      obtain ⟨rfl, rfl⟩ := Prod.mk.inj heq
      exact hcopy.copied row' hrow'
  · -- a row of the namespace was there before, or is a row of the page
    have hcases : ∀ t ∈ TABLES, ∀ k x, v' t k = some x → v t k = some x ∨ first.store.view t k = some x := by
      intro t ht k x hx
      rw [Database.view, htables t ht]
      exact hcopy.row_cases hrows ht hx
    have hwithin := h.within id hid
    exact ⟨fun x hx => (hcases .heads (by decide) _ x hx).elim (hwithin.head x) fun hnew => hnew,
      fun i x hx => (hcases .history (by decide) _ x hx).elim (hwithin.history i x) fun hnew => hnew,
      fun r x hx => (hcases .requests (by decide) _ x hx).elim (hwithin.requests r x) fun hnew => hnew⟩

theorem StageInv.copy {source : TransferSource} {table : Table} {cursor next : Cursor} {rows : List RawEntry}
    {validate : ContentValidator} {links : Except Error Unit} (h : StageInv S v)
    (hspec : ∀ a, S a → SourceSpec hemera a) (hbind : ManifestsBind S) (hsource : S source)
    (htable : TABLES[cursor.table.toNat]? = some table) (hreads : Cursor.decode cursor.encode = .ok cursor)
    (hread : source.readPage validate links table cursor = .ok (rows, next))
    (hcopy : Copy source table cursor next rows v v') : StageInv S v' := by
  have hsame : ∀ k, k ≠ cursorKey source.manifest → v' .migration k = v .migration k := fun k hk =>
    hcopy.same .migration k nofun (fun _ => hk) fun heq => absurd heq.symm (TABLES_ne_migration htable).1
  have hstage : ∀ s, v' .migration (stageKey s) = v .migration (stageKey s) := fun s =>
    hsame _ (stageKey_ne_cursorKey s _)
  have hcursor : ∀ m, m ≠ source.manifest → v' .migration (cursorKey m) = v .migration (cursorKey m) := fun m hm =>
    hsame _ fun heq => hm (Vector.toList_inj.mp (List.cons.inj heq).2)
  have hrows := readPage_rows hread
  obtain ⟨hpassed, -, -, hnext, -, -⟩ := readPage_ok htable hread
  -- The transfer of this manifest has got to this cursor, from the same tables.
  obtain ⟨first, start, hfirst, hmanifest, hstaging⟩ := h.staging source.manifest (by rw [hcopy.stored]; nofun)
  have hstart : start = cursor := by
    have hstored := hstaging.stored
    rw [hmanifest, hcopy.stored] at hstored
    have hreads' := hstaging.reads
    rw [← Option.some_inj.mp hstored, hreads] at hreads'
    exact (Except.ok.inj hreads').symm
  subst hstart
  have htables := hbind first source hfirst hsource hmanifest
  have hids : ∀ s ∈ source.ids, s ∈ first.ids := fun s hs =>
    mem_ids_of_tables (hspec _ hsource) (hspec _ hfirst) (fun t ht => (htables t ht).symm) hs
  have hmine : ∀ s ∈ source.ids, v .migration (stageKey s) = some source.manifest.toList := by
    intro s hs
    rw [← hmanifest]
    exact hstaging.staged s (hids s hs)
  refine ⟨fun s hs => ?_, fun s row hrow => ?_, fun m hm => ?_⟩
  · rw [hstage] at hs
    have hnot : s ∉ source.ids := by
      intro hmem
      rw [hmine s hmem] at hs
      cases hs
    obtain ⟨hhead, hhistory, hrequests⟩ := hcopy.other_rows (hspec _ hsource) hrows hnot
    exact (h.unstaged s hs).congr hhead hhistory hrequests fun k x hx => hcopy.rows_kept (by decide) hx
  · rw [hstage] at hrow
    obtain ⟨other, hother, hrow', hid, hnone⟩ := h.staged s row hrow
    refine ⟨other, hother, hrow', hid, ?_⟩
    by_cases heq : other.manifest = source.manifest
    · rw [heq, hcopy.moved]
      nofun
    · rwa [hcursor _ heq]
  · by_cases heq : m = source.manifest
    · subst heq
      exact ⟨first, next, hfirst, hmanifest, hstaging.copy hmanifest htables hrows hpassed hnext hstage hcopy⟩
    · rw [hcursor m heq] at hm
      obtain ⟨other, reached, hother, rfl, hprogress⟩ := h.staging m hm
      refine ⟨other, reached, hother, rfl, ?_, hprogress.reads, fun id hid => ?_, fun t row hrow => ?_, fun id hid => ?_⟩
      · rw [hcursor _ heq, hprogress.stored]
      · rw [hstage, hprogress.staged id hid]
      · exact hcopy.rows_kept (mem_TABLES_of_passed hrow).1 (hprogress.copied t row hrow)
      · have hnot : id ∉ source.ids := by
          intro hmem
          have hboth := (hmine id hmem).symm.trans (hprogress.staged id hid)
          exact heq (Vector.toList_inj.mp (Option.some_inj.mp hboth)).symm
        obtain ⟨hhead, hhistory, hrequests⟩ := hcopy.other_rows (hspec _ hsource) hrows hnot
        exact (hprogress.within id hid).congr hhead hhistory hrequests

/-! ### Runs -/

theorem StageInv.step (h : StageInv S db.view) (hspec : ∀ a, S a → SourceSpec hemera a) (hbind : ManifestsBind S)
    (hstep : Step hemera S db db') : StageInv S db'.view := by
  rcases hstep.cases with htables | ⟨call, -, hpub⟩ | hseal | ⟨source, hsource, hreservation⟩ |
    ⟨source, table, cursor, next, rows, validate, links, hsource, htable, hreads, hread, hcopy⟩
  · have hview : db'.view = db.view := by
      unfold Database.view
      rw [htables]
    rwa [hview]
  · exact h.publish hspec hpub
  · refine h.congr (fun t ht k => ?_) fun k hk => hseal.same .migration k nofun ?_
    · fin_cases ht <;> exact hseal.same _ k nofun nofun
    · rintro ⟨-, rfl | rfl⟩
      · rw [sealKey_length] at hk
        omega
      · rw [statusKey_length] at hk
        omega
  · exact h.reserve hsource hreservation
  · exact h.copy hspec hbind hsource htable hreads hread hcopy

/-- Every namespace that is not under incomplete staging has a whole chain, in every store reached with sources
whose manifests bind their tables. -/
theorem chains_whole (hS : ∀ source, S source → Opened hemera source) (hbind : ManifestsBind S)
    (hreach : Relation.ReflTransGen (Step hemera S) Database.empty db) (s : Particle) (h : ¬UnderStaging db.view s) :
    Chained db.view s := by
  have hspec : ∀ a, S a → SourceSpec hemera a := fun a ha => (hS a ha).spec
  have hinv : StageInv S db.view := by
    clear h
    induction hreach with
    | refl => exact .empty
    | tail _ hstep ih => exact ih.step hspec hbind hstep
  cases hstage : db.view .migration (stageKey s) with
  | none => exact hinv.unstaged s hstage
  | some row =>
      obtain ⟨named, hnamed, rfl, hid, hcursor⟩ := hinv.staged s row hstage
      obtain ⟨source, cursor, hsource, hmanifest, hstaging⟩ := hinv.staging _ hcursor
      have hs : s ∈ source.ids := mem_ids_of_tables (hspec _ hnamed) (hspec _ hsource)
        (fun t ht => (hbind source named hsource hnamed hmanifest t ht).symm) hid
      -- The staging that is not incomplete has a complete cursor.
      have hdone : cursor.table = 5 := by
        by_contra hopen
        refine h ⟨_, hstage, fun manifest heq bytes cursor' hbytes hdecode hfive => hopen ?_⟩
        obtain rfl := Vector.toList_inj.mp heq
        rw [← hmanifest, hstaging.stored] at hbytes
        rw [← Option.some_inj.mp hbytes, hstaging.reads] at hdecode
        rw [Except.ok.inj hdecode]
        exact hfive
      have hcopied : ∀ t ∈ TABLES, ∀ k x, source.store.view t k = some x → db.view t k = some x := fun t ht k x hx =>
        hstaging.copied t (k, x) (mem_passed_of_complete hdone ht hx)
      have hequal : ∀ t ∈ TABLES, ∀ k, (∀ x, db.view t k = some x → source.store.view t k = some x) →
          db.view t k = source.store.view t k := by
        intro t ht k hsub
        cases hsrc : source.store.view t k with
        | some x => exact hcopied t ht k x hsrc
        | none =>
            by_contra hrow
            obtain ⟨x, hx⟩ := Option.ne_none_iff_exists'.mp hrow
            rw [hsub x hx] at hsrc
            cases hsrc
      have hwithin := hstaging.within s hs
      exact ((hspec _ hsource).chained s).congr (hequal .heads (by decide) _ hwithin.head)
        (fun i => hequal .history (by decide) _ (hwithin.history i))
        (fun r => hequal .requests (by decide) _ (hwithin.requests r)) (hcopied .content (by decide))

/-! ### Two sources with one manifest -/

theorem not_underStaging {s : Particle} (manifest : Particle) (cursor : Cursor)
    (hstage : v .migration (stageKey s) = some manifest.toList)
    (hcursor : v .migration (cursorKey manifest) = some cursor.encode)
    (hreads : Cursor.decode cursor.encode = .ok cursor) (hdone : cursor.table = 5) : ¬UnderStaging v s := by
  rintro ⟨row, hrow, hopen⟩
  rw [hstage] at hrow
  exact hopen manifest (Option.some_inj.mp hrow).symm _ cursor hcursor hreads hdone

theorem not_chained {s : Particle} (commit : Particle) (i : UInt64) (hrow : v .history (historyKey s i) = some commit.toList)
    (hmissing : v .content commit.toList = none) : ¬Chained v s := by
  intro h
  obtain ⟨found, hfound, hcontent⟩ := h.content i _ hrow
  rw [← hfound] at hcontent
  exact hcontent hmissing

theorem chains_whole_copiedTarget : copiedTarget.view .heads (repeated 1).toList = some (encodeHead ⟨1, repeated 5⟩) ∧
    Chained copiedTarget.view (repeated 1) := by
  have hopened := opened_sourceOf (repeated 4) (by decide +kernel)
  have hreach : Relation.ReflTransGen (Step polynomialHash fun source => source = sourceOf (repeated 4)) Database.empty
      copiedTarget := copiedTarget_reach (Eq.refl _)
  have hS : ∀ source, source = sourceOf (repeated 4) → Opened polynomialHash source := fun source h => h ▸ hopened
  have hbind : ManifestsBind fun source => source = sourceOf (repeated 4) := by
    intro a b ha hb _ t _
    rw [ha, hb]
  -- the rows are looked up together, so the store is computed once
  have hrows : copiedTarget.view .heads (repeated 1).toList = some (encodeHead ⟨1, repeated 5⟩) ∧
      copiedTarget.view .migration (stageKey (repeated 1)) = some (sourceOf (repeated 4)).manifest.toList ∧
      copiedTarget.view .migration (cursorKey (sourceOf (repeated 4)).manifest) =
        some (Cursor.encode ⟨5, none, 7, 554⟩) := by decide +kernel
  refine ⟨hrows.1, chains_whole hS hbind hreach (repeated 1) ?_⟩
  exact not_underStaging (sourceOf (repeated 4)).manifest ⟨5, none, 7, 554⟩ hrows.2.1 hrows.2.2 (by decide +kernel) rfl

/-- A target that one stager fills with a page of one source, and another stager with the rest of the other. -/
def mixedTarget : Database :=
  ((sourceOf (repeated 3)).stage polynomialHash
    ((sourceOf (repeated 4)).stage polynomialHash Database.empty 1 acceptAll (.ok ())).2 4096 acceptAll (.ok ())).2

/-- Two stores whose last transactions and heads agree give sources with one message, and so one manifest under
every hash. Their stagers share a cursor, and the target of both ends complete with a commit that has no content. -/
theorem chains_mixed : (sourceOf (repeated 3)).message = (sourceOf (repeated 4)).message ∧
    (∃ S : TransferSource → Prop, (∀ source, S source → Opened polynomialHash source) ∧
      Relation.ReflTransGen (Step polynomialHash S) Database.empty mixedTarget) ∧
    ¬UnderStaging mixedTarget.view (repeated 1) ∧ ¬Chained mixedTarget.view (repeated 1) := by
  have hthree := opened_sourceOf (repeated 3) (by decide +kernel)
  have hfour := opened_sourceOf (repeated 4) (by decide +kernel)
  have hreach : Relation.ReflTransGen (Step polynomialHash fun source =>
      source = sourceOf (repeated 3) ∨ source = sourceOf (repeated 4)) Database.empty mixedTarget := by
    unfold mixedTarget
    exact (stage_reach (.inr (Eq.refl _)) 1 acceptAll (.ok ())).trans
      (stage_reach (.inl (Eq.refl _)) 4096 acceptAll (.ok ()))
  have hrows : mixedTarget.view .migration (stageKey (repeated 1)) = some (sourceOf (repeated 3)).manifest.toList ∧
      mixedTarget.view .migration (cursorKey (sourceOf (repeated 3)).manifest) =
        some (Cursor.encode ⟨5, none, 7, 554⟩) ∧
      mixedTarget.view .history (historyKey (repeated 1) 0) = some (repeated 3).toList ∧
      mixedTarget.view .content (repeated 3).toList = none := by decide +kernel
  refine ⟨by decide +kernel, ⟨_, ?_, hreach⟩, ?_, ?_⟩
  · intro source h
    rcases h with h | h
    · exact h ▸ hthree
    · exact h ▸ hfour
  · exact not_underStaging (sourceOf (repeated 3)).manifest ⟨5, none, 7, 554⟩ hrows.1 hrows.2.1 (by decide +kernel) rfl
  · exact not_chained (repeated 3) 0 hrows.2.2.1 hrows.2.2.2

end LeanBbg.Storage
