import LeanBbg.Pages

/-! Migration fences are final and acyclic. A fence is set when its namespace is copied whole and its target is
not fenced; nothing that comes later writes a row of a fenced namespace. -/

namespace LeanBbg.Storage

open Bytes Attempt

variable {hemera : List UInt8 → Bytes32} {S : TransferSource → Prop} {v v' : View} {db db' : Database}

/-- The namespace is fenced, and its work goes to the target. -/
def Fenced (v : View) (s target : Particle) : Prop :=
  ∃ manifest : Particle, v .migration (fenceKey s) = some (target.toList ++ manifest.toList)

/-- Edges into one point without edges of its own keep every path finite. -/
theorem acc_of_into {P : Type} {E E' : P → P → Prop} (t₀ : P) (h : ∀ s, Acc (fun t s => E s t) s)
    (hnew : ∀ s t, E' s t → E s t ∨ t = t₀) (hend : ∀ t, ¬E' t₀ t) (s : P) : Acc (fun t s => E' s t) s := by
  have hlast : Acc (fun t s => E' s t) t₀ := Acc.intro t₀ fun t ht => absurd ht (hend t)
  induction h s with
  | intro s _ ih =>
      refine Acc.intro s fun t ht => ?_
      rcases hnew s t ht with hold | rfl
      · exact ih t hold
      · exact hlast

/-- The reservations and fences of a store. -/
structure FenceInv (S : TransferSource → Prop) (v : View) : Prop where
  shape : ∀ s row, v .migration (fenceKey s) = some row → ∃ target manifest : Particle,
    row = target.toList ++ manifest.toList
  complete : ∀ s row, v .migration (fenceKey s) ≠ none → v .migration (stageKey s) = some row →
    ∃ manifest : Particle, row = manifest.toList ∧ ∃ bytes cursor, v .migration (cursorKey manifest) = some bytes ∧
      Cursor.decode bytes = .ok cursor ∧ cursor.table = 5
  reserved : ∀ manifest, v .migration (cursorKey manifest) ≠ none → ∃ source, S source ∧ source.manifest = manifest ∧
    ∀ id ∈ source.sources.map Prod.fst, v .migration (stageKey id) = some manifest.toList
  ends : ∀ s, Acc (fun t s => Fenced v s t) s

/-- The rows of a namespace are as before. -/
structure SameRows (v v' : View) (s : Particle) : Prop where
  head : v' .heads s.toList = v .heads s.toList
  history : ∀ i, v' .history (historyKey s i) = v .history (historyKey s i)
  requests : ∀ r, v' .requests (requestKey s r) = v .requests (requestKey s r)
  fence : v' .migration (fenceKey s) = v .migration (fenceKey s)

theorem FenceInv.empty : FenceInv S Database.empty.view :=
  ⟨nofun, nofun, fun _ h => absurd rfl h, fun s => Acc.intro s fun _ ⟨_, h⟩ => nomatch h⟩

/-- Steps that leave all migration rows of a store but its status and its seal. -/
theorem FenceInv.congr (h : FenceInv S v)
    (hsame : ∀ k, k.length = 33 ∨ k.length = 45 → v' .migration k = v .migration k) : FenceInv S v' := by
  have hfence : ∀ s, v' .migration (fenceKey s) = v .migration (fenceKey s) := fun s =>
    hsame _ (.inr (fenceKey_length s))
  have hstage : ∀ s, v' .migration (stageKey s) = v .migration (stageKey s) := fun s =>
    hsame _ (.inl (stageKey_length s))
  have hcursor : ∀ m, v' .migration (cursorKey m) = v .migration (cursorKey m) := fun m =>
    hsame _ (.inl (cursorKey_length m))
  refine ⟨?_, ?_, ?_, ?_⟩
  · simpa only [hfence] using h.shape
  · simpa only [hfence, hstage, hcursor] using h.complete
  · simpa only [hstage, hcursor] using h.reserved
  · simpa only [Fenced, hfence] using h.ends

/-! ### Publications -/

theorem sameRows_of_published {write : Write} {s : Particle} (hpub : Published write v v') (hne : s ≠ write.space)
    (hfence : v' .migration (fenceKey s) = v .migration (fenceKey s)) : SameRows v v' s := by
  obtain ⟨hhead, hhistory, hrequests⟩ := hpub.other hne
  exact ⟨hhead, hhistory, hrequests, hfence⟩

theorem ne_space_of_admissible {write : Write} {migration : NamespaceMigration}
    (h : (Call.applyMigration write migration).admissible = true) {source : Particle × Head}
    (hsource : source ∈ migration.sources) : source.1 ≠ write.space := by
  rw [Call.admissible, Bool.and_eq_true, NamespaceMigration.admissible, Bool.and_eq_true] at h
  exact of_decide_eq_true (List.all_eq_true.mp h.1.2 source hsource)

theorem FenceInv.publish {call : Call} (h : FenceInv S db.view) (hadmissible : call.admissible = true)
    (hpub : Publication call db db') :
    FenceInv S db'.view ∧ ∀ s, db.view .migration (fenceKey s) ≠ none → SameRows db.view db'.view s := by
  have hspace : ∀ s, db.view .migration (fenceKey s) ≠ none → s ≠ call.write.space := by
    rintro s hs rfl
    exact hs hpub.admitted.fence
  cases hpub.fencing with
  | none hsame =>
      exact ⟨h.congr fun k _ => hsame k, fun s hs => sameRows_of_published hpub.published (hspace s hs) (hsame _)⟩
  | @fences write migration hcall hsources hsame hpromoted =>
      subst hcall
      have hother : ∀ s, (∀ source ∈ migration.sources, source.1 ≠ s) →
          db'.view .migration (fenceKey s) = db.view .migration (fenceKey s) := by
        intro s hs
        refine hsame _ (fenceKey_ne_statusKey s) fun source hsource heq => ?_
        exact hs source hsource (fenceKey_injective heq).symm
      have hshort : ∀ k, k.length = 33 → db'.view .migration k = db.view .migration k := by
        intro k hk
        refine hsame k (ne_statusKey_of_length hk) fun source _ heq => ?_
        rw [heq, fenceKey_length] at hk
        omega
      have hstage := fun s => hshort _ (stageKey_length s)
      have hcursor := fun m => hshort _ (cursorKey_length m)
      have hkept : ∀ s, db.view .migration (fenceKey s) ≠ none →
          db'.view .migration (fenceKey s) = db.view .migration (fenceKey s) := by
        intro s hs
        by_cases hmem : ∃ source ∈ migration.sources, source.1 = s
        · obtain ⟨source, hsource, rfl⟩ := hmem
          obtain ⟨-, -, hprior, hafter⟩ := hsources source hsource
          rw [hafter, hprior.resolve_left hs]
        · exact hother s fun source hsource heq => hmem ⟨source, hsource, heq⟩
      refine ⟨⟨fun s row hrow => ?_, fun s row hs hrow => ?_, ?_, ?_⟩, fun s hs =>
        sameRows_of_published hpub.published (hspace s hs) (hkept s hs)⟩
      · by_cases hmem : ∃ source ∈ migration.sources, source.1 = s
        · obtain ⟨source, hsource, rfl⟩ := hmem
          rw [(hsources source hsource).2.2.2] at hrow
          exact ⟨write.space, migration.manifest, (Option.some_inj.mp hrow).symm⟩
        · rw [hother s fun source hsource heq => hmem ⟨source, hsource, heq⟩] at hrow
          exact h.shape s row hrow
      · rw [hstage] at hrow
        simp only [hcursor]
        by_cases hmem : ∃ source ∈ migration.sources, source.1 = s
        · obtain ⟨source, hsource, rfl⟩ := hmem
          rcases (hsources source hsource).1 with hnone | ⟨manifest, hstaged, hdone, -⟩
          · rw [hnone] at hrow
            cases hrow
          · rw [hstaged] at hrow
            exact ⟨manifest, (Option.some_inj.mp hrow).symm, hdone⟩
        · rw [hother s fun source hsource heq => hmem ⟨source, hsource, heq⟩] at hs
          exact h.complete s row hs hrow
      · simpa only [hstage, hcursor] using h.reserved
      · refine acc_of_into write.space h.ends (fun s t ht => ?_) fun t ht => ?_
        · obtain ⟨manifest, hrow⟩ := ht
          by_cases hmem : ∃ source ∈ migration.sources, source.1 = s
          · obtain ⟨source, hsource, rfl⟩ := hmem
            rw [(hsources source hsource).2.2.2] at hrow
            exact .inr (Vector.toList_inj.mp (List.append_inj (Option.some_inj.mp hrow) (by simp)).1).symm
          · rw [hother s fun source hsource heq => hmem ⟨source, hsource, heq⟩] at hrow
            exact .inl ⟨manifest, hrow⟩
        · obtain ⟨manifest, hrow⟩ := ht
          rw [hother _ fun source hsource => ne_space_of_admissible hadmissible hsource] at hrow
          have hfree : db.view .migration (fenceKey write.space) = none := hpub.admitted.fence
          rw [hfree] at hrow
          cases hrow

/-! ### Stagers -/

theorem FenceInv.reserve {source : TransferSource} (h : FenceInv S v) (hsource : S source)
    (hreservation : Reservation source v v') : FenceInv S v' ∧ ∀ s, SameRows v v' s := by
  have hlong : ∀ k, k.length = 45 → v' .migration k = v .migration k := by
    intro k hk
    refine hreservation.same .migration k nofun fun _ => ⟨?_, ?_, ?_, fun id _ => ?_⟩
    · rintro rfl
      rw [statusKey_length] at hk
      omega
    · rintro rfl
      rw [targetKey_length] at hk
      omega
    · rintro rfl
      rw [cursorKey_length] at hk
      omega
    · rintro rfl
      rw [stageKey_length] at hk
      omega
  have hfence := fun s => hlong _ (fenceKey_length s)
  have hstage : ∀ s, s ∉ source.sources.map Prod.fst → v' .migration (stageKey s) = v .migration (stageKey s) := by
    intro s hs
    refine hreservation.same .migration _ nofun fun _ => ⟨ne_statusKey_of_length (stageKey_length s),
      stageKey_ne_targetKey _ _, stageKey_ne_cursorKey _ _, fun id hid heq => ?_⟩
    exact hs (stageKey_injective heq ▸ hid)
  have hcursor : ∀ m, m ≠ source.manifest → v' .migration (cursorKey m) = v .migration (cursorKey m) := by
    intro m hm
    refine hreservation.same .migration _ nofun fun _ => ⟨ne_statusKey_of_length (cursorKey_length m),
      (targetKey_ne_cursorKey _ _).symm, fun heq => hm (Vector.toList_inj.mp (List.cons.inj heq).2),
      fun id _ => (stageKey_ne_cursorKey _ _).symm⟩
  -- A manifest that has a cursor is another one.
  have holder : ∀ m, v .migration (cursorKey m) ≠ none → m ≠ source.manifest := by
    rintro m hm rfl
    exact hm hreservation.fresh
  refine ⟨⟨?_, fun s row hs hrow => ?_, fun m hm => ?_, ?_⟩, fun s => ⟨?_, fun i => ?_, fun r => ?_, hfence s⟩⟩
  · simpa only [hfence] using h.shape
  · rw [hfence] at hs
    rw [hstage s fun hmem => hs (hreservation.free s hmem).2.2.1] at hrow
    obtain ⟨manifest, hmanifest, bytes, cursor, hbytes, hdone⟩ := h.complete s row hs hrow
    refine ⟨manifest, hmanifest, bytes, cursor, ?_, hdone⟩
    rw [hcursor manifest (holder manifest (by rw [hbytes]; nofun)), hbytes]
  · by_cases heq : m = source.manifest
    · subst heq
      exact ⟨source, hsource, rfl, hreservation.staged⟩
    · rw [hcursor m heq] at hm
      obtain ⟨other, hother, hmanifest, hstaged⟩ := h.reserved m hm
      refine ⟨other, hother, hmanifest, fun id hid => ?_⟩
      rw [hstage id fun hmem => ?_, hstaged id hid]
      have hfree := (hreservation.free id hmem).2.2.2
      rw [hstaged id hid] at hfree
      cases hfree
  · simpa only [Fenced, hfence] using h.ends
  · exact hreservation.same _ _ nofun nofun
  · exact hreservation.same _ _ nofun nofun
  · exact hreservation.same _ _ nofun nofun

/-- The rows of a page are rows of the source. -/
theorem readPage_rows {source : TransferSource} {validate : ContentValidator} {links : Except Error Unit} {table : Table}
    {cursor next : Cursor} {rows : List RawEntry} (h : source.readPage validate links table cursor = .ok (rows, next)) :
    ∀ row ∈ rows, source.store.view table row.1 = some row.2 := by
  obtain ⟨page, hpage, h⟩ := exists_of_bind_ok h
  obtain ⟨after, -, h⟩ := exists_of_bind_ok h
  obtain ⟨rfl, rfl⟩ := Prod.mk.inj (Except.ok.inj h)
  obtain ⟨-, hscan⟩ := scan_eq (lift_ok hpage)
  obtain ⟨taken, rest, hsplit, rfl, -⟩ := scanLoop_ok hscan
  intro row hrow
  have hmem : row ∈ (rowsAfter source.store.tables table cursor.after).take TransferSource.pageLimits.maxEntries := by
    rw [hsplit]
    exact List.mem_append_left _ hrow
  exact (OrdMap.mem_toList _).mp (List.mem_filter.mp (List.mem_of_mem_take hmem)).1

theorem table_of_decode_encode {cursor cursor' : Cursor} (h : Cursor.decode cursor.encode = .ok cursor') :
    cursor'.table = cursor.table := by
  obtain ⟨_, -, h⟩ := exists_of_bind_ok h
  rw [← Except.ok.inj h]

/-- A namespace of an incomplete transfer has no fence. -/
theorem FenceInv.fence_eq_none (h : FenceInv S v) {source : TransferSource} {cursor : Cursor}
    (hstored : v .migration (cursorKey source.manifest) = some cursor.encode) (hopen : cursor.table ≠ 5) {s : Particle}
    (hstaged : v .migration (stageKey s) = some source.manifest.toList) : v .migration (fenceKey s) = none := by
  by_contra hfence
  obtain ⟨manifest, hmanifest, bytes, cursor', hbytes, hdecode, hdone⟩ := h.complete s _ hfence hstaged
  obtain rfl := Vector.toList_inj.mp hmanifest
  rw [hstored] at hbytes
  obtain rfl := Option.some_inj.mp hbytes
  exact hopen ((table_of_decode_encode hdecode).symm.trans hdone)

/-- The namespaces of the rows that a page may hold. -/
theorem mem_sources_of_row {source : TransferSource} (hspec : SourceSpec hemera source) (s : Particle) :
    (source.store.view .heads s.toList ≠ none → s ∈ source.sources.map Prod.fst) ∧
    (∀ i, source.store.view .history (historyKey s i) ≠ none → s ∈ source.sources.map Prod.fst) ∧
    ∀ r, source.store.view .requests (requestKey s r) ≠ none → s ∈ source.sources.map Prod.fst := by
  have hhead : source.store.view .heads s.toList ≠ none → s ∈ source.sources.map Prod.fst := by
    intro hsome
    obtain ⟨row, hrow⟩ := Option.ne_none_iff_exists'.mp hsome
    obtain ⟨p, hp, hkey, -⟩ := (hspec.heads _ _).mp hrow
    rw [Vector.toList_inj.mp hkey]
    exact List.mem_map_of_mem hp
  have hhistory : ∀ i, source.store.view .history (historyKey s i) ≠ none → s ∈ source.sources.map Prod.fst :=
    fun i hi => hhead ((hspec.chained s).head_iff.mpr ⟨i, hi⟩)
  refine ⟨hhead, hhistory, fun r hr => ?_⟩
  obtain ⟨row, hrow⟩ := Option.ne_none_iff_exists'.mp hr
  obtain ⟨fingerprint, head, -, hchain⟩ := (hspec.chained s).receipt r row hrow
  exact hhistory head.index (by rw [hchain]; nofun)

variable (hemera) in
/-- No two sources of a run have different manifest messages with one hash. -/
def CollisionFree (S : TransferSource → Prop) : Prop :=
  ∀ a b, S a → S b → hemera a.message = hemera b.message → a.message = b.message

theorem FenceInv.copy {source : TransferSource} {table : Table} {cursor next : Cursor} {rows : List RawEntry}
    {validate : ContentValidator} {links : Except Error Unit} (h : FenceInv S v)
    (hspec : ∀ a, S a → SourceSpec hemera a) (hfree : CollisionFree hemera S) (hsource : S source)
    (htable : TABLES[cursor.table.toNat]? = some table)
    (hread : source.readPage validate links table cursor = .ok (rows, next))
    (hcopy : Copy source table cursor next rows v v') :
    FenceInv S v' ∧ ∀ s, v .migration (fenceKey s) ≠ none → SameRows v v' s := by
  have hopen := table_ne_five htable
  have hnotable : table ≠ .migration := (TABLES_ne_migration htable).1
  have hsame : ∀ k, k ≠ cursorKey source.manifest → v' .migration k = v .migration k := fun k hk =>
    hcopy.same .migration k nofun (fun _ => hk) fun heq => absurd heq.symm hnotable
  have hfence : ∀ s, v' .migration (fenceKey s) = v .migration (fenceKey s) := fun s =>
    hsame _ (fenceKey_ne_cursorKey s _)
  have hstage : ∀ s, v' .migration (stageKey s) = v .migration (stageKey s) := fun s =>
    hsame _ (stageKey_ne_cursorKey s _)
  have hcursor : ∀ m, m ≠ source.manifest → v' .migration (cursorKey m) = v .migration (cursorKey m) := fun m hm =>
    hsame _ fun heq => hm (Vector.toList_inj.mp (List.cons.inj heq).2)
  -- The reservation of this manifest was made for the same namespaces.
  have hunfenced : ∀ s ∈ source.sources.map Prod.fst, v .migration (fenceKey s) = none := by
    intro s hs
    obtain ⟨other, hother, hmanifest, hstaged⟩ := h.reserved source.manifest (by rw [hcopy.stored]; nofun)
    rw [(hspec _ hother).manifest, (hspec _ hsource).manifest] at hmanifest
    have hsources := (hspec _ hother).sources_eq (hspec _ hsource) (hfree _ _ hother hsource hmanifest)
    rw [hsources] at hstaged
    exact h.fence_eq_none hcopy.stored hopen (hstaged s hs)
  have hrows := readPage_rows hread
  refine ⟨⟨?_, fun s row hs hrow => ?_, fun m hm => ?_, ?_⟩, fun s hs => ?_⟩
  · simpa only [hfence] using h.shape
  · rw [hfence] at hs
    rw [hstage] at hrow
    obtain ⟨manifest, rfl, bytes, cursor', hbytes, hdone⟩ := h.complete s row hs hrow
    refine ⟨manifest, rfl, bytes, cursor', ?_, hdone⟩
    rw [hcursor manifest, hbytes]
    rintro rfl
    exact hs (h.fence_eq_none hcopy.stored hopen hrow)
  · have hm' : v .migration (cursorKey m) ≠ none := by
      by_cases heq : m = source.manifest
      · rw [heq, hcopy.stored]
        nofun
      · rwa [← hcursor m heq]
    obtain ⟨other, hother, hmanifest, hstaged⟩ := h.reserved m hm'
    exact ⟨other, hother, hmanifest, fun id hid => by rw [hstage, hstaged id hid]⟩
  · simpa only [Fenced, hfence] using h.ends
  · obtain ⟨hhead, hhistory, hrequests⟩ := mem_sources_of_row (hspec _ hsource) s
    have hrow : ∀ k, (source.store.view table k ≠ none → s ∈ source.sources.map Prod.fst) →
        ∀ row ∈ rows, row.1 ≠ k := by
      rintro k hmem row hrow rfl
      exact hs (hunfenced s (hmem (by rw [hrows row hrow]; nofun)))
    refine ⟨?_, fun i => ?_, fun r => ?_, hfence s⟩
    · refine hcopy.same .heads _ nofun nofun fun heq => ?_
      subst heq
      exact hrow _ hhead
    · refine hcopy.same .history _ nofun nofun fun heq => ?_
      subst heq
      exact hrow _ (hhistory i)
    · refine hcopy.same .requests _ nofun nofun fun heq => ?_
      subst heq
      exact hrow _ (hrequests r)

/-! ### Runs -/

theorem FenceInv.step (h : FenceInv S db.view) (hspec : ∀ a, S a → SourceSpec hemera a)
    (hfree : CollisionFree hemera S) (hstep : Step hemera S db db') :
    FenceInv S db'.view ∧ ∀ s, db.view .migration (fenceKey s) ≠ none → SameRows db.view db'.view s := by
  rcases hstep.cases with htables | ⟨call, hadmissible, hpub⟩ | hseal | ⟨source, hsource, hreservation⟩ |
    ⟨source, table, cursor, next, rows, validate, links, hsource, htable, -, hread, hcopy⟩
  · have hview : db'.view = db.view := by
      unfold Database.view
      rw [htables]
    rw [hview]
    exact ⟨h, fun s _ => ⟨rfl, fun _ => rfl, fun _ => rfl, rfl⟩⟩
  · exact h.publish hadmissible hpub
  · have hsame : ∀ k, k.length = 33 ∨ k.length = 45 → db'.view .migration k = db.view .migration k := by
      intro k hk
      refine hseal.same .migration k nofun ?_
      rintro ⟨-, rfl | rfl⟩
      · rw [sealKey_length] at hk
        omega
      · rw [statusKey_length] at hk
        omega
    refine ⟨h.congr hsame, fun s _ => ⟨?_, fun i => ?_, fun r => ?_, hsame _ (.inr (fenceKey_length s))⟩⟩
    · exact hseal.same _ _ nofun nofun
    · exact hseal.same _ _ nofun nofun
    · exact hseal.same _ _ nofun nofun
  · exact ⟨(h.reserve hsource hreservation).1, fun s _ => (h.reserve hsource hreservation).2 s⟩
  · exact h.copy hspec hfree hsource htable hread hcopy

theorem SameRows.trans {v'' : View} {s : Particle} (h : SameRows v v' s) (h' : SameRows v' v'' s) : SameRows v v'' s :=
  ⟨h'.head.trans h.head, fun i => (h'.history i).trans (h.history i), fun r => (h'.requests r).trans (h.requests r),
    h'.fence.trans h.fence⟩

theorem FenceInv.run (h : FenceInv S db.view) (hspec : ∀ a, S a → SourceSpec hemera a) (hfree : CollisionFree hemera S)
    (hrun : Relation.ReflTransGen (Step hemera S) db db') :
    FenceInv S db'.view ∧ ∀ s, db.view .migration (fenceKey s) ≠ none → SameRows db.view db'.view s := by
  induction hrun with
  | refl => exact ⟨h, fun s _ => ⟨rfl, fun _ => rfl, fun _ => rfl, rfl⟩⟩
  | tail _ hstep ih =>
      obtain ⟨hinv, hrows⟩ := ih
      obtain ⟨hinv', hrows'⟩ := hinv.step hspec hfree hstep
      refine ⟨hinv', fun s hs => ?_⟩
      have hfirst := hrows s hs
      exact hfirst.trans (hrows' s (by rwa [hfirst.fence]))

/-! ### Calls on a fenced namespace -/

theorem decodeTarget_append (target manifest : Particle) :
    decodeTarget (target.toList ++ manifest.toList) = .ok ⟨target, manifest⟩ := by
  have hlen : target.toList.length = 32 := by simp
  rw [decodeTarget, refuse_of_not (by simp), List.take_left' hlen, List.drop_left' hlen, particle_toList,
    particle_toList]
  rfl

/-- What `migration_target` finds is the fence of the namespace. -/
theorem migrationTarget_ok_iff {s : Particle} {target : MigrationTarget} :
    migrationTarget db s = .ok (some target) ↔ db.failure = none ∧
      db.view .migration (fenceKey s) = some (target.space.toList ++ target.manifest.toList) := by
  constructor
  · intro h
    obtain ⟨row, hrow, h⟩ := exists_of_bind_ok h
    obtain ⟨hready, hview⟩ := read_ok (lift_ok hrow)
    refine ⟨hready, ?_⟩
    cases row with
    | none => cases h
    | some bytes =>
        obtain ⟨decoded, hdecode, h⟩ := exists_of_bind_ok h
        obtain rfl := Option.some_inj.mp (Except.ok.inj h)
        obtain ⟨_, -, hdecode⟩ := exists_of_bind_ok hdecode
        obtain ⟨space, hspace, hdecode⟩ := exists_of_bind_ok hdecode
        obtain ⟨manifest, hmanifest, hdecode⟩ := exists_of_bind_ok hdecode
        obtain rfl := Except.ok.inj hdecode
        rw [← hview, ← toList_of_particle hspace, ← toList_of_particle hmanifest, List.take_append_drop]
  · rintro ⟨hready, hrow⟩
    have hread : db.read .migration (fenceKey s) 64 = .ok (some (target.space.toList ++ target.manifest.toList)) := by
      rw [Database.read, hready]
      refine (Transaction.get_eq_ok (by rw [fenceKey_length]; omega) (by decide) fun bytes hbytes => ?_).trans ?_
      · rw [Transaction.view_begin] at hbytes
        rw [Option.some_inj.mp (hbytes.symm.trans hrow)]
        simp
      · rw [Transaction.view_begin]
        exact congrArg Except.ok hrow
    rw [migrationTarget, hread]
    change (decodeTarget (target.space.toList ++ target.manifest.toList)).map some = _
    rw [decodeTarget_append]
    rfl

/-- A request without a receipt, to a fenced namespace. -/
theorem run_of_fence {call : Call} (outcome : CommitOutcome) (hadmissible : call.admissible = true)
    (hreceipt : db.view .requests (requestKey call.write.space call.write.request) = none) {target manifest : Particle}
    (hfence : db.view .migration (fenceKey call.write.space) = some (target.toList ++ manifest.toList)) :
    call.run hemera db outcome = (⟨
      match db.failure with
      | some e => .error (.ofStorage e)
      | none => .error .fenced, false⟩, db) := by
  have hget : lift ((Transaction.begin db.tables).get .requests (requestKey call.write.space call.write.request) 72) =
      .ok none := by
    rw [Transaction.get_eq_ok (by simp [requestKey]) (by decide), Transaction.view_begin]
    · exact congrArg (fun row => lift (.ok row)) hreceipt
    · intro row hrow
      rw [Transaction.view_begin] at hrow
      rw [Database.view, hrow] at hreceipt
      cases hreceipt
  have hget' : lift ((Transaction.begin db.tables).get .migration (fenceKey call.write.space) 64) =
      .ok (some (target.toList ++ manifest.toList)) := by
    rw [Transaction.get_eq_ok (by rw [fenceKey_length]; omega) (by decide), Transaction.view_begin]
    · exact congrArg (fun row => lift (.ok row)) hfence
    · intro row hrow
      rw [Transaction.view_begin] at hrow
      rw [Option.some_inj.mp (hrow.symm.trans hfence)]
      simp
  rw [call.run_eq, if_pos hadmissible]
  cases hready : db.failure with
  | some e => exact transaction_of_failure hemera Error.ofStorage outcome hready
  | none =>
      refine transaction_of_error hemera Error.ofStorage outcome hready ?_
      rw [applyBody, admission, hget]
      change ((admitFresh call.write (.begin db.tables)).map Sum.inr).bind _ = _
      rw [admitFresh, hget']
      rfl

/-- The work of a namespace has moved to another one. -/
def MigratesTo (db : Database) (s target : Particle) : Prop :=
  ∃ manifest, migrationTarget db s = .ok (some ⟨target, manifest⟩)

/-- Fences are final and acyclic. In every store reached by calls, reopenings and stagers with opened sources:
following `migration_target` ends, and there is no cycle; and once a namespace has a target, whatever comes next
leaves its head, history, receipts and target as they are, refuses every new request to it as fenced, and answers
the exact retries of its old requests with their heads. -/
theorem fences_final (hS : ∀ source, S source → Opened hemera source) (hfree : CollisionFree hemera S)
    (hreach : Relation.ReflTransGen (Step hemera S) Database.empty db) :
    (∀ s, Acc (fun t s => MigratesTo db s t) s) ∧ (∀ s, ¬Relation.TransGen (MigratesTo db) s s) ∧
    ∀ s target, migrationTarget db s = .ok (some target) →
      ∀ db', Relation.ReflTransGen (Step hemera S) db db' →
        SameRows db.view db'.view s ∧
        (db'.failure = none → migrationTarget db' s = .ok (some target)) ∧
        ∀ (call : Call) (outcome : CommitOutcome), call.admissible = true → call.write.space = s →
          (db'.view .requests (requestKey s call.write.request) = none →
            call.run hemera db' outcome = (⟨
              match db'.failure with
              | some e => .error (.ofStorage e)
              | none => .error .fenced, false⟩, db')) ∧
          ∀ head, db.view .requests (requestKey s call.write.request) =
              some (encodeRequest call.write.fingerprint head) → call.allowRetry = true →
            call.run hemera db' outcome = (⟨
              match db'.failure with
              | some e => .error (.ofStorage e)
              | none => .ok head, false⟩, db') := by
  have hspec : ∀ a, S a → SourceSpec hemera a := fun a ha => (hS a ha).spec
  obtain ⟨hinv, -⟩ := FenceInv.empty.run hspec hfree hreach
  have hsub : ∀ s t, MigratesTo db s t → Fenced db.view s t := by
    rintro s t ⟨manifest, h⟩
    exact ⟨manifest, (migrationTarget_ok_iff.mp h).2⟩
  have hends : ∀ s, Acc (fun t s => MigratesTo db s t) s := fun s =>
    Subrelation.accessible (fun {t s} h => hsub s t h) (hinv.ends s)
  refine ⟨hends, fun s hcycle => ?_, fun s target htarget db' hrun => ?_⟩
  · have hwf : WellFounded (fun t s => MigratesTo db s t) := ⟨hends⟩
    exact hwf.transGen.irrefl.irrefl s (Relation.transGen_swap.mpr hcycle)
  obtain ⟨-, hfence⟩ := migrationTarget_ok_iff.mp htarget
  obtain ⟨-, hrows⟩ := hinv.run hspec hfree hrun
  have hsame := hrows s (by rw [hfence]; nofun)
  refine ⟨hsame, fun hready => ?_, fun call outcome hadmissible hspace => ?_⟩
  · rw [migrationTarget_ok_iff, hsame.fence]
    exact ⟨hready, hfence⟩
  subst hspace
  refine ⟨fun hreceipt => ?_, fun head hreceipt hretry => ?_⟩
  · rw [← hsame.fence] at hfence
    exact run_of_fence outcome hadmissible hreceipt hfence
  · rw [← hsame.requests] at hreceipt
    rw [(call.run_of_receipt hemera outcome hadmissible hreceipt).2]
    cases hready : db'.failure with
    | some e => rfl
    | none => simp only [hretry, true_and, if_true]

/-- The source of a store with the first of two writes only, which pins another head. -/
def earlierSource : TransferSource :=
  okOr ⟨Database.empty, repeated 4, repeated 4, []⟩ (openCalls ((twoWrites (repeated 4)).take 1))

/-- The two sources at hand. -/
def TwoSources (source : TransferSource) : Prop := source = sourceOf (repeated 4) ∨ source = earlierSource

theorem twoSources_opened : ∀ source, TwoSources source → Opened polynomialHash source := by
  have hfour := opened_sourceOf (repeated 4) (by decide +kernel)
  have hearlier : Opened polynomialHash earlierSource := opened_openCalls _ _ (by decide +kernel)
  intro source h
  rcases h with h | h
  · exact h ▸ hfour
  · exact h ▸ hearlier

theorem twoSources_collisionFree : CollisionFree polynomialHash TwoSources := by
  have hne : polynomialHash (sourceOf (repeated 4)).message ≠ polynomialHash earlierSource.message := by decide +kernel
  intro a b ha hb heq
  rcases ha with ha | ha <;> rcases hb with hb | hb
  · rw [ha, hb]
  · rw [ha, hb] at heq
    exact absurd heq hne
  · rw [ha, hb] at heq
    exact absurd heq.symm hne
  · rw [ha, hb]

/-- A publication of the target that fences the copied namespace. -/
def takeover : Call :=
  .applyMigration
    { space := repeated 6
      request := repeated 7
      fingerprint := repeated 8
      expected := none
      head := ⟨0, repeated 4⟩
      content := []
      claims := [] }
    ⟨(sourceOf (repeated 4)).manifest, [(repeated 1, ⟨1, repeated 5⟩)]⟩

/-- The target of a staged source after its takeover. -/
def takenOver : Database := (takeover.run polynomialHash copiedTarget .done).2

theorem fences_final_takenOver : ∃ target, migrationTarget takenOver (repeated 1) = .ok (some target) ∧
    target.space = repeated 6 ∧ (∀ s, ¬Relation.TransGen (MigratesTo takenOver) s s) ∧
    ∀ db', Relation.ReflTransGen (Step polynomialHash TwoSources) takenOver db' →
      SameRows takenOver.view db'.view (repeated 1) ∧
      (db'.failure = none → migrationTarget db' (repeated 1) = .ok (some target)) := by
  have hreach : Relation.ReflTransGen (Step polynomialHash TwoSources) Database.empty takenOver :=
    (copiedTarget_reach (.inl (Eq.refl _))).tail (Step.call takeover .done)
  have htarget : migrationTarget takenOver (repeated 1) = .ok (some ⟨repeated 6, (sourceOf (repeated 4)).manifest⟩) := by
    decide +kernel
  obtain ⟨-, hacyclic, hlater⟩ := fences_final twoSources_opened twoSources_collisionFree hreach
  refine ⟨_, htarget, rfl, hacyclic, fun db' hrun => ?_⟩
  obtain ⟨hsame, hstays, -⟩ := hlater _ _ htarget db' hrun
  exact ⟨hsame, hstays⟩

end LeanBbg.Storage
