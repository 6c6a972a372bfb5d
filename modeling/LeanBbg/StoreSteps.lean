import LeanBbg.ExactlyOnce
import LeanBbg.Transfer

/-! The steps of a store: calls of its clients, reopenings, its own sealing, and the transactions of stagers
that copy sealed sources into it. Each step is described by what it does to the rows. -/

namespace LeanBbg.Storage

open Bytes Attempt

variable (hemera : List UInt8 → Bytes32)

/-- One transaction of a store whose stagers have sources of `S`. A page starts from any cursor that reads back as
it is written, which may be one that another stager has left behind; crashes and reopenings fall between any two
steps. -/
inductive Step (S : TransferSource → Prop) (db : Database) : Database → Prop
  | call (call : Call) (outcome : CommitOutcome) : Step S db (call.run hemera db outcome).2
  | reopen : Step S db { db with failure := none }
  | archive {archive : ApplicationArchive} (hopen : ApplicationArchive.open hemera db = .ok archive)
      (target key : Particle) (outcome : CommitOutcome) :
      Step S db (TransferSource.fromArchive hemera archive target key outcome).2
  | prepare {source : TransferSource} (hsource : S source) (outcome : CommitOutcome) :
      Step S db (source.prepareTarget hemera db outcome).2
  | page {source : TransferSource} (hsource : S source) (outcome : CommitOutcome) (validate : ContentValidator)
      (links : Except Error Unit) {cursor : Cursor} (hcursor : Cursor.decode cursor.encode = .ok cursor) :
      Step S db (source.stagePage hemera db outcome validate links cursor).2

/-! ### Reader generations and fences -/

/-- The readers of the store have been promoted: no archive is ever opened on it. -/
def Promoted (v : View) : Prop :=
  v .migration statusKey = some (ascii "neuron-v1") ∨ v .migration statusKey = some (ascii "auth-v1")

theorem status_of_decodeGeneration {status : Option (List UInt8)} {generation : ReaderGeneration}
    (h : decodeGeneration status = .ok generation) (hne : generation ≠ .original) :
    status = some (ascii "neuron-v1") ∨ status = some (ascii "auth-v1") := by
  rw [decodeGeneration] at h
  split_ifs at h with horiginal hneuron hauth
  · exact absurd (Except.ok.inj h).symm hne
  · exact .inl hneuron
  · exact .inr hauth

theorem promoted_of_promoteNeuron {tx tx' : Transaction} (h : promoteNeuron tx = .ok tx') : Promoted tx'.view := by
  obtain ⟨status, hstatus, h⟩ := exists_of_bind_ok h
  obtain ⟨generation, hgeneration, h⟩ := exists_of_bind_ok h
  have hstatus := Transaction.get_ok hstatus
  cases generation with
  | original =>
      obtain ⟨-, -, hview⟩ := Transaction.stage_ok h
      exact .inl (by rw [hview, if_pos ⟨rfl, rfl⟩])
  | neuronV1 =>
      obtain rfl := Except.ok.inj h
      rw [Promoted, ← hstatus]
      exact status_of_decodeGeneration hgeneration nofun
  | authenticatedV1 =>
      obtain rfl := Except.ok.inj h
      rw [Promoted, ← hstatus]
      exact status_of_decodeGeneration hgeneration nofun

/-- A namespace that was staged here is copied whole, and for this target. -/
def Complete (v : View) (origin target : Particle) : Prop :=
  v .migration (stageKey origin) = none ∨
    ∃ manifest : Particle, v .migration (stageKey origin) = some manifest.toList ∧
      (∃ row cursor, v .migration (cursorKey manifest) = some row ∧ Cursor.decode row = .ok cursor ∧ cursor.table = 5) ∧
      v .migration (targetKey manifest) = some target.toList

theorem requireComplete_ok {tx : Transaction} {origin target : Particle} {u : Unit}
    (h : requireComplete tx origin target = .ok u) : Complete tx.view origin target := by
  obtain ⟨staged, hstaged, h⟩ := exists_of_bind_ok h
  have hstaged := Transaction.get_ok (lift_ok hstaged)
  cases staged with
  | none => exact .inl hstaged.symm
  | some bytes =>
      obtain ⟨manifest, hmanifest, h⟩ := exists_of_bind_ok h
      obtain ⟨row, hrow, h⟩ := exists_of_bind_ok h
      have hrow := Transaction.get_ok (lift_ok hrow)
      cases row with
      | none => cases h
      | some row =>
          obtain ⟨cursor, hcursor, h⟩ := exists_of_bind_ok h
          obtain ⟨_, htable, h⟩ := exists_of_bind_ok h
          obtain ⟨found, hfound, h⟩ := exists_of_bind_ok h
          refine .inr ⟨manifest, ?_, ⟨row, cursor, hrow.symm, hcursor, not_not.mp (refuse_ok htable)⟩, ?_⟩
          · rw [← hstaged, toList_of_particle hmanifest]
          · rw [← Transaction.get_ok (lift_ok hfound), not_not.mp (refuse_ok h)]

theorem fenceSource_ok {write : Write} {manifest : Particle} {tx tx' : Transaction} {source : Particle × Head}
    (h : fenceSource write manifest tx source = .ok tx') :
    Complete tx.view source.1 write.space ∧ tx.view .heads source.1.toList = some (encodeHead source.2) ∧
      (tx.view .migration (fenceKey source.1) = none ∨
        tx.view .migration (fenceKey source.1) = some (write.space.toList ++ manifest.toList)) ∧
      ∀ t k, tx'.view t k =
        if t = .migration ∧ k = fenceKey source.1 then some (write.space.toList ++ manifest.toList) else tx.view t k := by
  obtain ⟨_, hcomplete, h⟩ := exists_of_bind_ok h
  obtain ⟨row, hrow, h⟩ := exists_of_bind_ok h
  obtain ⟨current, hcurrent, h⟩ := exists_of_bind_ok h
  obtain ⟨_, hhead, h⟩ := exists_of_bind_ok h
  obtain ⟨-, hprior, hview⟩ := immutablePut_ok h
  refine ⟨requireComplete_ok hcomplete, ?_, hprior, hview⟩
  rw [← Transaction.get_ok (lift_ok hrow), head_of_mapM hcurrent, not_not.mp (refuse_ok hhead)]
  rfl

/-- The rows that say whether a namespace is staged, and how far, are no fences. -/
theorem Complete.congr {v v' : View} {origin target : Particle} (h : Complete v origin target)
    (hview : ∀ k, k.length = 33 → v' .migration k = v .migration k) : Complete v' origin target := by
  have hstage := hview _ (stageKey_length origin)
  rcases h with hnone | ⟨manifest, hstaged, ⟨row, cursor, hrow, hcursor⟩, htarget⟩
  · exact .inl (hstage.trans hnone)
  · refine .inr ⟨manifest, hstage.trans hstaged, ⟨row, cursor, ?_, hcursor⟩, ?_⟩
    · rw [hview _ (cursorKey_length manifest), hrow]
    · rw [hview _ (targetKey_length manifest), htarget]

theorem fenceSources_ok {write : Write} {manifest : Particle} {sources : List (Particle × Head)} {tx tx' : Transaction}
    (h : sources.foldlM (fenceSource write manifest) tx = .ok tx') :
    (∀ source ∈ sources, Complete tx.view source.1 write.space ∧
      tx.view .heads source.1.toList = some (encodeHead source.2) ∧
      (tx.view .migration (fenceKey source.1) = none ∨
        tx.view .migration (fenceKey source.1) = some (write.space.toList ++ manifest.toList)) ∧
      tx'.view .migration (fenceKey source.1) = some (write.space.toList ++ manifest.toList)) ∧
    ∀ t k, (t = .migration → ∀ source ∈ sources, k ≠ fenceKey source.1) → tx'.view t k = tx.view t k := by
  induction sources generalizing tx with
  | nil =>
      obtain rfl := Except.ok.inj h
      exact ⟨nofun, fun _ _ _ => rfl⟩
  | cons first rest ih =>
      rw [List.foldlM_cons] at h
      obtain ⟨tx₁, hfirst, hrest⟩ := exists_of_bind_ok h
      obtain ⟨hcomplete, hhead, hfence, hview⟩ := fenceSource_ok hfirst
      obtain ⟨hall, hother⟩ := ih hrest
      have hsame : ∀ k, k.length = 33 → tx.view .migration k = tx₁.view .migration k := by
        intro k hk
        rw [hview, if_neg]
        rintro ⟨-, rfl⟩
        rw [fenceKey_length] at hk
        omega
      refine ⟨fun source hsource => ?_, fun t k hne => ?_⟩
      · rcases List.mem_cons.mp hsource with rfl | hmem
        · refine ⟨hcomplete, hhead, hfence, ?_⟩
          by_cases hagain : ∃ other ∈ rest, other.1 = source.1
          · obtain ⟨other, hother, heq⟩ := hagain
            have := (hall other hother).2.2.2
            rwa [heq] at this
          · rw [hother, hview, if_pos ⟨rfl, rfl⟩]
            intro _ other hmem heq
            exact hagain ⟨other, hmem, (fenceKey_injective heq).symm⟩
        · obtain ⟨hcomplete', hhead', hfence', hafter⟩ := hall source hmem
          refine ⟨hcomplete'.congr hsame, ?_, ?_, hafter⟩
          · rw [hview, if_neg nofun] at hhead'
            exact hhead'
          · rw [hview] at hfence'
            split_ifs at hfence' with heq
            · rwa [heq.2]
            · exact hfence'
      · rw [hother t k fun ht source hsource => hne ht source (List.mem_cons_of_mem _ hsource), hview, if_neg]
        rintro ⟨ht, hk⟩
        exact hne ht first (List.mem_cons_self ..) hk

/-! ### Effects -/

/-- What a publication does to the migration rows: nothing, or it fences the sources of its migration. -/
inductive Fencing (call : Call) (v v' : View) : Prop
  | none (same : ∀ k, v' .migration k = v .migration k)
  | fences {write : Write} {migration : NamespaceMigration} (hcall : call = .applyMigration write migration)
      (sources : ∀ source ∈ migration.sources, Complete v source.1 write.space ∧
        v .heads source.1.toList = some (encodeHead source.2) ∧
        (v .migration (fenceKey source.1) = Option.none ∨
          v .migration (fenceKey source.1) = some (write.space.toList ++ migration.manifest.toList)) ∧
        v' .migration (fenceKey source.1) = some (write.space.toList ++ migration.manifest.toList))
      (same : ∀ k, k ≠ statusKey → (∀ source ∈ migration.sources, k ≠ fenceKey source.1) →
        v' .migration k = v .migration k)
      (promoted : Promoted v')

theorem Publication.fencing {call : Call} {db db' : Database} (h : Publication call db db') :
    Fencing call db.view db'.view := by
  obtain ⟨tx₁, tx₂, htransition, hbefore, hheads, hafter⟩ := h.transition
  have hsame : (∀ k, tx₂.view .migration k = tx₁.view .migration k) → Fencing call db.view db'.view :=
    fun hview => .none fun k => by rw [hafter, hview, hbefore]
  cases hcall : call with
  | apply write =>
      rw [hcall] at htransition hsame
      obtain rfl := Except.ok.inj htransition
      exact hsame fun _ => rfl
  | applyOnce write =>
      rw [hcall] at htransition hsame
      obtain rfl := Except.ok.inj htransition
      exact hsame fun _ => rfl
  | applyWith write program =>
      rw [hcall] at htransition hsame
      exact hsame fun k => (program.keepsRows_of_run htransition).view _ k rfl
  | applyMigration write migration =>
      rw [hcall] at htransition
      obtain ⟨tx₃, hfences, hpromote⟩ := exists_of_bind_ok htransition
      obtain ⟨hsources, hother⟩ := fenceSources_ok hfences
      obtain ⟨-, hkept⟩ := promoteNeuron_ok (lift_ok hpromote)
      refine .fences rfl (fun source hsource => ?_) (fun k hstatus hne => ?_) ?_
      · obtain ⟨hcomplete, hhead, hfence, hset⟩ := hsources source hsource
        refine ⟨hcomplete.congr fun k _ => (hbefore k).symm, ?_, ?_, ?_⟩
        · rw [← hheads, hhead]
        · rw [← hbefore]
          exact hfence
        · rw [hafter, hkept _ _ fun heq => fenceKey_ne_statusKey source.1 heq.2, hset]
      · rw [hafter, hkept _ _ fun heq => hstatus heq.2, hother _ _ fun _ => hne, hbefore]
      · rw [Promoted, hafter]
        exact promoted_of_promoteNeuron (lift_ok hpromote)

/-- What the seal of an archive does to its store. -/
structure Sealing (v v' : View) : Prop where
  unpromoted : ¬Promoted v
  sealed : v' .migration statusKey = some (ascii "export-v1")
  same : ∀ t k, t ≠ .metadata → ¬(t = .migration ∧ (k = sealKey ∨ k = statusKey)) → v' t k = v t k

/-- What `prepare_target` does to the target, when it does anything. -/
structure Reservation (source : TransferSource) (v v' : View) : Prop where
  fresh : v .migration (cursorKey source.manifest) = none
  free : ∀ id ∈ source.sources.map Prod.fst, id ≠ source.target ∧ v .heads id.toList = none ∧
    v .migration (fenceKey id) = none ∧ v .migration (stageKey id) = none
  staged : ∀ id ∈ source.sources.map Prod.fst, v' .migration (stageKey id) = some source.manifest.toList
  target : v' .migration (targetKey source.manifest) = some source.target.toList
  cursor : v' .migration (cursorKey source.manifest) = some (Cursor.encode ⟨0, none, 0, 0⟩)
  promoted : Promoted v'
  same : ∀ t k, t ≠ .metadata → (t = .migration → k ≠ statusKey ∧ k ≠ targetKey source.manifest ∧
    k ≠ cursorKey source.manifest ∧ ∀ id ∈ source.sources.map Prod.fst, k ≠ stageKey id) → v' t k = v t k

/-- What a page does to the target. -/
structure Copy (source : TransferSource) (table : Table) (cursor next : Cursor) (rows : List RawEntry)
    (v v' : View) : Prop where
  stored : v .migration (cursorKey source.manifest) = some cursor.encode
  moved : v' .migration (cursorKey source.manifest) = some next.encode
  copied : ∀ row ∈ rows, v' table row.1 = some row.2
  kept : ∀ k x, v table k = some x → v' table k = some x
  same : ∀ t k, t ≠ .metadata → (t = .migration → k ≠ cursorKey source.manifest) →
    (t = table → ∀ row ∈ rows, row.1 ≠ k) → v' t k = v t k

theorem read_ok {db : Database} {table : Table} {key : List UInt8} {max : Nat} {value : Option (List UInt8)}
    (h : db.read table key max = .ok value) : db.failure = none ∧ value = db.view table key := by
  rw [Database.read] at h
  cases hready : db.failure with
  | some e =>
      rw [hready] at h
      cases h
  | none =>
      rw [hready] at h
      exact ⟨rfl, Transaction.get_ok h⟩

/-- An archive is opened on a store that is not promoted, and pins the heads of one scan. -/
theorem open_ok {db : Database} {archive : ApplicationArchive} (h : ApplicationArchive.open hemera db = .ok archive) :
    archive.store = db ∧ ¬Promoted db.view ∧ ∃ heads, db.scan .heads none [] ⟨257, 32768⟩ = .ok heads ∧
      heads.length ≤ 256 ∧ heads.mapM decodeSource = .ok archive.sources := by
  obtain ⟨status, hstatus, h⟩ := exists_of_bind_ok h
  obtain ⟨_, hlegacy, h⟩ := exists_of_bind_ok h
  obtain ⟨_, -, h⟩ := exists_of_bind_ok h
  obtain ⟨heads, hheads, h⟩ := exists_of_bind_ok h
  obtain ⟨_, hcount, h⟩ := exists_of_bind_ok h
  obtain ⟨sources, hsources, h⟩ := exists_of_bind_ok h
  obtain ⟨sealRow, -, h⟩ := exists_of_bind_ok h
  obtain ⟨_, -, h⟩ := exists_of_bind_ok h
  obtain ⟨_, -, h⟩ := exists_of_bind_ok h
  obtain ⟨last, -, h⟩ := exists_of_bind_ok h
  obtain rfl := Except.ok.inj h
  have hcount := refuse_ok hcount
  refine ⟨rfl, fun hpromoted => refuse_ok hlegacy ?_, heads, lift_ok hheads, by omega, hsources⟩
  rw [(read_ok (lift_ok hstatus)).2]
  rcases hpromoted with hneuron | hauth
  · rw [hneuron]
    decide
  · rw [hauth]
    decide

theorem fromArchive_cases {db : Database} {archive : ApplicationArchive}
    (hopen : ApplicationArchive.open hemera db = .ok archive) (target key : Particle) (outcome : CommitOutcome) :
    (TransferSource.fromArchive hemera archive target key outcome).2.tables = db.tables ∨
      Sealing db.view (TransferSource.fromArchive hemera archive target key outcome).2.view := by
  obtain ⟨rfl, hunpromoted, -⟩ := open_ok hemera hopen
  rw [TransferSource.fromArchive]
  cases hseal : sealFor hemera archive target key with
  | error e => exact .inl rfl
  | ok found =>
      cases found with
      | inl sealRow => exact .inl rfl
      | inr sealRow =>
          dsimp only
          cases htransaction : archive.store.transaction hemera Error.ofStorage outcome
            (sealBody archive.sources sealRow) with
          | mk reply store =>
              suffices hstore : store.tables = archive.store.tables ∨ Sealing archive.store.view store.view by
                cases hresult : reply.result with
                | error e => simpa only [hresult] using hstore
                | ok u => simpa only [hresult] using hstore
              rcases transaction_cases hemera Error.ofStorage outcome htransaction with ⟨-, htables⟩ |
                ⟨-, -, value, tx, hbody, -, htables, -⟩
              · exact .inl htables
              · obtain ⟨_, -, hbody⟩ := exists_of_bind_ok hbody
                obtain ⟨tx₁, hput, hbody⟩ := exists_of_bind_ok hbody
                obtain ⟨tx₂, hstatus, hbody⟩ := exists_of_bind_ok hbody
                obtain ⟨-, rfl⟩ := Prod.mk.inj (Except.ok.inj hbody)
                obtain ⟨hengine₁, -, hview₁⟩ := immutablePut_ok hput
                obtain ⟨hengine₂, -, hview₂⟩ := Transaction.stage_ok (lift_ok hstatus)
                have hview := view_of_written (hengine₂.trans hengine₁) htables
                refine .inr ⟨hunpromoted, ?_, fun t k ht hne => ?_⟩
                · rw [hview .migration statusKey nofun, hview₂, if_pos ⟨rfl, rfl⟩]
                · rw [hview t k ht, hview₂, if_neg fun h => hne ⟨h.1, .inr h.2⟩, hview₁,
                    if_neg fun h => hne ⟨h.1, .inl h.2⟩]
                  rfl

theorem reserve_ok {source : TransferSource} {tx tx' : Transaction} {id : Particle}
    (h : source.reserve tx id = .ok tx') :
    (id ≠ source.target ∧ tx.view .heads id.toList = none ∧ tx.view .migration (fenceKey id) = none ∧
      tx.view .migration (stageKey id) = none) ∧ tx'.engine = tx.engine ∧
    ∀ t k, tx'.view t k =
      if t = .migration ∧ k = stageKey id then some source.manifest.toList else tx.view t k := by
  obtain ⟨_, htarget, h⟩ := exists_of_bind_ok h
  obtain ⟨head, hhead, h⟩ := exists_of_bind_ok h
  obtain ⟨_, hnohead, h⟩ := exists_of_bind_ok h
  obtain ⟨fence, hfence, h⟩ := exists_of_bind_ok h
  obtain ⟨_, hnofence, h⟩ := exists_of_bind_ok h
  obtain ⟨staged, hstaged, h⟩ := exists_of_bind_ok h
  obtain ⟨_, hunstaged, h⟩ := exists_of_bind_ok h
  obtain ⟨hengine, -, hview⟩ := Transaction.stage_ok (lift_ok h)
  refine ⟨⟨refuse_ok htarget, ?_, ?_, ?_⟩, hengine, hview⟩
  · rw [← Transaction.get_ok (lift_ok hhead)]
    exact not_not.mp (refuse_ok hnohead)
  · rw [← Transaction.get_ok (lift_ok hfence)]
    exact not_not.mp (refuse_ok hnofence)
  · rw [← Transaction.get_ok (lift_ok hstaged)]
    exact not_not.mp (refuse_ok hunstaged)

theorem reserveAll_ok {source : TransferSource} {ids : List Particle} {tx tx' : Transaction}
    (h : ids.foldlM source.reserve tx = .ok tx') :
    (∀ id ∈ ids, (id ≠ source.target ∧ tx.view .heads id.toList = none ∧ tx.view .migration (fenceKey id) = none ∧
      tx.view .migration (stageKey id) = none) ∧
      tx'.view .migration (stageKey id) = some source.manifest.toList) ∧ tx'.engine = tx.engine ∧
    ∀ t k, (t = .migration → ∀ id ∈ ids, k ≠ stageKey id) → tx'.view t k = tx.view t k := by
  induction ids generalizing tx with
  | nil =>
      obtain rfl := Except.ok.inj h
      exact ⟨nofun, rfl, fun _ _ _ => rfl⟩
  | cons first rest ih =>
      rw [List.foldlM_cons] at h
      obtain ⟨tx₁, hfirst, hrest⟩ := exists_of_bind_ok h
      obtain ⟨hfree, hengine₁, hview⟩ := reserve_ok hfirst
      obtain ⟨hall, hengine, hother⟩ := ih hrest
      refine ⟨fun id hid => ?_, hengine.trans hengine₁, fun t k hne => ?_⟩
      · rcases List.mem_cons.mp hid with rfl | hmem
        · refine ⟨hfree, ?_⟩
          by_cases hagain : id ∈ rest
          · exact (hall id hagain).2
          · rw [hother, hview, if_pos ⟨rfl, rfl⟩]
            intro _ other hmem heq
            exact hagain (stageKey_injective heq ▸ hmem)
        · obtain ⟨⟨htarget, hhead, hfence, hstage⟩, hafter⟩ := hall id hmem
          rw [hview] at hhead hfence hstage
          rw [if_neg nofun] at hhead
          rw [if_neg fun heq => fenceKey_ne_stageKey id first heq.2] at hfence
          split_ifs at hstage with heq
          exact ⟨⟨htarget, hhead, hfence, hstage⟩, hafter⟩
      · rw [hother t k fun ht id hid => hne ht id (List.mem_cons_of_mem _ hid), hview, if_neg]
        rintro ⟨ht, hk⟩
        exact hne ht first (List.mem_cons_self ..) hk

theorem targetKey_ne_cursorKey (a b : Particle) : targetKey a ≠ cursorKey b :=
  fun h => absurd (List.cons.inj h).1 (by decide)

theorem stageKey_ne_cursorKey (a b : Particle) : stageKey a ≠ cursorKey b :=
  fun h => absurd (List.cons.inj h).1 (by decide)

theorem stageKey_ne_targetKey (a b : Particle) : stageKey a ≠ targetKey b :=
  fun h => absurd (List.cons.inj h).1 (by decide)

theorem ne_statusKey_of_length {k : List UInt8} (h : k.length = 33) : k ≠ statusKey := by
  rintro rfl
  rw [statusKey_length] at h
  omega

theorem prepareTarget_cases (source : TransferSource) (db : Database) (outcome : CommitOutcome) :
    (source.prepareTarget hemera db outcome).2.tables = db.tables ∨
      Reservation source db.view (source.prepareTarget hemera db outcome).2.view := by
  cases htransaction : source.prepareTarget hemera db outcome with
  | mk reply db' =>
      rcases transaction_cases hemera Error.ofStorage outcome htransaction with ⟨-, htables⟩ |
        ⟨-, -, value, tx, hbody, hchanges, htables, -⟩
      · exact .inl htables
      obtain ⟨cursor, hcursor, hbody⟩ := exists_of_bind_ok hbody
      have hcursor := Transaction.get_ok (lift_ok hcursor)
      cases cursor with
      | some cursor =>
          obtain ⟨-, rfl⟩ := Prod.mk.inj (Except.ok.inj hbody)
          exact absurd rfl hchanges
      | none =>
          obtain ⟨tx₁, hpromote, hbody⟩ := exists_of_bind_ok hbody
          obtain ⟨tx₂, hreserve, hbody⟩ := exists_of_bind_ok hbody
          obtain ⟨tx₃, htarget, hbody⟩ := exists_of_bind_ok hbody
          obtain ⟨tx₄, hstart, hbody⟩ := exists_of_bind_ok hbody
          obtain ⟨-, rfl⟩ := Prod.mk.inj (Except.ok.inj hbody)
          obtain ⟨hengine₁, hview₁⟩ := promoteNeuron_ok (lift_ok hpromote)
          obtain ⟨hreserved, hengine₂, hview₂⟩ := reserveAll_ok hreserve
          obtain ⟨hengine₃, -, hview₃⟩ := Transaction.stage_ok (lift_ok htarget)
          obtain ⟨hengine₄, -, hview₄⟩ := Transaction.stage_ok (lift_ok hstart)
          have hview := view_of_written (hengine₄.trans (hengine₃.trans (hengine₂.trans hengine₁))) htables
          have hstep₁ : ∀ t k, ¬(t = .migration ∧ k = statusKey) → tx₁.view t k = db.view t k := hview₁
          refine .inr ⟨hcursor.symm, fun id hid => ?_, fun id hid => ?_, ?_, ?_, ?_, fun t k ht hne => ?_⟩
          · obtain ⟨⟨hne, hhead, hfence, hstage⟩, -⟩ := hreserved id hid
            rw [hstep₁ .heads _ nofun] at hhead
            rw [hstep₁ _ _ fun heq => fenceKey_ne_statusKey id heq.2] at hfence
            rw [hstep₁ _ _ fun heq => ne_statusKey_of_length (stageKey_length id) heq.2] at hstage
            exact ⟨hne, hhead, hfence, hstage⟩
          · rw [hview .migration _ nofun, hview₄, if_neg fun heq => stageKey_ne_cursorKey _ _ heq.2, hview₃,
              if_neg fun heq => stageKey_ne_targetKey _ _ heq.2]
            exact (hreserved id hid).2
          · rw [hview .migration _ nofun, hview₄, if_neg fun heq => targetKey_ne_cursorKey _ _ heq.2, hview₃,
              if_pos ⟨rfl, rfl⟩]
          · rw [hview .migration _ nofun, hview₄, if_pos ⟨rfl, rfl⟩]
          · have hstatus : db'.view .migration statusKey = tx₁.view .migration statusKey := by
              rw [hview .migration _ nofun, hview₄,
                if_neg fun heq => ne_statusKey_of_length (cursorKey_length _) heq.2.symm, hview₃,
                if_neg fun heq => ne_statusKey_of_length (targetKey_length _) heq.2.symm,
                hview₂ _ _ fun _ id _ heq => ne_statusKey_of_length (stageKey_length id) heq.symm]
            dsimp only
            rw [Promoted, hstatus]
            exact promoted_of_promoteNeuron (lift_ok hpromote)
          · dsimp only
            rw [hview t k ht, hview₄, if_neg fun heq => (hne heq.1).2.2.1 heq.2, hview₃,
              if_neg fun heq => (hne heq.1).2.1 heq.2, hview₂ t k fun heq => (hne heq).2.2.2,
              hstep₁ t k fun heq => (hne heq.1).1 heq.2]

theorem copyRows_ok {table : Table} {max : Nat} {rows : List RawEntry} {tx tx' : Transaction}
    (h : rows.foldlM (fun tx row => immutablePut tx table row.1 row.2 max) tx = .ok tx') :
    (∀ row ∈ rows, tx'.view table row.1 = some row.2) ∧
      ∀ t k, (t = table → ∀ row ∈ rows, row.1 ≠ k) → tx'.view t k = tx.view t k := by
  induction rows generalizing tx with
  | nil =>
      obtain rfl := Except.ok.inj h
      exact ⟨nofun, fun _ _ _ => rfl⟩
  | cons first rest ih =>
      rw [List.foldlM_cons] at h
      obtain ⟨tx₁, hfirst, hrest⟩ := exists_of_bind_ok h
      obtain ⟨-, -, hview⟩ := immutablePut_ok hfirst
      obtain ⟨hall, hother⟩ := ih hrest
      refine ⟨fun row hrow => ?_, fun t k hne => ?_⟩
      · rcases List.mem_cons.mp hrow with rfl | hmem
        · refine (adds_of_foldlM hrest).kept _ _ ?_
          rw [hview, if_pos ⟨rfl, rfl⟩]
        · exact hall row hmem
      · rw [hother t k fun ht row hrow => hne ht row (List.mem_cons_of_mem _ hrow), hview, if_neg]
        rintro ⟨ht, hk⟩
        exact hne ht first (List.mem_cons_self ..) hk.symm

theorem TABLES_ne_migration {n : Nat} {table : Table} (h : TABLES[n]? = some table) :
    table ≠ .migration ∧ table ≠ .metadata := by
  have hmem := List.mem_of_getElem? h
  fin_cases hmem <;> exact ⟨nofun, nofun⟩

/-- A page that is written has compared its cursor, copied its rows and moved the cursor. -/
theorem copy_of_written {source : TransferSource} {db db' : Database} {table : Table} {cursor next : Cursor}
    {rows : List RawEntry} {tx : Transaction} {u : Unit} (htable : TABLES[cursor.table.toNat]? = some table)
    (hbody : source.pageBody table cursor next rows (.begin db.tables) = .ok (u, tx))
    (htables : db'.tables = applyChanges db.tables (withMarkers tx.changes (changeId hemera tx.changes))) :
    Copy source table cursor next rows db.view db'.view := by
  obtain ⟨stored, hstored, hbody⟩ := exists_of_bind_ok hbody
  obtain ⟨_, hsame, hbody⟩ := exists_of_bind_ok hbody
  obtain ⟨tx₁, hrows, hbody⟩ := exists_of_bind_ok hbody
  obtain ⟨tx₂, hmove, hbody⟩ := exists_of_bind_ok hbody
  obtain ⟨-, rfl⟩ := Prod.mk.inj (Except.ok.inj hbody)
  have hadds := adds_of_foldlM hrows
  obtain ⟨hcopied, hother⟩ := copyRows_ok hrows
  obtain ⟨hengine, -, hview₂⟩ := Transaction.stage_ok (lift_ok hmove)
  have hview := view_of_written (hengine.trans hadds.keeps.engine) htables
  obtain ⟨hmigration, hmetadata⟩ := TABLES_ne_migration htable
  have htable' : ∀ k, db'.view table k = tx₁.view table k := by
    intro k
    rw [hview table k hmetadata, hview₂, if_neg fun heq => hmigration heq.1]
  refine ⟨?_, ?_, fun row hrow => ?_, fun k x hx => ?_, fun t k ht hcursor hne => ?_⟩
  · have hget := Transaction.get_ok (lift_ok hstored)
    rw [not_not.mp (refuse_ok hsame)] at hget
    exact hget.symm
  · rw [hview .migration _ nofun, hview₂, if_pos ⟨rfl, rfl⟩]
  · exact (htable' _).trans (hcopied row hrow)
  · exact (htable' _).trans (hadds.kept k x hx)
  · rw [hview t k ht, hview₂, if_neg fun heq => hcursor heq.1 heq.2, hother t k hne]
    rfl

theorem pageBody_cases (source : TransferSource) (db : Database) (outcome : CommitOutcome) {table : Table}
    {cursor : Cursor} (next : Cursor) (rows : List RawEntry) (htable : TABLES[cursor.table.toNat]? = some table) :
    (db.transaction hemera Error.ofStorage outcome (source.pageBody table cursor next rows)).2.tables = db.tables ∨
      Copy source table cursor next rows db.view
        (db.transaction hemera Error.ofStorage outcome (source.pageBody table cursor next rows)).2.view := by
  cases htransaction : db.transaction hemera Error.ofStorage outcome (source.pageBody table cursor next rows) with
  | mk reply db' =>
      rcases transaction_cases hemera Error.ofStorage outcome htransaction with ⟨-, htables⟩ |
        ⟨-, -, value, tx, hbody, -, htables, -⟩
      · exact .inl htables
      · exact .inr (copy_of_written hemera htable hbody htables)

theorem stagePage_cases (source : TransferSource) (db : Database) (outcome : CommitOutcome)
    (validate : ContentValidator) (links : Except Error Unit) (cursor : Cursor) :
    (source.stagePage hemera db outcome validate links cursor).2.tables = db.tables ∨
      ∃ table rows next, TABLES[cursor.table.toNat]? = some table ∧
        source.readPage validate links table cursor = .ok (rows, next) ∧
        Copy source table cursor next rows db.view (source.stagePage hemera db outcome validate links cursor).2.view := by
  rw [TransferSource.stagePage]
  cases htable : TABLES[cursor.table.toNat]? with
  | none => exact .inl rfl
  | some table =>
      dsimp only
      cases hread : source.readPage validate links table cursor with
      | error e => exact .inl rfl
      | ok page =>
          obtain ⟨rows, next⟩ := page
          rcases pageBody_cases hemera source db outcome next rows htable with htables | hcopy
          · exact .inl htables
          · exact .inr ⟨table, rows, next, rfl, hread, hcopy⟩

/-- What a step does to the rows of a store. -/
theorem Step.cases {S : TransferSource → Prop} {db db' : Database} (h : Step hemera S db db') :
    db'.tables = db.tables ∨
    (∃ call, call.admissible = true ∧ Publication call db db') ∨
    Sealing db.view db'.view ∨
    (∃ source, S source ∧ Reservation source db.view db'.view) ∨
    ∃ source table cursor next rows validate links, S source ∧ TABLES[cursor.table.toNat]? = some table ∧
      Cursor.decode cursor.encode = .ok cursor ∧ source.readPage validate links table cursor = .ok (rows, next) ∧
      Copy source table cursor next rows db.view db'.view := by
  cases h with
  | call call outcome =>
      have hrun : call.run hemera db outcome = ((call.run hemera db outcome).1, (call.run hemera db outcome).2) := rfl
      rcases call.run_cases hemera hrun with ⟨-, htables⟩ | ⟨-, hadmissible, -, hpub, -⟩
      · exact .inl htables
      · exact .inr (.inl ⟨call, hadmissible, hpub⟩)
  | reopen => exact .inl rfl
  | archive hopen target key outcome =>
      rcases fromArchive_cases hemera hopen target key outcome with htables | hsealing
      · exact .inl htables
      · exact .inr (.inr (.inl hsealing))
  | prepare hsource outcome =>
      rcases prepareTarget_cases hemera _ db outcome with htables | hreservation
      · exact .inl htables
      · exact .inr (.inr (.inr (.inl ⟨_, hsource, hreservation⟩)))
  | page hsource outcome validate links hcursor =>
      rcases stagePage_cases hemera _ db outcome validate links _ with htables |
        ⟨table, rows, next, htable, hread, hcopy⟩
      · exact .inl htables
      · exact .inr (.inr (.inr (.inr ⟨_, table, _, next, rows, validate, links, hsource, htable, hcursor, hread, hcopy⟩)))

end LeanBbg.Storage
