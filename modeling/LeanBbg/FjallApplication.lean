import LeanBbg.ExactlyOnce
import LeanBbg.FjallEngine

/-! The application store over the engine. Calls of clients are transactions of the database, and the database is the
engine with its journal; through torn batches, failed syncs and reopenings the writes stay exactly-once. -/

namespace LeanBbg.Storage

open Bytes Attempt Fjall

/-! ### What a call stages -/

namespace Transaction

variable {tx tx' : Transaction}

theorem toList_ne_nil (v : Bytes32) : v.toList ≠ [] := by
  intro h
  have hlen := congrArg List.length h
  rw [Vector.length_toList] at hlen
  cases hlen

theorem Committable.settle {x : Except StorageError Transaction} (h : tx.Committable)
    (hx : ∀ tx', x = .ok tx' → tx'.Committable) : (settle tx x).2.Committable := by
  cases x with
  | error e => exact h
  | ok tx' => exact hx tx' rfl

theorem Committable.immutablePut {table : Table} {key value : List UInt8} {max : Nat} (h : tx.Committable)
    (htable : table ∈ NAMED_TABLES) (hkey : key ≠ []) (hput : immutablePut tx table key value max = .ok tx') :
    tx'.Committable := by
  obtain ⟨previous, -, hput⟩ := exists_of_bind_ok hput
  cases previous with
  | some previous =>
      dsimp only at hput
      split_ifs at hput
      obtain rfl := Except.ok.inj hput
      exact h
  | none => exact h.stage htable hkey (lift_ok hput)

theorem Committable.admitFresh {write : Write} (h : tx.Committable) (hfresh : admitFresh write tx = .ok tx') :
    tx'.Committable := by
  obtain ⟨_, -, hfresh⟩ := exists_of_bind_ok hfresh
  obtain ⟨_, -, hfresh⟩ := exists_of_bind_ok hfresh
  obtain ⟨_, -, hfresh⟩ := exists_of_bind_ok hfresh
  obtain ⟨_, -, hfresh⟩ := exists_of_bind_ok hfresh
  obtain ⟨_, -, hfresh⟩ := exists_of_bind_ok hfresh
  obtain ⟨_, -, hfresh⟩ := exists_of_bind_ok hfresh
  obtain ⟨_, -, hfresh⟩ := exists_of_bind_ok hfresh
  obtain ⟨_, -, hfresh⟩ := exists_of_bind_ok hfresh
  obtain ⟨_, -, hfresh⟩ := exists_of_bind_ok hfresh
  obtain ⟨_, -, hfresh⟩ := exists_of_bind_ok hfresh
  obtain ⟨_, -, hfresh⟩ := exists_of_bind_ok hfresh
  obtain ⟨tx₁, hclaims, hfresh⟩ := exists_of_bind_ok hfresh
  obtain ⟨tx₂, hcontent, hfresh⟩ := exists_of_bind_ok hfresh
  obtain ⟨_, -, hfresh⟩ := exists_of_bind_ok hfresh
  obtain ⟨_, -, hfresh⟩ := exists_of_bind_ok hfresh
  obtain rfl := Except.ok.inj hfresh
  have htx₁ : tx₁.Committable :=
    foldlM_ok (fun claim _ q q' hq hput => hq.immutablePut (by decide) (toList_ne_nil claim.1) hput) h hclaims
  exact foldlM_ok (fun entry _ q q' hq hput => hq.immutablePut (by decide) (toList_ne_nil entry.1) hput) htx₁ hcontent

theorem Committable.publish {write : Write} (h : tx.Committable) (hpublish : publish write tx = .ok tx') :
    tx'.Committable := by
  obtain ⟨tx₁, hhistory, hpublish⟩ := exists_of_bind_ok hpublish
  obtain ⟨tx₂, hheads, hrequests⟩ := exists_of_bind_ok hpublish
  have hhistoryKey : historyKey write.space write.head.index ≠ [] :=
    List.append_ne_nil_of_left_ne_nil (toList_ne_nil _) _
  have hrequestKey : requestKey write.space write.request ≠ [] :=
    List.append_ne_nil_of_left_ne_nil (toList_ne_nil _) _
  have htx₁ : tx₁.Committable := h.stage (by decide) hhistoryKey (lift_ok hhistory)
  have htx₂ : tx₂.Committable := htx₁.stage (by decide) (toList_ne_nil _) (lift_ok hheads)
  exact htx₂.stage (by decide) hrequestKey (lift_ok hrequests)

theorem Committable.migrateSources {write : Write} {migration : NamespaceMigration} (h : tx.Committable)
    (hmigrate : migrateSources write migration tx = .ok tx') : tx'.Committable := by
  obtain ⟨tx₁, hfences, hpromote⟩ := exists_of_bind_ok hmigrate
  have htx₁ : tx₁.Committable := by
    refine foldlM_ok (fun source _ q q' hq hfence => ?_) h hfences
    obtain ⟨_, -, hfence⟩ := exists_of_bind_ok hfence
    obtain ⟨_, -, hfence⟩ := exists_of_bind_ok hfence
    obtain ⟨_, -, hfence⟩ := exists_of_bind_ok hfence
    obtain ⟨_, -, hfence⟩ := exists_of_bind_ok hfence
    refine hq.immutablePut (by decide) ?_ hfence
    exact List.append_ne_nil_of_right_ne_nil _ (toList_ne_nil _)
  obtain ⟨_, -, hpromote⟩ := exists_of_bind_ok (lift_ok hpromote)
  obtain ⟨generation, -, hpromote⟩ := exists_of_bind_ok hpromote
  cases generation with
  | original => exact htx₁.stage (by decide) (by decide) hpromote
  | neuronV1 =>
      obtain rfl := Except.ok.inj hpromote
      exact htx₁
  | authenticatedV1 =>
      obtain rfl := Except.ok.inj hpromote
      exact htx₁

end Transaction

/-- Code of another caller in a transaction: it stages rows that the engine takes, and none of the kept tables. -/
structure Bystander (kept : Table → Bool) (execute : Transaction → Except StorageError Transaction) : Prop where
  committable : ∀ tx tx', tx.Committable → execute tx = .ok tx' → tx'.Committable
  keeps : ∀ tx tx', execute tx = .ok tx' → tx.KeepsRows kept tx'

theorem Bystander.put {kept : Table → Bool} {table : Table} {key value : List UInt8} (htable : table ∈ NAMED_TABLES)
    (hkey : key ≠ []) (hkept : kept table = false) : Bystander kept fun tx => tx.put table key value :=
  ⟨fun _ _ htx h => htx.stage htable hkey h, fun _ _ h => Transaction.keepsRows_stage hkept h⟩

/-- A program that uses no empty key; the engine has no such rows. -/
def Program.Keyed : Program → Prop
  | done _ => True
  | readShard _ _ _ next => ∀ answer, (next answer).Keyed
  | putShard _ _ _ next => ∀ answer, (next answer).Keyed
  | removeShard _ _ next => ∀ answer, (next answer).Keyed
  | readRecord _ _ _ next => ∀ answer, (next answer).Keyed
  | putRecord _ key _ next => key ≠ [] ∧ ∀ answer, (next answer).Keyed
  | removeRecord _ key next => key ≠ [] ∧ ∀ answer, (next answer).Keyed
  | scanRecords _ _ _ _ next => ∀ answer, (next answer).Keyed

theorem shard_mem {dimension : UInt8} {u : Unit} (h : diskDimension dimension = .ok u) :
    .shard dimension ∈ NAMED_TABLES := by
  refine mem_namedTables ?_
  rw [diskDimension] at h
  split_ifs at h with hgt heq
  have hlt : dimension < 13 := UInt8.lt_of_le_of_ne (UInt8.not_lt.mp hgt) heq
  exact UInt8.lt_trans hlt (by decide)

theorem native_mem (domain : RecordDomain) : .native domain ∈ NAMED_TABLES :=
  mem_namedTables (show Table.Named (.native domain) from trivial)

theorem Program.committable_of_run {program : Program} (hprogram : program.Keyed) {tx tx' : Transaction}
    (h : tx.Committable) (hrun : program.run tx = .ok tx') : tx'.Committable := by
  induction program generalizing tx with
  | done result =>
      cases result with
      | error e => cases hrun
      | ok u =>
          obtain rfl := Except.ok.inj hrun
          exact h
  | readShard dimension key maxElements next ih => exact ih _ (hprogram _) h hrun
  | putShard dimension key value next ih =>
      refine ih _ (hprogram _) (h.settle fun tx₁ hput => ?_) hrun
      obtain ⟨u, hdimension, hput⟩ := exists_of_bind_ok hput
      obtain ⟨u, -, hput⟩ := exists_of_bind_ok hput
      exact h.stage (shard_mem hdimension) (Transaction.toList_ne_nil key) hput
  | removeShard dimension key next ih =>
      refine ih _ (hprogram _) ?_ hrun
      cases hremove : tx.removeShard dimension key with
      | error e => exact h
      | ok result =>
          obtain ⟨previous, tx₁⟩ := result
          obtain ⟨_, hread, hstage⟩ := exists_of_bind_ok hremove
          obtain ⟨_, hstage, hresult⟩ := exists_of_bind_ok hstage
          obtain ⟨u, hdimension, -⟩ := exists_of_bind_ok hread
          rw [(Prod.mk.inj (Except.ok.inj hresult)).2] at hstage
          exact h.stage (shard_mem hdimension) (Transaction.toList_ne_nil key) hstage
  | readRecord domain key max next ih => exact ih _ (hprogram _) h hrun
  | putRecord domain key value next ih =>
      refine ih _ (hprogram.2 _) (h.settle fun tx₁ hput => ?_) hrun
      exact h.stage (native_mem domain) hprogram.1 hput
  | removeRecord domain key next ih =>
      refine ih _ (hprogram.2 _) (h.settle fun tx₁ hremove => ?_) hrun
      exact h.stage (native_mem domain) hprogram.1 hremove
  | scanRecords domain after pre limits next ih => exact ih _ (hprogram _) h hrun

/-- The program of a call uses no empty key. -/
def Call.Keyed : Call → Prop
  | applyWith _ program => program.Keyed
  | _ => True

/-- A call stages what the engine can hold. -/
theorem Call.committable {call : Call} (hcall : call.Keyed) {tx tx' : Transaction} {head : Head} (h : tx.Committable)
    (hbody : applyBody call.write call.allowRetry call.transition tx = .ok (head, tx')) : tx'.Committable := by
  obtain ⟨admitted, hadmission, hbody⟩ := exists_of_bind_ok hbody
  cases admitted with
  | inl head' =>
      obtain ⟨rfl, rfl⟩ := Prod.mk.inj (Except.ok.inj hbody)
      exact h
  | inr tx₁ =>
      have htx₁ : tx₁.Committable := by
        obtain ⟨prior, -, hadmission⟩ := exists_of_bind_ok hadmission
        cases prior with
        | some prior =>
            dsimp only at hadmission
            split_ifs at hadmission
            obtain ⟨⟨fingerprint, head'⟩, -, hadmission⟩ := exists_of_bind_ok hadmission
            dsimp only at hadmission
            split_ifs at hadmission
            cases hadmission
        | none =>
            cases hfresh : admitFresh call.write tx with
            | error e =>
                dsimp only at hadmission
                rw [hfresh] at hadmission
                cases hadmission
            | ok tx₂ =>
                dsimp only at hadmission
                rw [hfresh] at hadmission
                obtain rfl := Sum.inr.inj (Except.ok.inj hadmission)
                exact h.admitFresh hfresh
      obtain ⟨tx₂, htransition, hbody⟩ := exists_of_bind_ok hbody
      obtain ⟨tx₃, hpublish, hresult⟩ := exists_of_bind_ok hbody
      obtain ⟨rfl, rfl⟩ := Prod.mk.inj (Except.ok.inj hresult)
      refine Transaction.Committable.publish ?_ hpublish
      cases call with
      | apply write =>
          obtain rfl := Except.ok.inj htransition
          exact htx₁
      | applyOnce write =>
          obtain rfl := Except.ok.inj htransition
          exact htx₁
      | applyWith write program => exact program.committable_of_run hcall htx₁ htransition
      | applyMigration write migration => exact htx₁.migrateSources htransition

/-! ### The store -/

inductive StoreEvent where
  | call (c : Call) (fault : Option Fault) (io : String)
  | rotateMemtable (name : String)
  | flush (name : String) (n : Nat)
  | maintenance
  | reopen (kept : Nat)

/-- What an event does to the database; a call whose arguments are refused does not get to it. -/
def StoreEvent.op : StoreEvent → Option (DatabaseOp Error Head)
  | .call c fault io =>
      if c.admissible then some (.transaction (applyBody c.write c.allowRetry c.transition) fault io) else none
  | .rotateMemtable name => some (.rotateMemtable name)
  | .flush name n => some (.flush name n)
  | .maintenance => some .maintenance
  | .reopen kept => some (.reopen kept)

section Store

variable (hemera : List UInt8 → Bytes32)

/-- The same over the tables, with the writes that were published so far. -/
inductive StoreStep :
    List Write × Database → StoreEvent → Option (Except Error Head) → List Write × Database → Prop where
  | call (published : List Write) (db : Database) (c : Call) (fault : Option Fault) (io : String)
      (outcome : CommitOutcome) (houtcome : outcome.Of fault) :
      StoreStep (published, db) (.call c fault io) (some (c.run hemera db outcome).1.result)
        (published ++ (if (c.run hemera db outcome).1.written then [c.write] else []), (c.run hemera db outcome).2)
  | rotateMemtable (state : List Write × Database) (name : String) : StoreStep state (.rotateMemtable name) none state
  | flush (state : List Write × Database) (name : String) (n : Nat) : StoreStep state (.flush name n) none state
  | maintenance (state : List Write × Database) : StoreStep state .maintenance none state
  | reopen (published : List Write) (db : Database) (kept : Nat) :
      StoreStep (published, db) (.reopen kept) none (published, { db with failure := none })

variable {hemera}

/-- A step of the tables is one of the store, whatever was published before. -/
theorem StoreStep.of_database {event : StoreEvent} {op : DatabaseOp Error Head} (hop : event.op = some op)
    {answer : Option (Except Error Head)} {db db' : Database}
    (h : Database.Step hemera Error.ofStorage db op answer db') (published : List Write) :
    ∃ published', StoreStep hemera (published, db) event answer (published', db') := by
  cases event with
  | call c fault io =>
      rw [StoreEvent.op] at hop
      split_ifs at hop with hadmissible
      obtain rfl := Option.some.inj hop
      cases h with
      | transaction _ _ _ outcome houtcome =>
          have hcall : StoreStep hemera (published, db) (.call c fault io)
              (some (c.run hemera db outcome).1.result) _ :=
            .call published db c fault io outcome houtcome
          rw [c.run_eq, if_pos hadmissible] at hcall
          exact ⟨_, hcall⟩
  | rotateMemtable name =>
      obtain rfl := Option.some.inj hop
      cases h
      exact ⟨published, .rotateMemtable _ name⟩
  | flush name n =>
      obtain rfl := Option.some.inj hop
      cases h
      exact ⟨published, .flush _ name n⟩
  | maintenance =>
      obtain rfl := Option.some.inj hop
      cases h
      exact ⟨published, .maintenance _⟩
  | reopen kept =>
      obtain rfl := Option.some.inj hop
      cases h
      exact ⟨published, .reopen _ _ kept⟩

/-- The programs of callers use no empty key. -/
def StoreEvent.Keyed : StoreEvent → Prop
  | .call c _ _ => c.Keyed
  | _ => True

theorem StoreEvent.valid_of_keyed {event : StoreEvent} (h : event.Keyed) {op : DatabaseOp Error Head}
    (hop : event.op = some op) : op.Valid := by
  cases event with
  | call c fault io =>
      rw [StoreEvent.op] at hop
      split_ifs at hop
      obtain rfl := Option.some.inj hop
      exact fun tables head tx hexec => c.committable h (committable_begin tables) hexec
  | rotateMemtable name =>
      obtain rfl := Option.some.inj hop
      trivial
  | flush name n =>
      obtain rfl := Option.some.inj hop
      trivial
  | maintenance =>
      obtain rfl := Option.some.inj hop
      trivial
  | reopen kept =>
      obtain rfl := Option.some.inj hop
      trivial

/-! ### Publications -/

/-- The rows that the publications leave behind, and no receipts of others. -/
structure Recorded (published : List Write) (db : Database) : Prop extends Ledger published db where
  from_receipts : ∀ key row, db.view .requests key = some row →
    ∃ write ∈ published, key = requestKey write.space write.request ∧ row = encodeRequest write.fingerprint write.head

/-- A call that is answered with a head has published it, or an earlier call with its request and fingerprint has. -/
def Acknowledged (event : StoreEvent) (answer : Option (Except Error Head)) (published : List Write) : Prop :=
  ∀ c fault io head, event = .call c fault io → answer = some (.ok head) →
    ∃ write ∈ published, write.space = c.write.space ∧ write.request = c.write.request ∧
      write.fingerprint = c.write.fingerprint ∧ write.head = head

variable {published published' : List Write} {db db' : Database} {event : StoreEvent}
  {answer : Option (Except Error Head)}

theorem Recorded.empty : Recorded [] Database.empty := by
  refine ⟨Ledger.empty, fun key row hrow => ?_⟩
  cases hrow

/-- What is recorded shows in the tables alone. -/
theorem Recorded.congr (h : Recorded published db) (htables : db'.tables = db.tables) : Recorded published db' := by
  have hview : db'.view = db.view := by
    unfold Database.view
    rw [htables]
  refine ⟨⟨h.nodup, ?_, h.indices, ?_, ?_⟩, ?_⟩ <;> rw [hview]
  · exact h.receipts
  · exact h.heads
  · exact h.history
  · exact h.from_receipts

theorem Recorded.publish (h : Recorded published db) {c : Call} (hpub : Publication c db db') :
    Recorded (published ++ [c.write]) db' := by
  refine ⟨h.toLedger.publish hpub, fun key row hrow => ?_⟩
  rw [hpub.published.requests] at hrow
  split_ifs at hrow with hkey
  · exact ⟨c.write, List.mem_append_right _ (List.mem_singleton_self _), hkey, (Option.some_inj.mp hrow).symm⟩
  · obtain ⟨write, hwrite, hrest⟩ := h.from_receipts key row hrow
    exact ⟨write, List.mem_append_left _ hwrite, hrest⟩

/-- A call that writes nothing and is answered with a head has found its receipt. -/
theorem Recorded.acknowledged_of_run (h : Recorded published db) {c : Call} {outcome : CommitOutcome}
    {reply : Reply Error Head} (hrun : c.run hemera db outcome = (reply, db')) (hwritten : reply.written = false)
    {head : Head} (hresult : reply.result = .ok head) : ∃ write ∈ published, write.space = c.write.space ∧
      write.request = c.write.request ∧ write.fingerprint = c.write.fingerprint ∧ write.head = head := by
  rw [c.run_eq] at hrun
  split_ifs at hrun with hadmissible
  · obtain ⟨tx, hbody, hchanges⟩ := transaction_ok hemera Error.ofStorage outcome hrun hresult
    rcases hchanges with ⟨hchanges, -⟩ | ⟨htrue, -⟩
    · rcases applyBody_ok c.keepsApplication_transition hbody with ⟨-, -, hreceipt⟩ | ⟨-, -, hne, -⟩
      · rw [Transaction.view_begin] at hreceipt
        obtain ⟨write, hwrite, hkey, hrow⟩ := h.from_receipts _ _ hreceipt
        obtain ⟨hspace, hrequest⟩ := requestKey_injective hkey
        obtain ⟨hfingerprint, hhead⟩ := encodeRequest_injective hrow
        exact ⟨write, hwrite, hspace.symm, hrequest.symm, hfingerprint.symm, hhead.symm⟩
      · exact absurd hchanges hne
    · rw [hwritten] at htrue
      cases htrue
  · obtain ⟨rfl, -⟩ := Prod.mk.inj hrun
    cases hresult

/-- One step: the rows stay those of the publications, and an answer with a head is the head of a publication. -/
theorem Recorded.step (h : Recorded published db)
    (hstep : StoreStep hemera (published, db) event answer (published', db')) :
    Recorded published' db' ∧ Acknowledged event answer published' ∧ published ⊆ published' ∧
      ∀ write ∈ published', write ∈ published ∨ ∃ c fault io, event = .call c fault io ∧ write = c.write := by
  have hquiet : ∀ event : StoreEvent, Acknowledged event none published := fun _ _ _ _ _ _ hanswer => by cases hanswer
  cases hstep with
  | call _ _ c fault io outcome houtcome =>
      generalize hrun : c.run hemera db outcome = result
      obtain ⟨reply, db'⟩ := result
      rcases c.run_cases hemera hrun with ⟨hwritten, htables⟩ | ⟨hwritten, -, -, hpub, hresult⟩
      · rw [if_neg (by rw [hwritten]; exact Bool.false_ne_true), List.append_nil]
        refine ⟨h.congr htables, fun c' fault' io' head hevent hanswer => ?_, List.Subset.refl _,
          fun write hwrite => .inl hwrite⟩
        obtain ⟨rfl, -, -⟩ := StoreEvent.call.inj hevent
        exact h.acknowledged_of_run hrun hwritten (Option.some_inj.mp hanswer)
      · rw [if_pos hwritten]
        refine ⟨h.publish hpub, fun c' fault' io' head hevent hanswer => ?_, List.subset_append_left _ _,
          fun write hwrite => ?_⟩
        · obtain ⟨rfl, -, -⟩ := StoreEvent.call.inj hevent
          rcases hresult with hok | ⟨message, herror⟩
          · rw [Option.some_inj, hok] at hanswer
            exact ⟨c.write, List.mem_append_right _ (List.mem_singleton_self _), rfl, rfl, rfl, Except.ok.inj hanswer⟩
          · rw [Option.some_inj, herror] at hanswer
            cases hanswer
        · rcases List.mem_append.mp hwrite with hold | hnew
          · exact .inl hold
          · exact .inr ⟨c, fault, io, rfl, List.mem_singleton.mp hnew⟩
  | rotateMemtable _ name => exact ⟨h, hquiet _, List.Subset.refl _, fun write hwrite => .inl hwrite⟩
  | flush _ name n => exact ⟨h, hquiet _, List.Subset.refl _, fun write hwrite => .inl hwrite⟩
  | maintenance => exact ⟨h, hquiet _, List.Subset.refl _, fun write hwrite => .inl hwrite⟩
  | reopen _ _ kept => exact ⟨h.congr rfl, hquiet _, List.Subset.refl _, fun write hwrite => .inl hwrite⟩

/-- What a run of the store records: the publications that its clients asked for, and the heads it answered with. -/
theorem recorded_of_runs {events : List StoreEvent} {answers : List (Option (Except Error Head))}
    (hruns : Refine.Runs (StoreStep hemera) ([], Database.empty) events answers (published, db)) :
    Recorded published db ∧ (∀ write ∈ published, ∃ c fault io, .call c fault io ∈ events ∧ write = c.write) ∧
      ∀ pair ∈ events.zip answers, Acknowledged pair.1 pair.2 published := by
  have hasked : ∀ (a : List Write × Database) event answer (a' : List Write × Database),
      (Recorded a.1 a.2 ∧ ∀ write ∈ a.1, ∃ c fault io, .call c fault io ∈ events ∧ write = c.write) → event ∈ events →
      StoreStep hemera a event answer a' →
      Recorded a'.1 a'.2 ∧ ∀ write ∈ a'.1, ∃ c fault io, .call c fault io ∈ events ∧ write = c.write := by
    rintro a event answer a' ⟨hrecorded, hasked⟩ hevent hstep
    obtain ⟨hrecorded', -, -, hnew⟩ := hrecorded.step hstep
    refine ⟨hrecorded', fun write hwrite => ?_⟩
    rcases hnew write hwrite with hold | ⟨c, fault, io, rfl, rfl⟩
    · exact hasked write hold
    · exact ⟨c, fault, io, hevent, rfl⟩
  have hgood : ∀ (a : List Write × Database) event answer (a' : List Write × Database), Recorded a.1 a.2 →
      StoreStep hemera a event answer a' → Recorded a'.1 a'.2 ∧ Acknowledged event answer a'.1 := by
    intro a event answer a' h hstep
    obtain ⟨hrecorded, hgood, -, -⟩ := h.step hstep
    exact ⟨hrecorded, hgood⟩
  -- an earlier answer stays good since publications are only added
  have hkeep : ∀ (a : List Write × Database) event answer (a' : List Write × Database), Recorded a.1 a.2 →
      StoreStep hemera a event answer a' → ∀ event' answer', Acknowledged event' answer' a.1 →
      Acknowledged event' answer' a'.1 := by
    intro a event answer a' h hstep event' answer' hgood c fault io head hevent hanswer
    obtain ⟨-, -, hsubset, -⟩ := h.step hstep
    obtain ⟨write, hwrite, hrest⟩ := hgood c fault io head hevent hanswer
    exact ⟨write, hsubset hwrite, hrest⟩
  obtain ⟨hrecorded, hasked⟩ := hruns.invariant hasked (fun _ hevent => hevent)
    ⟨Recorded.empty, fun write hwrite => absurd hwrite List.not_mem_nil⟩
  exact ⟨hrecorded, hasked, hruns.forall_answers hgood hkeep Recorded.empty⟩

/-- The receipts of the tables are those of the publications. -/
theorem Recorded.find_receipt (h : Recorded published db) (space request : Particle) :
    db.view .requests (requestKey space request) =
      (published.find? fun write => write.space = space ∧ write.request = request).map fun write =>
        encodeRequest write.fingerprint write.head := by
  cases hfind : published.find? fun write => decide (write.space = space ∧ write.request = request) with
  | some write =>
      have hfound := List.find?_some hfind
      obtain ⟨rfl, rfl⟩ := of_decide_eq_true hfound
      exact h.receipts write (List.mem_of_find?_eq_some hfind)
  | none =>
      rw [Option.map_none]
      by_contra hrow
      obtain ⟨row, hrow⟩ := Option.ne_none_iff_exists'.mp hrow
      obtain ⟨write, hwrite, hkey, -⟩ := h.from_receipts _ row hrow
      obtain ⟨rfl, rfl⟩ := requestKey_injective hkey
      have hno := List.find?_eq_none.mp hfind write hwrite
      exact hno (decide_eq_true ⟨rfl, rfl⟩)

theorem engineGet_eq_ok {tables : Tables} {table : Table} {key : List UInt8} {max : Nat} {row : Option (List UInt8)}
    (hrow : (tables table)[key]? = row) (hlen : ∀ bytes, row = some bytes → bytes.length ≤ max) :
    engineGet tables table key max = .ok row := by
  rw [engineGet, hrow]
  cases row with
  | none => rfl
  | some bytes => exact if_neg (Nat.not_lt.mpr (hlen bytes rfl))

end Store

section Engine

variable {T : Type} [AbstractTree T] [Coding] (xxh3 : List UInt8 → UInt64) (hemera : List UInt8 → Bytes32)

def FjallDatabase.storeStep (db : FjallDatabase T) (event : StoreEvent) :
    Option (Option (Except Error Head) × FjallDatabase T) :=
  match event.op with
  | some op => db.step xxh3 hemera Error.ofStorage op
  | none => some (some (.error .limit), db)

variable {xxh3 hemera} [LawfulTree T] [LawfulCoding]

def FjallDatabase.StoreFollows (xxh3 : List UInt8 → UInt64) (n : Nat) (db : FjallDatabase T)
    (states : Set (List Write × Database)) : Prop := db.Follows xxh3 n (Prod.snd '' states)

omit [LawfulTree T] [LawfulCoding] in
theorem FjallDatabase.Follows.more {n : Nat} {db : FjallDatabase T} {states : Set Database}
    (h : db.Follows xxh3 n states) : db.Follows xxh3 (n + 1) states := by
  obtain ⟨ledger, hkeyspace, hrest⟩ := h
  exact ⟨ledger, hkeyspace.more, hrest⟩

theorem FjallDatabase.StoreFollows.step (n : Nat) (hn : n < 2 ^ 64) (db : FjallDatabase T)
    (states : Set (List Write × Database)) (event : StoreEvent) (h : db.StoreFollows xxh3 n states)
    (hevent : event.Keyed) : ∃ answer db' states', db.storeStep xxh3 hemera event = some (answer, db') ∧
      (∀ state' ∈ states', ∃ state ∈ states, StoreStep hemera state event answer state') ∧
      db'.StoreFollows xxh3 (n + 1) states' := by
  rw [FjallDatabase.storeStep]
  cases hop : event.op with
  | none =>
      -- the call is refused for its arguments, in any state of the tables
      cases event with
      | call c fault io =>
          rw [StoreEvent.op] at hop
          split_ifs at hop with hadmissible
          obtain ⟨outcome, houtcome⟩ := exists_outcome fault
          refine ⟨_, db, states, rfl, fun state hstate => ⟨state, hstate, ?_⟩, h.more⟩
          have hcall : StoreStep hemera state (.call c fault io) (some (c.run hemera state.2 outcome).1.result) _ :=
            .call state.1 state.2 c fault io outcome houtcome
          rw [c.run_eq, if_neg hadmissible] at hcall
          simpa using hcall
      | rotateMemtable name => cases hop
      | flush name n => cases hop
      | maintenance => cases hop
      | reopen kept => cases hop
  | some op =>
      have hnext : ∃ answer db' tables', db.step xxh3 hemera Error.ofStorage op = some (answer, db') ∧
          (∀ state' ∈ tables', ∃ state ∈ Prod.snd '' states,
            Database.Step hemera Error.ofStorage state op answer state') ∧
          db'.Follows xxh3 (n + 1) tables' :=
        FjallDatabase.Follows.step n hn db _ op h (StoreEvent.valid_of_keyed hevent hop)
      obtain ⟨answer, db', tables', hstep, htables', hfollows⟩ := hnext
      refine ⟨answer, db', {state' | state'.2 ∈ tables' ∧ ∃ state ∈ states, StoreStep hemera state event answer state'},
        hstep, fun state' hstate' => hstate'.2, ?_⟩
      have heq : Prod.snd '' {state' | state'.2 ∈ tables' ∧
          ∃ state ∈ states, StoreStep hemera state event answer state'} = tables' := by
        refine Set.ext fun table' => ⟨?_, fun htable' => ?_⟩
        · rintro ⟨state', hstate', rfl⟩
          exact hstate'.1
        · obtain ⟨_, ⟨⟨published, state⟩, hstate, rfl⟩, hdatabase⟩ := htables' table' htable'
          obtain ⟨published', hstore⟩ := StoreStep.of_database hop hdatabase published
          exact ⟨(published', table'), ⟨htable', _, hstate, hstore⟩, rfl⟩
      rw [FjallDatabase.StoreFollows, heq]
      exact hfollows

/-! ### Whole runs -/

/-- The writes that a run of the store over the engine has published: each request at most once and as a client asked,
every answer with a head is the head of its publication, the publications of a namespace are numbered from zero, and
the engine shows the last head of each namespace and the receipts, no others. -/
structure ExactlyOnce (events : List StoreEvent) (answers : List (Option (Except Error Head))) (db : FjallDatabase T)
    (published : List Write) : Prop where
  nodup : (published.map fun write => (write.space, write.request)).Nodup
  asked : ∀ write ∈ published, ∃ c fault io, .call c fault io ∈ events ∧ write = c.write
  acknowledged : ∀ pair ∈ events.zip answers, Acknowledged pair.1 pair.2 published
  indices : ∀ (space : Particle) (i : Nat) (write : Write), (publications published space)[i]? = some write →
    write.head.index.toNat = i
  heads : db.failure = none → ∀ space : Particle, db.engine.get .heads space.toList 40 =
    .ok ((publications published space).getLast?.map fun write => encodeHead write.head)
  receipts : db.failure = none → ∀ space request : Particle, db.engine.get .requests (requestKey space request) 72 =
    .ok ((published.find? fun write => write.space = space ∧ write.request = request).map fun write =>
      encodeRequest write.fingerprint write.head)

/-- Every run of a new store over the engine goes through, and its writes are exactly-once: torn batches, failed syncs,
lost calls of a failed database, reopenings and the engine's own work in any order change nothing about that. -/
theorem fjall_runs_exactlyOnce {events : List StoreEvent} (hevents : ∀ event ∈ events, event.Keyed)
    (hlen : events.length ≤ 2 ^ 64) : ∃ answers db published,
      Refine.run (FjallDatabase.storeStep xxh3 hemera) (FjallDatabase.create : FjallDatabase T) events =
        some (answers, db) ∧ ExactlyOnce events answers db published := by
  have hcreate : (FjallDatabase.create : FjallDatabase T).StoreFollows xxh3 0 {([], Database.empty)} := by
    rw [FjallDatabase.StoreFollows, Set.image_singleton]
    exact FjallDatabase.follows_create
  have hrefines : ∃ answers db states, Refine.run (FjallDatabase.storeStep xxh3 hemera)
      (FjallDatabase.create : FjallDatabase T) events = some (answers, db) ∧
      db.StoreFollows xxh3 (0 + events.length) states ∧ ∀ state' ∈ states, ∃ state ∈ {([], Database.empty)},
        Refine.Runs (StoreStep hemera) state events answers state' :=
    Refine.exists_runs_of_sets FjallDatabase.StoreFollows.step hcreate hevents (by omega)
  obtain ⟨answers, db, states, hrun, hfollows, hruns⟩ := hrefines
  obtain ⟨_, ⟨published, tables⟩, hstate, rfl⟩ := FjallDatabase.Follows.nonempty hfollows
  obtain ⟨start, rfl, hruns⟩ := hruns _ hstate
  obtain ⟨hrecorded, hasked, hacknowledged⟩ := recorded_of_runs hruns
  refine ⟨answers, db, published, hrun, ?_⟩
  have hsettled : db.failure = none → tables.tables = db.engine.tables := by
    intro hfailure
    obtain ⟨engine, failure⟩ := db
    obtain rfl : failure = none := hfailure
    exact congrArg Database.tables (FjallDatabase.Follows.settled hfollows _ ⟨_, hstate, rfl⟩)
  refine ⟨hrecorded.nodup, hasked, hacknowledged, hrecorded.indices, fun hfailure space => ?_,
    fun hfailure space request => ?_⟩
  · rw [db.engine.get_eq (by decide), ← hsettled hfailure]
    refine engineGet_eq_ok (hrecorded.heads space) fun bytes hbytes => ?_
    obtain ⟨write, -, rfl⟩ := Option.map_eq_some_iff.mp hbytes
    rw [encodeHead_length]
  · rw [db.engine.get_eq (by decide), ← hsettled hfailure]
    refine engineGet_eq_ok (hrecorded.find_receipt space request) fun bytes hbytes => ?_
    obtain ⟨write, -, rfl⟩ := Option.map_eq_some_iff.mp hbytes
    rw [encodeRequest_length]

end Engine

/-- A call whose batch does not reach the disk, and a retry of it after the database is opened again. -/
theorem fjall_runs_exactlyOnce_retried :
    let events : List StoreEvent :=
      [.call (.apply firstWrite) (some .persist) "", .reopen 90, .call (.apply firstWrite) none ""]
    ∃ answers db published, Refine.run (FjallDatabase.storeStep (fun _ => 0) fun _ => repeated 0)
      (FjallDatabase.create : FjallDatabase LsmTree) events = some (answers, db) ∧
      ExactlyOnce events answers db published := by
  refine fjall_runs_exactlyOnce (fun event hevent => ?_) (by decide)
  fin_cases hevent
  · trivial
  · trivial
  · trivial

end LeanBbg.Storage
