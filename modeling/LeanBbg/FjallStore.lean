import LeanBbg.DiskRefinement
import LeanBbg.FjallApplication

/-! The shard store over the engine. What a store has staged is lost with its process, and what it has committed is in
the journal; through torn batches, failed syncs and crashes it is a map whose commits are published one by one. -/

set_option linter.unusedSectionVars false

namespace LeanBbg.Storage

open Bytes Attempt Fjall

variable {F : Type} [Nebu F]

/-! ### The store -/

/-- The closure of a transaction that answers with the change id of its commit. -/
def withChangeId (hemera : List UInt8 → Bytes32) (execute : Transaction → Except StorageError (Unit × Transaction))
    (tx : Transaction) : Except StorageError (Option Bytes32 × Transaction) :=
  (execute tx).map fun result =>
    (if result.2.changes.entries.isEmpty then none else some (changeId hemera result.2.changes), result.2)

/-- The closure of another view. -/
def withoutChangeId (execute : Transaction → Except StorageError Transaction) (tx : Transaction) :
    Except StorageError (Option Bytes32 × Transaction) :=
  (execute tx).map fun tx => (none, tx)

/-- The end of a commit, by the answer of its transaction. -/
def WriteBuffer.settle (b : WriteBuffer F) :
    Except StorageError (Option Bytes32) → Except StorageError Bytes32 × WriteBuffer F
  | .ok (some id) => (.ok id, b.finish)
  | .ok none => (.error (.corrupt "missing shard commit identity"), b)
  | .error e =>
      match e with
      | .commitUnknown _ _ => (.error e, { b with unknown := some e })
      | _ => (.error e, b)

/-- What happens to the database under a store, whose transactions answer with their change ids. -/
abbrev StoreTransaction := DatabaseOp StorageError (Option Bytes32)

structure FjallStore (F T : Type) where
  db : FjallDatabase T
  pending : WriteBuffer F

/-- Calls of the store's owner, transactions of other views of its database, the work of the engine in the background,
and the end of a process with what is left of the journal, after which the store is opened again. -/
inductive ShardEvent (F : Type) where
  | put (dimension : UInt8) (key : Bytes32) (value : List F)
  | remove (dimension : UInt8) (key : Bytes32)
  | read (dimension : UInt8) (key : Bytes32) (maxElements : Nat)
  | commit (fault : Option Fault) (io : String)
  | elsewhere (execute : Transaction → Except StorageError Transaction) (fault : Option Fault) (io : String)
  | rotateMemtable (name : String)
  | flush (name : String) (n : Nat)
  | maintenance
  | crash (kept : Nat)

namespace FjallStore

section Step

variable {T : Type} [AbstractTree T] [Coding] (xxh3 : List UInt8 → UInt64) (hemera : List UInt8 → Bytes32)

def create : FjallStore F T := ⟨.create, .empty⟩

/-- The store as its reads find it, with the rows that the engine reads. -/
def shown (s : FjallStore F T) : DiskStore F := ⟨⟨s.db.engine.tables, s.db.failure⟩, s.pending⟩

def put (s : FjallStore F T) (dimension : UInt8) (key : Bytes32) (value : List F) :
    Except StorageError (FjallStore F T) :=
  (s.shown.put dimension key value).map fun next => { s with pending := next.pending }

def remove (s : FjallStore F T) (dimension : UInt8) (key : Bytes32) :
    Except StorageError (Option (List F) × FjallStore F T) :=
  (s.shown.remove dimension key).map fun next => (next.1, { s with pending := next.2.pending })

def commit (s : FjallStore F T) (fault : Option Fault) (io : String) :
    Except StorageError Bytes32 × FjallStore F T :=
  match s.shown.ready with
  | .error e => (.error e, s)
  | .ok () =>
      if !s.pending.hasPending then (s.shown.lastCommit.map fun id => id.getD (s.pending.changeId hemera), s)
      else
        let committed := s.db.transaction xxh3 hemera id (withChangeId hemera (DiskStore.publish s.pending)) fault io
        let settled := s.pending.settle committed.1
        (settled.1, ⟨committed.2, settled.2⟩)

def elsewhere (s : FjallStore F T) (execute : Transaction → Except StorageError Transaction) (fault : Option Fault)
    (io : String) : DiskAnswer F × FjallStore F T :=
  let committed := s.db.transaction xxh3 hemera id (withoutChangeId execute) fault io
  (.done (committed.1.map fun _ => ()), { s with db := committed.2 })

/-- The engine's own work. -/
def work (s : FjallStore F T) (op : StoreTransaction) : Option (DiskAnswer F × FjallStore F T) :=
  (s.db.step xxh3 hemera id op).map fun next => (.none, { s with db := next.2 })

def step (s : FjallStore F T) : ShardEvent F → Option (DiskAnswer F × FjallStore F T)
  | .put dimension key value =>
      match s.put dimension key value with
      | .ok s' => some (.done (.ok ()), s')
      | .error e => some (.done (.error e), s)
  | .remove dimension key =>
      match s.remove dimension key with
      | .ok (value, s') => some (.value (.ok value), s')
      | .error e => some (.value (.error e), s)
  | .read dimension key maxElements => some (.value (s.shown.read dimension key maxElements), s)
  | .commit fault io => some (Prod.map .id id (s.commit xxh3 hemera fault io))
  | .elsewhere execute fault io => some (s.elsewhere xxh3 hemera execute fault io)
  | .rotateMemtable name => s.work xxh3 hemera (.rotateMemtable name)
  | .flush name n => s.work xxh3 hemera (.flush name n)
  | .maintenance => s.work xxh3 hemera .maintenance
  | .crash kept =>
      -- the pending set and the local values are gone with the process
      (s.work xxh3 hemera (.reopen kept)).map fun next => (next.1, { next.2 with pending := .empty })

end Step

end FjallStore

/-- The tables that another view leaves alone: the shards and the markers of commits. -/
def storeTables (table : Table) : Bool := table matches .shard _ | .metadata

def ShardEvent.Valid : ShardEvent F → Prop
  | elsewhere execute _ _ => Bystander storeTables execute
  | _ => True

/-! ### The map and its commits -/

/-- A call on a dimension fails for its dimension or for a limit, or because the store has failed before. -/
def Shelf.Refuses (A : Shelf F) (dimension : UInt8) (e : StorageError) : Prop :=
  A.failure = some e ∨
    A.failure = none ∧ ((EPHEMERAL < dimension ∧ e = .invalidDimension dimension) ∨ ∃ message, e = .limit message)

/-- What a store does to its shelf. A commit without a fault publishes all that is staged; one with a fault may have or
not, and then nothing answers until the store is opened again; a crash leaves what is committed. -/
inductive Shelf.Step : Shelf F → ShardEvent F → DiskAnswer F → Shelf F → Prop where
  | put (A : Shelf F) (dimension : UInt8) (key : Bytes32) (value : List F) (hready : A.failure = none) :
      Step A (.put dimension key value) (.done (.ok ())) (A.put ⟨dimension, key⟩ value)
  | putRefused (A : Shelf F) (dimension : UInt8) (key : Bytes32) (value : List F) (e : StorageError)
      (hrefuses : A.Refuses dimension e) : Step A (.put dimension key value) (.done (.error e)) A
  | remove (A : Shelf F) (dimension : UInt8) (key : Bytes32) (hready : A.failure = none) :
      Step A (.remove dimension key) (.value (.ok (A.read ⟨dimension, key⟩))) (A.remove ⟨dimension, key⟩)
  | removeRefused (A : Shelf F) (dimension : UInt8) (key : Bytes32) (e : StorageError)
      (hrefuses : A.Refuses dimension e) : Step A (.remove dimension key) (.value (.error e)) A
  | read (A : Shelf F) (dimension : UInt8) (key : Bytes32) (maxElements : Nat)
      (answer : Except StorageError (Option (List F)))
      (hready : A.failure = none → dimension ≤ EPHEMERAL → maxElements ≤ MAX_VALUE_ELEMENTS →
        Answered maxElements (A.read ⟨dimension, key⟩) answer)
      (hfailed : ∀ e, A.failure = some e → answer = .error e) :
      Step A (.read dimension key maxElements) (.value answer) A
  | commit (A : Shelf F) (fault : Option Fault) (io : String) (id : Bytes32) (hready : A.failure = none)
      (hclean : fault.isSome → ∀ k, A.staged k = none) : Step A (.commit fault io) (.id (.ok id)) A.commit
  | commitUnknown (A : Shelf F) (fault : Fault) (io : String) (id : Bytes32) (message : String) (applied : Bool)
      (hready : A.failure = none) : Step A (.commit (some fault) io) (.id (.error (.commitUnknown id message)))
        { A with
          committed := if applied then A.published else A.committed
          failure := some (.commitUnknown id message) }
  | commitFailed (A : Shelf F) (fault : Option Fault) (io : String) (e : StorageError) (hfailed : A.failure = some e) :
      Step A (.commit fault io) (.id (.error e)) A
  | elsewhere (A : Shelf F) (execute : Transaction → Except StorageError Transaction) (fault : Option Fault)
      (io : String) (answer : Except StorageError Unit) (hfailed : ∀ e, A.failure = some e → answer = .error e) :
      Step A (.elsewhere execute fault io) (.done answer) A
  | elsewhereUnknown (A : Shelf F) (execute : Transaction → Except StorageError Transaction) (fault : Fault)
      (io : String) (id : Bytes32) (message : String) (hready : A.failure = none) :
      Step A (.elsewhere execute (some fault) io) (.done (.error (.commitUnknown id message)))
        { A with failure := some (.commitUnknown id message) }
  | rotateMemtable (A : Shelf F) (name : String) : Step A (.rotateMemtable name) .none A
  | flush (A : Shelf F) (name : String) (n : Nat) : Step A (.flush name n) .none A
  | maintenance (A : Shelf F) : Step A .maintenance .none A
  | crash (A : Shelf F) (kept : Nat) : Step A (.crash kept) .none (.ofMap A.committed none)

/-! ### Commits as transactions -/

section Commits

variable (hemera : List UInt8 → Bytes32)

theorem transaction_withChangeId (db : Database) (execute : Transaction → Except StorageError (Unit × Transaction))
    (outcome : CommitOutcome) :
    (db.transaction hemera id outcome (withChangeId hemera execute)).1.result =
        (db.transact hemera id outcome execute).1.map Commit.changeId ∧
      (db.transaction hemera id outcome (withChangeId hemera execute)).2 =
        (db.transact hemera id outcome execute).2 := by
  unfold Database.transaction Database.transact withChangeId
  cases db.failure with
  | some e => exact ⟨rfl, rfl⟩
  | none =>
      dsimp only
      cases execute (.begin db.tables) with
      | error e => exact ⟨rfl, rfl⟩
      | ok result =>
          change (if result.2.changes.entries.isEmpty then _ else _ : Reply _ _ × Database).1.result = _ ∧
            (if result.2.changes.entries.isEmpty then _ else _ : Reply _ _ × Database).2 = _
          dsimp only
          split_ifs with hempty
          · exact ⟨rfl, rfl⟩
          · cases outcome with
            | done => exact ⟨rfl, rfl⟩
            | failed message => exact ⟨rfl, rfl⟩
            | unknown message applied => exact ⟨rfl, rfl⟩

/-- A commit of a pending set is its transaction, settled. -/
theorem DiskStore.commit_settle {s : DiskStore F} (hready : s.ready = .ok ()) (hpending : s.pending.hasPending = true)
    (outcome : CommitOutcome) :
    let committed := s.db.transaction hemera id outcome (withChangeId hemera (DiskStore.publish s.pending))
    s.commit hemera outcome =
      ((s.pending.settle committed.1.result).1, ⟨committed.2, (s.pending.settle committed.1.result).2⟩) := by
  obtain ⟨hresult, hdb⟩ := transaction_withChangeId hemera s.db (DiskStore.publish s.pending) outcome
  dsimp only
  rw [hresult, hdb, DiskStore.commit, hready]
  dsimp only
  rw [hpending]
  obtain ⟨result, db⟩ := s.db.transact hemera id outcome (DiskStore.publish s.pending)
  cases result with
  | ok commit =>
      obtain ⟨value, changeId⟩ := commit
      cases changeId <;> rfl
  | error e => cases e <;> rfl

/-- A pending set is a batch that the engine takes. -/
theorem WriteBuffer.Inv.committable {b : WriteBuffer F} (h : b.Inv) {tables : Tables} {u : Unit} {tx : Transaction}
    (hpublish : DiskStore.publish b (.begin tables) = .ok (u, tx)) : tx.Committable := by
  rw [publish_eq] at hpublish
  cases hfold : b.changes.foldlM stageChange (.begin tables) with
  | error e =>
      rw [hfold] at hpublish
      cases hpublish
  | ok tx' =>
      rw [hfold] at hpublish
      obtain rfl := (Prod.mk.inj (Except.ok.inj hpublish)).2
      refine foldlM_ok (fun change hchange q q' hq hstage => ?_) (committable_begin tables) hfold
      have hsound := h.changes_sound hchange
      rw [stageChange_eq hsound] at hstage
      exact hq.stage (shard_mem (diskDimension_of_lt hsound.persistent)) (Transaction.toList_ne_nil _) hstage

theorem WriteBuffer.Inv.committable_withChangeId {b : WriteBuffer F} (h : b.Inv) (tables : Tables)
    (value : Option Bytes32) (tx : Transaction)
    (hexecute : withChangeId hemera (DiskStore.publish b) (.begin tables) = .ok (value, tx)) : tx.Committable := by
  rw [withChangeId] at hexecute
  cases hpublish : DiskStore.publish b (.begin tables) with
  | error e =>
      rw [hpublish] at hexecute
      cases hexecute
  | ok result =>
      rw [hpublish] at hexecute
      rw [← (Prod.mk.inj (Except.ok.inj hexecute)).2]
      exact h.committable hpublish

/-- What a transaction of another view leaves of the shards, and what it answers. -/
theorem Bystander.of_step {execute : Transaction → Except StorageError Transaction}
    (h : Bystander storeTables execute) {fault : Option Fault} {io : String} {state state' : Database}
    {result : Except StorageError (Option Bytes32)}
    (hstep : Database.Step hemera id state (.transaction (withoutChangeId execute) fault io) (some result) state') :
    (∀ (dimension : UInt8) (key : List UInt8),
      (state'.tables (.shard dimension))[key]? = (state.tables (.shard dimension))[key]?) ∧
    (∀ row, (state'.tables .metadata)[ascii "last_commit"]? = some row →
      row.length = 32 ∨ (state.tables .metadata)[ascii "last_commit"]? = some row) ∧
    ((state'.failure = state.failure ∧ ∀ e, state.failure = some e → result = .error e) ∨
      ∃ f id' message, fault = some f ∧ state.failure = none ∧ result = .error (.commitUnknown id' message) ∧
        state'.failure = some (.commitUnknown id' message)) := by
  obtain ⟨outcome, houtcome, rfl, rfl⟩ := hstep.transaction_inv
  obtain ⟨tables, failure⟩ := state
  cases failure with
  | some e =>
      rw [transaction_of_failure hemera id outcome rfl]
      exact ⟨fun _ _ => rfl, fun row hrow => .inr hrow, .inl ⟨rfl, fun e' he => congrArg _ (Option.some.inj he)⟩⟩
  | none =>
      cases hexecute : execute (.begin tables) with
      | error e =>
          have hbody : withoutChangeId execute (.begin tables) = .error e := by
            rw [withoutChangeId, hexecute]
            rfl
          rw [transaction_of_error hemera id outcome rfl hbody]
          exact ⟨fun _ _ => rfl, fun row hrow => .inr hrow, .inl ⟨rfl, fun e' he => by cases he⟩⟩
      | ok tx =>
          have hbody : withoutChangeId execute (.begin tables) = .ok (none, tx) := by
            rw [withoutChangeId, hexecute]
            rfl
          have hkeeps := h.keeps _ _ hexecute
          by_cases hempty : tx.changes.entries.isEmpty = true
          · have hchanges : tx.changes = ∅ := AList.ext (List.isEmpty_iff.mp hempty)
            rw [transaction_of_unchanged hemera id outcome rfl hbody hchanges]
            exact ⟨fun _ _ => rfl, fun row hrow => .inr hrow, .inl ⟨rfl, fun e' he => by cases he⟩⟩
          · have hshards : ∀ (id : Bytes32) (dimension : UInt8) (key : List UInt8),
                (LeanBbg.Storage.applyChanges tables (withMarkers tx.changes id) (.shard dimension))[key]? =
                  (tables (.shard dimension))[key]? := by
              intro id dimension key
              have hwritten := applyChanges_withMarkers tx id key (t := .shard dimension) Table.noConfusion
              rw [hkeeps.engine, hkeeps.view _ _ rfl] at hwritten
              exact hwritten
            have hmarker : ∀ (id : Bytes32) row, (LeanBbg.Storage.applyChanges tables (withMarkers tx.changes id)
                .metadata)[ascii "last_commit"]? = some row →
                row.length = 32 ∨ (tables .metadata)[ascii "last_commit"]? = some row := by
              intro id row hrow
              rw [applyChanges_get, withMarkers,
                AList.lookup_insert_ne fun heq => absurd (Prod.mk.inj heq).2 (by decide)] at hrow
              split_ifs at hrow
              · rw [AList.lookup_insert] at hrow
                rw [← Option.some.inj hrow]
                exact .inl (Vector.length_toList ..)
              · have hview := hkeeps.view .metadata (ascii "last_commit") rfl
                rw [Transaction.view, hkeeps.engine] at hview
                exact .inr (hview.symm.trans hrow)
            rw [FjallDatabase.transaction_eq hbody hempty]
            cases fault with
            | none =>
                obtain rfl : outcome = .done := houtcome
                exact ⟨hshards _, hmarker _, .inl ⟨rfl, fun e' he => by cases he⟩⟩
            | some f =>
                obtain ⟨message, applied, rfl⟩ := houtcome
                refine ⟨fun dimension key => ?_, fun row hrow => ?_, .inr ⟨f, _, message, rfl, rfl, rfl, rfl⟩⟩
                · cases applied with
                  | true => exact hshards _ dimension key
                  | false => rfl
                · cases applied with
                  | true => exact hmarker _ row hrow
                  | false => exact .inr hrow

end Commits

/-! ### Calls -/

namespace DiskStore

variable {s s' : DiskStore F} {dimension : UInt8} {key : Bytes32}

theorem failure_of_ready (h : s.ready = .ok ()) : s.db.failure = none := by
  obtain ⟨_, -, hfailure⟩ := exists_of_bind_ok h
  cases hdb : s.db.failure with
  | none => rfl
  | some e =>
      rw [hdb] at hfailure
      cases hfailure

theorem put_ok {value : List F} (h : s.put dimension key value = .ok s') : s.db.failure = none ∧ s'.db = s.db := by
  obtain ⟨_, hready, h⟩ := exists_of_bind_ok h
  obtain ⟨pending, -, h⟩ := exists_of_bind_ok h
  rw [← Except.ok.inj h]
  exact ⟨failure_of_ready hready, rfl⟩

theorem remove_ok {value : Option (List F)} (h : s.remove dimension key = .ok (value, s')) :
    s.db.failure = none ∧ s'.db = s.db := by
  obtain ⟨_, hread, h⟩ := exists_of_bind_ok h
  obtain ⟨pending, -, h⟩ := exists_of_bind_ok h
  rw [← (Prod.mk.inj (Except.ok.inj h)).2]
  obtain ⟨_, hready, -⟩ := exists_of_bind_ok hread
  exact ⟨failure_of_ready hready, rfl⟩

end DiskStore

namespace WriteBuffer

variable {b : WriteBuffer F} {dimension : UInt8} {key : Bytes32} {e : StorageError}

theorem put_error {value : List F} (hready : b.unknown = none) (h : b.put dimension key value = .error e) :
    (EPHEMERAL < dimension ∧ e = .invalidDimension dimension) ∨ ∃ message, e = .limit message := by
  by_cases hd : dimension ≤ EPHEMERAL
  · by_cases heq : dimension = EPHEMERAL
    · subst heq
      rw [put_ephemeral hready] at h
      split_ifs at h
      exact .inr ⟨_, (Except.error.inj h).symm⟩
    · rw [put_eq hready (UInt8.lt_of_le_of_ne hd heq)] at h
      split_ifs at h <;> exact .inr ⟨_, (Except.error.inj h).symm⟩
  · rw [put_dimension hready hd] at h
    exact .inl ⟨UInt8.not_le.mp hd, (Except.error.inj h).symm⟩

theorem delete_error (hready : b.unknown = none) (h : b.delete dimension key = .error e) :
    (EPHEMERAL < dimension ∧ e = .invalidDimension dimension) ∨ ∃ message, e = .limit message := by
  by_cases hd : dimension ≤ EPHEMERAL
  · by_cases heq : dimension = EPHEMERAL
    · subst heq
      rw [delete_ephemeral hready] at h
      cases h
    · rw [delete_eq hready (UInt8.lt_of_le_of_ne hd heq)] at h
      split_ifs at h
      exact .inr ⟨_, (Except.error.inj h).symm⟩
  · rw [delete_dimension hready hd] at h
    exact .inl ⟨UInt8.not_le.mp hd, (Except.error.inj h).symm⟩

end WriteBuffer

section Refusals

variable {s : DiskStore F} {A : Shelf F} {dimension : UInt8} {key : Bytes32} {e : StorageError}

theorem Shows.put_refused (h : Shows s A) {value : List F} (hput : s.put dimension key value = .error e) : A.Refuses dimension e := by
  rw [DiskStore.put] at hput
  cases hready : A.failure with
  | some e' =>
      rw [h.not_ready hready] at hput
      exact .inl (hready.trans (congrArg some (Except.error.inj hput)))
  | none =>
      rw [h.ready hready] at hput
      cases hbuffer : s.pending.put dimension key value with
      | error e' =>
          have hrefused := WriteBuffer.put_error (h.unknown_none hready) hbuffer
          rw [hbuffer] at hput
          obtain rfl := Except.error.inj hput
          exact .inr ⟨hready, hrefused⟩
      | ok pending =>
          rw [hbuffer] at hput
          cases hput

/-- A read within the largest budget fails for its dimension or for a limit. -/
theorem Shows.read_refused [NebuCanonical F] (h : Shows s A) (hready : A.failure = none)
    (hread : s.read dimension key MAX_VALUE_ELEMENTS = .error e) :
    (EPHEMERAL < dimension ∧ e = .invalidDimension dimension) ∨ ∃ message, e = .limit message := by
  by_cases hd : dimension ≤ EPHEMERAL
  · have hanswer := h.read hready hd key (Nat.le_refl MAX_VALUE_ELEMENTS)
    rw [hread] at hanswer
    cases hvalue : A.read ⟨dimension, key⟩ with
    | none =>
        rw [hvalue] at hanswer
        cases hanswer
    | some value =>
        rw [hvalue, Answered] at hanswer
        -- within the budget there is an answer
        split_ifs at hanswer
        obtain ⟨message, hmessage⟩ := hanswer
        exact .inr ⟨message, Except.error.inj hmessage⟩
  · rw [DiskStore.read, h.ready hready, checkDimension, if_pos (UInt8.not_le.mp hd)] at hread
    exact .inl ⟨UInt8.not_le.mp hd, (Except.error.inj hread).symm⟩

theorem Shows.remove_refused [NebuCanonical F] (h : Shows s A) (hremove : s.remove dimension key = .error e) :
    A.Refuses dimension e := by
  rw [DiskStore.remove] at hremove
  cases hready : A.failure with
  | some e' =>
      rw [DiskStore.read, h.not_ready hready] at hremove
      exact .inl (hready.trans (congrArg some (Except.error.inj hremove)))
  | none =>
      refine .inr ⟨hready, ?_⟩
      cases hread : s.read dimension key MAX_VALUE_ELEMENTS with
      | error e' =>
          have hrefused := h.read_refused hready hread
          rw [hread] at hremove
          rwa [← Except.error.inj hremove]
      | ok value =>
          rw [hread] at hremove
          cases hbuffer : s.pending.delete dimension key with
          | error e' =>
              have hrefused := WriteBuffer.delete_error (h.unknown_none hready) hbuffer
              rw [hbuffer] at hremove
              rwa [← Except.error.inj hremove]
          | ok pending =>
              rw [hbuffer] at hremove
              cases hremove

end Refusals

/-- The shelf under other rows of the same shards. -/
theorem Shows.moved {state state' : Database} {b : WriteBuffer F} {A : Shelf F} (h : Shows ⟨state, b⟩ A)
    (hrows : ∀ (dimension : UInt8) (key : List UInt8),
      (state'.tables (.shard dimension))[key]? = (state.tables (.shard dimension))[key]?)
    (hmarker : ∀ row, (state'.tables .metadata)[ascii "last_commit"]? = some row → row.length = 32)
    {failure : Option StorageError} (hfailure : state'.failure = failure)
    (hunknown : b.unknown = none ∨ b.unknown = failure)
    (hfailed : ∀ e, failure = some e → ∃ id message, e = .commitUnknown id message) :
    Shows ⟨state', b⟩ { A with failure := failure } :=
  ⟨h.inv, h.staged, h.cached, h.scratch, fun k hk => (hrows _ _).trans (h.rows k hk), h.short, h.shortScratch, hmarker,
    hfailure, hunknown, hfailed⟩

/-! ### Refinement -/

namespace FjallStore

section Refinement

variable {T : Type} [AbstractTree T] [LawfulTree T] [Coding] [LawfulCoding] [NebuCanonical F]
  {xxh3 : List UInt8 → UInt64} {hemera : List UInt8 → Bytes32} {n : Nat} {s : FjallStore F T}
  {shelves : Set (Shelf F)}

/-- Whichever state the database is in, the store shows one of the shelves. -/
def Follows (xxh3 : List UInt8 → UInt64) (n : Nat) (s : FjallStore F T) (shelves : Set (Shelf F)) : Prop :=
  ∃ states, s.db.Follows xxh3 n states ∧ ∀ state ∈ states, ∃ A ∈ shelves, Shows ⟨state, s.pending⟩ A

/-- A step that is one of the shelves. -/
def Steps (xxh3 : List UInt8 → UInt64) (hemera : List UInt8 → Bytes32) (n : Nat) (s : FjallStore F T)
    (shelves : Set (Shelf F)) (event : ShardEvent F) : Prop :=
  ∃ answer s' shelves', s.step xxh3 hemera event = some (answer, s') ∧
    (∀ A' ∈ shelves', ∃ A ∈ shelves, Shelf.Step A event answer A') ∧ s'.Follows xxh3 (n + 1) shelves'

/-- A step is right when it is for every state that the database may come to. -/
theorem steps_of_shows {states states' : Set Database}
    (hshown : ∀ state ∈ states, ∃ A ∈ shelves, Shows ⟨state, s.pending⟩ A) {event : ShardEvent F}
    {answer : DiskAnswer F} {s' : FjallStore F T} (hstep : s.step xxh3 hemera event = some (answer, s'))
    (hfollows : s'.db.Follows xxh3 (n + 1) states')
    (h : ∀ state' ∈ states', ∃ state ∈ states, ∀ A, Shows ⟨state, s.pending⟩ A →
      ∃ A', Shelf.Step A event answer A' ∧ Shows ⟨state', s'.pending⟩ A') : s.Steps xxh3 hemera n shelves event := by
  refine ⟨answer, s', {A' | ∃ A ∈ shelves, Shelf.Step A event answer A'}, hstep, fun A' hA' => hA', states', hfollows,
    fun state' hstate' => ?_⟩
  obtain ⟨state, hstate, hnext⟩ := h state' hstate'
  obtain ⟨A, hA, hshows⟩ := hshown state hstate
  obtain ⟨A', hstepA, hshows'⟩ := hnext A hshows
  exact ⟨A', ⟨A, hA, hstepA⟩, hshows'⟩

/-- Without a failure the database has the rows that the engine reads. -/
theorem shown_of_mem {states : Set Database} (h : s.db.Follows xxh3 n states) (hfailure : s.db.failure = none)
    {state : Database} (hstate : state ∈ states) : state = s.shown.db := by
  rw [h.eq_shown hfailure hstate, shown, hfailure]

theorem ready_of_mem {states : Set Database} (h : s.db.Follows xxh3 n states) {state : Database}
    (hstate : state ∈ states) : (⟨state, s.pending⟩ : DiskStore F).ready = s.shown.ready := by
  rw [DiskStore.ready, DiskStore.ready, h.failure_eq hstate]
  rfl

/-- A call that is refused is so in every state. -/
theorem put_of_mem {states : Set Database} (h : s.db.Follows xxh3 n states) {state : Database}
    (hstate : state ∈ states) {dimension : UInt8} {key : Bytes32} {value : List F} {e : StorageError}
    (hput : s.shown.put dimension key value = .error e) :
    (⟨state, s.pending⟩ : DiskStore F).put dimension key value = .error e := by
  rw [DiskStore.put, ready_of_mem h hstate]
  rw [DiskStore.put] at hput
  cases hready : s.shown.ready with
  | error e' =>
      rw [hready] at hput
      exact hput
  | ok u =>
      obtain rfl := shown_of_mem h (DiskStore.failure_of_ready hready) hstate
      rw [hready] at hput
      exact hput

theorem remove_of_mem {states : Set Database} (h : s.db.Follows xxh3 n states) {state : Database}
    (hstate : state ∈ states) {dimension : UInt8} {key : Bytes32} {e : StorageError}
    (hremove : s.shown.remove dimension key = .error e) :
    (⟨state, s.pending⟩ : DiskStore F).remove dimension key = .error e := by
  rw [DiskStore.remove, DiskStore.read, ready_of_mem h hstate]
  rw [DiskStore.remove, DiskStore.read] at hremove
  cases hready : s.shown.ready with
  | error e' =>
      rw [hready] at hremove
      exact hremove
  | ok u =>
      obtain rfl := shown_of_mem h (DiskStore.failure_of_ready hready) hstate
      rw [hready] at hremove
      exact hremove

theorem Follows.put (h : s.Follows xxh3 n shelves) (dimension : UInt8) (key : Bytes32) (value : List F) :
    s.Steps xxh3 hemera n shelves (.put dimension key value) := by
  obtain ⟨states, hfollows, hshown⟩ := h
  cases hput : s.shown.put dimension key value with
  | error e =>
      have hstep : s.step xxh3 hemera (.put dimension key value) = some (.done (.error e), s) := by
        rw [step, FjallStore.put, hput]
        rfl
      refine steps_of_shows hshown hstep hfollows.more fun state hstate => ⟨state, hstate, fun A hA => ?_⟩
      exact ⟨A, .putRefused A dimension key value e (hA.put_refused (put_of_mem hfollows hstate hput)), hA⟩
  | ok s₁ =>
      have hstep : s.step xxh3 hemera (.put dimension key value) =
          some (.done (.ok ()), { s with pending := s₁.pending }) := by
        rw [step, FjallStore.put, hput]
        rfl
      obtain ⟨hfailure, hdb⟩ := DiskStore.put_ok hput
      refine steps_of_shows hshown hstep hfollows.more fun state hstate => ⟨state, hstate, fun A hA => ?_⟩
      obtain rfl := shown_of_mem hfollows hfailure hstate
      obtain ⟨hready, -, hshows⟩ := hA.put hput
      refine ⟨_, .put A dimension key value hready, ?_⟩
      rw [← hdb]
      exact hshows

theorem Follows.remove (h : s.Follows xxh3 n shelves) (dimension : UInt8) (key : Bytes32) :
    s.Steps xxh3 hemera n shelves (.remove dimension key) := by
  obtain ⟨states, hfollows, hshown⟩ := h
  cases hremove : s.shown.remove dimension key with
  | error e =>
      have hstep : s.step xxh3 hemera (.remove dimension key) = some (.value (.error e), s) := by
        rw [step, FjallStore.remove, hremove]
        rfl
      refine steps_of_shows hshown hstep hfollows.more fun state hstate => ⟨state, hstate, fun A hA => ?_⟩
      exact ⟨A, .removeRefused A dimension key e (hA.remove_refused (remove_of_mem hfollows hstate hremove)), hA⟩
  | ok result =>
      obtain ⟨value, s₁⟩ := result
      have hstep : s.step xxh3 hemera (.remove dimension key) =
          some (.value (.ok value), { s with pending := s₁.pending }) := by
        rw [step, FjallStore.remove, hremove]
        rfl
      obtain ⟨hfailure, hdb⟩ := DiskStore.remove_ok hremove
      refine steps_of_shows hshown hstep hfollows.more fun state hstate => ⟨state, hstate, fun A hA => ?_⟩
      obtain rfl := shown_of_mem hfollows hfailure hstate
      obtain ⟨hready, -, rfl, hshows⟩ := hA.remove hremove
      refine ⟨_, .remove A dimension key hready, ?_⟩
      rw [← hdb]
      exact hshows

theorem Follows.read (h : s.Follows xxh3 n shelves) (dimension : UInt8) (key : Bytes32) (maxElements : Nat) :
    s.Steps xxh3 hemera n shelves (.read dimension key maxElements) := by
  obtain ⟨states, hfollows, hshown⟩ := h
  refine steps_of_shows hshown rfl hfollows.more fun state hstate => ⟨state, hstate, fun A hA => ?_⟩
  refine ⟨A, .read A dimension key maxElements _ (fun hready hd hmax => ?_) (fun e hfailed => ?_), hA⟩
  · have hfailure : s.db.failure = none := by
      rw [← hfollows.failure_eq hstate, ← hready]
      exact hA.failure
    obtain rfl := shown_of_mem hfollows hfailure hstate
    exact hA.read hready hd key hmax
  · have hready := hA.not_ready hfailed
    rw [ready_of_mem hfollows hstate] at hready
    rw [DiskStore.read, hready]
    rfl

/-- A commit that has nothing to write. -/
theorem commit_idle (hready : s.shown.ready = .ok ()) (hpending : s.pending.hasPending = false) {A : Shelf F}
    (hA : Shows s.shown A) (fault : Option Fault) (io : String) :
    Shelf.Step A (.commit fault io) (.id (s.commit xxh3 hemera fault io).1) A ∧
      (s.commit xxh3 hemera fault io).2 = s := by
  have hfailure : A.failure = none := hA.failure.symm.trans (DiskStore.failure_of_ready hready)
  obtain ⟨id, hcommit⟩ := hA.commit_clean hfailure hemera .done hpending
  have hstaged : ∀ k, A.staged k = none := fun k =>
    (hA.staged k).symm.trans (hA.inv.hasPending_eq_false.mp hpending k)
  have hidle : s.commit xxh3 hemera fault io = (.ok id, s) := by
    rw [DiskStore.commit, hready] at hcommit
    dsimp only at hcommit
    rw [show s.shown.pending.hasPending = false from hpending] at hcommit
    rw [commit, hready]
    dsimp only
    rw [hpending]
    exact congrArg (·, s) (Prod.mk.inj hcommit).1
  rw [hidle]
  refine ⟨?_, rfl⟩
  have hstep := Shelf.Step.commit A fault io id hfailure fun _ => hstaged
  rwa [A.commit_of_clean hstaged] at hstep

/-- A commit that writes, by what the engine does with the batch. -/
theorem commit_written (hready : s.shown.ready = .ok ()) (hpending : s.pending.hasPending = true) {A : Shelf F}
    (hA : Shows s.shown A) {fault : Option Fault} {io : String} {outcome : CommitOutcome} (houtcome : outcome.Of fault)
    {state : Database}
    (hresult : (s.shown.db.transaction hemera id outcome
      (withChangeId hemera (DiskStore.publish s.pending))).1.result = (s.db.transaction xxh3 hemera id
        (withChangeId hemera (DiskStore.publish s.pending)) fault io).1)
    (hstate : (s.shown.db.transaction hemera id outcome
      (withChangeId hemera (DiskStore.publish s.pending))).2 = state) :
    ∃ A', Shelf.Step A (.commit fault io) (.id (s.commit xxh3 hemera fault io).1) A' ∧
      Shows ⟨state, (s.commit xxh3 hemera fault io).2.pending⟩ A' := by
  have hfailure : A.failure = none := hA.failure.symm.trans (DiskStore.failure_of_ready hready)
  have hunknown : s.pending.unknown = none := hA.unknown_none hfailure
  have hsettle := DiskStore.commit_settle hemera hready hpending outcome
  obtain ⟨id', written, hwritten, hcommit⟩ :=
    DiskStore.commit_eq hemera outcome hA.inv hunknown (DiskStore.failure_of_ready hready) hpending
  have hboth : (.id (s.commit xxh3 hemera fault io).1, ⟨state, (s.commit xxh3 hemera fault io).2.pending⟩) =
      (Prod.map DiskAnswer.id id (s.shown.commit hemera outcome) : DiskAnswer F × DiskStore F) := by
    rw [hsettle, commit, hready]
    dsimp only
    rw [hpending]
    dsimp only [shown] at hresult hstate ⊢
    rw [hresult, hstate]
    rfl
  rw [hcommit] at hboth
  cases fault with
  | none =>
      obtain rfl : outcome = .done := houtcome
      obtain ⟨hanswer, hdb⟩ := Prod.mk.inj hboth
      rw [hanswer, hdb]
      exact ⟨_, .commit A none io id' hfailure (fun hsome => absurd hsome Bool.false_ne_true),
        hA.commit_done hfailure hwritten⟩
  | some fault =>
      obtain ⟨message, applied, rfl⟩ := houtcome
      obtain ⟨hanswer, hdb⟩ := Prod.mk.inj hboth
      rw [hanswer, hdb]
      exact ⟨_, .commitUnknown A fault io id' message applied hfailure, hA.commit_unknown hwritten message applied⟩

theorem Follows.commit (h : s.Follows xxh3 n shelves) (hn : n < 2 ^ 64) (fault : Option Fault) (io : String) :
    s.Steps xxh3 hemera n shelves (.commit fault io) := by
  obtain ⟨states, hfollows, hshown⟩ := h
  have hstep : s.step xxh3 hemera (.commit fault io) =
    some (.id (s.commit xxh3 hemera fault io).1, (s.commit xxh3 hemera fault io).2) := rfl
  cases hready : s.shown.ready with
  | error e =>
      have hcommit : s.commit xxh3 hemera fault io = (.error e, s) := by
        rw [FjallStore.commit, hready]
      rw [hcommit] at hstep
      refine steps_of_shows hshown hstep hfollows.more fun state hstate => ⟨state, hstate, fun A hA => ?_⟩
      refine ⟨A, .commitFailed A fault io e ?_, hA⟩
      rw [← ready_of_mem hfollows hstate] at hready
      cases hfailure : A.failure with
      | none =>
          rw [hA.ready hfailure] at hready
          cases hready
      | some e' =>
          rw [hA.not_ready hfailure] at hready
          rw [Except.error.inj hready]
  | ok u =>
      have hfailure : s.db.failure = none := DiskStore.failure_of_ready hready
      cases hpending : s.pending.hasPending with
      | false =>
          obtain ⟨state₀, hstate₀⟩ := hfollows.nonempty
          obtain ⟨A₀, -, hA₀⟩ := hshown state₀ hstate₀
          obtain rfl := shown_of_mem hfollows hfailure hstate₀
          rw [(commit_idle hready hpending hA₀ fault io).2] at hstep
          refine steps_of_shows hshown hstep hfollows.more fun state hstate => ⟨state, hstate, fun A hA => ?_⟩
          obtain rfl := shown_of_mem hfollows hfailure hstate
          exact ⟨A, (commit_idle hready hpending hA fault io).1, hA⟩
      | true =>
          have hexecute : ∀ tables value tx, withChangeId hemera (DiskStore.publish s.pending) (.begin tables) =
              .ok (value, tx) → tx.Committable := by
            obtain ⟨state₀, hstate₀⟩ := hfollows.nonempty
            obtain ⟨A₀, -, hA₀⟩ := hshown state₀ hstate₀
            exact hA₀.inv.committable_withChangeId hemera
          obtain ⟨states', hstates', hfollows'⟩ := hfollows.transaction hn hexecute
          have hdb : (s.commit xxh3 hemera fault io).2.db = (s.db.transaction xxh3 hemera id
              (withChangeId hemera (DiskStore.publish s.pending)) fault io).2 := by
            rw [FjallStore.commit, hready]
            dsimp only
            rw [hpending]
            rfl
          rw [← hdb] at hfollows'
          refine steps_of_shows hshown hstep hfollows' fun state' hstate' => ?_
          obtain ⟨state, hstate, hnext⟩ := hstates' state' hstate'
          obtain ⟨outcome, houtcome, hresult, hstate''⟩ := hnext.transaction_inv
          refine ⟨state, hstate, fun A hA => ?_⟩
          obtain rfl := shown_of_mem hfollows hfailure hstate
          exact commit_written hready hpending hA houtcome hresult hstate''

theorem Follows.elsewhere (h : s.Follows xxh3 n shelves) (hn : n < 2 ^ 64)
    {execute : Transaction → Except StorageError Transaction} (hexecute : Bystander storeTables execute)
    (fault : Option Fault) (io : String) : s.Steps xxh3 hemera n shelves (.elsewhere execute fault io) := by
  obtain ⟨states, hfollows, hshown⟩ := h
  have hvalid : ∀ tables value tx, withoutChangeId execute (.begin tables) = .ok (value, tx) → tx.Committable := by
    intro tables value tx hbody
    rw [withoutChangeId] at hbody
    cases hexecuted : execute (.begin tables) with
    | error e =>
        rw [hexecuted] at hbody
        cases hbody
    | ok tx' =>
        rw [hexecuted] at hbody
        rw [← (Prod.mk.inj (Except.ok.inj hbody)).2]
        exact hexecute.committable _ _ (committable_begin tables) hexecuted
  obtain ⟨states', hstates', hfollows'⟩ := hfollows.transaction hn hvalid
  refine steps_of_shows hshown rfl hfollows' fun state' hstate' => ?_
  obtain ⟨state, hstate, hnext⟩ := hstates' state' hstate'
  refine ⟨state, hstate, fun A hA => ?_⟩
  obtain ⟨hrows, hmarker, hfailure⟩ := hexecute.of_step hemera hnext
  have hlength : ∀ row, (state'.tables .metadata)[ascii "last_commit"]? = some row → row.length = 32 :=
    fun row hrow => (hmarker row hrow).elim (fun hlen => hlen) fun hold => hA.marker row hold
  rcases hfailure with ⟨hsame, hfailed⟩ | ⟨f, id', message, rfl, hnone, herror, hfailed⟩
  · refine ⟨A, .elsewhere A execute fault io _ fun e he => ?_, hA.moved hrows hlength (hsame.trans hA.failure)
      hA.unknown hA.failed⟩
    rw [hfailed e (hA.failure.trans he)]
    rfl
  · -- the failure of the database is one of this store too
    have hready : A.failure = none := hA.failure.symm.trans hnone
    rw [herror]
    refine ⟨_, .elsewhereUnknown A execute f io id' message hready, hA.moved hrows hlength hfailed
      (.inl (hA.unknown_none hready)) fun e he => ?_⟩
    exact ⟨id', message, (Option.some.inj he).symm⟩

/-- A step of the database under the store. -/
theorem database_step (hemera : List UInt8 → Bytes32) {db : FjallDatabase T} {states : Set Database}
    (h : db.Follows xxh3 n states) (hn : n < 2 ^ 64) {op : StoreTransaction} (hop : op.Valid) :
    ∃ answer db' states', db.step xxh3 hemera id op = some (answer, db') ∧
      (∀ state' ∈ states', ∃ state ∈ states, Database.Step hemera id state op answer state') ∧
      db'.Follows xxh3 (n + 1) states' :=
  FjallDatabase.Follows.step n hn db states op h hop

/-- The engine's own work does not show. -/
theorem Follows.work (h : s.Follows xxh3 n shelves) (hn : n < 2 ^ 64) {event : ShardEvent F}
    {op : StoreTransaction} (hop : op.Valid)
    (hevent : s.step xxh3 hemera event = s.work xxh3 hemera op)
    (hidle : ∀ state answer state', Database.Step hemera id state op answer state' → state' = state)
    (hstep : ∀ A, Shelf.Step A event .none A) : s.Steps xxh3 hemera n shelves event := by
  obtain ⟨states, hfollows, hshown⟩ := h
  obtain ⟨answer, db, states', hnext, hstates', hfollows'⟩ := database_step hemera hfollows hn hop
  have hwork : s.step xxh3 hemera event = some (.none, { s with db := db }) := by
    rw [hevent, FjallStore.work, hnext]
    rfl
  refine steps_of_shows hshown hwork hfollows' fun state' hstate' => ?_
  obtain ⟨state, hstate, hspec⟩ := hstates' state' hstate'
  obtain rfl := hidle _ _ _ hspec
  exact ⟨_, hstate, fun A hA => ⟨A, hstep A, hA⟩⟩

theorem Shows.reopened {state : Database} {b : WriteBuffer F} {A : Shelf F} (h : Shows ⟨state, b⟩ A) :
    Shows ⟨{ state with failure := none }, .empty⟩ (.ofMap A.committed none) := by
  have hholds : Holds A.committed { state with failure := none } := by
    refine ⟨h.rows, h.short, h.marker, fun e he => ?_⟩
    cases he
  exact hholds.shows

theorem Follows.crash (h : s.Follows xxh3 n shelves) (hn : n < 2 ^ 64) (kept : Nat) :
    s.Steps xxh3 hemera n shelves (.crash kept) := by
  obtain ⟨states, hfollows, hshown⟩ := h
  obtain ⟨answer, db, states', hnext, hstates', hfollows'⟩ :=
    database_step hemera hfollows hn (show (.reopen kept : StoreTransaction).Valid from trivial)
  have hcrash : s.step xxh3 hemera (.crash kept) = some (.none, ⟨db, .empty⟩) := by
    rw [FjallStore.step, FjallStore.work, hnext]
    rfl
  refine steps_of_shows hshown hcrash hfollows' fun state' hstate' => ?_
  obtain ⟨state, hstate, hspec⟩ := hstates' state' hstate'
  cases hspec with
  | reopen => exact ⟨state, hstate, fun A hA => ⟨_, .crash A kept, Shows.reopened hA⟩⟩

theorem Follows.step (h : s.Follows xxh3 n shelves) (hn : n < 2 ^ 64) {event : ShardEvent F} (hevent : event.Valid) :
    s.Steps xxh3 hemera n shelves event := by
  cases event with
  | put dimension key value => exact h.put dimension key value
  | remove dimension key => exact h.remove dimension key
  | read dimension key maxElements => exact h.read dimension key maxElements
  | commit fault io => exact h.commit hn fault io
  | elsewhere execute fault io => exact h.elsewhere hn hevent fault io
  | rotateMemtable name =>
      have hvalid : (.rotateMemtable name : StoreTransaction).Valid := trivial
      refine h.work hn hvalid rfl (fun _ _ _ hspec => ?_) (.rotateMemtable · name)
      cases hspec
      rfl
  | flush name k =>
      have hvalid : (.flush name k : StoreTransaction).Valid := trivial
      refine h.work hn hvalid rfl (fun _ _ _ hspec => ?_) (.flush · name k)
      cases hspec
      rfl
  | maintenance =>
      have hvalid : (.maintenance : StoreTransaction).Valid := trivial
      refine h.work hn hvalid rfl (fun _ _ _ hspec => ?_) .maintenance
      cases hspec
      rfl
  | crash kept => exact h.crash hn kept

theorem follows_create : (create : FjallStore F T).Follows xxh3 0 {.ofMap (fun _ => none) none} := by
  refine ⟨_, FjallDatabase.follows_create, fun state hstate => ⟨_, rfl, ?_⟩⟩
  obtain rfl := hstate
  exact holds_empty.shows

/-- A shelf of a database that has not failed is what the engine reads. -/
theorem Shows.get_eq {A : Shelf F} (h : Shows s.shown A) {k : EntryKey} (hk : k.dimension < EPHEMERAL) :
    AbstractTree.get (s.db.engine.keyspace.tree (Table.shard k.dimension).name) k.key.toList =
      (A.committed k).map serialize := by
  rw [← s.db.engine.tables_getElem? (shard_mem (diskDimension_of_lt hk))]
  exact h.rows k hk

end Refinement

end FjallStore

section Runs

variable {T : Type} [AbstractTree T] [LawfulTree T] [Coding] [LawfulCoding] [NebuCanonical F]
  {xxh3 : List UInt8 → UInt64} {hemera : List UInt8 → Bytes32}

/-- Every run of a new store goes through, whatever its commits meet and wherever its process ends: the answers are
those of a map with staged changes whose commits are published one by one, and when the database has not failed the
engine's own rows are the committed map. -/
theorem fjallStore_runs_shelf {events : List (ShardEvent F)} (hevents : ∀ event ∈ events, event.Valid)
    (hlen : events.length ≤ 2 ^ 64) :
    ∃ answers store A,
      Refine.run (FjallStore.step xxh3 hemera) (FjallStore.create : FjallStore F T) events = some (answers, store) ∧
      Refine.Runs Shelf.Step (Shelf.ofMap (fun _ => none) none) events answers A ∧
      A.failure = store.db.failure ∧
      (store.db.failure = none → ∀ k : EntryKey, k.dimension < EPHEMERAL →
        AbstractTree.get (store.db.engine.keyspace.tree (Table.shard k.dimension).name) k.key.toList =
          (A.committed k).map serialize) := by
  have hstep : ∀ n < 2 ^ 64, ∀ (s : FjallStore F T) (shelves : Set (Shelf F)) (event : ShardEvent F),
      s.Follows xxh3 n shelves → event.Valid → s.Steps xxh3 hemera n shelves event :=
    fun n hn s shelves event h hevent => h.step hn hevent
  have hcreate : (FjallStore.create : FjallStore F T).Follows xxh3 0 {.ofMap (fun _ => none) none} :=
    FjallStore.follows_create
  have hbound : 0 + events.length ≤ 2 ^ 64 := by omega
  obtain ⟨answers, store, shelves, hrun, ⟨states, hfollows, hshown⟩, hruns⟩ :=
    Refine.exists_runs_of_sets hstep hcreate hevents hbound
  obtain ⟨state, hstate⟩ := hfollows.nonempty
  obtain ⟨A, hA, hshows⟩ := hshown state hstate
  obtain ⟨start, rfl, hruns⟩ := hruns A hA
  refine ⟨answers, store, A, hrun, hruns, ?_, fun hfailure k hk => ?_⟩
  · exact hshows.failure.symm.trans (hfollows.failure_eq hstate)
  · obtain rfl := FjallStore.shown_of_mem hfollows hfailure hstate
    exact FjallStore.Shows.get_eq hshows hk

end Runs

/-- A commit whose sync fails, a crash, and the value read and put again. -/
theorem fjallStore_runs_shelf_torn :
    let key : Bytes32 := Vector.replicate 32 1
    let other : Transaction → Except StorageError Transaction := fun tx => tx.put .content [7] [8]
    let events : List (ShardEvent Goldilocks) :=
      [.put 0 key [Nebu.new 3], .commit (some .persist) "", .read 0 key 1, .crash 90, .read 0 key 1,
        .put 0 key [Nebu.new 4], .elsewhere other none "", .commit none "", .crash 0, .read 0 key 1]
    ∃ answers store A,
      Refine.run (FjallStore.step (fun _ => 0) fun _ => Vector.replicate 32 0)
        (FjallStore.create : FjallStore Goldilocks LsmTree) events = some (answers, store) ∧
      Refine.Runs Shelf.Step (Shelf.ofMap (fun _ => none) none) events answers A ∧
      A.failure = store.db.failure ∧
      (store.db.failure = none → ∀ k : EntryKey, k.dimension < EPHEMERAL →
        AbstractTree.get (store.db.engine.keyspace.tree (Table.shard k.dimension).name) k.key.toList =
          (A.committed k).map serialize) := by
  intro key other events
  have hother : Bystander storeTables other := .put (by decide) (List.cons_ne_nil _ _) rfl
  have hevents : ∀ event ∈ events, event.Valid := by
    simp only [events, List.forall_mem_cons, ShardEvent.Valid, true_and]
    exact ⟨hother, fun event hevent => absurd hevent List.not_mem_nil⟩
  exact fjallStore_runs_shelf hevents (by decide)

end LeanBbg.Storage
