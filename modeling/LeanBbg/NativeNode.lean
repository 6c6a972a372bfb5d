import LeanBbg.FjallApplication
import LeanBbg.NativeRows

/-! A node that keeps the native graph in memory and its records in a table of the engine, as `specs/native-state.md`
asks of it. The changes of a preparation go into one transaction with whatever the node writes with them; the
preparation is published when the transaction is, and dropped otherwise. -/

set_option linter.unusedSectionVars false

namespace LeanBbg

variable {F : Type} [Hemera F] [DecidableEq F] [Brakedown F]

namespace Storage

open Bbg Fjall

/-! ### The node -/

/-- The table of the native state. -/
def nativeState : Table := .native .nativeState

/-- Stage rows of the native state, with `put_record` and `remove_record`. -/
def stageRecords : List (List UInt8 × Option (List UInt8)) → Transaction → Except StorageError Transaction
  | [], tx => .ok tx
  | (key, value) :: rows, tx => do
      let tx ← tx.stage nativeState key value
      stageRecords rows tx

inductive NodeError where
  | transition (e : LeanBbg.Error)
  | storage (e : StorageError)
  | closed
  | occupied
  | mismatch

/-- One transaction with the rows of the state and the caller's own. -/
def recordsBody (rows : List (List UInt8 × Option (List UInt8)))
    (others : Transaction → Except StorageError Transaction) (tx : Transaction) :
    Except NodeError (Unit × Transaction) :=
  match (stageRecords rows tx).bind others with
  | .error e => .error (.storage e)
  | .ok tx => .ok ((), tx)

structure NativeNode (F T : Type) where
  /-- There is no graph before the node has opened its records. -/
  graph : Option (Bbg F)
  database : FjallDatabase T

inductive NodeEvent (F : Type) where
  /-- Write the records of a first graph to a table that has none. -/
  | create (graph : Bbg F) (others : Transaction → Except StorageError Transaction) (fault : Option Fault) (io : String)
  | attempt (batch : List NativeChange) (others : Transaction → Except StorageError Transaction) (fault : Option Fault)
      (io : String)
  | rotateMemtable (name : String)
  | flush (name : String) (n : Nat)
  | maintenance
  /-- A crash, and the records of a graph compared with the rows that are left. -/
  | restart (kept : Nat) (candidate : Bbg F)

/-- What the node answers; the engine's own work has no answer. -/
abbrev NodeAnswer := Option (Except NodeError Unit)

namespace NativeNode

section Step

variable {T : Type} [AbstractTree T] [Coding] (xxh3 : List UInt8 → UInt64) (hemera : List UInt8 → Bytes32)

def start : NativeNode F T := ⟨none, .create⟩

/-- The rows of the native state, in the order of their keys. -/
def stored (engine : FjallEngine T) : List RawEntry := AbstractTree.range (engine.keyspace.tree nativeState.name)

def create (node : NativeNode F T) (graph : Bbg F) (others : Transaction → Except StorageError Transaction)
    (fault : Option Fault) (io : String) : Except NodeError Unit × NativeNode F T :=
  match records graph with
  | .error e => (.error (.transition e), node)
  | .ok rows =>
      if node.graph.isSome ∨ stored node.database.engine ≠ [] then (.error .occupied, node)
      else
        match node.database.transaction xxh3 hemera .storage
            (recordsBody (rows.map fun row => (row.1, some row.2)) others) fault io with
        | (.ok (), database) => (.ok (), ⟨some graph, database⟩)
        | (.error e, database) => (.error e, ⟨none, database⟩)

/-- Prepare, commit, and publish or drop. -/
def attempt (node : NativeNode F T) (batch : List NativeChange)
    (others : Transaction → Except StorageError Transaction) (fault : Option Fault) (io : String) :
    Option (Except NodeError Unit × NativeNode F T) :=
  match node.graph with
  | none => some (.error .closed, node)
  | some graph =>
      match graph.prepareNativeBatch batch with
      | .error (e, left) => left.map fun graph => (.error (.transition e), ⟨some graph, node.database⟩)
      | .ok prepared =>
          match node.database.transaction xxh3 hemera .storage
              (recordsBody (changedRows prepared) others) fault io with
          | (.ok (), database) => some (.ok (), ⟨some prepared.publish, database⟩)
          | (.error e, database) => prepared.drop.map fun graph => (.error e, ⟨some graph, database⟩)

/-- Open the records with a graph that has the same. -/
def openRecords (database : FjallDatabase T) (candidate : Bbg F) : Except NodeError Unit × NativeNode F T :=
  match records candidate with
  | .error e => (.error (.transition e), ⟨none, database⟩)
  | .ok rows =>
      if rows = stored database.engine then (.ok (), ⟨some candidate, database⟩)
      else (.error .mismatch, ⟨none, database⟩)

def work (node : NativeNode F T) (op : DatabaseOp NodeError Unit) : Option (NodeAnswer × NativeNode F T) :=
  (node.database.step xxh3 hemera .storage op).map fun next => (none, { node with database := next.2 })

def step (node : NativeNode F T) : NodeEvent F → Option (NodeAnswer × NativeNode F T)
  | .create graph others fault io => some (Prod.map some id (node.create xxh3 hemera graph others fault io))
  | .attempt batch others fault io => (node.attempt xxh3 hemera batch others fault io).map (Prod.map some id)
  | .rotateMemtable name => node.work xxh3 hemera (.rotateMemtable name)
  | .flush name n => node.work xxh3 hemera (.flush name n)
  | .maintenance => node.work xxh3 hemera .maintenance
  | .restart kept candidate =>
      (node.database.step xxh3 hemera NodeError.storage (.reopen kept : DatabaseOp NodeError Unit)).map fun next =>
        Prod.map some id (openRecords next.2 candidate)

end Step

end NativeNode

/-! ### What a run accounts for -/

/-- From the created graph, the batches were applied one after the other; a restart goes on with the same records. -/
inductive Descends (created : Bbg F) : List (List NativeChange) → Bbg F → Prop where
  | created (hacc : created.checkpoint.acc = none) : Descends created [] created
  | applied {batches : List (List NativeChange)} {b : Bbg F} {batch : List NativeChange} {p : Prepared F}
      (h : Descends created batches b) (hprepare : b.prepareNativeBatch batch = .ok p) :
      Descends created (batches ++ [batch]) p.publish
  | restarted {batches : List (List NativeChange)} {b b' : Bbg F} (h : Descends created batches b)
      (hacc : b'.checkpoint.acc = none) (hsame : recordMap b' = recordMap b) : Descends created batches b'

def NodeEvent.batch : NodeEvent F → Option (List NativeChange)
  | attempt batch _ _ _ => some batch
  | _ => none

def NodeEvent.created : NodeEvent F → Option (Bbg F)
  | create graph _ _ _ => some graph
  | _ => none

variable (log : List (NodeEvent F × NodeAnswer))

def attempted : List (List NativeChange) := log.filterMap fun entry => entry.1.batch

def succeeded : List (NodeEvent F × NodeAnswer) := log.filter fun entry => entry.2 matches some (.ok _)

def acknowledged : List (List NativeChange) := attempted (succeeded log)

/-- The rows are the records of a graph that came of the created one by batches among those attempted, all the
acknowledged ones with them, in their order; or nothing was ever created and there are no rows. -/
def Accounts (rows : OrdMap (List UInt8) (List UInt8)) : Prop :=
  (rows = ∅ ∧ acknowledged log = [] ∧ (succeeded log).filterMap (fun entry => entry.1.created) = []) ∨
  ∃ created batches b, created ∈ log.filterMap (fun entry => entry.1.created) ∧ Descends created batches b ∧
    rows = recordMap b ∧ (acknowledged log).Sublist batches ∧ batches.Sublist (attempted log) ∧
    ∀ graph ∈ (succeeded log).filterMap (fun entry => entry.1.created), graph = created

/-! ### Transactions of the node -/

theorem nativeState_mem : nativeState ∈ NAMED_TABLES := native_mem .nativeState

/-- The one table of the records; a caller leaves it alone. -/
def recordTables (table : Table) : Bool := table = nativeState

section Transactions

variable {rows : List (List UInt8 × Option (List UInt8))} {others : Transaction → Except StorageError Transaction}
  {tx tx' : Transaction}

theorem stageRecords_ok (hkeys : ∀ row ∈ rows, row.1 ≠ []) (htx : tx.Committable) (h : stageRecords rows tx = .ok tx') :
    tx'.Committable ∧ tx'.engine = tx.engine ∧ ∀ map : OrdMap (List UInt8) (List UInt8),
      (∀ k, tx.view nativeState k = map[k]?) → ∀ k, tx'.view nativeState k = (map.putAll rows)[k]? := by
  induction rows generalizing tx with
  | nil =>
      obtain rfl := Except.ok.inj h
      exact ⟨htx, rfl, fun map hmap => hmap⟩
  | cons row rows ih =>
      obtain ⟨key, value⟩ := row
      obtain ⟨hkey, hkeys⟩ := List.forall_mem_cons.mp hkeys
      obtain ⟨tx₁, hstage, hrest⟩ := Attempt.exists_of_bind_ok h
      obtain ⟨hengine₁, -, hview₁⟩ := Transaction.stage_ok hstage
      obtain ⟨hcommittable, hengine, hview⟩ := ih hkeys (htx.stage nativeState_mem hkey hstage) hrest
      refine ⟨hcommittable, hengine.trans hengine₁, fun map hmap => hview (map.put key value) fun k => ?_⟩
      rw [hview₁, OrdMap.getElem?_put, hmap]
      refine if_congr ?_ rfl rfl
      exact ⟨fun heq => heq.2.symm, fun heq => ⟨rfl, heq.symm⟩⟩

theorem recordsBody_ok (hkeys : ∀ row ∈ rows, row.1 ≠ []) (hothers : Bystander recordTables others)
    {tables : Tables} {u : Unit} (h : recordsBody rows others (.begin tables) = .ok (u, tx)) :
    tx.Committable ∧ tx.engine = tables ∧ ∀ k, tx.view nativeState k = ((tables nativeState).putAll rows)[k]? := by
  rw [recordsBody] at h
  cases hstage : (stageRecords rows (.begin tables)).bind others with
  | error e =>
      rw [hstage] at h
      cases h
  | ok tx₂ =>
      rw [hstage] at h
      obtain rfl := (Prod.mk.inj (Except.ok.inj h)).2
      obtain ⟨tx₁, hrecords, hrest⟩ := Attempt.exists_of_bind_ok hstage
      obtain ⟨hcommittable, hengine, hview⟩ := stageRecords_ok hkeys (committable_begin tables) hrecords
      have hkeeps := hothers.keeps _ _ hrest
      refine ⟨hothers.committable _ _ hcommittable hrest, hkeeps.engine.trans hengine, fun k => ?_⟩
      rw [hkeeps.view _ k (decide_eq_true rfl)]
      exact hview _ (fun _ => rfl) k

theorem NodeError.ne_ok (e : NodeError) : (.error e : Except NodeError Unit) ≠ .ok () := by
  intro h
  cases h

/-- A transaction of the node writes its rows as a whole or not at all, and it does when it answers so. -/
theorem records_of_step {hemera : List UInt8 → Bytes32} (hkeys : ∀ row ∈ rows, row.1 ≠ [])
    (hothers : Bystander recordTables others) {fault : Option Fault} {io : String} {state state' : Database}
    {result : Except NodeError Unit}
    (h : Database.Step hemera .storage state (.transaction (recordsBody rows others) fault io) (some result) state') :
    (state'.tables nativeState = state.tables nativeState ∧ result ≠ .ok ()) ∨
      (state.failure = none ∧ state'.tables nativeState = (state.tables nativeState).putAll rows ∧
        (result = .ok () ∨ state'.failure ≠ none)) := by
  obtain ⟨outcome, houtcome, hresult, hstate⟩ := h.transaction_inv
  obtain ⟨tables, failure⟩ := state
  cases failure with
  | some e =>
      rw [transaction_of_failure hemera NodeError.storage outcome rfl] at hresult hstate
      subst hresult hstate
      exact .inl ⟨rfl, NodeError.ne_ok _⟩
  | none =>
      cases hbody : recordsBody rows others (.begin tables) with
      | error e =>
          rw [transaction_of_error hemera NodeError.storage outcome rfl hbody] at hresult hstate
          subst hresult hstate
          exact .inl ⟨rfl, NodeError.ne_ok _⟩
      | ok value =>
          obtain ⟨⟨⟩, tx⟩ := value
          obtain ⟨-, hengine, hview⟩ := recordsBody_ok hkeys hothers hbody
          by_cases hempty : tx.changes.entries.isEmpty = true
          · have hchanges : tx.changes = ∅ := AList.ext (List.isEmpty_iff.mp hempty)
            rw [transaction_of_unchanged hemera NodeError.storage outcome rfl hbody hchanges] at hresult hstate
            subst hresult hstate
            refine .inr ⟨rfl, Std.ExtTreeMap.ext_getElem? fun k => ?_, .inl rfl⟩
            rw [← hview, Transaction.view, hchanges, AList.lookup_empty, Option.getD_none, hengine]
          · have hwritten : ∀ db' : Database,
                db'.tables = LeanBbg.Storage.applyChanges tables (withMarkers tx.changes (changeId hemera tx.changes)) →
                db'.tables nativeState = (tables nativeState).putAll rows := by
              intro db' htables
              have hengine' : tx.engine = (⟨tables, none⟩ : Database).tables := hengine
              refine Std.ExtTreeMap.ext_getElem? fun k => ?_
              rw [← hview]
              exact view_of_written hengine' htables nativeState k Table.noConfusion
            rw [FjallDatabase.transaction_eq hbody hempty] at hresult hstate
            cases fault with
            | none =>
                obtain rfl : outcome = .done := houtcome
                subst hresult hstate
                exact .inr ⟨rfl, hwritten _ rfl, .inl rfl⟩
            | some fault =>
                obtain ⟨message, written, rfl⟩ := houtcome
                subst hresult hstate
                cases written with
                | false => exact .inl ⟨rfl, NodeError.ne_ok _⟩
                | true => exact .inr ⟨rfl, hwritten _ rfl, .inr (Option.some_ne_none _)⟩

end Transactions

/-! ### What a step adds to the account -/

section Account

variable {log : List (NodeEvent F × NodeAnswer)} {rows : OrdMap (List UInt8) (List UInt8)} {event : NodeEvent F}
  {answer : NodeAnswer} {graph b : Bbg F} {batch : List NativeChange} {prepared : Prepared F}

theorem Descends.acc {created b : Bbg F} {batches : List (List NativeChange)} (h : Descends created batches b) :
    b.checkpoint.acc = none := by
  induction h with
  | created hacc => exact hacc
  | applied _ hprepare => exact (collected_of_prepare hprepare).2.1.acc
  | restarted _ hacc _ => exact hacc

theorem attempted_append (log log' : List (NodeEvent F × NodeAnswer)) :
    attempted (log ++ log') = attempted log ++ attempted log' := List.filterMap_append

theorem succeeded_append (log log' : List (NodeEvent F × NodeAnswer)) :
    succeeded (log ++ log') = succeeded log ++ succeeded log' := List.filter_append ..

theorem acknowledged_append (log log' : List (NodeEvent F × NodeAnswer)) :
    acknowledged (log ++ log') = acknowledged log ++ acknowledged log' := by
  rw [acknowledged, succeeded_append, attempted_append, acknowledged, acknowledged]

theorem sublist_attempted_append {batches : List (List NativeChange)} (h : batches.Sublist (attempted log))
    (log' : List (NodeEvent F × NodeAnswer)) : batches.Sublist (attempted (log ++ log')) := by
  rw [attempted_append]
  exact h.trans (List.sublist_append_left _ _)

/-- An event that did not write anything leaves the account as it is. -/
theorem Accounts.unchanged (h : Accounts log rows)
    (hidle : succeeded [(event, answer)] = [] ∨ event.batch = none ∧ event.created = none) :
    Accounts (log ++ [(event, answer)]) rows := by
  have hacknowledged : acknowledged (log ++ [(event, answer)]) = acknowledged log := by
    rw [acknowledged_append]
    refine (congrArg _ ?_).trans (List.append_nil _)
    rcases hidle with hnone | ⟨hbatch, -⟩
    · rw [acknowledged, hnone]
      rfl
    · refine List.filterMap_eq_nil_iff.mpr fun entry hentry => ?_
      obtain rfl := List.mem_singleton.mp (List.mem_of_mem_filter hentry)
      exact hbatch
  have hcreated : (succeeded (log ++ [(event, answer)])).filterMap (fun entry => entry.1.created) =
      (succeeded log).filterMap fun entry => entry.1.created := by
    rw [succeeded_append, List.filterMap_append]
    refine (congrArg _ ?_).trans (List.append_nil _)
    rcases hidle with hnone | ⟨-, hcreated⟩
    · rw [hnone]
      rfl
    · refine List.filterMap_eq_nil_iff.mpr fun entry hentry => ?_
      obtain rfl := List.mem_singleton.mp (List.mem_of_mem_filter hentry)
      exact hcreated
  rw [Accounts, hacknowledged, hcreated]
  rcases h with hnone | ⟨created, batches, b, hasked, hdescends, hrows, hin, hof, hunique⟩
  · exact .inl hnone
  · refine .inr ⟨created, batches, b, ?_, hdescends, hrows, hin, sublist_attempted_append hof _, hunique⟩
    rw [List.filterMap_append]
    exact List.mem_append_left _ hasked

/-- A batch whose rows were written is accounted for, acknowledged or not. -/
theorem Accounts.attempt (h : Accounts log (recordMap graph)) (hprepare : graph.prepareNativeBatch batch = .ok prepared)
    (others : Transaction → Except StorageError Transaction) (fault : Option Fault) (io : String)
    (answer : NodeAnswer) :
    Accounts (log ++ [(.attempt batch others fault io, answer)]) (recordMap prepared.publish) := by
  obtain ⟨hempty, -⟩ | ⟨created, batches, b, hasked, hdescends, hrows, hin, hof, hunique⟩ := h
  · exact absurd hempty (recordMap_ne_empty graph)
  have hacc := (collected_of_prepare hprepare).1
  refine .inr ⟨created, batches ++ [batch], _, ?_, (hdescends.restarted hacc hrows).applied hprepare, rfl, ?_, ?_, ?_⟩
  · rw [List.filterMap_append]
    exact List.mem_append_left _ hasked
  · rw [acknowledged_append]
    refine hin.append ?_
    by_cases hok : (answer matches some (.ok _)) = true
    · rw [acknowledged, succeeded, List.filter_singleton, hok]
      exact List.Sublist.refl _
    · rw [acknowledged, succeeded, List.filter_singleton, Bool.eq_false_iff.mpr hok]
      exact List.nil_sublist _
  · rw [attempted_append]
    exact hof.append (List.Sublist.refl _)
  · intro graph' hgraph'
    rw [succeeded_append, List.filterMap_append] at hgraph'
    rcases List.mem_append.mp hgraph' with hgraph' | hgraph'
    · exact hunique graph' hgraph'
    · obtain ⟨entry, hentry, hcreated⟩ := List.mem_filterMap.mp hgraph'
      obtain rfl := List.mem_singleton.mp (List.mem_of_mem_filter hentry)
      cases hcreated

/-- The first records are those of a created graph. -/
theorem Accounts.create (h : Accounts log ∅) (hacc : graph.checkpoint.acc = none)
    (others : Transaction → Except StorageError Transaction) (fault : Option Fault) (io : String)
    (answer : NodeAnswer) :
    Accounts (log ++ [(.create graph others fault io, answer)]) (recordMap graph) := by
  obtain ⟨-, hnone, hfresh⟩ | ⟨created, batches, b, -, -, hrows, -⟩ := h
  · refine .inr ⟨graph, [], graph, ?_, .created hacc, rfl, ?_, List.nil_sublist _, ?_⟩
    · rw [List.filterMap_append]
      exact List.mem_append_right _ (List.mem_singleton.mpr rfl)
    · have hnil : acknowledged [(NodeEvent.create graph others fault io, answer)] = [] := by
        refine List.filterMap_eq_nil_iff.mpr fun entry hentry => ?_
        obtain rfl := List.mem_singleton.mp (List.mem_of_mem_filter hentry)
        rfl
      rw [acknowledged_append, hnone, hnil]
      exact List.nil_sublist _
    · intro graph' hgraph'
      rw [succeeded_append, List.filterMap_append, hfresh] at hgraph'
      obtain ⟨entry, hentry, hcreated⟩ := List.mem_filterMap.mp hgraph'
      obtain rfl := List.mem_singleton.mp (List.mem_of_mem_filter hentry)
      exact (Option.some.inj hcreated).symm
  · exact absurd hrows.symm (recordMap_ne_empty b)

end Account

end Storage

end LeanBbg
