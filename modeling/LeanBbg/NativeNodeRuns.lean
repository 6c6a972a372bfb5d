import LeanBbg.NativeNode

/-! Whole runs of the node. In any order of batches, faults of the engine, crashes and restarts, what is on the disk are
the records of a graph that the acknowledged batches, and of the others some, have led to. -/

set_option linter.unusedSectionVars false

namespace LeanBbg

variable {F : Type} [Hemera F] [DecidableEq F] [Brakedown F]

namespace Storage

open Bbg Fjall

/-! ### Steps of the node -/

namespace NativeNode

section Steps

variable {T : Type} [AbstractTree T] [LawfulTree T] [Coding] [LawfulCoding] {xxh3 : List UInt8 → UInt64}
  {hemera : List UInt8 → Bytes32}

/-- The rows on the disk are accounted for, whichever batch in doubt they hold, and when the database has not failed
they are the records of the open graph. -/
structure Stands (xxh3 : List UInt8 → UInt64) (n : Nat) (node : NativeNode F T) (log : List (NodeEvent F × NodeAnswer))
    (states : Set Database) : Prop where
  follows : node.database.Follows xxh3 n states
  accounts : ∀ state ∈ states, Accounts log (state.tables nativeState)
  records : node.database.failure = none → ∀ graph, node.graph = some graph → ∀ state ∈ states,
    state.tables nativeState = recordMap graph
  acc : ∀ graph, node.graph = some graph → graph.checkpoint.acc = none

/-- A database that has failed stays so, and a transaction that answers did not fail. -/
theorem failure_of_transaction {E α : Type} {ofStorage : StorageError → E} {db db' : FjallDatabase T}
    {execute : Transaction → Except E (α × Transaction)} {fault : Option Fault} {io : String} {result : Except E α}
    (h : db.transaction xxh3 hemera ofStorage execute fault io = (result, db')) :
    (db.failure ≠ none → db'.failure ≠ none) ∧ ∀ value, result = .ok value → db'.failure = none := by
  obtain ⟨engine, failure⟩ := db
  rw [FjallDatabase.transaction] at h
  cases failure with
  | some e =>
      obtain ⟨rfl, rfl⟩ := Prod.mk.inj h
      exact ⟨id, fun value hvalue => by cases hvalue⟩
  | none =>
      refine ⟨fun hfailed => absurd rfl hfailed, fun value hvalue => ?_⟩
      dsimp only at h
      cases hexecute : execute (.begin engine.tables) with
      | error e =>
          rw [hexecute] at h
          rw [← (Prod.mk.inj h).2]
      | ok pair =>
          rw [hexecute] at h
          dsimp only at h
          split_ifs at h with hempty
          · rw [← (Prod.mk.inj h).2]
          · rw [FjallDatabase.write] at h
            split at h
            · rw [← (Prod.mk.inj h).2]
            · rw [← (Prod.mk.inj h).1] at hvalue
              cases hvalue

variable {n : Nat} {node : NativeNode F T} {log : List (NodeEvent F × NodeAnswer)} {states : Set Database}

/-- A refusal changes nothing. -/
theorem Stands.refuse (h : Stands xxh3 n node log states) (event : NodeEvent F) (e : NodeError) :
    Stands xxh3 (n + 1) node (log ++ [(event, some (.error e))]) states where
  follows := h.follows.more
  accounts state hstate := (h.accounts state hstate).unchanged (.inl rfl)
  records := h.records
  acc := h.acc

/-- The engine's own work does not show. -/
theorem Stands.work (h : Stands xxh3 n node log states) (hn : n < 2 ^ 64) {op : DatabaseOp NodeError Unit}
    (hop : op.Valid) (hsame : ∀ state answer state', Database.Step hemera .storage state op answer state' →
      state' = state) (event : NodeEvent F) : ∃ node' states', node.work xxh3 hemera op = some (none, node') ∧
      Stands xxh3 (n + 1) node' (log ++ [(event, none)]) states' := by
  have hnext : ∃ answer db' states', node.database.step xxh3 hemera NodeError.storage op = some (answer, db') ∧
      (∀ state' ∈ states', ∃ state ∈ states, Database.Step hemera .storage state op answer state') ∧
      db'.Follows xxh3 (n + 1) states' := FjallDatabase.Follows.step n hn _ _ op h.follows hop
  obtain ⟨answer, db', states', hstep, hstates, hfollows⟩ := hnext
  have hmem : ∀ state ∈ states', state ∈ states := by
    intro state' hstate'
    obtain ⟨state, hstate, hop⟩ := hstates state' hstate'
    rwa [hsame state answer state' hop]
  have hwork : node.work xxh3 hemera op = some (none, { node with database := db' }) := by
    rw [NativeNode.work, hstep]
    rfl
  refine ⟨{ node with database := db' }, states', hwork, hfollows, fun state hstate => ?_, ?_, h.acc⟩
  · exact (h.accounts state (hmem state hstate)).unchanged (.inl rfl)
  · intro hready graph hgraph state hstate
    refine h.records ?_ graph hgraph state (hmem state hstate)
    rw [← h.follows.failure_eq (hmem state hstate), hfollows.failure_eq hstate]
    exact hready

section Commit

variable {rows : List (List UInt8 × Option (List UInt8))} {others : Transaction → Except StorageError Transaction}
  {fault : Option Fault} {io : String} {result : Except NodeError Unit} {database : FjallDatabase T}

theorem Stands.commit (h : Stands xxh3 n node log states) (hn : n < 2 ^ 64) (hkeys : ∀ row ∈ rows, row.1 ≠ [])
    (hothers : Bystander recordTables others)
    (htx : node.database.transaction xxh3 hemera .storage (recordsBody rows others) fault io = (result, database)) :
    ∃ states', database.Follows xxh3 (n + 1) states' ∧ ∀ state' ∈ states', ∃ state ∈ states,
      (state'.tables nativeState = state.tables nativeState ∧ result ≠ .ok ()) ∨
        (state.failure = none ∧ state'.tables nativeState = (state.tables nativeState).putAll rows ∧
          (result = .ok () ∨ state'.failure ≠ none)) := by
  have hnext : ∃ states', (∀ state' ∈ states', ∃ state ∈ states, Database.Step hemera .storage state
        (.transaction (recordsBody rows others) fault io)
        (some (node.database.transaction xxh3 hemera .storage (recordsBody rows others) fault io).1) state') ∧
      (node.database.transaction xxh3 hemera .storage (recordsBody rows others) fault io).2.Follows xxh3 (n + 1)
        states' :=
    h.follows.transaction hn fun tables u tx hbody => (recordsBody_ok hkeys hothers hbody).1
  obtain ⟨states', hstates, hfollows⟩ := hnext
  rw [htx] at hstates hfollows
  refine ⟨states', hfollows, fun state' hstate' => ?_⟩
  obtain ⟨state, hstate, hstep⟩ := hstates state' hstate'
  exact ⟨state, hstate, records_of_step hkeys hothers hstep⟩

/-- A transaction that did not answer leaves the open graph as it was: it has the records of every disk that the
database, if it has not failed, may have. -/
theorem Stands.dropped (h : Stands xxh3 n node log states) (hn : n < 2 ^ 64) (hkeys : ∀ row ∈ rows, row.1 ≠ [])
    (hothers : Bystander recordTables others) {e : NodeError}
    (htx : node.database.transaction xxh3 hemera .storage (recordsBody rows others) fault io = (.error e, database))
    {event : NodeEvent F} (hwritten : ∀ state ∈ states, state.failure = none →
      Accounts (log ++ [(event, some (.error e))]) ((state.tables nativeState).putAll rows)) :
    ∃ states', Stands xxh3 (n + 1) ⟨node.graph, database⟩ (log ++ [(event, some (.error e))]) states' := by
  obtain ⟨states', hfollows, hstates⟩ := h.commit hn hkeys hothers htx
  refine ⟨states', hfollows, fun state' hstate' => ?_, fun hready graph hgraph state' hstate' => ?_, h.acc⟩
  · obtain ⟨state, hstate, ⟨hsame, -⟩ | ⟨hready, hput, -⟩⟩ := hstates state' hstate'
    · rw [hsame]
      exact (h.accounts state hstate).unchanged (.inl rfl)
    · rw [hput]
      exact hwritten state hstate hready
  · obtain ⟨state, hstate, ⟨hsame, -⟩ | ⟨-, -, hok | hfailed⟩⟩ := hstates state' hstate'
    · rw [hsame]
      refine h.records ?_ graph hgraph state hstate
      by_contra hfailed
      exact (failure_of_transaction htx).1 hfailed hready
    · exact absurd hok (NodeError.ne_ok e)
    · exact absurd ((hfollows.failure_eq hstate').trans hready) hfailed

/-- A transaction that answers has written the records of the graph that is open from then on. -/
theorem Stands.published (h : Stands xxh3 n node log states) (hn : n < 2 ^ 64) (hkeys : ∀ row ∈ rows, row.1 ≠ [])
    (hothers : Bystander recordTables others)
    (htx : node.database.transaction xxh3 hemera .storage (recordsBody rows others) fault io = (.ok (), database))
    {event : NodeEvent F} {graph : Bbg F} (hacc : graph.checkpoint.acc = none)
    (hgraph : ∀ state ∈ states, state.failure = none → (state.tables nativeState).putAll rows = recordMap graph)
    (haccounts : Accounts (log ++ [(event, some (.ok ()))]) (recordMap graph)) :
    ∃ states', Stands xxh3 (n + 1) ⟨some graph, database⟩ (log ++ [(event, some (.ok ()))]) states' := by
  obtain ⟨states', hfollows, hstates⟩ := h.commit hn hkeys hothers htx
  have hrecords : ∀ state' ∈ states', state'.tables nativeState = recordMap graph := by
    intro state' hstate'
    obtain ⟨state, hstate, ⟨-, hok⟩ | ⟨hready, hput, -⟩⟩ := hstates state' hstate'
    · exact absurd rfl hok
    · rw [hput, hgraph state hstate hready]
  refine ⟨states', hfollows, fun state' hstate' => ?_, fun _ graph' hgraph' state' hstate' => ?_,
    fun graph' hgraph' => ?_⟩
  · rw [hrecords state' hstate']
    exact haccounts
  · obtain rfl := Option.some.inj hgraph'
    exact hrecords state' hstate'
  · obtain rfl := Option.some.inj hgraph'
    exact hacc

end Commit

variable {others : Transaction → Except StorageError Transaction}

theorem records_eq_ok {graph : Bbg F} {rows : List RawEntry} (h : LeanBbg.records graph = .ok rows) :
    graph.checkpoint.acc = none ∧ rows = recordList graph := by
  rw [LeanBbg.records] at h
  split_ifs at h with hacc
  exact ⟨by simpa using hacc, (Except.ok.inj h).symm⟩

theorem records_of_acc {graph : Bbg F} (hacc : graph.checkpoint.acc = none) :
    LeanBbg.records graph = .ok (recordList graph) := by
  rw [LeanBbg.records, hacc]
  rfl

theorem empty_of_stored {db : FjallDatabase T} (h : db.Follows xxh3 n states) (hstored : stored db.engine = [])
    {state : Database} (hstate : state ∈ states) (hready : state.failure = none) : state.tables nativeState = ∅ := by
  rw [h.eq_shown ((h.failure_eq hstate).symm.trans hready) hstate]
  change db.engine.tables nativeState = ∅
  rw [FjallEngine.tables, if_pos nativeState_mem]
  exact congrArg OrdMap.ofEntries hstored

theorem Stands.create (h : Stands xxh3 n node log states) (hn : n < 2 ^ 64) (hemera : List UInt8 → Bytes32)
    (graph : Bbg F) (hothers : Bystander recordTables others) (fault : Option Fault) (io : String) :
    ∃ states', Stands xxh3 (n + 1) (node.create xxh3 hemera graph others fault io).2
      (log ++ [(.create graph others fault io, some (node.create xxh3 hemera graph others fault io).1)]) states' := by
  rw [NativeNode.create]
  cases hrecords : LeanBbg.records graph with
  | error e => exact ⟨states, h.refuse _ _⟩
  | ok rows =>
      dsimp only
      split_ifs with hoccupied
      · exact ⟨states, h.refuse _ _⟩
      · rw [not_or, not_not] at hoccupied
        obtain ⟨hclosed, hstored⟩ := hoccupied
        obtain ⟨hacc, rfl⟩ := records_eq_ok hrecords
        have hkeys : ∀ row ∈ allRows graph, row.1 ≠ [] := by
          intro row hrow
          obtain ⟨r, hr, rfl⟩ := List.mem_map.mp hrow
          exact recordList_key_ne_nil graph hr
        have hempty : ∀ state ∈ states, state.failure = none → state.tables nativeState = ∅ := fun state hstate =>
          empty_of_stored h.follows hstored hstate
        have haccounts : ∀ state ∈ states, state.failure = none → ∀ answer,
            Accounts (log ++ [(.create graph others fault io, answer)]) (recordMap graph) := by
          intro state hstate hready answer
          have hrows := h.accounts state hstate
          rw [hempty state hstate hready] at hrows
          exact hrows.create hacc others fault io answer
        cases htx : node.database.transaction xxh3 hemera NodeError.storage (recordsBody (allRows graph) others)
            fault io with
        | mk result database =>
            rw [allRows] at htx
            rw [htx]
            cases result with
            | error e =>
                have hnone : node.graph = none := by simpa using hclosed
                rw [← hnone]
                refine h.dropped hn hkeys hothers htx fun state hstate hready => ?_
                rw [hempty state hstate hready, putAll_allRows]
                exact haccounts state hstate hready _
            | ok u =>
                have hready : node.database.failure = none := by
                  by_contra hfailed
                  exact (failure_of_transaction htx).1 hfailed ((failure_of_transaction htx).2 u rfl)
                obtain ⟨state, hstate⟩ := h.follows.nonempty
                refine h.published hn hkeys hothers htx hacc (fun state hstate hready => ?_)
                  (haccounts state hstate ((h.follows.failure_eq hstate).trans hready) _)
                rw [hempty state hstate hready, putAll_allRows]

theorem Stands.attempt [NebuRoundTrip F] (h : Stands xxh3 n node log states) (hn : n < 2 ^ 64)
    (hemera : List UInt8 → Bytes32) (batch : List NativeChange) (hothers : Bystander recordTables others)
    (fault : Option Fault) (io : String) : ∃ answer node' states', node.attempt xxh3 hemera batch others fault io = some (answer, node') ∧
      Stands xxh3 (n + 1) node' (log ++ [(.attempt batch others fault io, some answer)]) states' := by
  obtain ⟨graph?, db⟩ := node
  rw [NativeNode.attempt]
  cases graph? with
  | none => exact ⟨_, _, states, rfl, h.refuse _ _⟩
  | some graph =>
      dsimp only
      cases hprepare : graph.prepareNativeBatch batch with
      | error failed =>
          obtain ⟨e, left⟩ := failed
          obtain rfl := left_of_prepare hprepare
          exact ⟨_, _, states, rfl, h.refuse _ _⟩
      | ok prepared =>
          have hkeys : ∀ row ∈ changedRows prepared, row.1 ≠ [] := fun row hrow => changedRows_key_ne_nil hprepare hrow
          have hrecords : ∀ state ∈ states, state.failure = none → state.tables nativeState = recordMap graph := by
            intro state hstate hready
            exact h.records ((h.follows.failure_eq hstate).symm.trans hready) graph rfl state hstate
          have haccounts : ∀ state ∈ states, state.failure = none → ∀ answer,
              Accounts (log ++ [(.attempt batch others fault io, answer)]) (recordMap prepared.publish) := by
            intro state hstate hready answer
            have hrows := h.accounts state hstate
            rw [hrecords state hstate hready] at hrows
            exact hrows.attempt hprepare others fault io answer
          cases htx : db.transaction xxh3 hemera NodeError.storage (recordsBody (changedRows prepared) others)
              fault io with
          | mk result database =>
              dsimp only
              rw [htx]
              cases result with
              | error e =>
                  have hdropped : ∃ states', Stands xxh3 (n + 1) ⟨some graph, database⟩
                      (log ++ [(.attempt batch others fault io, some (.error e))]) states' := by
                    refine h.dropped hn hkeys hothers htx fun state hstate hready => ?_
                    rw [hrecords state hstate hready, putAll_changedRows hprepare]
                    exact haccounts state hstate hready _
                  obtain ⟨states', hstands⟩ := hdropped
                  refine ⟨_, _, states', ?_, hstands⟩
                  rw [drop_of_prepare hprepare]
                  rfl
              | ok u =>
                  have hready : db.failure = none := by
                    by_contra hfailed
                    exact (failure_of_transaction htx).1 hfailed ((failure_of_transaction htx).2 u rfl)
                  have hacc : prepared.publish.checkpoint.acc = none := (collected_of_prepare hprepare).2.1.acc
                  obtain ⟨state, hstate⟩ := h.follows.nonempty
                  have hpublished : ∃ states', Stands xxh3 (n + 1) ⟨some prepared.publish, database⟩
                      (log ++ [(.attempt batch others fault io, some (.ok ()))]) states' := by
                    refine h.published hn hkeys hothers htx hacc (fun state hstate hready => ?_)
                      (haccounts state hstate ((h.follows.failure_eq hstate).trans hready) _)
                    rw [hrecords state hstate hready, putAll_changedRows hprepare]
                  obtain ⟨states', hstands⟩ := hpublished
                  exact ⟨_, _, states', rfl, hstands⟩

/-- After a crash the database is open again, with rows that were accounted for before. -/
theorem Stands.reopen (h : Stands xxh3 n node log states) (hn : n < 2 ^ 64) (hemera : List UInt8 → Bytes32)
    (kept : Nat) : ∃ database states',
      node.database.step xxh3 hemera NodeError.storage (.reopen kept : DatabaseOp NodeError Unit) =
        some (none, database) ∧
      database.failure = none ∧ database.Follows xxh3 (n + 1) states' ∧
      ∀ state ∈ states', Accounts log (state.tables nativeState) := by
  have hnext : ∃ keyspace states', node.database.engine.keyspace.crash xxh3 kept = .ok keyspace ∧
      (∀ state' ∈ states', ∃ state ∈ states, Database.Step hemera NodeError.storage state
        (.reopen kept : DatabaseOp NodeError Unit) none state') ∧
      FjallDatabase.Follows xxh3 (n + 1) ⟨⟨keyspace⟩, none⟩ states' := h.follows.reopen hn kept
  obtain ⟨keyspace, states', hcrash, hstates, hfollows⟩ := hnext
  refine ⟨⟨⟨keyspace⟩, none⟩, states', by rw [FjallDatabase.step, hcrash], rfl, hfollows, fun state' hstate' => ?_⟩
  obtain ⟨state, hstate, hstep⟩ := hstates state' hstate'
  cases hstep with
  | reopen => exact h.accounts state hstate

theorem toList_of_settled {db : FjallDatabase T} (h : db.Follows xxh3 n states) (hready : db.failure = none)
    {state : Database} (hstate : state ∈ states) : (state.tables nativeState).toList = stored db.engine := by
  rw [h.eq_shown hready hstate]
  exact db.engine.toList_tables nativeState_mem

theorem eq_tables_of_settled {db : FjallDatabase T} (h : db.Follows xxh3 n states) (hready : db.failure = none)
    {state : Database} (hstate : state ∈ states) : state.tables nativeState = db.engine.tables nativeState := by
  rw [h.eq_shown hready hstate]

theorem eq_recordMap_of_toList {rows : OrdMap (List UInt8) (List UInt8)} {graph : Bbg F}
    (h : rows.toList = recordList graph) : rows = recordMap graph := by
  refine Std.ExtTreeMap.ext_getElem? fun k => Option.ext fun v => ?_
  rw [recordMap_getElem?, ← h, Std.ExtTreeMap.mem_toList_iff_getElem?_eq_some]

theorem Stands.restart (h : Stands xxh3 n node log states) (hn : n < 2 ^ 64) (kept : Nat) (candidate : Bbg F) :
    ∃ answer node' states', node.step xxh3 hemera (.restart kept candidate) = some (answer, node') ∧
      Stands xxh3 (n + 1) node' (log ++ [(.restart kept candidate, answer)]) states' := by
  obtain ⟨database, states', hstep, hready, hfollows, haccounts⟩ := h.reopen hn hemera kept
  have hunchanged : ∀ answer, ∀ state ∈ states', Accounts (log ++ [(.restart kept candidate, answer)])
      (state.tables nativeState) := fun answer state hstate => (haccounts state hstate).unchanged (.inr ⟨rfl, rfl⟩)
  have hclosed : ∀ e, Stands xxh3 (n + 1) (⟨none, database⟩ : NativeNode F T)
      (log ++ [(.restart kept candidate, some (.error e))]) states' := by
    refine fun e => ⟨hfollows, hunchanged _, fun _ graph hgraph => ?_, fun graph hgraph => ?_⟩
    · cases hgraph
    · cases hgraph
  rw [NativeNode.step, hstep, Option.map_some, openRecords]
  cases hrecords : LeanBbg.records candidate with
  | error e => exact ⟨_, _, states', rfl, hclosed _⟩
  | ok rows =>
      obtain ⟨hacc, rfl⟩ := records_eq_ok hrecords
      dsimp only
      split_ifs with heq
      · refine ⟨_, _, states', rfl, hfollows, hunchanged _, fun _ graph hgraph state hstate => ?_,
          fun graph hgraph => ?_⟩
        · obtain rfl := Option.some.inj hgraph
          exact eq_recordMap_of_toList ((toList_of_settled hfollows hready hstate).trans heq.symm)
        · obtain rfl := Option.some.inj hgraph
          exact hacc
      · exact ⟨_, _, states', rfl, hclosed _⟩

end Steps

end NativeNode

/-- What the caller writes with the records of each transaction is a bystander. -/
def NodeEvent.Valid : NodeEvent F → Prop
  | create _ others _ _ => Bystander recordTables others
  | attempt _ others _ _ => Bystander recordTables others
  | _ => True

section Runs

variable {T : Type} [AbstractTree T] [LawfulTree T] [Coding] [LawfulCoding] {xxh3 : List UInt8 → UInt64}
  {hemera : List UInt8 → Bytes32} [NebuRoundTrip F]

theorem NativeNode.Stands.step {n : Nat} (hn : n < 2 ^ 64) {node : NativeNode F T}
    {log : List (NodeEvent F × NodeAnswer)} {states : Set Database} (h : node.Stands xxh3 n log states)
    (event : NodeEvent F) (hevent : event.Valid) : ∃ answer node' states',
      node.step xxh3 hemera event = some (answer, node') ∧
        node'.Stands xxh3 (n + 1) (log ++ [(event, answer)]) states' := by
  cases event with
  | create graph others fault io =>
      obtain ⟨states', hstands⟩ := h.create hn hemera graph hevent fault io
      exact ⟨_, _, states', rfl, hstands⟩
  | attempt batch others fault io =>
      obtain ⟨answer, node', states', hattempt, hstands⟩ := h.attempt hn hemera batch hevent fault io
      exact ⟨_, node', states', by rw [NativeNode.step, hattempt]; rfl, hstands⟩
  | rotateMemtable name =>
      have hsame : ∀ state answer state', Database.Step hemera NodeError.storage state
          (.rotateMemtable name : DatabaseOp NodeError Unit) answer state' → state' = state := by
        rintro _ _ _ ⟨⟩
        rfl
      have hvalid : (.rotateMemtable name : DatabaseOp NodeError Unit).Valid := trivial
      obtain ⟨node', states', hwork, hstands⟩ := h.work hn hvalid hsame (.rotateMemtable name)
      exact ⟨none, node', states', hwork, hstands⟩
  | flush name k =>
      have hsame : ∀ state answer state', Database.Step hemera NodeError.storage state
          (.flush name k : DatabaseOp NodeError Unit) answer state' → state' = state := by
        rintro _ _ _ ⟨⟩
        rfl
      have hvalid : (.flush name k : DatabaseOp NodeError Unit).Valid := trivial
      obtain ⟨node', states', hwork, hstands⟩ := h.work hn hvalid hsame (.flush name k)
      exact ⟨none, node', states', hwork, hstands⟩
  | maintenance =>
      have hsame : ∀ state answer state', Database.Step hemera NodeError.storage state
          (.maintenance : DatabaseOp NodeError Unit) answer state' → state' = state := by
        rintro _ _ _ ⟨⟩
        rfl
      have hvalid : (.maintenance : DatabaseOp NodeError Unit).Valid := trivial
      obtain ⟨node', states', hwork, hstands⟩ := h.work hn hvalid hsame .maintenance
      exact ⟨none, node', states', hwork, hstands⟩
  | restart kept candidate => exact h.restart hn kept candidate

/-- What a run of the node comes to. -/
structure NativeNode.Recorded (xxh3 : List UInt8 → UInt64) (hemera : List UInt8 → Bytes32) (node : NativeNode F T)
    (log : List (NodeEvent F × NodeAnswer)) : Prop where
  accounts : node.database.failure = none → Accounts log (node.database.engine.tables nativeState)
  open_graph : node.database.failure = none → ∀ graph, node.graph = some graph →
    records graph = .ok (stored node.database.engine)
  restarts : ∀ kept, ∃ database, node.database.step xxh3 hemera NodeError.storage (.reopen kept) =
      some ((none : NodeAnswer), database) ∧ Accounts log (database.engine.tables nativeState) ∧
    (stored database.engine = [] ∨ ∃ candidate : Bbg F, records candidate = .ok (stored database.engine))

theorem NativeNode.Stands.recorded {n : Nat} (hn : n < 2 ^ 64) {node : NativeNode F T}
    {log : List (NodeEvent F × NodeAnswer)} {states : Set Database} (h : node.Stands xxh3 n log states) :
    node.Recorded xxh3 hemera log := by
  refine ⟨fun hready => ?_, fun hready graph hgraph => ?_, fun kept => ?_⟩
  · obtain ⟨state, hstate⟩ := h.follows.nonempty
    have haccounts := h.accounts state hstate
    rwa [eq_tables_of_settled h.follows hready hstate] at haccounts
  · obtain ⟨state, hstate⟩ := h.follows.nonempty
    rw [← toList_of_settled h.follows hready hstate, h.records hready graph hgraph state hstate, toList_recordMap]
    exact records_of_acc (h.acc graph hgraph)
  · obtain ⟨database, states', hstep, hready, hfollows, haccounts⟩ := h.reopen hn hemera kept
    obtain ⟨state, hstate⟩ := hfollows.nonempty
    have hrows := haccounts state hstate
    have hstored := toList_of_settled hfollows hready hstate
    refine ⟨database, hstep, eq_tables_of_settled hfollows hready hstate ▸ hrows, ?_⟩
    rcases hrows with ⟨hempty, -⟩ | ⟨created, batches, b, -, hdescends, hrows, -⟩
    · rw [hempty] at hstored
      exact .inl hstored.symm
    · rw [hrows, toList_recordMap] at hstored
      exact .inr ⟨b, hstored ▸ records_of_acc hdescends.acc⟩

/-- Every run of a new node goes through, whatever transactions fail, tear or crash: the rows on the disk are always
the records of a graph that came of the created one by batches among those attempted, the acknowledged ones all with
them and in their order; an open graph has the records of the disk; and after a crash at any moment the rows are such
again, so that a restart with a graph of the same records succeeds. -/
theorem native_runs_recorded {events : List (NodeEvent F)} (hevents : ∀ event ∈ events, event.Valid)
    (hlen : events.length < 2 ^ 64) : ∃ answers node,
      Refine.run (NativeNode.step xxh3 hemera) (NativeNode.start : NativeNode F T) events = some (answers, node) ∧
        node.Recorded xxh3 hemera (events.zip answers) := by
  have hstart : (NativeNode.start : NativeNode F T).Stands xxh3 0 [] {⟨fun _ => ∅, none⟩} := by
    refine ⟨FjallDatabase.follows_create, fun state hstate => ?_, fun _ graph hgraph => ?_, fun graph hgraph => ?_⟩
    · obtain rfl := hstate
      exact .inl ⟨rfl, rfl, rfl⟩
    · cases hgraph
    · cases hgraph
  have hstep : ∀ n < 2 ^ 64, ∀ (node : NativeNode F T) (log : List (NodeEvent F × NodeAnswer)) (event : NodeEvent F),
      (∃ states, node.Stands xxh3 n log states) → event.Valid → ∃ answer node' log',
        node.step xxh3 hemera event = some (answer, node') ∧ log' = log ++ [(event, answer)] ∧
          ∃ states, node'.Stands xxh3 (n + 1) log' states := by
    rintro n hn node log event ⟨states, hstands⟩ hevent
    obtain ⟨answer, node', states', hstep, hstands'⟩ := hstands.step hn event hevent
    exact ⟨answer, node', _, hstep, rfl, states', hstands'⟩
  have hrun : ∃ answers node log, Refine.run (NativeNode.step xxh3 hemera) (NativeNode.start : NativeNode F T) events =
      some (answers, node) ∧
      Refine.Runs (fun log event answer log' => log' = log ++ [(event, answer)]) [] events answers log ∧
      ∃ states, node.Stands xxh3 (0 + events.length) log states :=
    Refine.exists_runs hstep ⟨_, hstart⟩ hevents (by omega)
  obtain ⟨answers, node, log, hrun, hruns, states, hstands⟩ := hrun
  obtain rfl := hruns.eq_zip
  rw [List.nil_append] at hstands
  exact ⟨answers, node, hrun, hstands.recorded (by omega)⟩

end Runs

/-- A first graph, a batch whose transaction does not reach the disk, and the batch again after a crash, each with a
request of the caller. -/
theorem native_runs_recorded_crashed :
    let request : Transaction → Except StorageError Transaction := fun tx => tx.put (.native .nativeRequests) [1] [2]
    let events : List (NodeEvent Goldilocks) :=
      [.create Bbg.new request none "", .attempt spendAndDeclare request (some .persist) "", .restart 90 Bbg.new,
        .attempt spendAndDeclare request none ""]
    ∃ answers node, Refine.run (NativeNode.step (fun _ => 0) fun _ => Vector.replicate 32 0)
      (NativeNode.start : NativeNode Goldilocks LsmTree) events = some (answers, node) ∧
        node.Recorded (fun _ => 0) (fun _ => Vector.replicate 32 0) (events.zip answers) := by
  intro request events
  have hrequest : Bystander recordTables request :=
    .put (native_mem .nativeRequests) (List.cons_ne_nil _ _) (by decide)
  have hevents : ∀ event ∈ events, event.Valid := by
    intro event hevent
    simp only [events, List.mem_cons, List.not_mem_nil, or_false] at hevent
    obtain rfl | rfl | rfl | rfl := hevent
    · exact hrequest
    · exact hrequest
    · trivial
    · exact hrequest
  exact native_runs_recorded hevents (by decide)

end Storage

end LeanBbg
