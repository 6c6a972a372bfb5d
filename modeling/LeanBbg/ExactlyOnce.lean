import LeanBbg.ApplicationSpec
import LeanBbg.LibRefine

/-! Exactly-once writes. Calls of any number of clients of one database, in any order and with any outcome of
their commits, and reopenings of the database between them: every request publishes at most once, and its
receipt decides every later call with the same request. -/

namespace LeanBbg.Storage

open Bytes Attempt

variable (hemera : List UInt8 → Bytes32)

namespace Call

def write : Call → Write
  | apply write | applyOnce write | applyWith write _ | applyMigration write _ => write

def allowRetry : Call → Bool
  | applyOnce _ => false
  | _ => true

def transition : Call → Transaction → Except Error Transaction
  | apply _ | applyOnce _ => .ok
  | applyWith _ transition => transition.run
  | applyMigration write migration => migrateSources write migration

/-- The checks of the arguments, before the transaction. -/
def admissible : Call → Bool
  | applyMigration write migration => migration.admissible write && (validateWrite write).isOk
  | call => (validateWrite call.write).isOk

/-- The call gets to its closure. -/
def RunsClosure (call : Call) (db : Database) : Prop :=
  db.failure = none ∧ ∃ tx, admission call.write call.allowRetry (.begin db.tables) = .ok (.inr tx)

theorem keepsApplication_transition (call : Call) : KeepsApplication call.transition := by
  intro tx tx' h
  have hsame : tx' = tx → tx.KeepsRows (fun t => t.isOwned && t ≠ .migration) tx' := by
    rintro rfl
    exact .refl _ tx'
  cases call with
  | apply write => exact hsame (Except.ok.inj h).symm
  | applyOnce write => exact hsame (Except.ok.inj h).symm
  | applyWith write program =>
      have hkeep := program.keepsRows_of_run h
      exact ⟨hkeep.engine, fun t k ht => hkeep.view t k (Bool.and_eq_true_iff.mp ht).1⟩
  | applyMigration write migration =>
      have hkeep := keepsRows_of_migrateSources h
      exact ⟨hkeep.engine, fun t k ht => hkeep.view t k (Bool.and_eq_true_iff.mp ht).2⟩

/-- A call that its arguments do not stop is one transaction. -/
theorem run_eq (call : Call) (db : Database) (outcome : CommitOutcome) : call.run hemera db outcome =
    if call.admissible then
      db.transaction hemera Error.ofStorage outcome (applyBody call.write call.allowRetry call.transition)
    else (⟨.error .limit, false⟩, db) := by
  have hchecked : ∀ write allowRetry transition, applyChecked hemera db outcome write allowRetry transition =
      if (validateWrite write).isOk then
        db.transaction hemera Error.ofStorage outcome (applyBody write allowRetry transition)
      else (⟨.error .limit, false⟩, db) := by
    intro write allowRetry transition
    have hcases : validateWrite write = .ok () ∨ validateWrite write = .error .limit := by
      rw [validateWrite, refuse, refuse]
      split_ifs
      · exact .inr rfl
      · exact .inr rfl
      · exact .inr rfl
      · exact .inl rfl
    rw [applyChecked]
    rcases hcases with hok | herror
    · rw [hok]
      rfl
    · rw [herror]
      rfl
  cases call with
  | apply write => exact hchecked write true .ok
  | applyOnce write => exact hchecked write false .ok
  | applyWith write program => exact hchecked write true program.run
  | applyMigration write migration =>
      rw [Call.run, admissible, hchecked]
      cases migration.admissible write <;> rfl

end Call

/-! ### Steps -/

/-- What a call that wrote did: a publication of its write, with the effect of its transition beside it. -/
structure Publication (call : Call) (db db' : Database) : Prop where
  admitted : Admitted call.write db.view
  published : Published call.write db.view db'.view
  transition : ∃ tx₁ tx₂, call.transition tx₁ = .ok tx₂ ∧
    (∀ k, tx₁.view .migration k = db.view .migration k) ∧ (∀ k, tx₁.view .heads k = db.view .heads k) ∧
    ∀ k, db'.view .migration k = tx₂.view .migration k

/-- A call that writes publishes; one that does not leaves all tables as they are. -/
theorem Call.run_cases {call : Call} {db db' : Database} {outcome : CommitOutcome} {reply : Reply Error Head}
    (h : call.run hemera db outcome = (reply, db')) :
    (reply.written = false ∧ db'.tables = db.tables) ∨
    (reply.written = true ∧ call.admissible = true ∧ db.failure = none ∧ Publication call db db' ∧
      (reply.result = .ok call.write.head ∨ ∃ message, reply.result = .error (.commitUnknown message))) := by
  rw [call.run_eq] at h
  split_ifs at h with hadmissible
  · rcases transaction_cases hemera Error.ofStorage outcome h with hsame |
      ⟨hwritten, hready, head, tx, hbody, hchanges, htables, hresult⟩
    · exact .inl hsame
    rcases applyBody_ok call.keepsApplication_transition hbody with ⟨rfl, -⟩ |
      ⟨rfl, hengine, -, hadmitted, hpublished, tx₁, tx₂, htransition, hmigration, hheads, hafter⟩
    · exact absurd rfl hchanges
    have hview := view_of_written hengine htables
    refine .inr ⟨hwritten, hadmissible, hready, ⟨hadmitted, ?_, tx₁, tx₂, htransition, hmigration, hheads, fun k => ?_⟩, ?_⟩
    · obtain ⟨hclaims, hcontent, hcommitted, hhistory, hheads, hrequests⟩ := hpublished
      refine ⟨fun k x hx => ?_, fun k x hx => ?_, ?_, fun k => ?_, fun k => ?_, fun k => ?_⟩
      · rw [hview .claims k nofun]
        exact hclaims k x hx
      · rw [hview .content k nofun]
        exact hcontent k x hx
      · rw [hview .content _ nofun]
        exact hcommitted
      · rw [hview .history k nofun]
        exact hhistory k
      · rw [hview .heads k nofun]
        exact hheads k
      · rw [hview .requests k nofun]
        exact hrequests k
    · rw [hview .migration k nofun]
      exact hafter k
    · rcases hresult with hok | ⟨id, message, herror⟩
      · exact .inl hok
      · exact .inr ⟨message, herror⟩
  · obtain ⟨rfl, rfl⟩ := Prod.mk.inj h
    exact .inl ⟨rfl, rfl⟩

/-- A call whose request has a receipt. -/
theorem Call.run_of_receipt {call : Call} {db : Database} (outcome : CommitOutcome) (hadmissible : call.admissible = true)
    {fingerprint : Particle} {head : Head}
    (hreceipt : db.view .requests (requestKey call.write.space call.write.request) =
      some (encodeRequest fingerprint head)) :
    ¬call.RunsClosure db ∧ call.run hemera db outcome = (⟨
      match db.failure with
      | some e => .error (.ofStorage e)
      | none =>
          if call.allowRetry ∧ call.write.fingerprint = fingerprint then .ok head else .error .conflict, false⟩, db) := by
  have hget : lift ((Transaction.begin db.tables).get .requests (requestKey call.write.space call.write.request) 72) =
      .ok (some (encodeRequest fingerprint head)) := by
    rw [Transaction.get_eq_ok (by simp [requestKey]) (by decide), Transaction.view_begin]
    · rw [Database.view] at hreceipt
      rw [hreceipt]
      rfl
    · intro v hv
      rw [Transaction.view_begin] at hv
      have heq : v = encodeRequest fingerprint head := Option.some_inj.mp (hv.symm.trans hreceipt)
      rw [heq, encodeRequest_length]
  have hadmission : admission call.write call.allowRetry (.begin db.tables) =
      if call.allowRetry ∧ call.write.fingerprint = fingerprint then .ok (.inl head) else .error .conflict := by
    rw [admission, hget]
    change (if !call.allowRetry then _ else (decodeRequest (encodeRequest fingerprint head)).bind _) = _
    rw [decodeRequest_encodeRequest]
    cases call.allowRetry with
    | false => rfl
    | true =>
        change (if fingerprint = call.write.fingerprint then _ else _) = _
        simp only [eq_comm, true_and]
  constructor
  · rintro ⟨-, tx, hfresh⟩
    rw [hadmission] at hfresh
    split_ifs at hfresh
    cases hfresh
  · rw [call.run_eq, if_pos hadmissible]
    cases hready : db.failure with
    | some e => exact transaction_of_failure hemera Error.ofStorage outcome hready
    | none =>
        dsimp only
        split_ifs with hretry
        · have hunchanged : (Transaction.begin db.tables).changes = ∅ := rfl
          refine transaction_of_unchanged hemera Error.ofStorage outcome hready ?_ hunchanged
          rw [applyBody, hadmission, if_pos hretry]
          rfl
        · refine transaction_of_error hemera Error.ofStorage outcome hready ?_
          rw [applyBody, hadmission, if_neg hretry]
          rfl

/-! ### Runs -/

inductive StoreOp where
  | call (call : Call) (outcome : CommitOutcome)
  /-- The database is closed, or its process ends, and it is opened again. -/
  | reopen

/-- One call or reopening, with the write it published. -/
def Database.step (db : Database) : StoreOp → Option (List Write × Database)
  | .call call outcome =>
      let (reply, db) := call.run hemera db outcome
      some (if reply.written then [call.write] else [], db)
  | .reopen => some ([], { db with failure := none })

def Database.empty : Database := ⟨fun _ => ∅, none⟩

/-- The publications of a namespace, in order. -/
def publications (published : List Write) (space : Particle) : List Write :=
  published.filter fun write => write.space = space

theorem publications_append (published : List Write) (write : Write) (space : Particle) :
    publications (published ++ [write]) space =
      publications published space ++ if write.space = space then [write] else [] := by
  rw [publications, List.filter_append, publications]
  congr 1
  by_cases h : write.space = space
  · simp [h]
  · simp [h]

/-- The rows that a list of publications leaves behind. -/
structure Ledger (published : List Write) (db : Database) : Prop where
  nodup : (published.map fun write => (write.space, write.request)).Nodup
  receipts : ∀ write ∈ published, db.view .requests (requestKey write.space write.request) =
    some (encodeRequest write.fingerprint write.head)
  indices : ∀ (space : Particle) (i : Nat) (write : Write), (publications published space)[i]? = some write → write.head.index.toNat = i
  heads : ∀ space : Particle, db.view .heads space.toList =
    (publications published space).getLast?.map fun write => encodeHead write.head
  history : ∀ space index, db.view .history (historyKey space index) ≠ none →
    index.toNat < (publications published space).length

variable {hemera} {published : List Write} {db db' : Database} {call : Call}

theorem Ledger.empty : Ledger [] Database.empty := by
  refine ⟨List.nodup_nil, nofun, nofun, fun _ => rfl, fun space index h => absurd rfl h⟩

/-- The next publication of a namespace has the number of the earlier ones as its index. -/
theorem Ledger.index_eq (h : Ledger published db) {write : Write} (hadmitted : Admitted write db.view) :
    write.head.index.toNat = (publications published write.space).length := by
  have hhead := hadmitted.head
  rw [h.heads] at hhead
  have hnext := hadmitted.next
  cases hlast : (publications published write.space).getLast? with
  | none =>
      rw [hlast] at hhead
      rw [List.getLast?_eq_none_iff.mp hlast]
      rw [Option.map_eq_none_iff.mp hhead.symm] at hnext
      rw [← Except.ok.inj hnext]
      rfl
  | some prior =>
      rw [hlast, Option.map_some] at hhead
      obtain ⟨head, hexpected, heq⟩ := Option.map_eq_some_iff.mp hhead.symm
      rw [hexpected, encodeHead_injective heq, nextIndex] at hnext
      split_ifs at hnext with hbound
      rw [List.getLast?_eq_getElem?] at hlast
      have hindex := h.indices _ _ _ hlast
      have hpos : (publications published write.space) ≠ [] := by
        intro hnil
        rw [hnil] at hlast
        cases hlast
      have hlen := List.length_pos_of_ne_nil hpos
      rw [← Except.ok.inj hnext, UInt64.toNat_add, UInt64.toNat_one, Nat.mod_eq_of_lt hbound, hindex]
      omega

/-- The history row of a publication is a new one. -/
theorem Ledger.history_eq_none (h : Ledger published db) {write : Write} (hadmitted : Admitted write db.view) :
    db.view .history (historyKey write.space write.head.index) = none := by
  by_contra hrow
  have hlt := h.history _ _ hrow
  have heq := h.index_eq hadmitted
  omega

theorem Ledger.publish (h : Ledger published db) (hpub : Publication call db db') :
    Ledger (published ++ [call.write]) db' := by
  have hindex := h.index_eq hpub.admitted
  have hreceipt := hpub.admitted.receipt
  refine ⟨?_, fun write hwrite => ?_, fun space i write hi => ?_, fun space => ?_, fun space index hrow => ?_⟩
  · rw [List.map_append, List.map_singleton, List.nodup_append]
    refine ⟨h.nodup, List.nodup_singleton _, ?_⟩
    intro pair hpair pair' hpair' heq
    obtain ⟨write, hwrite, rfl⟩ := List.mem_map.mp hpair
    rw [List.mem_singleton.mp hpair'] at heq
    obtain ⟨hspace, hrequest⟩ := Prod.mk.inj heq
    have hprior := h.receipts write hwrite
    rw [hspace, hrequest, hreceipt] at hprior
    cases hprior
  · rw [hpub.published.requests]
    rcases List.mem_append.mp hwrite with hold | hnew
    · rw [if_neg, h.receipts write hold]
      intro heq
      have hprior := h.receipts write hold
      rw [heq, hreceipt] at hprior
      cases hprior
    · rw [List.mem_singleton.mp hnew, if_pos rfl]
  · rw [publications_append] at hi
    split_ifs at hi with hspace
    · subst hspace
      rcases Nat.lt_or_ge i (publications published call.write.space).length with hlt | hge
      · rw [List.getElem?_append_left hlt] at hi
        exact h.indices _ _ _ hi
      · rw [List.getElem?_append_right hge, List.getElem?_singleton] at hi
        split_ifs at hi with hzero
        rw [← Option.some_inj.mp hi, hindex]
        omega
    · rw [List.append_nil] at hi
      exact h.indices _ _ _ hi
  · rw [hpub.published.heads, publications_append]
    split_ifs with hkey hspace hspace
    · rw [List.getLast?_append, List.getLast?_singleton, Option.some_or, Option.map_some]
    · exact absurd (Vector.toList_inj.mp hkey).symm hspace
    · exact absurd (congrArg Vector.toList hspace).symm hkey
    · rw [List.append_nil, h.heads]
  · rw [hpub.published.history] at hrow
    rw [publications_append, List.length_append]
    split_ifs at hrow with hkey
    · obtain ⟨rfl, rfl⟩ := historyKey_injective hkey
      rw [if_pos rfl, hindex, List.length_singleton]
      omega
    · have := h.history _ _ hrow
      omega

/-- No publication changes a row of the immutable tables. -/
theorem Ledger.rows_kept (h : Ledger published db) (hpub : Publication call db db') {table : Table}
    (htable : table ∈ [Table.content, .claims, .history, .requests]) {k x : List UInt8} (hx : db.view table k = some x) :
    db'.view table k = some x := by
  fin_cases htable
  · exact hpub.published.content k x hx
  · exact hpub.published.claims k x hx
  · rw [hpub.published.history, if_neg, hx]
    rintro rfl
    rw [h.history_eq_none hpub.admitted] at hx
    cases hx
  · rw [hpub.published.requests, if_neg, hx]
    rintro rfl
    rw [hpub.admitted.receipt] at hx
    cases hx

theorem Ledger.step (h : Ledger published db) {op : StoreOp} {next : List Write × Database}
    (hstep : db.step hemera op = some next) : Ledger (published ++ next.1) next.2 := by
  cases op with
  | reopen =>
      obtain rfl := Option.some_inj.mp hstep
      rw [List.append_nil]
      exact ⟨h.nodup, h.receipts, h.indices, h.heads, h.history⟩
  | call call outcome =>
      cases hrun : call.run hemera db outcome with
      | mk reply db' =>
          simp only [Database.step, hrun] at hstep
          obtain rfl := Option.some_inj.mp hstep
          rcases call.run_cases hemera hrun with ⟨hwritten, htables⟩ | ⟨hwritten, -, -, hpub, -⟩
          · have hview : db'.view = db.view := by
              unfold Database.view
              rw [htables]
            simp only [hwritten, Bool.false_eq_true, if_false, List.append_nil]
            exact ⟨h.nodup, by rw [hview]; exact h.receipts, h.indices, by rw [hview]; exact h.heads,
              by rw [hview]; exact h.history⟩
          · simp only [hwritten, if_true]
            exact h.publish hpub

theorem ledger_of_run {ops : List StoreOp} {answers : List (List Write)}
    (hrun : Refine.run (Database.step hemera) Database.empty ops = some (answers, db)) : Ledger answers.flatten db := by
  have hkeep := Refine.run_induction (I := fun answers db => Ledger answers.flatten db)
    (fun answers db op next hI hstep => by
      rw [List.flatten_append, List.flatten_singleton]
      exact hI.step hstep)
    (show Ledger [].flatten Database.empty from Ledger.empty) hrun
  exact hkeep

/-- Writes are exactly-once. After any calls of any clients and any reopenings, each request has published at
most once, the publications of a namespace are numbered from zero and its head is the last of them. From there,
a call with a published request and admissible arguments runs no closure, changes nothing and answers with the
published head, or with a conflict if its fingerprint is another one or it allows no retry; a call that fails
with a known outcome changes nothing; a call that publishes gives its namespace the head it asks for and leaves
the other heads; and no call changes or removes a row of content, claims, history or receipts. -/
theorem run_exactlyOnce {ops : List StoreOp} {answers : List (List Write)}
    (hrun : Refine.run (Database.step hemera) Database.empty ops = some (answers, db)) :
    (answers.flatten.map fun write => (write.space, write.request)).Nodup ∧
    (∀ space : Particle,
      (∀ (i : Nat) (write : Write), (publications answers.flatten space)[i]? = some write → write.head.index.toNat = i) ∧
      db.view .heads space.toList =
        (publications answers.flatten space).getLast?.map fun write => encodeHead write.head) ∧
    ∀ (call : Call) (outcome : CommitOutcome) (reply : Reply Error Head) (db' : Database),
      call.run hemera db outcome = (reply, db') →
      (∀ write ∈ answers.flatten, write.space = call.write.space → write.request = call.write.request →
        call.admissible = true → ¬call.RunsClosure db ∧ reply.written = false ∧ db' = db ∧
          reply.result = match db.failure with
            | some e => .error (.ofStorage e)
            | none =>
                if call.allowRetry ∧ call.write.fingerprint = write.fingerprint then .ok write.head
                else .error .conflict) ∧
      (∀ e, reply.result = .error e → (∀ message, e ≠ .commitUnknown message) → db'.tables = db.tables) ∧
      (∀ space : Particle, db'.view .heads space.toList =
        if reply.written = true ∧ call.write.space = space then some (encodeHead call.write.head)
        else db.view .heads space.toList) ∧
      ∀ table ∈ [Table.content, .claims, .history, .requests], ∀ k x, db.view table k = some x →
        db'.view table k = some x := by
  have hledger := ledger_of_run hrun
  refine ⟨hledger.nodup, fun space => ⟨hledger.indices space, hledger.heads space⟩, fun call outcome reply db' hcall => ?_⟩
  have hcases := call.run_cases hemera hcall
  refine ⟨fun write hwrite hspace hrequest hadmissible => ?_, fun e he hknown => ?_, fun space => ?_,
    fun table htable k x hx => ?_⟩
  · have hreceipt := hledger.receipts write hwrite
    rw [hspace, hrequest] at hreceipt
    obtain ⟨hclosure, hresult⟩ := call.run_of_receipt hemera outcome hadmissible hreceipt
    rw [hcall] at hresult
    obtain ⟨rfl, rfl⟩ := Prod.mk.inj hresult
    exact ⟨hclosure, rfl, rfl, rfl⟩
  · rcases hcases with ⟨-, htables⟩ | ⟨-, -, -, -, hok | ⟨message, herror⟩⟩
    · exact htables
    · rw [he] at hok
      cases hok
    · rw [he] at herror
      exact absurd (Except.error.inj herror) (hknown message)
  · rcases hcases with ⟨hwritten, htables⟩ | ⟨hwritten, -, -, hpub, -⟩
    · rw [if_neg fun h => Bool.false_ne_true (hwritten.symm.trans h.1), Database.view, htables]
      rfl
    · rw [hpub.published.heads]
      simp only [hwritten, true_and, Vector.toList_inj, eq_comm]
  · rcases hcases with ⟨-, htables⟩ | ⟨-, -, -, hpub, -⟩
    · rw [Database.view, htables]
      exact hx
    · exact hledger.rows_kept hpub htable hx

/-- A string of one repeated byte. -/
def repeated (byte : UInt8) : Particle := Vector.replicate 32 byte

/-- The first publication of a namespace. -/
def firstWrite : Write where
  space := repeated 1
  request := repeated 2
  fingerprint := repeated 3
  expected := none
  head := ⟨0, repeated 4⟩
  content := [(repeated 4, [7])]
  claims := [(repeated 5, repeated 1)]

theorem run_exactlyOnce_firstWrite :
    ((Refine.run (Database.step fun _ => repeated 0) Database.empty
      [.call (.apply firstWrite) .done, .reopen, .call (.applyOnce firstWrite) .done]).map fun r =>
        r.1.flatten.map fun write => write.request) = some [repeated 2] ∧
    ∀ answers db, Refine.run (Database.step fun _ => repeated 0) Database.empty
      [.call (.apply firstWrite) .done, .reopen, .call (.applyOnce firstWrite) .done] = some (answers, db) →
        (answers.flatten.map fun write => (write.space, write.request)).Nodup :=
  ⟨by decide +kernel, fun _ _ hrun => (run_exactlyOnce hrun).1⟩

end LeanBbg.Storage
