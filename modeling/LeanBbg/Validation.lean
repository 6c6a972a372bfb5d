import LeanBbg.Pages

/-! Validation of the links of a source as the machine that its transactions make: pages of the heads, the receipts
and the history, a reverse index of the receipts that stands in the source's own migration table, and its removal. -/

namespace LeanBbg.Storage

open Bytes Attempt

/-! ### The checks -/

/-- `page_limits`. -/
def linkLimits : ByteLimits := ⟨4096, MAX_TRANSACTION_BYTES - 1024⟩

def receiptIndex (space : List UInt8) (index : UInt64) : List UInt8 := 114 :: space ++ u64BeBytes index

/-- `u64::from_be_bytes`. -/
def u64FromBe (bytes : List UInt8) : UInt64 := u64FromLe bytes.reverse

/-- A receipt enters the reverse index. -/
def indexReceipt (tx : Transaction) (row : RawEntry) : Except Error Transaction := do
  let (_, head) ← decodeRequest row.2
  let index := receiptIndex (row.1.take 32) head.index
  let found ← lift (tx.get .migration index 32)
  refuse (∃ v ∈ found, v ≠ row.1.drop 32) .corrupt
  lift (tx.put .migration index (row.1.drop 32))

/-- The index that the history of a namespace has next. -/
def expectedIndex (previous : Option (Particle × UInt64)) (space : Particle) : Except Error UInt64 :=
  match previous with
  | some (ns, n) =>
      if ns = space then
        if n.toNat + 1 < 2 ^ 64 then .ok (n + 1) else .error .corrupt
      else .ok 0
  | none => .ok 0

/-- The head that a row of one of the three tables names, and the place in the history after it. -/
def linkedHead (table : Table) (previous : Option (Particle × UInt64)) (space : Particle) (row : RawEntry) :
    Except Error (Head × Option (Particle × UInt64)) :=
  match table with
  | .heads => do
      let head ← decodeHead row.2
      .ok (head, previous)
  | .requests => do
      let (_, head) ← decodeRequest row.2
      .ok (head, previous)
  | .history => do
      refuse ((row.1.drop 32).length ≠ 8) .corrupt
      let index := u64FromBe (row.1.drop 32)
      let expected ← expectedIndex previous space
      refuse (index ≠ expected) .corrupt
      let commit ← particle row.2
      .ok (⟨index, commit⟩, some (space, index))
  | _ => .error .corrupt

/-- What `validate_links` checks of one row, against the rows of the store at that moment. -/
def checkLink (db : Database) (table : Table) (previous : Option (Particle × UInt64)) (row : RawEntry) :
    Except Error (Option (Particle × UInt64)) := do
  let space ← particle (row.1.take 32)
  let (head, previous) ← linkedHead table previous space row
  let recorded ← lift (db.read .history (historyKey space head.index) 32)
  refuse (recorded ≠ some head.commit.toList) .corrupt
  let content ← lift (db.read .content head.commit.toList MAX_BYTES_VALUE)
  refuse (content = none) .corrupt
  match ← lift (db.read .heads space.toList 40) with
  | none => .error .corrupt
  | some selected => do
      let selected ← decodeHead selected
      refuse (head.index > selected.index) .corrupt
      if table = .history then do
        let receipt ← lift (db.read .migration (receiptIndex space.toList head.index) 32)
        refuse (receipt = none) .corrupt
        .ok previous
      else .ok previous

/-! ### The machine -/

/-- Where a call of `validate_links` is. Other callers may take steps between any two of its steps. -/
inductive Links where
  | scan (tables : List Table) (after : Option (List UInt8)) (previous : Option (Particle × UInt64))
  | index (table : Table) (rest : List Table) (rows : List RawEntry) (previous : Option (Particle × UInt64))
  | check (table : Table) (rest : List Table) (rows : List RawEntry) (last : Option (List UInt8))
      (previous : Option (Particle × UInt64))
  | clear
  | erase (rows : List RawEntry)
  | done (result : Except Error Unit)

namespace Links

def start : Links := .scan [.heads, .requests, .history] none none

/-- A page that has been scanned: its rows are validated, and receipts are indexed before they are checked. -/
def page (table : Table) (rest : List Table) (previous : Option (Particle × UInt64)) : List RawEntry → Links
  | [] => .scan rest none none
  | rows =>
      match rows.forM (validateRecord table) with
      | .error e => .done (.error e)
      | .ok () =>
          if table = .requests then .index table rest rows previous
          else .check table rest rows (rows.getLast?.map Prod.fst) previous

def indexBody (rows : List RawEntry) (tx : Transaction) : Except Error (Unit × Transaction) := do
  let tx ← rows.foldlM indexReceipt tx
  .ok ((), tx)

def eraseBody (rows : List RawEntry) (tx : Transaction) : Except Error (Unit × Transaction) := do
  let tx ← rows.foldlM (fun tx row => lift (tx.remove .migration row.1)) tx
  .ok ((), tx)

variable (hemera : List UInt8 → Bytes32)

/-- One step of `validate_links`, with at most one transaction of the store. -/
def step (outcome : CommitOutcome) (db : Database) : Links → Links × Database
  | scan [] _ _ => (.clear, db)
  | scan (table :: rest) after previous =>
      match lift (db.scan table after [] linkLimits) with
      | .error e => (.done (.error e), db)
      | .ok rows => (page table rest previous rows, db)
  | index table rest rows previous =>
      let (reply, db) := db.transaction hemera Error.ofStorage outcome (indexBody rows)
      match reply.result with
      | .error e => (.done (.error e), db)
      | .ok () => (.check table rest rows (rows.getLast?.map Prod.fst) previous, db)
  | check table rest [] last previous => (.scan (table :: rest) last previous, db)
  | check table rest (row :: rows) last previous =>
      match checkLink db table previous row with
      | .error e => (.done (.error e), db)
      | .ok previous => (.check table rest rows last previous, db)
  | clear =>
      match lift (db.scan .migration none (ascii "r") linkLimits) with
      | .error e => (.done (.error e), db)
      | .ok [] => (.done (.ok ()), db)
      | .ok rows => (.erase rows, db)
  | erase rows =>
      let (reply, db) := db.transaction hemera Error.ofStorage outcome (eraseBody rows)
      match reply.result with
      | .error e => (.done (.error e), db)
      | .ok () => (.clear, db)
  | done result => (.done result, db)

end Links

/-! ### What a step leaves as it is -/

/-- A key of the reverse index. -/
def IsReceiptIndex (key : List UInt8) : Prop := ∃ rest, key = 114 :: rest

/-- The rows that `validate_links` never writes are as before. -/
structure SameSource (v v' : View) : Prop where
  rows : ∀ t ∈ TABLES, ∀ k, v' t k = v t k
  migration : ∀ k, ¬IsReceiptIndex k → v' .migration k = v .migration k

theorem SameSource.refl (v : View) : SameSource v v := ⟨fun _ _ _ => rfl, fun _ _ => rfl⟩

theorem SameSource.trans {v v' v'' : View} (h : SameSource v v') (h' : SameSource v' v'') : SameSource v v'' :=
  ⟨fun t ht k => (h'.rows t ht k).trans (h.rows t ht k), fun k hk => (h'.migration k hk).trans (h.migration k hk)⟩

theorem not_isReceiptIndex_sealKey : ¬IsReceiptIndex sealKey := by
  rintro ⟨rest, h⟩
  exact absurd (List.cons.inj h).1 (by decide)

/-- The keys from `r` to the next letter begin with it. -/
theorem isReceiptIndex_of_bounds {key : List UInt8} (hlow : (compare [114] key).isLE = true)
    (hhigh : (compare key [115]).isLT = true) : IsReceiptIndex key := by
  cases key with
  | nil => cases hlow
  | cons byte rest =>
      refine ⟨rest, congrArg (· :: rest) ?_⟩
      rw [List.compare_cons_cons] at hlow hhigh
      have hge : 114 ≤ byte.toNat := by
        by_contra hlt
        have hgt : compare (114 : UInt8) byte = .gt := by
          rw [Std.compare_eq_gt, UInt8.lt_iff_toNat_lt]
          exact Nat.lt_of_not_le hlt
        rw [hgt] at hlow
        cases hlow
      have hle : byte.toNat ≤ 114 := by
        by_contra hgt
        rcases Nat.lt_or_eq_of_le (Nat.lt_of_not_le hgt) with h | h
        · have habove : compare byte (115 : UInt8) = .gt := by
            rw [Std.compare_eq_gt, UInt8.lt_iff_toNat_lt]
            exact h
          rw [habove] at hhigh
          cases hhigh
        · obtain rfl : byte = 115 := UInt8.toNat_inj.mp h.symm
          cases rest with
          | nil => cases hhigh
          | cons next rest => cases hhigh
      exact UInt8.toNat_inj.mp (Nat.le_antisymm hle hge)

theorem isReceiptIndex_of_scan {db : Database} {rows : List RawEntry}
    (h : db.scan .migration none (ascii "r") linkLimits = .ok rows) : ∀ row ∈ rows, IsReceiptIndex row.1 := by
  intro row hrow
  rw [Database.scan] at h
  cases hready : db.failure with
  | some e =>
      rw [hready] at h
      cases h
  | none =>
      rw [hready] at h
      obtain ⟨_, -, h⟩ := exists_of_bind_ok h
      split_ifs at h with hkey hpending
      have hbounds : scanBounds none (ascii "r") = some (.included [114], .excluded [115]) := rfl
      rw [engineScan, hbounds] at h
      obtain ⟨taken, rest, hsplit, rfl, -⟩ := scanLoop_ok h
      have hmem : row ∈ rows ++ rest := List.mem_append_left _ hrow
      rw [← hsplit] at hmem
      have hbetween := (List.mem_filter.mp (List.mem_of_mem_take hmem)).2
      rw [Bool.and_eq_true] at hbetween
      exact isReceiptIndex_of_bounds hbetween.1 hbetween.2

/-- A transaction that stages rows of the reverse index only. -/
structure Transaction.Indexes (tx tx' : Transaction) : Prop where
  engine : tx'.engine = tx.engine
  same : SameSource tx.view tx'.view

namespace Transaction

theorem Indexes.trans {tx tx' tx'' : Transaction} (h : Indexes tx tx') (h' : Indexes tx' tx'') : Indexes tx tx'' :=
  ⟨h'.engine.trans h.engine, h.same.trans h'.same⟩

theorem indexes_stage {tx tx' : Transaction} {key : List UInt8} {value : Option (List UInt8)} (hkey : IsReceiptIndex key)
    (h : tx.stage .migration key value = .ok tx') : Indexes tx tx' := by
  obtain ⟨hengine, -, hview⟩ := stage_ok h
  refine ⟨hengine, fun t ht k => ?_, fun k hk => ?_⟩
  · rw [hview, if_neg]
    rintro ⟨rfl, -⟩
    revert ht
    decide
  · rw [hview, if_neg]
    rintro ⟨-, rfl⟩
    exact hk hkey

theorem indexes_foldlM {f : Transaction → RawEntry → Except Error Transaction} {rows : List RawEntry}
    (hf : ∀ tx tx' row, row ∈ rows → f tx row = .ok tx' → Indexes tx tx') {tx tx' : Transaction}
    (h : rows.foldlM f tx = .ok tx') : Indexes tx tx' := by
  induction rows generalizing tx with
  | nil =>
      obtain rfl := Except.ok.inj h
      exact ⟨rfl, .refl _⟩
  | cons row rows ih =>
      rw [List.foldlM_cons] at h
      obtain ⟨middle, hrow, h⟩ := exists_of_bind_ok h
      refine (hf tx middle row (List.mem_cons_self ..) hrow).trans (ih ?_ h)
      exact fun tx tx' row' hrow' => hf tx tx' row' (List.mem_cons_of_mem _ hrow')

end Transaction

namespace Links

theorem indexes_indexBody {rows : List RawEntry} {tx tx' : Transaction} {u : Unit}
    (h : indexBody rows tx = .ok (u, tx')) : tx.Indexes tx' := by
  obtain ⟨tx₁, hrows, h⟩ := exists_of_bind_ok h
  obtain ⟨-, rfl⟩ := Prod.mk.inj (Except.ok.inj h)
  refine Transaction.indexes_foldlM (fun tx tx' row _ hrow => ?_) hrows
  obtain ⟨request, -, hrow⟩ := exists_of_bind_ok hrow
  obtain ⟨found, -, hrow⟩ := exists_of_bind_ok hrow
  obtain ⟨_, -, hrow⟩ := exists_of_bind_ok hrow
  exact Transaction.indexes_stage ⟨_, rfl⟩ (lift_ok hrow)

theorem indexes_eraseBody {rows : List RawEntry} (hkeys : ∀ row ∈ rows, IsReceiptIndex row.1) {tx tx' : Transaction}
    {u : Unit} (h : eraseBody rows tx = .ok (u, tx')) : tx.Indexes tx' := by
  obtain ⟨tx₁, hrows, h⟩ := exists_of_bind_ok h
  obtain ⟨-, rfl⟩ := Prod.mk.inj (Except.ok.inj h)
  exact Transaction.indexes_foldlM (fun tx tx' row hrow h => Transaction.indexes_stage (hkeys row hrow) (lift_ok h)) hrows

variable {hemera : List UInt8 → Bytes32}

theorem sameSource_transaction {db : Database} {outcome : CommitOutcome}
    {execute : Transaction → Except Error (Unit × Transaction)}
    (hexecute : ∀ tx tx' u, execute tx = .ok (u, tx') → tx.Indexes tx') :
    SameSource db.view (db.transaction hemera Error.ofStorage outcome execute).2.view := by
  cases htransaction : db.transaction hemera Error.ofStorage outcome execute with
  | mk reply db' =>
      rcases transaction_cases hemera Error.ofStorage outcome htransaction with ⟨-, htables⟩ |
        ⟨-, -, value, tx, hbody, -, htables, -⟩
      · have hview : db'.view = db.view := by
          unfold Database.view
          rw [htables]
        dsimp only
        rw [hview]
        exact .refl _
      · have hindexes := hexecute _ _ _ hbody
        have hview := view_of_written hindexes.engine htables
        refine ⟨fun t ht k => ?_, fun k hk => ?_⟩
        · have hmetadata : t ≠ .metadata := by
            rintro rfl
            revert ht
            decide
          rw [hview t k hmetadata]
          exact hindexes.same.rows t ht k
        · rw [hview .migration k nofun]
          exact hindexes.same.migration k hk

/-- The rows that a call will remove are of the reverse index. -/
def Erases : Links → Prop
  | erase rows => ∀ row ∈ rows, IsReceiptIndex row.1
  | _ => True

/-- A step of `validate_links` writes rows of the reverse index only. -/
theorem sameSource_step (outcome : CommitOutcome) (db : Database) {links : Links} (h : links.Erases) :
    SameSource db.view (links.step hemera outcome db).2.view := by
  cases links with
  | scan tables after previous =>
      cases tables with
      | nil => exact .refl _
      | cons table rest =>
          rw [step]
          split
          · exact .refl _
          · exact .refl _
  | index table rest rows previous =>
      have hsame : SameSource db.view (db.transaction hemera Error.ofStorage outcome (indexBody rows)).2.view :=
        sameSource_transaction fun _ _ _ => indexes_indexBody
      rw [step]
      dsimp only
      split
      · exact hsame
      · exact hsame
  | check table rest rows last previous =>
      cases rows with
      | nil => exact .refl _
      | cons row rows =>
          rw [step]
          split
          · exact .refl _
          · exact .refl _
  | clear =>
      rw [step]
      split
      · exact .refl _
      · exact .refl _
      · exact .refl _
  | erase rows =>
      have hsame : SameSource db.view (db.transaction hemera Error.ofStorage outcome (eraseBody rows)).2.view :=
        sameSource_transaction fun _ _ _ => indexes_eraseBody h
      rw [step]
      dsimp only
      split
      · exact hsame
      · exact hsame
  | done result => exact .refl _

theorem erases_step (outcome : CommitOutcome) (db : Database) (links : Links) :
    (links.step hemera outcome db).1.Erases := by
  cases links with
  | scan tables after previous =>
      cases tables with
      | nil => trivial
      | cons table rest =>
          rw [step]
          split
          · trivial
          · rw [page.eq_def]
            split
            · trivial
            · split
              · trivial
              · split
                · trivial
                · trivial
  | index table rest rows previous =>
      rw [step]
      dsimp only
      split
      · trivial
      · trivial
  | check table rest rows last previous =>
      cases rows with
      | nil => trivial
      | cons row rows =>
          rw [step]
          split
          · trivial
          · trivial
  | clear =>
      rw [step]
      split
      · trivial
      · trivial
      · next _ hscan => exact isReceiptIndex_of_scan (lift_ok hscan)
  | erase rows =>
      rw [step]
      dsimp only
      split
      · trivial
      · trivial
  | done result => trivial

end Links

end LeanBbg.Storage
