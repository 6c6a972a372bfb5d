import LeanBbg.Sources

/-! The cursor of a transfer. A page is the run of rows right after the cursor, so the rows that a cursor has
passed grow by exactly the rows of the page; a cursor reads back as it is written. -/

namespace LeanBbg.Storage

open Bytes Attempt

/-! ### Rows in key order -/

/-- Rows with strictly increasing keys. -/
def Increasing (rows : List RawEntry) : Prop := rows.Pairwise fun a b => compare a.1 b.1 = .lt

theorem increasing_toList (m : OrdMap (List UInt8) (List UInt8)) : Increasing m.toList :=
  Std.ExtTreeMap.ordered_keys_toList

theorem isLE_of_not_isLT {a b : List UInt8} (h : (compare a b).isLT = false) : (compare b a).isLE = true := by
  rw [@Std.OrientedCmp.eq_swap _ compare _ b a]
  cases hab : compare a b with
  | lt =>
      rw [hab] at h
      cases h
  | eq => rfl
  | gt => rfl

theorem not_isLE_of_lt {a b : List UInt8} (h : compare a b = .lt) : (compare b a).isLE = false := by
  rw [@Std.OrientedCmp.eq_swap _ compare _ b a, h]
  rfl

/-- The rows up to a key come before those above it. -/
theorem Increasing.split {rows : List RawEntry} (h : Increasing rows) (key : List UInt8) :
    rows = rows.filter (fun row => (compare row.1 key).isLE) ++ rows.filter fun row => (compare key row.1).isLT := by
  induction rows with
  | nil => rfl
  | cons row rows ih =>
      obtain ⟨hrow, hrest⟩ := List.pairwise_cons.mp h
      cases hle : (compare row.1 key).isLE with
      | true =>
          have hnot : (compare key row.1).isLT = false := by
            rw [@Std.OrientedCmp.eq_swap _ compare _ key row.1]
            cases hcmp : compare row.1 key with
            | lt => rfl
            | eq => rfl
            | gt =>
                rw [hcmp] at hle
                cases hle
          rw [List.filter_cons, if_pos hle, List.filter_cons, if_neg (by rw [hnot]; exact Bool.false_ne_true),
            List.cons_append, ← ih hrest]
      | false =>
          have hgt : compare key row.1 = .lt := by
            rw [@Std.OrientedCmp.eq_swap _ compare _ key row.1]
            cases hcmp : compare row.1 key with
            | lt =>
                rw [hcmp] at hle
                cases hle
            | eq =>
                rw [hcmp] at hle
                cases hle
            | gt => rfl
          have habove : ∀ other ∈ row :: rows, compare key other.1 = .lt := by
            intro other hother
            rcases List.mem_cons.mp hother with rfl | hmem
            · exact hgt
            · exact Std.TransCmp.lt_trans hgt (hrow other hmem)
          have hfirst : (row :: rows).filter (fun row => (compare row.1 key).isLE) = [] := by
            rw [List.filter_eq_nil_iff]
            intro other hother
            rw [not_isLE_of_lt (habove other hother)]
            exact Bool.false_ne_true
          have hsecond : (row :: rows).filter (fun row => (compare key row.1).isLT) = row :: rows := by
            rw [List.filter_eq_self]
            intro other hother
            rw [habove other hother]
            rfl
          rw [hfirst, hsecond, List.nil_append]

/-- The rows up to one of them are those that come before it, and itself. -/
theorem Increasing.filter_isLE {before after : List RawEntry} {row : RawEntry}
    (h : Increasing (before ++ row :: after)) :
    (before ++ row :: after).filter (fun other => (compare other.1 row.1).isLE) = before ++ [row] := by
  obtain ⟨-, hcons, hbefore⟩ := List.pairwise_append.mp h
  obtain ⟨hafter, -⟩ := List.pairwise_cons.mp hcons
  have hself : (compare row.1 row.1).isLE = true := by
    rw [@Std.ReflCmp.compare_self _ compare _ row.1]
    rfl
  rw [List.filter_append, List.filter_cons, if_pos hself]
  congr 1
  · rw [List.filter_eq_self]
    intro other hother
    rw [hbefore other hother row (List.mem_cons_self ..)]
    rfl
  · congr 1
    rw [List.filter_eq_nil_iff]
    intro other hother
    rw [not_isLE_of_lt (hafter other hother)]
    exact Bool.false_ne_true

/-! ### Cursors -/

theorem cursor_decode_encode {cursor : Cursor} (htable : cursor.table ≤ 5)
    (hafter : ∀ key ∈ cursor.after, key ≠ [] ∧ key.length ≤ 64) : Cursor.decode cursor.encode = .ok cursor := by
  obtain ⟨table, after, rows, bytes⟩ := cursor
  dsimp only at htable hafter
  have hrows : (u64LeBytes rows).length = 8 := by simp
  have hbytes : (u64LeBytes bytes).length = 8 := by simp
  cases after with
  | none =>
      simp only [Cursor.encode, Option.elim_none, Option.getD_none, List.append_nil, List.cons_append, List.nil_append,
        Cursor.decode]
      rw [refuse_of_not, List.take_left' hrows, List.drop_left' hrows, List.take_of_length_le hbytes.le,
        u64FromLe_u64LeBytes, u64FromLe_u64LeBytes]
      · rfl
      · simp only [List.length_append, hrows, hbytes]
        simpa using htable
  | some key =>
      obtain ⟨hne, hlen⟩ := hafter key rfl
      have hpos := List.length_pos_of_ne_nil hne
      have hnat : (UInt8.ofNat key.length).toNat = key.length := by
        rw [UInt8.toNat_ofNat', Nat.mod_eq_of_lt (by omega)]
      have hzero : UInt8.ofNat key.length ≠ 0 := by
        intro h
        rw [h] at hnat
        exact absurd hnat.symm (by simpa using hne)
      simp only [Cursor.encode, Option.elim_some, Option.getD_some, List.append_assoc, List.cons_append,
        List.nil_append, Cursor.decode]
      rw [refuse_of_not, List.take_left' hrows, List.drop_left' hrows, List.take_left' hbytes,
        u64FromLe_u64LeBytes, u64FromLe_u64LeBytes, if_neg hzero, ← List.append_assoc,
        List.drop_left' (by simp)]
      · rfl
      · simp only [List.length_append, hrows, hbytes, hnat]
        have h64 : ¬UInt8.ofNat key.length > 64 := by
          rw [gt_iff_lt, UInt8.lt_iff_toNat_lt, hnat]
          simpa using hlen
        have h5 : ¬table > 5 := by simpa using htable
        rintro (h | h | h | h)
        · omega
        · exact h5 h
        · exact h64 h
        · omega

theorem table_le_of_decode {bytes : List UInt8} {cursor : Cursor} (h : Cursor.decode bytes = .ok cursor) :
    cursor.table ≤ 5 := by
  match bytes, h with
  | table :: length :: rest, h =>
      obtain ⟨_, hvalid, h⟩ := exists_of_bind_ok h
      obtain rfl := Except.ok.inj h
      have hvalid := refuse_ok hvalid
      rw [not_or, not_or] at hvalid
      simpa using hvalid.2.1

/-- A cursor that is read reads back as it is written. -/
theorem decode_encode_of_decode {bytes : List UInt8} {cursor : Cursor} (h : Cursor.decode bytes = .ok cursor) :
    Cursor.decode cursor.encode = .ok cursor := by
  refine cursor_decode_encode (table_le_of_decode h) fun key hkey => ?_
  match bytes, h with
  | table :: length :: rest, h =>
      obtain ⟨_, hvalid, h⟩ := exists_of_bind_ok h
      obtain rfl := Except.ok.inj h
      have hvalid := refuse_ok hvalid
      rw [not_or, not_or, not_or] at hvalid
      obtain ⟨-, -, h64, hlen⟩ := hvalid
      dsimp only at hkey
      split_ifs at hkey with hzero
      · cases hkey
      · obtain rfl := Option.some_inj.mp hkey
        have hpos : length.toNat ≠ 0 := fun hnat => hzero (UInt8.toNat_inj.mp hnat)
        rw [gt_iff_lt, UInt8.lt_iff_toNat_lt, Nat.not_lt] at h64
        have hdrop : (rest.drop 16).length = length.toNat := by
          rw [List.length_drop]
          omega
        refine ⟨fun hnil => ?_, ?_⟩
        · rw [hnil] at hdrop
          exact hpos hdrop.symm
        · rw [hdrop]
          exact h64

/-! ### Pages -/

/-- The rows that a cursor has passed, in the order in which they are copied. -/
def passed (tables : Tables) (cursor : Cursor) : List (Table × RawEntry) :=
  (TABLES.take cursor.table.toNat).flatMap (fun t => (tables t).toList.map fun row => (t, row)) ++
    match TABLES[cursor.table.toNat]? with
    | some t =>
        ((tables t).toList.filter fun row => cursor.after.any fun key => (compare row.1 key).isLE).map fun row => (t, row)
    | none => []

theorem validateRecord_length {table : Table} {row : RawEntry} {u : Unit} (h : validateRecord table row = .ok u) :
    row.1 ≠ [] := by
  intro hnil
  cases table <;> simp [validateRecord, hnil] at h

/-- A page without rows moves to the next table; another one stays in its table and moves to its last row. -/
theorem advance_ok {source : TransferSource} {validate : ContentValidator} {links : Except Error Unit} {table : Table}
    {cursor next : Cursor} {rows : List RawEntry} (h : source.advance validate links table cursor rows = .ok next) :
    (rows = [] ∧ next = { cursor with table := cursor.table + 1, after := none } ∧
      (cursor.table + 1 = 5 → links = .ok ())) ∨
    (∃ before last, rows = before ++ [last] ∧ next.table = cursor.table ∧ next.after = some last.1 ∧
      (∀ row ∈ rows, row.1 ≠ []) ∧ next.rows.toNat = cursor.rows.toNat + rows.length ∧
      next.bytes.toNat = cursor.bytes.toNat + (rows.map rowBytes).sum) := by
  cases rows with
  | nil =>
      obtain ⟨_, hlinks, h⟩ := exists_of_bind_ok h
      refine .inl ⟨rfl, (Except.ok.inj h).symm, fun hfive => ?_⟩
      rw [TransferSource.leaveTable, if_pos hfive] at hlinks
      exact hlinks
  | cons first rest =>
      obtain ⟨counted, hcounted, h⟩ := exists_of_bind_ok h
      obtain rfl := Except.ok.inj h
      have hcount : ∀ (rows : List RawEntry) (start : Cursor),
          rows.foldlM (source.countRow validate table) start = .ok counted → counted.table = start.table ∧
            (∀ row ∈ rows, row.1 ≠ []) ∧ counted.rows.toNat = start.rows.toNat + rows.length ∧
            counted.bytes.toNat = start.bytes.toNat + (rows.map rowBytes).sum := by
        intro rows
        induction rows with
        | nil =>
            intro start hfold
            obtain rfl := Except.ok.inj hfold
            exact ⟨rfl, nofun, rfl, rfl⟩
        | cons row rows ih =>
            intro start hfold
            rw [List.foldlM_cons] at hfold
            obtain ⟨middle, hrow, hfold⟩ := exists_of_bind_ok hfold
            obtain ⟨htable, hkeys, hrows, hbytes⟩ := ih middle hfold
            obtain ⟨_, hvalid, hrow⟩ := exists_of_bind_ok hrow
            obtain ⟨_, -, hrow⟩ := exists_of_bind_ok hrow
            obtain ⟨n, hn, hrow⟩ := exists_of_bind_ok hrow
            obtain ⟨b, hb, hrow⟩ := exists_of_bind_ok hrow
            obtain rfl := Except.ok.inj hrow
            have hadd : ∀ (x y : UInt64) (z : Nat), addWithin x z = .ok y → y.toNat = x.toNat + z := by
              intro x y z hxy
              rw [addWithin] at hxy
              split_ifs at hxy with hbound
              rw [← Except.ok.inj hxy, UInt64.toNat_add, UInt64.toNat_ofNat', Nat.add_mod_mod, Nat.mod_eq_of_lt hbound]
            have hn := hadd _ _ _ hn
            have hb := hadd _ _ _ hb
            dsimp only at htable hrows hbytes
            refine ⟨htable, ?_, ?_, ?_⟩
            · rw [List.forall_mem_cons]
              exact ⟨validateRecord_length hvalid, hkeys⟩
            · rw [hrows, hn, List.length_cons]
              omega
            · rw [hbytes, hb, List.map_cons, List.sum_cons, rowBytes]
              omega
      obtain ⟨htable, hkeys, hrows, hbytes⟩ := hcount _ _ hcounted
      have hsplit := List.dropLast_append_getLast (List.cons_ne_nil first rest)
      refine .inr ⟨(first :: rest).dropLast, (first :: rest).getLast (List.cons_ne_nil _ _), hsplit.symm, htable, ?_,
        hkeys, hrows, hbytes⟩
      rw [List.getLast?_eq_some_getLast (List.cons_ne_nil first rest)]
      rfl

theorem TABLES_lt {n : Nat} {table : Table} (h : TABLES[n]? = some table) : n < 5 :=
  (List.getElem?_eq_some_iff.mp h).1

/-- The rows of a page follow the cursor without a gap, and an empty page means that none is left. -/
theorem scanPage_ok {source : TransferSource} {cursor : Cursor} {table : Table} {rows : List RawEntry}
    (h : source.scanPage cursor table = .ok rows) :
    (∀ row ∈ rows, row.1.length ≤ 64) ∧ (∃ rest, rowsAfter source.store.tables table cursor.after = rows ++ rest) ∧
      (rows = [] → rowsAfter source.store.tables table cursor.after = []) := by
  obtain ⟨-, hscan⟩ := scan_eq (lift_ok h)
  obtain ⟨taken, rest, hsplit, rfl, hkeys, hrest⟩ := scanLoop_ok hscan
  refine ⟨hkeys, ⟨rest ++ (rowsAfter source.store.tables table cursor.after).drop
    TransferSource.pageLimits.maxEntries, ?_⟩, fun hnil => ?_⟩
  · rw [← List.append_assoc, ← hsplit, List.take_append_drop]
  · subst hnil
    cases rest with
    | cons row rest =>
        have := hrest row rest rfl
        simp only [List.map_nil, List.sum_nil] at this
        omega
    | nil =>
        rcases List.take_eq_nil_iff.mp hsplit with hzero | hempty
        · cases hzero
        · exact hempty

theorem table_ne_five {cursor : Cursor} {table : Table} (h : TABLES[cursor.table.toNat]? = some table) :
    cursor.table ≠ 5 := by
  intro heq
  rw [heq] at h
  cases h

/-- What a page leaves behind: the rows that the cursor has passed grow by the rows of the page, its counters by
their number and size, and the new cursor reads back as it is written. -/
theorem readPage_ok {source : TransferSource} {validate : ContentValidator} {links : Except Error Unit} {table : Table}
    {cursor next : Cursor} {rows : List RawEntry} (htable : TABLES[cursor.table.toNat]? = some table)
    (h : source.readPage validate links table cursor = .ok (rows, next)) :
    passed source.store.tables next = passed source.store.tables cursor ++ rows.map (fun row => (table, row)) ∧
      next.rows.toNat = cursor.rows.toNat + rows.length ∧
      next.bytes.toNat = cursor.bytes.toNat + (rows.map rowBytes).sum ∧
      Cursor.decode next.encode = .ok next ∧ cursor.table ≤ next.table ∧ (next.table = 5 → links = .ok ()) := by
  obtain ⟨page, hpage, h⟩ := exists_of_bind_ok h
  obtain ⟨after, hadvance, h⟩ := exists_of_bind_ok h
  obtain ⟨rfl, rfl⟩ := Prod.mk.inj (Except.ok.inj h)
  obtain ⟨hkeys, ⟨rest, hrest⟩, hnone⟩ := scanPage_ok hpage
  have hlt := TABLES_lt htable
  have hsucc : (cursor.table + 1).toNat = cursor.table.toNat + 1 := by
    rw [UInt8.toNat_add, UInt8.toNat_one, Nat.mod_eq_of_lt (by omega)]
  have hsorted := increasing_toList (source.store.tables table)
  rcases advance_ok hadvance with ⟨rfl, rfl, hlinks⟩ | ⟨before, last, rfl, hsame, hafter, hne, hrows, hbytes⟩
  · refine ⟨?_, rfl, rfl, cursor_decode_encode ?_ nofun, ?_, hlinks⟩
    · have hall : (source.store.tables table).toList.filter
          (fun row => cursor.after.any fun key => (compare row.1 key).isLE) = (source.store.tables table).toList := by
        have hempty := hnone rfl
        cases hkey : cursor.after with
        | none =>
            rw [rowsAfter, hkey] at hempty
            simp only [Option.all_none, List.filter_true] at hempty
            rw [hempty]
            rfl
        | some key =>
            rw [rowsAfter, hkey, List.filter_eq_nil_iff] at hempty
            rw [List.filter_eq_self]
            intro row hrow
            exact isLE_of_not_isLT (Bool.eq_false_iff.mpr (hempty row hrow))
      have htake : TABLES.take (cursor.table.toNat + 1) = TABLES.take cursor.table.toNat ++ [table] := by
        rw [List.take_add_one, htable]
        rfl
      have hlast : (match TABLES[cursor.table.toNat + 1]? with
          | some t => ((source.store.tables t).toList.filter fun row =>
              (none : Option (List UInt8)).any fun key => (compare row.1 key).isLE).map fun row => (t, row)
          | none => ([] : List (Table × RawEntry))) = [] := by
        cases TABLES[cursor.table.toNat + 1]? with
        | none => rfl
        | some t => simp
      simp only [passed, hsucc, htake, htable, hlast, hall, List.flatMap_append, List.flatMap_cons, List.flatMap_nil,
        List.append_nil, List.map_nil]
    · rw [UInt8.le_iff_toNat_le]
      dsimp only
      rw [hsucc]
      change _ ≤ 5
      omega
    · rw [UInt8.le_iff_toNat_le]
      dsimp only
      rw [hsucc]
      omega
  · refine ⟨?_, hrows, hbytes, cursor_decode_encode ?_ ?_, ?_, fun hfive => ?_⟩
    · have hfilter : (source.store.tables table).toList.filter (fun row => (compare row.1 last.1).isLE) =
          (source.store.tables table).toList.filter
            (fun row => cursor.after.any fun key => (compare row.1 key).isLE) ++ (before ++ [last]) := by
        have hsplit : (source.store.tables table).toList = (source.store.tables table).toList.filter
            (fun row => cursor.after.any fun key => (compare row.1 key).isLE) ++ (before ++ [last] ++ rest) := by
          rw [← hrest, rowsAfter]
          cases cursor.after with
          | none => simp
          | some key => exact hsorted.split key
        rw [hsplit] at hsorted
        rw [List.append_assoc before, List.singleton_append, ← List.append_assoc] at hsorted hsplit
        conv_lhs => rw [hsplit]
        rw [hsorted.filter_isLE, List.append_assoc]
      simp only [passed, hsame, hafter, htable, Option.any_some, hfilter, List.map_append, List.append_assoc]
    · rw [hsame, UInt8.le_iff_toNat_le]
      change _ ≤ 5
      omega
    · intro key hkey
      rw [hafter] at hkey
      obtain rfl := Option.some_inj.mp hkey
      exact ⟨hne last (by simp), hkeys last (by simp)⟩
    · rw [hsame]
      exact UInt8.le_refl _
    · rw [hsame] at hfive
      exact absurd hfive (table_ne_five htable)

/-! ### Calls of a stager -/

variable {hemera : List UInt8 → Bytes32} {S : TransferSource → Prop} {source : TransferSource} {target : Database}

theorem stageLoop_reach (hsource : S source) (validate : ContentValidator) (links : Except Error Unit) (pages : Nat)
    {cursor : Cursor} (hcursor : Cursor.decode cursor.encode = .ok cursor) :
    Relation.ReflTransGen (Step hemera S) target (source.stageLoop hemera validate links pages cursor target).2 := by
  induction pages generalizing cursor target with
  | zero => exact .refl
  | succ pages ih =>
      rw [TransferSource.stageLoop]
      split_ifs with hdone
      · exact .refl
      · have hstep : Step hemera S target (source.stagePage hemera target .done validate links cursor).2 :=
          Step.page hsource .done validate links hcursor
        cases hpage : source.stagePage hemera target .done validate links cursor with
        | mk result target' =>
            rw [hpage] at hstep
            cases result with
            | error e => exact .single hstep
            | ok next =>
                refine .trans (.single hstep) (ih ?_)
                rw [TransferSource.stagePage] at hpage
                cases htable : TABLES[cursor.table.toNat]? with
                | none =>
                    rw [htable] at hpage
                    rw [← Except.ok.inj (Prod.mk.inj hpage).1]
                    exact hcursor
                | some table =>
                    rw [htable] at hpage
                    dsimp only at hpage
                    cases hread : source.readPage validate links table cursor with
                    | error e =>
                        rw [hread] at hpage
                        cases hpage
                    | ok page =>
                        rw [hread] at hpage
                        obtain ⟨rows, next'⟩ := page
                        dsimp only at hpage
                        cases hresult : (target.transaction hemera Error.ofStorage .done
                            (source.pageBody table cursor next' rows)).1.result with
                        | error e =>
                            rw [hresult] at hpage
                            cases hpage
                        | ok u =>
                            rw [hresult] at hpage
                            rw [← Except.ok.inj (Prod.mk.inj hpage).1]
                            exact (readPage_ok htable hread).2.2.2.1

/-- A call of `stage` is a run of its transactions. -/
theorem stage_reach (hsource : S source) (pages : Nat) (validate : ContentValidator) (links : Except Error Unit) :
    Relation.ReflTransGen (Step hemera S) target (source.stage hemera target pages validate links).2 := by
  rw [TransferSource.stage]
  split_ifs
  · exact .refl
  · have hstep : Step hemera S target (source.prepareTarget hemera target .done).2 := Step.prepare hsource .done
    cases hprepare : source.prepareTarget hemera target .done with
    | mk reply target' =>
        rw [hprepare] at hstep
        dsimp only
        cases hresult : reply.result with
        | error e => exact .single hstep
        | ok u =>
            dsimp only
            cases hread : source.readCursor target' with
            | error e => exact .single hstep
            | ok cursor =>
                dsimp only
                refine .trans (.single hstep) (stageLoop_reach hsource validate links pages ?_)
                obtain ⟨row, -, hread⟩ := exists_of_bind_ok hread
                cases row with
                | none => cases hread
                | some row => exact decode_encode_of_decode hread

/-! ### A source to stage -/

/-- A polynomial hash, which tells the strings below apart. -/
def polynomialHash (message : List UInt8) : Bytes32 :=
  ⟨(leBytes 32 (message.foldl (fun n byte => n * 257 + byte.toNat + 1) 0)).toArray, by simp⟩

/-- A namespace that publishes a commit, and then the commit of all fives. -/
def twoWrites (first : Particle) : List Call :=
  [.apply ⟨repeated 1, repeated 2, repeated 9, none, ⟨0, first⟩, [(first, [7])], []⟩,
    .apply ⟨repeated 1, repeated 8, repeated 9, some ⟨0, first⟩, ⟨1, repeated 5⟩, [(repeated 5, [7])], []⟩]

def runCalls (calls : List Call) (db : Database) : Database :=
  calls.foldl (fun db call => (call.run polynomialHash db .done).2) db

/-- The source that an archive of a store after some calls gives. -/
def openCalls (calls : List Call) : Except Error TransferSource := do
  let archive ← ApplicationArchive.open polynomialHash (runCalls calls Database.empty)
  (TransferSource.fromArchive polynomialHash archive (repeated 6) (repeated 7) .done).1

def openTwoWrites (first : Particle) : Except Error TransferSource := openCalls (twoWrites first)

def okOr {α : Type} (default : α) : Except Error α → α
  | .ok a => a
  | .error _ => default

def sourceOf (first : Particle) : TransferSource := okOr ⟨Database.empty, first, first, []⟩ (openTwoWrites first)

theorem reach_runCalls {S : TransferSource → Prop} (calls : List Call) (db : Database) :
    Relation.ReflTransGen (Step polynomialHash S) db (runCalls calls db) := by
  induction calls generalizing db with
  | nil => exact .refl
  | cons call calls ih => exact .trans (.single (Step.call call .done)) (ih _)

theorem opened_openCalls (calls : List Call) (default : TransferSource) (h : (openCalls calls).isOk = true) :
    Opened polynomialHash (okOr default (openCalls calls)) := by
  cases hopen : openCalls calls with
  | error e =>
      rw [hopen] at h
      cases h
  | ok source =>
      obtain ⟨archive, harchive, hsource⟩ := exists_of_bind_ok hopen
      exact ⟨1, _, archive, repeated 6, repeated 7, .done, source, reach_runCalls _ _, harchive, hsource,
        rfl, rfl, rfl, rfl, fun _ _ => rfl⟩

theorem opened_sourceOf (first : Particle) (h : (openTwoWrites first).isOk = true) :
    Opened polynomialHash (sourceOf first) :=
  opened_openCalls (twoWrites first) _ h

/-- A validator that accepts everything. -/
def acceptAll : ContentValidator := fun _ _ _ => .ok ()

/-- A target that one stager fills with a source. -/
def copiedTarget : Database :=
  ((sourceOf (repeated 4)).stage polynomialHash Database.empty 4096 acceptAll (.ok ())).2

theorem copiedTarget_reach {S : TransferSource → Prop} (hS : S (sourceOf (repeated 4))) :
    Relation.ReflTransGen (Step polynomialHash S) Database.empty copiedTarget := by
  unfold copiedTarget
  exact stage_reach hS 4096 acceptAll (.ok ())

end LeanBbg.Storage
