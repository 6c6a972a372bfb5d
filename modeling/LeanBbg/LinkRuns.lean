import LeanBbg.ChainChecks
import LeanBbg.Paging

/-! Whole runs of `validate_links`. The pages of a table are its rows in order, so a pass checks every row; the
receipts build the reverse index that the history is checked against, and the index is gone at the end. -/

namespace LeanBbg.Storage

open Bytes Attempt

/-- The rows of the five tables fit the limits of the database. -/
def Fits (v : View) : Prop := ∀ t ∈ TABLES, ∀ k x, v t k = some x → k.length ≤ 64 ∧ x.length ≤ MAX_BYTES_VALUE

variable {db : Database}

theorem read_eq (hready : db.failure = none) {table : Table} {key : List UInt8} {max : Nat} (hkey : key.length ≤ 64)
    (hmax : max ≤ MAX_BYTES_VALUE) (hvalue : ∀ x, db.view table key = some x → x.length ≤ max) :
    db.read table key max = .ok (db.view table key) := by
  rw [Database.read, hready]
  exact Transaction.get_eq_ok hkey hmax hvalue

/-! ### One row -/

/-- What a row that passes `validate_links` satisfies. -/
structure RowLinked (v : View) (table : Table) (previous : Option (Particle × UInt64)) (row : RawEntry) (s : Particle)
    (head : Head) (next : Option (Particle × UInt64)) : Prop where
  space : particle (row.1.take 32) = .ok s
  named : linkedHead table previous s row = .ok (head, next)
  linked : Linked v s head
  receipt : table = .history → v .migration (receiptIndex s.toList head.index) ≠ none

theorem rowLinked_of_checkLink {table : Table} {previous next : Option (Particle × UInt64)} {row : RawEntry}
    (h : checkLink db table previous row = .ok next) : ∃ s head, RowLinked db.view table previous row s head next := by
  rw [checkLink] at h
  obtain ⟨s, hs, h⟩ := exists_of_bind_ok h
  obtain ⟨⟨head, named⟩, hnamed, h⟩ := exists_of_bind_ok h
  obtain ⟨recorded, hrecorded, h⟩ := exists_of_bind_ok h
  obtain ⟨_, hmatch, h⟩ := exists_of_bind_ok h
  obtain ⟨content, hcontent, h⟩ := exists_of_bind_ok h
  obtain ⟨_, hexists, h⟩ := exists_of_bind_ok h
  obtain ⟨selected, hselected, h⟩ := exists_of_bind_ok h
  have hrecorded := (read_ok (lift_ok hrecorded)).2
  have hcontent := (read_ok (lift_ok hcontent)).2
  have hselected := (read_ok (lift_ok hselected)).2
  cases selected with
  | none => cases h
  | some selected =>
      obtain ⟨top, htop, h⟩ := exists_of_bind_ok h
      obtain ⟨_, hbelow, h⟩ := exists_of_bind_ok h
      have hlinked : Linked db.view s head := by
        refine ⟨?_, ?_, top, ?_, UInt64.not_lt.mp (refuse_ok hbelow)⟩
        · rw [← hrecorded]
          exact not_not.mp (refuse_ok hmatch)
        · rw [← hcontent]
          exact refuse_ok hexists
        · rw [← hselected, encodeHead_of_decodeHead htop]
      split_ifs at h with htable
      · obtain ⟨receipt, hreceipt, h⟩ := exists_of_bind_ok h
        obtain ⟨_, hnone, h⟩ := exists_of_bind_ok h
        obtain rfl := Except.ok.inj h
        refine ⟨s, head, hs, hnamed, hlinked, fun _ => ?_⟩
        rw [← (read_ok (lift_ok hreceipt)).2]
        exact refuse_ok hnone
      · obtain rfl := Except.ok.inj h
        exact ⟨s, head, hs, hnamed, hlinked, fun heq => absurd heq htable⟩

theorem historyKey_length (s : Particle) (i : UInt64) : (historyKey s i).length = 40 := by simp [historyKey]

theorem receiptIndex_length (s : Particle) (i : UInt64) : (receiptIndex s.toList i).length = 41 := by
  simp [receiptIndex]

theorem lift_eq {α : Type} {x : Except StorageError α} {a : α} (h : x = .ok a) : lift x = .ok a := by
  rw [h]
  rfl

theorem checkLink_of_rowLinked (hready : db.failure = none) (hfits : Fits db.view)
    (hindex : ∀ k x, IsReceiptIndex k → db.view .migration k = some x → x.length ≤ 32) {table : Table}
    {previous next : Option (Particle × UInt64)} {row : RawEntry} {s : Particle} {head : Head}
    (h : RowLinked db.view table previous row s head next) : checkLink db table previous row = .ok next := by
  obtain ⟨hs, hnamed, ⟨hrecorded, hcontent, selected, hselected, hbelow⟩, hreceipt⟩ := h
  have hread : db.read .history (historyKey s head.index) 32 = .ok (some head.commit.toList) := by
    rw [read_eq hready (by rw [historyKey_length]; decide) (by decide), hrecorded]
    intro x hx
    rw [hrecorded] at hx
    rw [← Option.some.inj hx, Vector.length_toList]
  have hread' : db.read .content head.commit.toList MAX_BYTES_VALUE = .ok (db.view .content head.commit.toList) := by
    refine read_eq hready (by simp) (Nat.le_refl _) fun x hx => (hfits _ (by decide) _ _ hx).2
  have hread'' : db.read .heads s.toList 40 = .ok (some (encodeHead selected)) := by
    rw [read_eq hready (by simp) (by decide), hselected]
    intro x hx
    rw [hselected] at hx
    rw [← Option.some.inj hx, encodeHead_length]
  rw [checkLink, hs]
  change (linkedHead table previous s row >>= _) = _
  rw [hnamed]
  change (lift (db.read .history (historyKey s head.index) 32) >>= _) = _
  rw [lift_eq hread]
  change (refuse _ _ >>= _) = _
  rw [refuse_of_not (not_not.mpr rfl)]
  change (lift (db.read .content head.commit.toList MAX_BYTES_VALUE) >>= _) = _
  rw [lift_eq hread']
  change (refuse _ _ >>= _) = _
  rw [refuse_of_not hcontent]
  change (lift (db.read .heads s.toList 40) >>= _) = _
  rw [lift_eq hread'']
  change (decodeHead (encodeHead selected) >>= _) = _
  rw [decodeHead_encodeHead]
  change (refuse _ _ >>= _) = _
  rw [refuse_of_not (UInt64.not_lt.mpr hbelow)]
  change (if table = .history then _ else _) = _
  split_ifs with htable
  · have hread''' : db.read .migration (receiptIndex s.toList head.index) 32 =
        .ok (db.view .migration (receiptIndex s.toList head.index)) := by
      exact read_eq hready (by rw [receiptIndex_length]; decide) (by decide) fun x => hindex _ x ⟨_, rfl⟩
    rw [lift_eq hread''']
    change (refuse _ _ >>= _) = _
    rw [refuse_of_not (hreceipt htable)]
    rfl
  · rfl

/-! ### Pages -/

theorem scan_eq_loop (hready : db.failure = none) {table : Table} {after : Option (List UInt8)} {limits : ByteLimits}
    (hlimits : limits.validate = .ok ()) (hafter : ∀ k ∈ after, k.length ≤ 64) :
    db.scan table after [] limits =
      scanLoop limits [] 0 ((rowsAfter db.tables table after).take limits.maxEntries) := by
  have hall : matching db table [] = (db.tables table).toList :=
    List.filter_eq_self.mpr fun row _ => List.isPrefixOf_nil_left
  rw [scan_eq_left hready hlimits (by decide) hafter, hall]
  rfl

/-- Limits under which every row of a database fits a page. -/
structure Roomy (limits : ByteLimits) : Prop where
  valid : limits.validate = .ok ()
  entries : 0 < limits.maxEntries
  bytes : 64 + MAX_BYTES_VALUE ≤ limits.maxBytes

theorem roomy_linkLimits : Roomy linkLimits := ⟨rfl, by decide, by decide⟩

/-- A page is a run of rows from the front, and is empty only when none is left. -/
theorem page_of_loop {limits : ByteLimits} (hroomy : Roomy limits) {rows : List RawEntry}
    (hfits : ∀ row ∈ rows, row.1.length ≤ 64 ∧ row.2.length ≤ MAX_BYTES_VALUE) :
    ∃ page rest, scanLoop limits [] 0 (rows.take limits.maxEntries) = .ok page ∧ rows = page ++ rest ∧
      (page = [] → rows = []) ∧ page.length ≤ limits.maxEntries := by
  refine page_of_fits hroomy.entries fun row hrow => ?_
  obtain ⟨hkey, hvalue⟩ := hfits row hrow
  exact ⟨hkey, hvalue, (Nat.add_le_add hkey hvalue).trans hroomy.bytes⟩

theorem rowsAfter_last {tables : Tables} {table : Table} {after : Option (List UInt8)} {before rest : List RawEntry}
    {last : RawEntry} (h : rowsAfter tables table after = before ++ last :: rest) :
    rowsAfter tables table (some last.1) = rest :=
  Paging.left_last (increasing_toList _) h

/-! ### Runs -/

namespace Links

variable (hemera : List UInt8 → Bytes32)

/-- A step with an engine that does not fail. -/
def next (p : Links × Database) : Links × Database := p.1.step hemera .done p.2

/-- A run of the machine. -/
def Leads (p q : Links × Database) : Prop := ∃ n, (next hemera)^[n] p = q

variable {hemera} {p q r : Links × Database}

theorem Leads.refl (p : Links × Database) : Leads hemera p p := ⟨0, rfl⟩

theorem Leads.trans (h : Leads hemera p q) (h' : Leads hemera q r) : Leads hemera p r := by
  obtain ⟨m, rfl⟩ := h
  obtain ⟨n, rfl⟩ := h'
  exact ⟨n + m, Function.iterate_add_apply _ n m p⟩

theorem Leads.head (h : next hemera p = q) (h' : Leads hemera q r) : Leads hemera p r :=
  Leads.trans ⟨1, h⟩ h'

/-- A run that has ended stays where it is. -/
theorem Leads.done_unique {db' db'' : Database} {result result' : Except Error Unit} {p : Links × Database}
    (h : Leads hemera p (.done result, db')) (h' : Leads hemera p (.done result', db'')) :
    result = result' ∧ db' = db'' := by
  have hstay : ∀ n db result, (next hemera)^[n] (.done result, db) = (.done result, db) := by
    intro n db result
    induction n with
    | zero => rfl
    | succ n ih =>
        rw [Function.iterate_succ_apply]
        exact ih
  obtain ⟨m, hm⟩ := h
  obtain ⟨n, hn⟩ := h'
  have heq : ((.done result, db') : Links × Database) = (.done result', db'') := by
    rcases Nat.le_total m n with hle | hle
    · obtain ⟨k, rfl⟩ := Nat.exists_eq_add_of_le' hle
      rw [Function.iterate_add_apply, hm, hstay] at hn
      exact hn
    · obtain ⟨k, rfl⟩ := Nat.exists_eq_add_of_le' hle
      rw [Function.iterate_add_apply, hn, hstay] at hm
      exact hm.symm
  obtain ⟨hlinks, hdb⟩ := Prod.mk.inj heq
  exact ⟨Links.done.inj hlinks, hdb⟩

/-- The rows of a page are checked one after another. -/
theorem check_leads (table : Table) (rest : List Table) (rows : List RawEntry) (last : Option (List UInt8))
    (previous : Option (Particle × UInt64)) (db : Database) :
    Leads hemera (.check table rest rows last previous, db)
      (match rows.foldlM (checkLink db table) previous with
        | .ok previous => .scan (table :: rest) last previous
        | .error e => .done (.error e), db) := by
  induction rows generalizing previous with
  | nil => exact .head rfl (.refl _)
  | cons row rows ih =>
      rw [List.foldlM_cons]
      cases hrow : checkLink db table previous row with
      | error e =>
          refine .head ?_ (.refl _)
          rw [next, step, hrow]
          rfl
      | ok previous' =>
          refine .head ?_ (ih previous')
          rw [next, step, hrow]

/-- A page with a row that is not well formed ends the run. -/
theorem page_of_invalid {table : Table} {rest : List Table} {previous : Option (Particle × UInt64)}
    {rows : List RawEntry} {e : Error} (hne : rows ≠ []) (h : rows.forM (validateRecord table) = .error e) :
    page table rest previous rows = .done (.error e) := by
  rw [page, h]
  exact hne

/-- A page of receipts is indexed before it is checked. -/
theorem page_of_receipts {rest : List Table} {previous : Option (Particle × UInt64)} {rows : List RawEntry}
    (hne : rows ≠ []) (h : rows.forM (validateRecord .requests) = .ok ()) :
    page .requests rest previous rows = .index .requests rest rows previous := by
  rw [page, h]
  · exact if_pos rfl
  · exact hne

theorem page_of_valid {table : Table} {rest : List Table} {previous : Option (Particle × UInt64)}
    {rows : List RawEntry} (hne : rows ≠ []) (h : rows.forM (validateRecord table) = .ok ()) (htable : table ≠ .requests) :
    page table rest previous rows = .check table rest rows (rows.getLast?.map Prod.fst) previous := by
  rw [page, h]
  · exact if_neg htable
  · exact hne

end Links

/-- The rows of a table from a key on, checked in order. -/
def PassAccepts (db : Database) (table : Table) (previous : Option (Particle × UInt64)) (rows : List RawEntry) : Prop :=
  (∀ row ∈ rows, validateRecord table row = .ok ()) ∧ ∃ last, rows.foldlM (checkLink db table) previous = .ok last

theorem forM_ok_iff {table : Table} {rows : List RawEntry} :
    rows.forM (validateRecord table) = .ok () ↔ ∀ row ∈ rows, validateRecord table row = .ok () := by
  induction rows with
  | nil => exact ⟨fun _ => nofun, fun _ => rfl⟩
  | cons row rows ih =>
      change (validateRecord table row >>= fun _ => rows.forM (validateRecord table)) = .ok () ↔ _
      rw [List.forall_mem_cons, ← ih]
      cases validateRecord table row with
      | error e => exact ⟨nofun, fun h => nomatch h.1⟩
      | ok u => exact ⟨fun h => ⟨rfl, h⟩, fun h => h.2⟩

theorem not_valid_of_forM {table : Table} {rows : List RawEntry} {e : Error}
    (h : rows.forM (validateRecord table) = .error e) : ¬∀ row ∈ rows, validateRecord table row = .ok () := by
  intro hvalid
  rw [forM_ok_iff.mpr hvalid] at h
  cases h

/-- After a page that is accepted, the rest decides. -/
theorem passAccepts_append {table : Table} {previous middle : Option (Particle × UInt64)} {page rest : List RawEntry}
    (hvalid : ∀ row ∈ page, validateRecord table row = .ok ())
    (hfold : page.foldlM (checkLink db table) previous = .ok middle) :
    PassAccepts db table previous (page ++ rest) ↔ PassAccepts db table middle rest := by
  have hrest : (page ++ rest).foldlM (checkLink db table) previous = rest.foldlM (checkLink db table) middle := by
    rw [List.foldlM_append, hfold]
    rfl
  rw [PassAccepts, PassAccepts, hrest, List.forall_mem_append, and_iff_right hvalid]

/-- A page that is refused is refused with whatever follows it. -/
theorem not_passAccepts_append {table : Table} {previous : Option (Particle × UInt64)} {page rest : List RawEntry}
    {e : Error} (hfold : page.foldlM (checkLink db table) previous = .error e) :
    ¬PassAccepts db table previous (page ++ rest) := by
  rintro ⟨-, last, hlast⟩
  rw [List.foldlM_append, hfold] at hlast
  cases hlast

variable {hemera : List UInt8 → Bytes32}

theorem rowsAfter_fits (hfits : Fits db.view) {table : Table} (ht : table ∈ TABLES) {after : Option (List UInt8)} :
    ∀ row ∈ rowsAfter db.tables table after, row.1.length ≤ 64 ∧ row.2.length ≤ MAX_BYTES_VALUE := by
  intro row hrow
  exact hfits table ht row.1 row.2 ((OrdMap.mem_toList _).mp (List.mem_of_mem_filter hrow))

/-- A scan returns a page of the rows after a key, and the key of its last row has the others after it. -/
theorem scan_page {limits : ByteLimits} (hroomy : Roomy limits) (hready : db.failure = none) (hfits : Fits db.view)
    {table : Table} (ht : table ∈ TABLES) {after : Option (List UInt8)} (hafter : ∀ k ∈ after, k.length ≤ 64) :
    ∃ page remaining, lift (db.scan table after [] limits) = .ok page ∧
      rowsAfter db.tables table after = page ++ remaining ∧ page.length ≤ limits.maxEntries ∧
      (page = [] → rowsAfter db.tables table after = []) ∧
      (page ≠ [] → ∃ key : List UInt8, page.getLast?.map Prod.fst = some key ∧ (∀ k ∈ some key, k.length ≤ 64) ∧
        rowsAfter db.tables table (some key) = remaining) := by
  have hrows : ∀ row ∈ rowsAfter db.tables table after, row.1.length ≤ 64 ∧ row.2.length ≤ MAX_BYTES_VALUE :=
    rowsAfter_fits hfits ht
  obtain ⟨page, remaining, hpage, hsplit, hempty, hcount⟩ := page_of_loop hroomy hrows
  refine ⟨page, remaining, lift_eq ((scan_eq_loop hready hroomy.valid hafter).trans hpage), hsplit, hcount, hempty,
    fun hne => ?_⟩
  obtain ⟨before, last, rfl⟩ := (List.eq_nil_or_concat' page).resolve_left hne
  have hsplit' : rowsAfter db.tables table after = before ++ last :: remaining := by
    rw [hsplit, List.append_assoc, List.singleton_append]
  refine ⟨last.1, ?_, fun k hk => ?_, rowsAfter_last hsplit'⟩
  · rw [List.getLast?_concat]
    rfl
  · rw [← Option.some.inj hk]
    refine (hrows last ?_).1
    rw [hsplit']
    exact List.mem_append_right _ List.mem_cons_self

/-- A pass over a table that writes nothing ends in the next table, or in an error when a row is refused. -/
theorem pass_leads (hready : db.failure = none) (hfits : Fits db.view) {table : Table} (ht : table ∈ TABLES)
    (htable : table ≠ .requests) (rest : List Table) (after : Option (List UInt8)) (previous : Option (Particle × UInt64))
    (hafter : ∀ k ∈ after, k.length ≤ 64) :
    (PassAccepts db table previous (rowsAfter db.tables table after) ∧
      Links.Leads hemera (.scan (table :: rest) after previous, db) (.scan rest none none, db)) ∨
    (¬PassAccepts db table previous (rowsAfter db.tables table after) ∧
      ∃ e, Links.Leads hemera (.scan (table :: rest) after previous, db) (.done (.error e), db)) := by
  -- the pages leave fewer and fewer rows
  induction hn : (rowsAfter db.tables table after).length using Nat.strong_induction_on generalizing after previous with
  | _ n ih =>
      obtain ⟨page, remaining, hscan, hsplit, -, hempty, hlast⟩ := scan_page roomy_linkLimits hready hfits ht hafter
      have hstep : Links.next hemera (.scan (table :: rest) after previous, db) =
          (Links.page table rest previous page, db) := by
        rw [Links.next, Links.step, hscan]
      by_cases hne : page = []
      · subst hne
        rw [hempty rfl]
        exact .inl ⟨⟨List.forall_mem_nil _, previous, rfl⟩, .head hstep (.refl _)⟩
      obtain ⟨key, hlastKey, hkey, hremaining⟩ := hlast hne
      rw [hsplit]
      cases hvalid : page.forM (validateRecord table) with
      | error e =>
          rw [Links.page_of_invalid hne hvalid] at hstep
          refine .inr ⟨fun haccepts => not_valid_of_forM hvalid fun row hrow => ?_, e, .head hstep (.refl _)⟩
          exact haccepts.1 row (List.mem_append_left _ hrow)
      | ok u =>
          rw [Links.page_of_valid hne hvalid htable, hlastKey] at hstep
          have hrun := Links.Leads.head hstep (Links.check_leads table rest page (some key) previous db)
          cases hfold : page.foldlM (checkLink db table) previous with
          | error e =>
              rw [hfold] at hrun
              exact .inr ⟨not_passAccepts_append hfold, e, hrun⟩
          | ok middle =>
              rw [hfold] at hrun
              rw [passAccepts_append (forM_ok_iff.mp hvalid) hfold, ← hremaining]
              have hshorter : (rowsAfter db.tables table (some key)).length < n := by
                rw [hremaining, ← hn, hsplit, List.length_append]
                exact Nat.lt_add_of_pos_left (List.length_pos_iff.mpr hne)
              rcases ih _ hshorter (some key) middle hkey rfl with
                ⟨haccepts, hlead⟩ | ⟨hrefuses, e, hlead⟩
              · exact .inl ⟨haccepts, hrun.trans hlead⟩
              · exact .inr ⟨hrefuses, e, hrun.trans hlead⟩

/-! ### Transactions on the reverse index -/

/-- Only the reverse index and the marker of the last transaction differ. -/
def Frame (v v' : View) : Prop := ∀ t k, ¬(t = .migration ∧ IsReceiptIndex k) →
  ¬(t = .metadata ∧ k = ascii "last_transaction") → v' t k = v t k

theorem Frame.refl (v : View) : Frame v v := fun _ _ _ _ => rfl

theorem Frame.trans {v v' v'' : View} (h : Frame v v') (h' : Frame v' v'') : Frame v v'' :=
  fun t k hindex hmarker => (h' t k hindex hmarker).trans (h t k hindex hmarker)

/-- The rows of the five tables are as they were. -/
theorem Frame.rows {v v' : View} (h : Frame v v') {t : Table} (ht : t ∈ TABLES) (k : List UInt8) : v' t k = v t k := by
  refine h t k ?_ ?_
  · rintro ⟨rfl, -⟩
    exact absurd ht (by decide)
  · rintro ⟨rfl, -⟩
    exact absurd ht (by decide)

/-- A transaction of at most `n` rows of the reverse index. -/
structure Light (tx : Transaction) (n : Nat) : Prop where
  entries : tx.changes.entries.length ≤ n
  bytes : tx.bytes ≤ 96 * n
  owned : ∀ address ∈ tx.changes.keys, address.1 = .migration ∧ IsReceiptIndex address.2

theorem light_begin (tables : Tables) : Light (.begin tables) 0 := ⟨Nat.le_refl _, Nat.le_refl _, nofun⟩

theorem Light.stage {tx : Transaction} {n : Nat} (h : Light tx n) (hn : n < 4096) {key : List UInt8}
    (hkey : key.length ≤ 64) (hindex : IsReceiptIndex key) {value : Option (List UInt8)}
    (hvalue : ∀ x ∈ value, x.length ≤ 32) : ∃ tx', tx.stage .migration key value = .ok tx' ∧ Light tx' (n + 1) := by
  obtain ⟨hentries, hbytes, howned⟩ := h
  have hlength : value.elim 0 List.length ≤ 32 := by
    cases value with
    | none => exact Nat.zero_le _
    | some x => exact hvalue x rfl
  have hrecord : ¬(key.length > 64 ∨ value.any (fun v => v.length > MAX_BYTES_VALUE) = true) := by
    rintro (hgt | hany)
    · omega
    · obtain ⟨x, hx, hgt⟩ := (Option.any_eq_true _ _).mp hany
      have hle := hvalue x hx
      have hgt : MAX_BYTES_VALUE < x.length := of_decide_eq_true hgt
      rw [MAX_BYTES_VALUE] at hgt
      omega
  have hkeys : ¬((tx.changes.lookup (.migration, key)).isNone = true ∧
      tx.changes.entries.length ≥ MAX_TRANSACTION_KEYS - 2) := by
    rintro ⟨-, hge⟩
    rw [MAX_TRANSACTION_KEYS] at hge
    omega
  have hroom : ∀ old, ¬tx.bytes - old + key.length + value.elim 0 List.length > MAX_TRANSACTION_BYTES - 91 := by
    intro old
    rw [MAX_TRANSACTION_BYTES]
    omega
  simp only [Transaction.stage, if_neg hrecord, if_neg hkeys, if_neg (hroom _)]
  refine ⟨_, rfl, ?_, ?_, ?_⟩
  · have herase := (List.kerase_sublist (Table.migration, key) tx.changes.entries).length_le
    rw [AList.entries_insert, List.length_cons]
    omega
  · dsimp only
    omega
  · intro address haddress
    rcases (AList.mem_insert _).mp (AList.mem_keys.mpr haddress) with rfl | hmem
    · exact ⟨rfl, hindex⟩
    · exact howned address (AList.mem_keys.mp hmem)

/-- Such a transaction commits what it sees of the reverse index, and nothing else. -/
theorem transaction_light (hready : db.failure = none) {execute : Transaction → Except Error (Unit × Transaction)}
    {tx : Transaction} {n : Nat} (hexecute : execute (.begin db.tables) = .ok ((), tx)) (hengine : tx.engine = db.tables)
    (hlight : Light tx n) : ∃ reply db', db.transaction hemera Error.ofStorage .done execute = (reply, db') ∧
      reply.result = .ok () ∧ db'.failure = none ∧ (∀ k, db'.view .migration k = tx.view .migration k) ∧
      Frame db.view db'.view := by
  have hlookup : ∀ t k, ¬(t = .migration ∧ IsReceiptIndex k) → tx.changes.lookup (t, k) = none := by
    intro t k hne
    rw [AList.lookup_eq_none]
    intro hmem
    exact hne (hlight.owned (t, k) (AList.mem_keys.mp hmem))
  cases hempty : tx.changes.entries.isEmpty with
  | true =>
      refine ⟨⟨.ok (), false⟩, db, ?_, rfl, hready, fun k => ?_, .refl _⟩
      · simp only [Database.transaction, hready, hexecute, hempty, if_true]
      · have hnone : tx.changes.lookup (.migration, k) = none := by
          rw [AList.lookup, List.isEmpty_iff.mp hempty]
          rfl
        rw [Transaction.view, hnone, hengine]
        rfl
  | false =>
      have hmarkers : ∀ id : Bytes32, withMarkers tx.changes id =
          tx.changes.insert (.metadata, ascii "last_transaction") (some id.toList) := by
        intro id
        refine congrArg (AList.insert _ _) (if_neg fun hany => ?_)
        obtain ⟨⟨t, k⟩, hmem, hshard⟩ := List.any_eq_true.mp hany
        obtain ⟨rfl, -⟩ := hlight.owned _ hmem
        cases hshard
      refine ⟨⟨.ok (), true⟩, ⟨applyChanges db.tables (withMarkers tx.changes (changeId hemera tx.changes)), none⟩, ?_, rfl, rfl,
        fun k => ?_, fun t k hindex hmarker => ?_⟩
      · simp only [Database.transaction, hready, hexecute, hempty, Bool.false_eq_true, if_false]
      · rw [Database.view, applyChanges_get, hmarkers, AList.lookup_insert_ne (by simp), Transaction.view, hengine]
      · rw [Database.view, applyChanges_get, hmarkers, AList.lookup_insert_ne (fun heq => hmarker (Prod.mk.inj heq)), hlookup t k hindex]
        rfl

/-! ### Receipts -/

/-- The row of the reverse index that a receipt gives. -/
def receiptOf (row : RawEntry) : Option RawEntry :=
  match decodeRequest row.2 with
  | .ok (_, head) => some (receiptIndex (row.1.take 32) head.index, row.1.drop 32)
  | .error _ => none

/-- The reverse index holds exactly the rows of some receipts. -/
def IndexHolds (v : View) (rows : List RawEntry) : Prop :=
  ∀ k x, IsReceiptIndex k → (v .migration k = some x ↔ ∃ row ∈ rows, receiptOf row = some (k, x))

/-- No two receipts are for one index. -/
def Compatible (rows : List RawEntry) : Prop :=
  ∀ row ∈ rows, ∀ row' ∈ rows, ∀ k x x', receiptOf row = some (k, x) → receiptOf row' = some (k, x') → x = x'

theorem receiptOf_eq_some {row : RawEntry} {k x : List UInt8} (h : receiptOf row = some (k, x)) :
    (∃ index, k = receiptIndex (row.1.take 32) index) ∧ x = row.1.drop 32 := by
  rw [receiptOf] at h
  split at h
  · obtain ⟨rfl, rfl⟩ := Prod.mk.inj (Option.some.inj h)
    exact ⟨⟨_, rfl⟩, rfl⟩
  · cases h

theorem IndexHolds.compatible {v : View} {rows : List RawEntry} (h : IndexHolds v rows) : Compatible rows := by
  intro row hrow row' hrow' k x x' hx hx'
  have hindex : IsReceiptIndex k := by
    obtain ⟨⟨index, rfl⟩, -⟩ := receiptOf_eq_some hx
    exact ⟨_, rfl⟩
  have heq := ((h k x hindex).mpr ⟨row, hrow, hx⟩).symm.trans ((h k x' hindex).mpr ⟨row', hrow', hx'⟩)
  exact Option.some.inj heq

/-- A receipt row, with its parts. -/
theorem receipt_of_valid {row : RawEntry} (h : validateRecord .requests row = .ok ()) :
    row.1.length = 64 ∧ ∃ fingerprint head, decodeRequest row.2 = .ok (fingerprint, head) := by
  simp only [validateRecord, Bool.and_eq_true, decide_eq_true_eq] at h
  split_ifs at h with hok
  cases hdecode : decodeRequest row.2 with
  | error e =>
      rw [hdecode] at hok
      cases hok.2
  | ok request => exact ⟨hok.1, request.1, request.2, rfl⟩

theorem receiptOf_eq {row : RawEntry} {fingerprint : Particle} {head : Head}
    (h : decodeRequest row.2 = .ok (fingerprint, head)) :
    receiptOf row = some (receiptIndex (row.1.take 32) head.index, row.1.drop 32) := by
  rw [receiptOf, h]

/-- A receipt that is staged joins the rows that the index holds. -/
theorem IndexHolds.put {v v' : View} {done : List RawEntry} (h : IndexHolds v done) {row : RawEntry}
    {key id : List UInt8} (hreceipt : receiptOf row = some (key, id)) (hkey : IsReceiptIndex key)
    (hold : ∀ x ∈ v .migration key, x = id) (hput : v' .migration key = some id)
    (hsame : ∀ k, k ≠ key → v' .migration k = v .migration k) : IndexHolds v' (done ++ [row]) := by
  intro k x hk
  have hsplit : (∃ r ∈ done ++ [row], receiptOf r = some (k, x)) ↔ v .migration k = some x ∨ key = k ∧ id = x := by
    simp only [List.mem_append, List.mem_singleton, or_and_right, exists_or, exists_eq_left, h k x hk, hreceipt,
      Option.some_inj, Prod.mk_inj]
  rw [hsplit]
  by_cases heq : k = key
  · subst heq
    rw [hput, Option.some_inj]
    constructor
    · exact fun hx => .inr ⟨rfl, hx⟩
    · rintro (hx | ⟨-, hx⟩)
      · exact (hold x hx).symm
      · exact hx
  · rw [hsame k heq]
    constructor
    · exact .inl
    · rintro (hx | ⟨hx, -⟩)
      · exact hx
      · exact absurd hx.symm heq

/-- A receipt enters the index, unless another one is there. -/
theorem index_row {row : RawEntry} {done : List RawEntry} (hvalid : validateRecord .requests row = .ok ())
    (hdone : ∀ row ∈ done, row.1.length = 64) {tx : Transaction} {n : Nat} (hlight : Light tx n) (hn : n < 4096)
    (hholds : IndexHolds tx.view done) :
    (∃ tx', indexReceipt tx row = .ok tx' ∧ Light tx' (n + 1) ∧ tx'.engine = tx.engine ∧
      IndexHolds tx'.view (done ++ [row])) ∨
    ((∃ e, indexReceipt tx row = .error e) ∧ ¬Compatible (done ++ [row])) := by
  obtain ⟨hlen, fingerprint, head, hdecode⟩ := receipt_of_valid hvalid
  have hreceipt := receiptOf_eq hdecode
  generalize hkeyEq : receiptIndex (row.1.take 32) head.index = key at hreceipt
  have hkey : IsReceiptIndex key := ⟨_, hkeyEq.symm⟩
  have hkeyLen : key.length ≤ 64 := by
    rw [← hkeyEq]
    simp [receiptIndex]
    omega
  have hid : (row.1.drop 32).length = 32 := by
    rw [List.length_drop, hlen]
  have hget : tx.get .migration key 32 = .ok (tx.view .migration key) := by
    refine Transaction.get_eq_ok hkeyLen (by decide) fun x hx => ?_
    obtain ⟨row', hrow', hreceipt'⟩ := (hholds key x hkey).mp hx
    obtain ⟨-, rfl⟩ := receiptOf_eq_some hreceipt'
    rw [List.length_drop, hdone row' hrow']
  have hbody : indexReceipt tx row = (do
      refuse (∃ x ∈ tx.view .migration key, x ≠ row.1.drop 32) .corrupt
      lift (tx.put .migration key (row.1.drop 32))) := by
    rw [indexReceipt, hdecode]
    change (lift (tx.get .migration (receiptIndex (row.1.take 32) head.index) 32) >>= _) = _
    rw [hkeyEq, lift_eq hget]
    rfl
  by_cases hconflict : ∃ x ∈ tx.view .migration key, x ≠ row.1.drop 32
  · refine .inr ⟨⟨.corrupt, ?_⟩, fun hcompatible => ?_⟩
    · rw [hbody, refuse, if_pos hconflict]
      rfl
    · obtain ⟨x, hx, hne⟩ := hconflict
      obtain ⟨row', hrow', hreceipt'⟩ := (hholds key x hkey).mp hx
      exact hne (hcompatible row' (List.mem_append_left _ hrow') row (by simp) key x _ hreceipt' hreceipt)
  · have hstaged : ∃ tx', tx.put .migration key (row.1.drop 32) = .ok tx' ∧ Light tx' (n + 1) :=
      hlight.stage hn hkeyLen hkey fun x hx => by rw [← Option.some.inj hx, hid]
    obtain ⟨tx', hput, hlight'⟩ := hstaged
    obtain ⟨hengine, -, hview⟩ := Transaction.stage_ok hput
    refine .inl ⟨tx', ?_, hlight', hengine, hholds.put hreceipt hkey (fun x hx => ?_) ?_ fun k hk => ?_⟩
    · rw [hbody, refuse_of_not hconflict]
      change lift (tx.put .migration key (row.1.drop 32)) = _
      rw [lift_eq hput]
    · by_contra hne
      exact hconflict ⟨x, hx, hne⟩
    · rw [hview, if_pos ⟨rfl, rfl⟩]
    · rw [hview, if_neg fun h => hk h.2]

theorem Compatible.left {done rows : List RawEntry} (h : Compatible (done ++ rows)) : Compatible done :=
  fun row hrow row' hrow' => h row (List.mem_append_left _ hrow) row' (List.mem_append_left _ hrow')

/-- The receipts of a page enter the index, unless two are for one index. -/
theorem index_fold {page done : List RawEntry} (hvalid : ∀ row ∈ page, validateRecord .requests row = .ok ())
    (hdone : ∀ row ∈ done, row.1.length = 64) {tx : Transaction} {n : Nat} (hlight : Light tx n)
    (hn : n + page.length ≤ 4096) (hholds : IndexHolds tx.view done) :
    (∃ tx' m, page.foldlM indexReceipt tx = .ok tx' ∧ Light tx' m ∧ tx'.engine = tx.engine ∧
      IndexHolds tx'.view (done ++ page)) ∨
    ((∃ e, page.foldlM indexReceipt tx = .error e) ∧ ¬Compatible (done ++ page)) := by
  induction page generalizing done tx n with
  | nil =>
      rw [List.append_nil]
      exact .inl ⟨tx, n, rfl, hlight, rfl, hholds⟩
  | cons row page ih =>
      obtain ⟨hrow, hpage⟩ := List.forall_mem_cons.mp hvalid
      rw [List.length_cons] at hn
      have hassoc : done ++ row :: page = done ++ [row] ++ page := by simp
      rw [hassoc, List.foldlM_cons]
      rcases index_row hrow hdone hlight (by omega) hholds with ⟨tx', hok, hlight', hengine, hholds'⟩ | ⟨⟨e, he⟩, hnot⟩
      · have hdone' : ∀ row' ∈ done ++ [row], row'.1.length = 64 :=
          List.forall_mem_append.mpr ⟨hdone, List.forall_mem_singleton.mpr (receipt_of_valid hrow).1⟩
        rw [hok]
        rcases ih hpage hdone' hlight' (by omega) hholds' with ⟨tx'', m, hfold, hlight'', hengine', hindex⟩ | herror
        · exact .inl ⟨tx'', m, hfold, hlight'', hengine'.trans hengine, hindex⟩
        · exact .inr herror
      · refine .inr ⟨⟨e, ?_⟩, fun hcompatible => hnot hcompatible.left⟩
        rw [he]
        rfl

theorem Frame.linked {v v' : View} (h : Frame v v') {s : Particle} {head : Head} : Linked v' s head ↔ Linked v s head := by
  have hhistory : v' .history = v .history := funext fun k => h.rows (by decide) k
  have hcontent : v' .content = v .content := funext fun k => h.rows (by decide) k
  have hheads : v' .heads = v .heads := funext fun k => h.rows (by decide) k
  constructor
  · rintro ⟨hrecorded, hexists, hbelow⟩
    rw [hhistory] at hrecorded
    rw [hcontent] at hexists
    rw [hheads] at hbelow
    exact ⟨hrecorded, hexists, hbelow⟩
  · rintro ⟨hrecorded, hexists, hbelow⟩
    refine ⟨?_, ?_, ?_⟩
    · rw [hhistory]
      exact hrecorded
    · rw [hcontent]
      exact hexists
    · rw [hheads]
      exact hbelow

theorem Frame.tables {db db' : Database} (h : Frame db.view db'.view) {t : Table} (ht : t ∈ TABLES) :
    db'.tables t = db.tables t :=
  Std.ExtTreeMap.ext_getElem? fun k => h.rows ht k

theorem Frame.fits {v v' : View} (h : Frame v v') (hfits : Fits v) : Fits v' := by
  intro t ht k x hx
  rw [h.rows ht] at hx
  exact hfits t ht k x hx

/-- Only a row of the history moves the place in the history. -/
theorem linkedHead_place {table : Table} (htable : table ≠ .history) {previous : Option (Particle × UInt64)} {s : Particle}
    {row : RawEntry} {head : Head} {next : Option (Particle × UInt64)}
    (h : linkedHead table previous s row = .ok (head, next)) : next = previous := by
  rw [linkedHead.eq_def] at h
  split at h
  · obtain ⟨head', -, h⟩ := exists_of_bind_ok h
    exact (Prod.mk.inj (Except.ok.inj h)).2.symm
  · obtain ⟨request, -, h⟩ := exists_of_bind_ok h
    exact (Prod.mk.inj (Except.ok.inj h)).2.symm
  · exact absurd rfl htable
  · cases h

/-- A row of the heads or of the receipts is linked, whatever the row before it. -/
def RowAccepted (v : View) (table : Table) (row : RawEntry) : Prop := ∃ s head, RowLinked v table none row s head none

theorem checkLink_none {table : Table} (htable : table ≠ .history) {row : RawEntry}
    {next : Option (Particle × UInt64)} (h : checkLink db table none row = .ok next) :
    next = none ∧ RowAccepted db.view table row := by
  obtain ⟨s, head, hlinked⟩ := rowLinked_of_checkLink h
  obtain rfl := linkedHead_place htable hlinked.named
  exact ⟨rfl, s, head, hlinked⟩

theorem accepted_fold (hready : db.failure = none) (hfits : Fits db.view)
    (hindex : ∀ k x, IsReceiptIndex k → db.view .migration k = some x → x.length ≤ 32) {table : Table}
    (htable : table ≠ .history) (rows : List RawEntry) :
    (∃ last, rows.foldlM (checkLink db table) none = .ok last) ↔ ∀ row ∈ rows, RowAccepted db.view table row := by
  induction rows with
  | nil => exact ⟨fun _ => nofun, fun _ => ⟨none, rfl⟩⟩
  | cons row rows ih =>
      rw [List.forall_mem_cons]
      constructor
      · rintro ⟨last, hlast⟩
        rw [List.foldlM_cons] at hlast
        obtain ⟨next, hrow, hlast⟩ := exists_of_bind_ok hlast
        obtain ⟨rfl, hlinked⟩ := checkLink_none htable hrow
        exact ⟨hlinked, ih.mp ⟨last, hlast⟩⟩
      · rintro ⟨⟨s, head, hlinked⟩, hrest⟩
        obtain ⟨last, hlast⟩ := ih.mpr hrest
        refine ⟨last, ?_⟩
        rw [List.foldlM_cons, checkLink_of_rowLinked hready hfits hindex hlinked]
        exact hlast

theorem fold_none {table : Table} (htable : table ≠ .history) {rows : List RawEntry}
    {last : Option (Particle × UInt64)} (h : rows.foldlM (checkLink db table) none = .ok last) : last = none := by
  induction rows with
  | nil => exact (Except.ok.inj h).symm
  | cons row rows ih =>
      rw [List.foldlM_cons] at h
      obtain ⟨next, hrow, h⟩ := exists_of_bind_ok h
      obtain ⟨rfl, -⟩ := checkLink_none htable hrow
      exact ih h

/-- The rows of the reverse index are short. -/
def ShortIndex (v : View) : Prop :=
  ∀ k x, IsReceiptIndex k → v .migration k = some x → x.length ≤ 32 ∧ k.length ≤ 64

theorem IndexHolds.short {v : View} {rows : List RawEntry} (h : IndexHolds v rows)
    (hlength : ∀ row ∈ rows, row.1.length = 64) : ShortIndex v := by
  intro k x hk hx
  obtain ⟨row, hrow, hreceipt⟩ := (h k x hk).mp hx
  have hlen := hlength row hrow
  obtain ⟨⟨index, rfl⟩, rfl⟩ := receiptOf_eq_some hreceipt
  rw [List.length_drop, hlen]
  simp [receiptIndex]
  omega

/-- What the pass over the receipts accepts. -/
def ReceiptsAccepted (v : View) (done rows : List RawEntry) : Prop :=
  (∀ row ∈ rows, validateRecord .requests row = .ok ()) ∧ Compatible (done ++ rows) ∧ ∀ row ∈ rows, RowAccepted v .requests row

theorem Frame.rowAccepted {v v' : View} (h : Frame v v') {row : RawEntry} :
    RowAccepted v' .requests row ↔ RowAccepted v .requests row := by
  constructor
  · rintro ⟨s, head, hspace, hnamed, hlinked, -⟩
    exact ⟨s, head, hspace, hnamed, h.linked.mp hlinked, Table.noConfusion⟩
  · rintro ⟨s, head, hspace, hnamed, hlinked, -⟩
    exact ⟨s, head, hspace, hnamed, h.linked.mpr hlinked, Table.noConfusion⟩

/-- After a page that is accepted and indexed, the rest decides. -/
theorem receiptsAccepted_append {v v' : View} (hframe : Frame v v') {done page rest : List RawEntry}
    (hvalid : ∀ row ∈ page, validateRecord .requests row = .ok ()) (haccepted : ∀ row ∈ page, RowAccepted v .requests row) :
    ReceiptsAccepted v done (page ++ rest) ↔ ReceiptsAccepted v' (done ++ page) rest := by
  simp only [ReceiptsAccepted, List.forall_mem_append, and_iff_right hvalid, and_iff_right haccepted, hframe.rowAccepted,
    List.append_assoc]

/-- A page with a row that is not accepted is refused with whatever follows it. -/
theorem not_receiptsAccepted_append {v : View} {done page rest : List RawEntry}
    (h : ¬∀ row ∈ page, RowAccepted v .requests row) : ¬ReceiptsAccepted v done (page ++ rest) :=
  fun haccepts => h (List.forall_mem_append.mp haccepts.2.2).1

/-- The transaction that indexes a page of receipts, unless two receipts are for one index. -/
theorem index_step {db : Database} (hready : db.failure = none) (rest : List Table) {page done : List RawEntry}
    (hvalid : ∀ row ∈ page, validateRecord .requests row = .ok ()) (hcount : page.length ≤ 4096)
    (hdone : ∀ row ∈ done, row.1.length = 64) (hholds : IndexHolds db.view done) :
    (∃ db', Links.next hemera (.index .requests rest page none, db) =
        (.check .requests rest page (page.getLast?.map Prod.fst) none, db') ∧
      db'.failure = none ∧ Frame db.view db'.view ∧ IndexHolds db'.view (done ++ page)) ∨
    ((∃ e, Links.next hemera (.index .requests rest page none, db) = (.done (.error e), db)) ∧
      ¬Compatible (done ++ page)) := by
  rcases @index_fold page done hvalid hdone (.begin db.tables) 0 (light_begin db.tables)
    (by rw [Nat.zero_add]; exact hcount) hholds with ⟨tx, m, hok, hlight, hengine, hholds'⟩ | ⟨⟨e, herror⟩, hincompatible⟩
  · have hbody : Links.indexBody page (.begin db.tables) = .ok ((), tx) := by
      rw [Links.indexBody, hok]
      rfl
    obtain ⟨reply, db', htransaction, hreply, hready', hview, hframe⟩ :=
      @transaction_light db hemera hready _ tx m hbody hengine hlight
    refine .inl ⟨db', ?_, hready', hframe, fun k x hk => ?_⟩
    · rw [Links.next, Links.step, htransaction]
      dsimp only
      rw [hreply]
    · rw [hview]
      exact hholds' k x hk
  · have hbody : Links.indexBody page (.begin db.tables) = .error e := by
      rw [Links.indexBody, herror]
      rfl
    refine .inr ⟨⟨e, ?_⟩, hincompatible⟩
    rw [Links.next, Links.step, transaction_of_error hemera Error.ofStorage .done hready hbody]

/-- The pass over the receipts ends with all of them in the index, or in an error when one is refused. -/
theorem requests_leads {db : Database} (hready : db.failure = none) (hfits : Fits db.view) (rest : List Table)
    {done : List RawEntry} (hdone : ∀ row ∈ done, row.1.length = 64) (hholds : IndexHolds db.view done)
    (after : Option (List UInt8)) (hafter : ∀ k ∈ after, k.length ≤ 64) :
    (ReceiptsAccepted db.view done (rowsAfter db.tables .requests after) ∧
      ∃ db', Links.Leads hemera (.scan (.requests :: rest) after none, db) (.scan rest none none, db') ∧
        db'.failure = none ∧ Frame db.view db'.view ∧ IndexHolds db'.view (done ++ rowsAfter db.tables .requests after)) ∨
    (¬ReceiptsAccepted db.view done (rowsAfter db.tables .requests after) ∧
      ∃ e db', Links.Leads hemera (.scan (.requests :: rest) after none, db) (.done (.error e), db')) := by
  have hmem : Table.requests ∈ TABLES := by decide
  induction hn : (rowsAfter db.tables .requests after).length using Nat.strong_induction_on
    generalizing db done after with
  | _ n ih =>
      obtain ⟨page, remaining, hscan, hsplit, hcount, hempty, hlast⟩ := scan_page roomy_linkLimits hready hfits hmem hafter
      have hstep : Links.next hemera (.scan (.requests :: rest) after none, db) =
          (Links.page .requests rest none page, db) := by
        rw [Links.next, Links.step, hscan]
      by_cases hne : page = []
      · subst hne
        rw [hempty rfl, List.append_nil]
        refine .inl ⟨⟨List.forall_mem_nil _, ?_, List.forall_mem_nil _⟩, db,
          .head hstep (.refl _), hready, .refl _, hholds⟩
        rw [List.append_nil]
        exact hholds.compatible
      obtain ⟨key, hlastKey, hkey, hremaining⟩ := hlast hne
      rw [hsplit]
      cases hvalid : page.forM (validateRecord .requests) with
      | error e =>
          rw [Links.page_of_invalid hne hvalid] at hstep
          refine .inr ⟨fun haccepts => not_valid_of_forM hvalid fun row hrow => ?_, e, db, .head hstep (.refl _)⟩
          exact haccepts.1 row (List.mem_append_left _ hrow)
      | ok u =>
          have hrows := forM_ok_iff.mp hvalid
          rw [Links.page_of_receipts hne hvalid] at hstep
          rcases @index_step hemera db hready rest page done hrows hcount hdone hholds with
            ⟨db', hindex, hready', hframe, hholds'⟩ | ⟨⟨e, hindex⟩, hincompatible⟩
          · rw [hlastKey] at hindex
            have hdone' : ∀ row ∈ done ++ page, row.1.length = 64 :=
              List.forall_mem_append.mpr ⟨hdone, fun row hrow => (receipt_of_valid (hrows row hrow)).1⟩
            have hfits' := hframe.fits hfits
            have hshort := hholds'.short hdone'
            have haccepted := accepted_fold hready' hfits' (fun k x hk hx => (hshort k x hk hx).1)
              (by decide : Table.requests ≠ .history) page
            simp only [hframe.rowAccepted] at haccepted
            have hrun := Links.Leads.head hstep
              (.head hindex (Links.check_leads .requests rest page (some key) none db'))
            cases hfold : page.foldlM (checkLink db' .requests) none with
            | error e =>
                rw [hfold] at hrun haccepted
                refine .inr ⟨not_receiptsAccepted_append fun h => ?_, e, db', hrun⟩
                obtain ⟨final, hfinal⟩ := haccepted.mpr h
                cases hfinal
            | ok middle =>
                obtain rfl := fold_none (by decide) hfold
                rw [hfold] at hrun haccepted
                have hremaining' : rowsAfter db'.tables .requests (some key) = remaining := by
                  rw [rowsAfter, hframe.tables hmem]
                  exact hremaining
                rw [receiptsAccepted_append hframe hrows (haccepted.mp ⟨none, rfl⟩), ← List.append_assoc, ← hremaining']
                have hshorter : (rowsAfter db'.tables .requests (some key)).length < n := by
                  rw [hremaining', ← hn, hsplit, List.length_append]
                  exact Nat.lt_add_of_pos_left (List.length_pos_iff.mpr hne)
                rcases ih _ hshorter hready' hfits' hdone' hholds' (some key) hkey rfl with
                  ⟨haccepts, db'', hlead, hready'', hframe', hholds''⟩ | ⟨hrefuses, e, db'', hlead⟩
                · exact .inl ⟨haccepts, db'', hrun.trans hlead, hready'', hframe.trans hframe', hholds''⟩
                · exact .inr ⟨hrefuses, e, db'', hrun.trans hlead⟩
          · refine .inr ⟨fun haccepts => hincompatible ?_, e, db, .head hstep (.head hindex (.refl _))⟩
            have hcompatible := haccepts.2.1
            rw [← List.append_assoc] at hcompatible
            exact hcompatible.left

/-! ### The index is cleared -/

theorem bounds_of_isReceiptIndex {key : List UInt8} (h : IsReceiptIndex key) :
    (compare [114] key).isLE = true ∧ (compare key [115]).isLT = true := by
  obtain ⟨rest, rfl⟩ := h
  rw [List.compare_cons_cons, List.compare_cons_cons, @Std.ReflCmp.compare_self _ compare]
  refine ⟨?_, rfl⟩
  cases rest with
  | nil => rfl
  | cons byte rest => rfl

/-- The rows of the reverse index that a database holds. -/
def indexRows (db : Database) : List RawEntry :=
  (db.tables .migration).toList.filter fun row => (compare [114] row.1).isLE && (compare row.1 [115]).isLT

theorem mem_indexRows {row : RawEntry} :
    row ∈ indexRows db ↔ db.view .migration row.1 = some row.2 ∧ IsReceiptIndex row.1 := by
  rw [indexRows, List.mem_filter, Bool.and_eq_true]
  constructor
  · rintro ⟨hmem, hlow, hhigh⟩
    exact ⟨(OrdMap.mem_toList _).mp hmem, isReceiptIndex_of_bounds hlow hhigh⟩
  · rintro ⟨hmem, hindex⟩
    exact ⟨(OrdMap.mem_toList _).mpr hmem, bounds_of_isReceiptIndex hindex⟩

theorem scan_indexRows (hready : db.failure = none) : db.scan .migration none (ascii "r") linkLimits =
    scanLoop linkLimits [] 0 ((indexRows db).take linkLimits.maxEntries) := by
  rw [Database.scan, hready]
  rfl

/-- Rows of the reverse index are taken out one after another. -/
theorem erase_fold {rows : List RawEntry} (hrows : ∀ row ∈ rows, IsReceiptIndex row.1 ∧ row.1.length ≤ 64)
    {tx : Transaction} {n : Nat} (hlight : Light tx n) (hn : n + rows.length ≤ 4096) :
    ∃ tx' m, rows.foldlM (fun tx row => lift (tx.remove .migration row.1)) tx = .ok tx' ∧ Light tx' m ∧
      tx'.engine = tx.engine ∧
      ∀ k, tx'.view .migration k = if k ∈ rows.map Prod.fst then none else tx.view .migration k := by
  induction rows generalizing tx n with
  | nil => exact ⟨tx, n, rfl, hlight, rfl, fun k => rfl⟩
  | cons row rows ih =>
      obtain ⟨⟨hindex, hlen⟩, hrest⟩ := List.forall_mem_cons.mp hrows
      rw [List.length_cons] at hn
      obtain ⟨tx₁, hremove, hlight₁⟩ := @Light.stage tx n hlight (by omega) row.1 hlen hindex none nofun
      obtain ⟨hengine₁, -, hview₁⟩ := Transaction.stage_ok hremove
      obtain ⟨tx', m, hfold, hlight', hengine, hview⟩ := ih hrest hlight₁ (by omega)
      refine ⟨tx', m, ?_, hlight', hengine.trans hengine₁, fun k => ?_⟩
      · rw [List.foldlM_cons]
        change (lift (tx.stage .migration row.1 none) >>= _) = _
        rw [lift_eq hremove]
        exact hfold
      · rw [hview, hview₁, List.map_cons]
        by_cases hmem : k ∈ rows.map Prod.fst
        · rw [if_pos hmem, if_pos (List.mem_cons_of_mem _ hmem)]
        · rw [if_neg hmem]
          by_cases hk : k = row.1
          · rw [if_pos ⟨rfl, hk⟩, hk, if_pos List.mem_cons_self]
          · rw [if_neg fun h => hk h.2, if_neg]
            intro hcons
            rcases List.mem_cons.mp hcons with heq | hcons
            · exact hk heq
            · exact hmem hcons

/-- The end of `validate_links` reads a page of the reverse index and takes it out, unless there is none. -/
theorem clear_page {db : Database} (hready : db.failure = none) (hshort : ShortIndex db.view) :
    (Links.next hemera (.clear, db) = (.done (.ok ()), db) ∧ ∀ k, IsReceiptIndex k → db.view .migration k = none) ∨
    ∃ row page db', row ∈ indexRows db ∧ Links.Leads hemera (.clear, db) (.clear, db') ∧ db'.failure = none ∧
      Frame db.view db'.view ∧ ∀ k, db'.view .migration k =
        if k ∈ (row :: page).map Prod.fst then none else db.view .migration k := by
  have hfits : ∀ row ∈ indexRows db, row.1.length ≤ 64 ∧ row.2.length ≤ MAX_BYTES_VALUE := by
    intro row hrow
    obtain ⟨hview, hindex⟩ := mem_indexRows.mp hrow
    obtain ⟨hvalue, hkey⟩ := hshort row.1 row.2 hindex hview
    exact ⟨hkey, hvalue.trans (by decide)⟩
  obtain ⟨page, rest, hpage, hsplit, hempty, hcount⟩ := page_of_loop roomy_linkLimits hfits
  have hscan : lift (db.scan .migration none (ascii "r") linkLimits) = .ok page :=
    lift_eq ((scan_indexRows hready).trans hpage)
  cases page with
  | nil =>
      refine .inl ⟨?_, fun k hk => ?_⟩
      · rw [Links.next, Links.step, hscan]
      · by_contra hne
        obtain ⟨x, hx⟩ := Option.ne_none_iff_exists'.mp hne
        have hmem : (k, x) ∈ indexRows db := mem_indexRows.mpr ⟨hx, hk⟩
        rw [hempty rfl] at hmem
        cases hmem
  | cons row page =>
      have hmem : ∀ row' ∈ row :: page, row' ∈ indexRows db := fun row' hrow' =>
        hsplit ▸ List.mem_append_left rest hrow'
      have hrows : ∀ row' ∈ row :: page, IsReceiptIndex row'.1 ∧ row'.1.length ≤ 64 := fun row' hrow' =>
        ⟨(mem_indexRows.mp (hmem row' hrow')).2, (hfits row' (hmem row' hrow')).1⟩
      obtain ⟨tx, m, hfold, hlight, hengine, hview⟩ :=
        @erase_fold (row :: page) hrows (.begin db.tables) 0 (light_begin db.tables)
          (by rw [Nat.zero_add]; exact hcount)
      have hbody : Links.eraseBody (row :: page) (.begin db.tables) = .ok ((), tx) := by
        rw [Links.eraseBody, hfold]
        rfl
      obtain ⟨reply, db', htransaction, hreply, hready', hview', hframe⟩ :=
        @transaction_light db hemera hready _ tx m hbody hengine hlight
      have hclear : Links.next hemera (.clear, db) = (.erase (row :: page), db) := by
        rw [Links.next, Links.step, hscan]
      have herase : Links.next hemera (.erase (row :: page), db) = (.clear, db') := by
        rw [Links.next, Links.step, htransaction]
        dsimp only
        rw [hreply]
      refine .inr ⟨row, page, db', hmem row List.mem_cons_self, .head hclear (.head herase (.refl _)), hready', hframe,
        fun k => ?_⟩
      rw [hview', hview]
      rfl

/-- The end of `validate_links` takes the reverse index out, page after page. -/
theorem clear_leads {db : Database} (hready : db.failure = none) (hshort : ShortIndex db.view) :
    ∃ db', Links.Leads hemera (.clear, db) (.done (.ok ()), db') ∧ db'.failure = none ∧ Frame db.view db'.view ∧
      ∀ k, IsReceiptIndex k → db'.view .migration k = none := by
  -- the keys that may still be there are fewer after each page
  have hkeys : ∃ keys : List (List UInt8), ∀ k, IsReceiptIndex k → db.view .migration k ≠ none → k ∈ keys := by
    refine ⟨(indexRows db).map Prod.fst, fun k hk hne => ?_⟩
    obtain ⟨x, hx⟩ := Option.ne_none_iff_exists'.mp hne
    exact List.mem_map.mpr ⟨(k, x), mem_indexRows.mpr ⟨hx, hk⟩, rfl⟩
  obtain ⟨keys, hkeys⟩ := hkeys
  induction hn : keys.length using Nat.strong_induction_on generalizing db keys with
  | _ n ih =>
      rcases @clear_page hemera db hready hshort with ⟨hdone, hcleared⟩ | ⟨row, page, db', hrow, hrun, hready', hframe, hview⟩
      · exact ⟨db, .head hdone (.refl _), hready, .refl _, hcleared⟩
      · have hshort' : ShortIndex db'.view := by
          intro k x hk hx
          rw [hview] at hx
          split_ifs at hx
          exact hshort k x hk hx
        have hmem : row.1 ∈ keys := by
          obtain ⟨hfound, hindex⟩ := mem_indexRows.mp hrow
          exact hkeys row.1 hindex (by rw [hfound]; exact Option.some_ne_none _)
        have hshorter : (keys.filter fun k => k ∉ (row :: page).map Prod.fst).length < n := by
          rw [← hn]
          exact List.length_filter_lt_length_iff_exists.mpr ⟨row.1, hmem, by simp⟩
        have hkeys' : ∀ k, IsReceiptIndex k → db'.view .migration k ≠ none →
            k ∈ keys.filter fun k => k ∉ (row :: page).map Prod.fst := by
          intro k hk hne
          rw [hview] at hne
          split_ifs at hne with hpage
          · exact absurd rfl hne
          · exact List.mem_filter.mpr ⟨hkeys k hk hne, decide_eq_true hpage⟩
        obtain ⟨db'', hlead, hready'', hframe', hcleared⟩ := ih _ hshorter hready' hshort' _ hkeys' rfl
        exact ⟨db'', hrun.trans hlead, hready'', hframe.trans hframe', hcleared⟩

end LeanBbg.Storage
