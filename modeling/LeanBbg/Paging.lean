import LeanBbg.Scans
import LeanBbg.Sources
import LeanBbg.Pages
import LeanBbg.RecordStream
import LeanBbg.Tiered
import LeanBbg.ChangeIds
import LeanBbg.Validation
import LeanBbg.LibPaging

/-! Every reader that pages through a store sees all of it. The database cuts its pages by entries and bytes, the
shard stores cut them once more by elements, and the history of a namespace is read by index. -/

namespace LeanBbg.Storage

open Std Bytes Attempt Paging

/-! ### Pages of the database -/

/-- A row that a page can hold. -/
structure RowFits (limits : ByteLimits) (row : RawEntry) : Prop where
  key : row.1.length ≤ 64
  value : row.2.length ≤ MAX_BYTES_VALUE
  bytes : row.1.length + row.2.length ≤ limits.maxBytes

theorem exists_scanLoop_of_fits {limits : ByteLimits} {page rows : List RawEntry} {used : Nat}
    (hfits : ∀ row ∈ rows, RowFits limits row) : ∃ out, scanLoop limits page used rows = .ok out := by
  induction rows generalizing page used with
  | nil => exact ⟨page, rfl⟩
  | cons row rows ih =>
      obtain ⟨hrow, hrest⟩ := List.forall_mem_cons.mp hfits
      have hvalue : ¬row.2.length > 16 * 1024 * 1024 + 1 := Nat.not_lt.mpr hrow.value
      rw [scanLoop, pushRow, if_neg (Nat.not_lt.mpr hrow.key), if_neg hvalue]
      dsimp only
      rw [if_neg (Nat.not_lt.mpr hrow.bytes)]
      split_ifs with hwait
      · exact ⟨page, rfl⟩
      · exact ih hrest

/-- A page is a run of rows from the front, and is empty only when none is left. -/
theorem page_of_fits {limits : ByteLimits} (hentries : 0 < limits.maxEntries) {rows : List RawEntry}
    (hfits : ∀ row ∈ rows, RowFits limits row) :
    ∃ page rest, scanLoop limits [] 0 (rows.take limits.maxEntries) = .ok page ∧ rows = page ++ rest ∧
      (page = [] → rows = []) ∧ page.length ≤ limits.maxEntries := by
  have hexists : ∃ page, scanLoop limits [] 0 (rows.take limits.maxEntries) = .ok page :=
    exists_scanLoop_of_fits fun row hrow => hfits row (List.mem_of_mem_take hrow)
  obtain ⟨page, hpage⟩ := hexists
  obtain ⟨taken, rest, hsplit, rfl, -, hrest⟩ := scanLoop_ok hpage
  refine ⟨_, rest ++ rows.drop limits.maxEntries, hpage, ?_, fun hnil => ?_, ?_⟩
  · rw [← List.append_assoc, ← hsplit, List.take_append_drop]
  · subst hnil
    cases rest with
    | nil =>
        have hzero := congrArg List.length hsplit
        rw [List.length_take, List.append_nil, List.length_nil] at hzero
        exact List.eq_nil_of_length_eq_zero (by omega)
    | cons row rest =>
        -- the first row fits an empty page
        have hover := hrest row rest rfl
        simp only [List.map_nil, List.sum_nil] at hover
        omega
  · have hlen := congrArg List.length hsplit
    rw [List.length_take, List.length_append] at hlen
    omega

/-- The rows of a table whose keys begin as asked. -/
def matching (db : Database) (table : Table) (pre : List UInt8) : List RawEntry :=
  (db.tables table).toList.filter fun row => pre.isPrefixOf row.1

theorem mem_matching {db : Database} {table : Table} {pre : List UInt8} {row : RawEntry} :
    row ∈ matching db table pre ↔ db.view table row.1 = some row.2 ∧ pre <+: row.1 := by
  rw [matching, List.mem_filter, List.isPrefixOf_iff_prefix]
  exact and_congr_left' (OrdMap.mem_toList _)

theorem ascending_matching (db : Database) (table : Table) (pre : List UInt8) :
    Ascending Prod.fst (matching db table pre) :=
  List.Pairwise.filter _ (increasing_toList _)

/-- A scan pages through the rows that are selected by its cursor. -/
theorem engineScan_eq (db : Database) (table : Table) (after : Option (List UInt8)) (pre : List UInt8)
    (limits : ByteLimits) : engineScan db.tables table after pre limits =
      scanLoop limits [] 0 ((left Prod.fst (matching db table pre) after).take limits.maxEntries) := by
  have hselected : ∀ row : RawEntry, ((after.all fun k => (compare k row.1).isLT) && pre.isPrefixOf row.1) = true ↔
      Selected after pre row.1 := by
    intro row
    rw [Bool.and_eq_true, Option.all_eq_true, List.isPrefixOf_iff_prefix, Selected]
    constructor
    · rintro ⟨hafter, hpre⟩
      exact ⟨hpre, fun a ha => Ordering.isLT_iff_eq_lt.mp (hafter a ha)⟩
    · rintro ⟨hpre, hafter⟩
      exact ⟨fun a ha => Ordering.isLT_iff_eq_lt.mpr (hafter a ha), hpre⟩
  have hleft : left Prod.fst (matching db table pre) after = (db.tables table).toList.filter fun row =>
      (after.all fun k => (compare k row.1).isLT) && pre.isPrefixOf row.1 := by
    rw [left, matching, List.filter_filter]
  have hbounds := scanBounds_exact after pre
  rw [engineScan, hleft]
  cases hscan : scanBounds after pre with
  | none =>
      rw [hscan] at hbounds
      have hnil : ((db.tables table).toList.filter fun row =>
          (after.all fun k => (compare k row.1).isLT) && pre.isPrefixOf row.1) = [] := by
        rw [List.filter_eq_nil_iff]
        exact fun row _ hrow => hbounds row.1 ((hselected row).mp hrow)
      rw [hnil, List.take_nil]
      rfl
  | some bounds =>
      obtain ⟨start, stop⟩ := bounds
      rw [hscan] at hbounds
      have hcongr : ((db.tables table).toList.filter fun row => start.below row.1 && stop.above row.1) =
          (db.tables table).toList.filter fun row =>
            (after.all fun k => (compare k row.1).isLT) && pre.isPrefixOf row.1 := by
        refine List.filter_congr fun row _ => ?_
        rw [Bool.eq_iff_iff, hselected]
        exact hbounds.1 row.1
      dsimp only
      rw [hcongr]

theorem scan_eq_left {db : Database} (hready : db.failure = none) {table : Table} {after : Option (List UInt8)}
    {pre : List UInt8} {limits : ByteLimits} (hlimits : limits.validate = .ok ()) (hpre : pre.length ≤ 64)
    (hafter : ∀ k ∈ after, k.length ≤ 64) : db.scan table after pre limits =
      scanLoop limits [] 0 ((left Prod.fst (matching db table pre) after).take limits.maxEntries) := by
  have hkey : ¬((after.any fun v => v.length > 64) = true ∨ pre.length > 64) := by
    rintro (hany | hlong)
    · obtain ⟨k, hk, hgt⟩ := (Option.any_eq_true _ _).mp hany
      exact absurd (hafter k hk) (Nat.not_le.mpr (of_decide_eq_true hgt))
    · exact absurd hpre (Nat.not_le.mpr hlong)
  have hpending : ¬((Transaction.begin db.tables).changes.keys.any fun address => address.1 = table) = true := nofun
  rw [Database.scan, hready]
  dsimp only
  rw [Transaction.scan, hlimits]
  change (if _ then _ else _) = _
  rw [if_neg hkey, if_neg hpending]
  exact engineScan_eq db table after pre limits

theorem entries_of_validate {limits : ByteLimits} (h : limits.validate = .ok ()) : 0 < limits.maxEntries := by
  rw [ByteLimits.validate] at h
  split_ifs at h with hbad
  omega

/-- The pages of a scan enumerate the rows whose keys begin as asked. -/
theorem scan_enumerates {db : Database} (hready : db.failure = none) (table : Table) {pre : List UInt8}
    (hpre : pre.length ≤ 64) {limits : ByteLimits} (hlimits : limits.validate = .ok ())
    (hfits : ∀ row ∈ matching db table pre, RowFits limits row) :
    Enumerates Prod.fst (fun after => db.scan table after pre limits) (matching db table pre) := by
  refine enumerates_of_pages (ascending_matching db table pre) fun after hafter => ?_
  have hcursor : ∀ k ∈ after, k.length ≤ 64 := by
    intro k hk
    obtain ⟨row, hrow, rfl⟩ := hafter k hk
    exact (hfits row hrow).key
  have hleft : ∀ row ∈ left Prod.fst (matching db table pre) after, RowFits limits row :=
    fun row hrow => hfits row (mem_of_mem_left hrow)
  obtain ⟨page, rest, hpage, hsplit, hempty, -⟩ := page_of_fits (entries_of_validate hlimits) hleft
  exact ⟨page, rest, (scan_eq_left hready hlimits hpre hcursor).trans hpage, hsplit, hempty⟩

/-! ### Pages of shards -/

section Shards

variable {F : Type}

theorem collectLoop_of_fits {limits : ScanLimits} {rows : List (ShardEntry F)}
    (hfits : ∀ row ∈ rows, row.2.length ≤ limits.maxElements) (page : List (ShardEntry F)) (used : Nat) :
    ∃ taken rest, collectLoop limits page used (rows.map .ok) = .ok (page ++ taken) ∧ rows = taken ++ rest ∧
      ∀ row more, rows = row :: more → taken = [] → limits.maxElements - used < row.2.length := by
  induction rows generalizing page used with
  | nil => exact ⟨[], [], by rw [List.append_nil]; rfl, rfl, nofun⟩
  | cons row rows ih =>
      obtain ⟨hrow, hrest⟩ := List.forall_mem_cons.mp hfits
      rw [List.map_cons, collectLoop, if_neg (Nat.not_lt.mpr hrow)]
      split_ifs with hover
      · refine ⟨[], row :: rows, by rw [List.append_nil], rfl, fun row' more heq _ => ?_⟩
        rw [← (List.cons.inj heq).1]
        exact hover
      · obtain ⟨taken, rest, hloop, hsplit, -⟩ := ih hrest (page ++ [row]) (used + row.2.length)
        refine ⟨row :: taken, rest, ?_, by rw [hsplit, List.cons_append], fun row' more _ hnil => nomatch hnil⟩
        rw [hloop, List.append_assoc, List.singleton_append]

/-- A page of entries that fit is a run from the front, and is empty only when there are none. -/
theorem collectPage_of_fits {limits : ScanLimits} (hlimits : limits.validate = .ok ()) {rows : List (ShardEntry F)}
    (hfits : ∀ row ∈ rows, row.2.length ≤ limits.maxElements) :
    ∃ page rest, collectPage (rows.map .ok) limits = .ok page ∧ rows = page ++ rest ∧ (page = [] → rows = []) := by
  have hentries : 0 < limits.maxEntries := by
    rw [ScanLimits.validate] at hlimits
    split_ifs at hlimits with hbad
    omega
  obtain ⟨taken, rest, hloop, hsplit, hfirst⟩ := collectLoop_of_fits (fun row hrow => hfits row (List.mem_of_mem_take hrow))
    ([] : List (ShardEntry F)) 0
  refine ⟨taken, rest ++ rows.drop limits.maxEntries, ?_, ?_, fun hnil => ?_⟩
  · rw [collectPage, hlimits, ← List.map_take]
    exact hloop
  · rw [← List.append_assoc, ← hsplit, List.take_append_drop]
  · cases rows with
    | nil => rfl
    | cons row rows =>
        obtain ⟨n, hn⟩ := Nat.exists_eq_succ_of_ne_zero (Nat.pos_iff_ne_zero.mp hentries)
        have htake : (row :: rows).take limits.maxEntries = row :: rows.take n := by
          rw [hn, List.take_succ_cons]
        have hover := hfirst row _ htake hnil
        have hrow := hfits row List.mem_cons_self
        omega

/-- The entries of a cache in one dimension. -/
def cacheRows (cache : OrdMap EntryKey (List F)) (dimension : UInt8) : List (ShardEntry F) :=
  (cache.toList.filter fun e => e.1.dimension = dimension).map fun e => (e.1.key, e.2)

theorem mem_cacheRows {cache : OrdMap EntryKey (List F)} {dimension : UInt8} {row : ShardEntry F} :
    row ∈ cacheRows cache dimension ↔ cache[(⟨dimension, row.1⟩ : EntryKey)]? = some row.2 := by
  rw [cacheRows, List.mem_map]
  constructor
  · rintro ⟨⟨⟨dimension', key⟩, value⟩, hmem, rfl⟩
    obtain ⟨hfound, hdimension⟩ := List.mem_filter.mp hmem
    obtain rfl := of_decide_eq_true hdimension
    exact (OrdMap.mem_toList _).mp hfound
  · intro hrow
    exact ⟨(⟨dimension, row.1⟩, row.2), List.mem_filter.mpr ⟨(OrdMap.mem_toList _).mpr hrow, decide_eq_true rfl⟩, rfl⟩

theorem ascending_cacheRows (cache : OrdMap EntryKey (List F)) (dimension : UInt8) :
    Ascending Prod.fst (cacheRows cache dimension) := by
  have hordered : cache.toList.Pairwise fun a b => compare a.1 b.1 = .lt := ExtTreeMap.ordered_keys_toList
  refine List.pairwise_map.mpr ?_
  refine (List.Pairwise.filter _ hordered).imp_of_mem fun {a b} ha hb hlt => ?_
  have ha := of_decide_eq_true (List.mem_filter.mp ha).2
  have hb := of_decide_eq_true (List.mem_filter.mp hb).2
  have hlex : (compare a.1.dimension b.1.dimension).then (compare a.1.key b.1.key) = .lt := hlt
  rw [ha, hb, @ReflCmp.compare_self _ compare] at hlex
  exact hlex

theorem copyValue_of_le {value : List F} {n : Nat} (hvalue : value.length ≤ n) (hn : checkReadLimit n = .ok ()) :
    copyValue value n = .ok value := by
  rw [copyValue, hn]
  exact if_neg (Nat.not_lt.mpr hvalue)

theorem readLimit_of_validate {limits : ScanLimits} (h : limits.validate = .ok ()) :
    checkReadLimit limits.maxElements = .ok () := by
  rw [ScanLimits.validate] at h
  split_ifs at h
  exact h

/-- The pages of a cache enumerate its entries of one dimension. -/
theorem scanCache_enumerates (cache : OrdMap EntryKey (List F)) {dimension : UInt8} (hd : dimension ≤ EPHEMERAL)
    {limits : ScanLimits} (hlimits : limits.validate = .ok ())
    (hfits : ∀ row ∈ cacheRows cache dimension, row.2.length ≤ limits.maxElements) :
    Enumerates Prod.fst (fun after => scanCache cache dimension after limits) (cacheRows cache dimension) := by
  refine enumerates_of_pages (ascending_cacheRows cache dimension) fun after _ => ?_
  have hleft : ∀ row ∈ left Prod.fst (cacheRows cache dimension) after, row.2.length ≤ limits.maxElements :=
    fun row hrow => hfits row (mem_of_mem_left hrow)
  obtain ⟨page, rest, hpage, hsplit, hempty⟩ := collectPage_of_fits hlimits hleft
  refine ⟨page, rest, ?_, hsplit, hempty⟩
  have hentries : (cache.toList.filter fun e => decide (e.1.dimension = dimension) && after.all fun key =>
      (compare key e.1.key).isLT).map (fun e => (copyValue e.2 limits.maxElements).map fun value => (e.1.key, value)) =
      (left Prod.fst (cacheRows cache dimension) after).map .ok := by
    rw [left, cacheRows, List.filter_map, List.map_map, List.filter_filter]
    have hfilter : (cache.toList.filter fun e => decide (e.1.dimension = dimension) && after.all fun key =>
        (compare key e.1.key).isLT) = cache.toList.filter fun e =>
          ((fun row : ShardEntry F => after.all fun k => (compare k row.1).isLT) ∘ fun e => (e.1.key, e.2)) e &&
            decide (e.1.dimension = dimension) :=
      List.filter_congr fun e _ => Bool.and_comm _ _
    rw [hfilter]
    refine List.map_congr_left fun e he => ?_
    obtain ⟨hmem, hselected⟩ := List.mem_filter.mp he
    have hdimension := of_decide_eq_true (Bool.and_eq_true_iff.mp hselected).2
    have hrow : (e.1.key, e.2) ∈ cacheRows cache dimension := by
      refine mem_cacheRows.mpr ?_
      rw [← hdimension]
      exact (OrdMap.mem_toList _).mp hmem
    rw [copyValue_of_le (hfits _ hrow) (readLimit_of_validate hlimits)]
    rfl
  rw [scanCache, checkDimension_eq_ok.mpr hd, hlimits]
  change collectPage _ limits = _
  rw [hentries, hpage]

/-- `MemStore::scan`. -/
def MemStore.scan (m : MemStore F) (dimension : UInt8) (after : Option Bytes32) (limits : ScanLimits) :
    Except StorageError (List (ShardEntry F)) := scanCache m.state.cache dimension after limits

variable [Nebu F]

/-- A committed entry as a row. -/
def shardRow (entry : ShardEntry F) : RawEntry := (entry.1.toList, serialize entry.2)

/-- The rows of a dimension hold a map of field vectors, and nothing else. -/
def HoldsShard (db : Database) (dimension : UInt8) (M : Bytes32 → Option (List F)) : Prop :=
  ∀ row : RawEntry, db.view (.shard dimension) row.1 = some row.2 ↔ ∃ key value, M key = some value ∧ row = shardRow (key, value)

omit [Nebu F] in
/-- Rows that are images are the image of a list. -/
theorem exists_map_eq {α β : Type} {f : α → β} {rows : List β} (h : ∀ row ∈ rows, ∃ a, f a = row) :
    ∃ l : List α, l.map f = rows := by
  have hrange : rows ∈ Set.range (List.map f) := by
    rw [Set.range_list_map]
    exact h
  exact hrange

theorem shardRow_injective [NebuCanonical F] : Function.Injective (shardRow : ShardEntry F → RawEntry) := by
  rintro ⟨key, value⟩ ⟨key', value'⟩ heq
  obtain ⟨hkey, hvalue⟩ := Prod.mk.inj heq
  exact Prod.ext (Vector.toList_inj.mp hkey) (serialize_injective hvalue)

/-- The committed entries of a dimension in key order. -/
theorem exists_shardRows [NebuCanonical F] {db : Database} {dimension : UInt8} {M : Bytes32 → Option (List F)}
    (h : HoldsShard db dimension M) : ∃ entries : List (ShardEntry F),
      entries.map shardRow = matching db (.shard dimension) [] ∧ Ascending Prod.fst entries ∧
      ∀ key value, (key, value) ∈ entries ↔ M key = some value := by
  have hrows : ∀ row ∈ matching db (.shard dimension) [], ∃ entry : ShardEntry F, shardRow entry = row := by
    intro row hrow
    obtain ⟨key, value, -, heq⟩ := (h row).mp (mem_matching.mp hrow).1
    exact ⟨(key, value), heq.symm⟩
  obtain ⟨entries, hentries⟩ := exists_map_eq hrows
  refine ⟨entries, hentries, ?_, fun key value => ?_⟩
  · have hascending := ascending_matching db (.shard dimension) []
    rw [← hentries] at hascending
    refine (List.pairwise_map.mp hascending).imp fun {a b} hlt => ?_
    exact (compare_toList a.1 b.1).symm.trans hlt
  · have hmem : (key, value) ∈ entries ↔ shardRow (key, value) ∈ matching db (.shard dimension) [] := by
      rw [← hentries, List.mem_map_of_injective shardRow_injective]
    rw [hmem, mem_matching, h]
    constructor
    · rintro ⟨⟨key', value', hvalue, heq⟩, -⟩
      obtain ⟨rfl, rfl⟩ := Prod.mk.inj (shardRow_injective heq)
      exact hvalue
    · intro hvalue
      exact ⟨⟨key, value, hvalue, rfl⟩, List.nil_prefix⟩

theorem left_shardRows (entries : List (ShardEntry F)) (after : Option Bytes32) :
    left Prod.fst (entries.map shardRow) (after.map Vector.toList) = (left Prod.fst entries after).map shardRow := by
  rw [left, left, List.filter_map]
  congr 1
  refine List.filter_congr fun entry _ => ?_
  cases after with
  | none => rfl
  | some key =>
      change (compare key.toList entry.1.toList).isLT = (compare key entry.1).isLT
      rw [compare_toList]

/-- The budget of a shard scan in bytes. -/
def byteBudget (limits : ScanLimits) : ByteLimits :=
  ⟨limits.maxEntries, limits.maxElements * 8 + limits.maxEntries * 32⟩

theorem byteBudget_valid {limits : ScanLimits} (h : limits.validate = .ok ()) :
    (byteBudget limits).validate = .ok () ∧ limits.maxElements ≤ MAX_VALUE_ELEMENTS := by
  have hread := readLimit_of_validate h
  rw [checkReadLimit] at hread
  rw [ScanLimits.validate] at h
  split_ifs at h hread with hbad hmax
  have hmax : limits.maxElements ≤ 131072 := Nat.not_lt.mp hmax
  have hentries : limits.maxEntries ≤ 4096 := Nat.not_lt.mp fun hgt => hbad (.inr hgt)
  refine ⟨if_neg ?_, hmax⟩
  rw [byteBudget, MAX_TRANSACTION_BYTES]
  dsimp only
  omega

/-- The decoding of a row in a shard scan. -/
def decodeShardRow (limits : ScanLimits) (row : List UInt8 × List UInt8) : Except StorageError (ShardEntry F) :=
  if h : row.1.length = 32 then
    (deserialize row.2 limits.maxElements).map fun value =>
      (⟨row.1.toArray, size_toArray_of_length h⟩, value)
  else .error (.corrupt "shard key length")

theorem decodeShardRow_shardRow [NebuCanonical F] {limits : ScanLimits} (hmax : limits.maxElements ≤ MAX_VALUE_ELEMENTS)
    {entry : ShardEntry F} (hentry : entry.2.length ≤ limits.maxElements) :
    decodeShardRow limits (shardRow entry) = .ok entry := by
  have hlen : (shardRow entry).1.length = 32 := Vector.length_toList
  rw [decodeShardRow, dif_pos hlen]
  change (deserialize (serialize entry.2) limits.maxElements).map _ = _
  rw [deserialize_serialize hentry hmax]
  rfl

/-- The pages of a shard view with nothing pending enumerate the committed entries of a dimension. The database cuts
a page by bytes and the view cuts it again by elements, and the first row passes both. -/
theorem diskScan_enumerates [NebuCanonical F] {s : DiskStore F} (hunknown : s.pending.unknown = none)
    (hclean : s.pending.hasPending = false) (hready : s.db.failure = none) {dimension : UInt8}
    (hd : dimension < EPHEMERAL) {limits : ScanLimits} (hlimits : limits.validate = .ok ())
    {entries : List (ShardEntry F)} (hentries : entries.map shardRow = matching s.db (.shard dimension) [])
    (hascending : Ascending Prod.fst entries) (hfits : ∀ entry ∈ entries, entry.2.length ≤ limits.maxElements) :
    Enumerates Prod.fst (fun after => s.scan dimension after limits) entries := by
  obtain ⟨hbudget, hmax⟩ := byteBudget_valid hlimits
  refine enumerates_of_pages hascending fun after _ => ?_
  have hleft : left Prod.fst (matching s.db (.shard dimension) []) (after.map Vector.toList) =
      (left Prod.fst entries after).map shardRow := by
    rw [← hentries, left_shardRows]
  have hrows : ∀ row ∈ left Prod.fst (matching s.db (.shard dimension) []) (after.map Vector.toList),
      RowFits (byteBudget limits) row := by
    intro row hrow
    rw [hleft] at hrow
    obtain ⟨entry, hentry, rfl⟩ := List.mem_map.mp hrow
    have hlen := hfits entry (mem_of_mem_left hentry)
    have hpositive : 0 < limits.maxEntries := entries_of_validate hbudget
    rw [MAX_VALUE_ELEMENTS] at hmax
    have hkey : (shardRow entry).1.length = 32 := Vector.length_toList
    have hvalue : (shardRow entry).2.length = 8 * entry.2.length := serialize_length entry.2
    refine ⟨?_, ?_, ?_⟩
    · omega
    · rw [hvalue, MAX_BYTES_VALUE]
      omega
    · rw [hkey, hvalue, byteBudget]
      dsimp only
      omega
  obtain ⟨page, rest, hpage, hsplit, hempty, -⟩ := page_of_fits (entries_of_validate hbudget) hrows
  rw [hleft] at hsplit hempty
  obtain ⟨taken, more, hentries', rfl, rfl⟩ := List.map_eq_append_iff.mp hsplit
  have htaken : ∀ entry ∈ taken, entry.2.length ≤ limits.maxElements := by
    intro entry hentry
    have hmem : entry ∈ left Prod.fst entries after := by
      rw [hentries']
      exact List.mem_append_left _ hentry
    exact hfits entry (mem_of_mem_left hmem)
  obtain ⟨final, dropped, hfinal, hcut, hnone⟩ := collectPage_of_fits hlimits htaken
  refine ⟨final, dropped ++ more, ?_, ?_, fun hnil => ?_⟩
  · have hcursor : ∀ k ∈ after.map Vector.toList, k.length ≤ 64 := by
      intro k hk
      obtain ⟨key, -, rfl⟩ := Option.map_eq_some_iff.mp hk
      simp
    have hscan : s.db.scan (.shard dimension) (after.map Vector.toList) [] (byteBudget limits) = .ok (taken.map shardRow) :=
      (scan_eq_left hready hbudget (by decide) hcursor).trans hpage
    have hdecode : (taken.map shardRow).map (decodeShardRow limits) = taken.map .ok := by
      rw [List.map_map]
      exact List.map_congr_left fun entry hentry => decodeShardRow_shardRow hmax (htaken entry hentry)
    rw [DiskStore.scan, DiskStore.ready_eq hunknown hready, checkDimension_eq_ok.mpr (UInt8.le_of_lt hd), hlimits]
    have hpending : s.pending.clean = .ok () := by
      rw [WriteBuffer.clean, WriteBuffer.ready_of_none hunknown, hclean]
      rfl
    change (s.pending.clean >>= _) = _
    rw [hpending]
    change (if dimension = EPHEMERAL then _ else _) = _
    rw [if_neg (UInt8.ne_of_lt hd)]
    change (s.db.scan (.shard dimension) (after.map Vector.toList) [] (byteBudget limits) >>= _) = _
    rw [hscan]
    change collectPage ((taken.map shardRow).map (decodeShardRow limits)) limits = _
    rw [hdecode, hfinal]
  · rw [hentries', hcut, List.append_assoc]
  · rw [hnone hnil] at hempty
    have hnil' := hempty rfl
    exact List.map_eq_nil_iff.mp hnil'

end Shards

/-! ### Pages of a history -/

/-- A row of the history as a head. -/
def decodeHistoryRow (space : Particle) (row : RawEntry) : Except Error Head := do
  refuse (row.1.length ≠ 40 ∨ row.1.take 32 ≠ space.toList) .corrupt
  let commit ← particle row.2
  .ok ⟨u64FromBe (row.1.drop 32), commit⟩

/-- `ApplicationStore::history`. -/
def storeHistory (db : Database) (space : Particle) (after : Option UInt64) (limit : Nat) : Except Error (List Head) :=
  if limit = 0 ∨ limit > 4096 then .error .limit
  else if after = some 18446744073709551615 then .ok []
  else do
    let rows ← lift (db.scan .history (after.map (historyKey space)) space.toList ⟨limit, limit * 72⟩)
    rows.mapM (decodeHistoryRow space)

/-- The row of a head. -/
def headRow (space : Particle) (head : Head) : RawEntry := (historyKey space head.index, head.commit.toList)

/-- The rows of the history that begin with a namespace are those of some heads. -/
def HoldsHistory (db : Database) (space : Particle) (recorded : UInt64 → Option Particle) : Prop :=
  ∀ row : RawEntry, space.toList <+: row.1 → (db.view .history row.1 = some row.2 ↔
    ∃ head : Head, recorded head.index = some head.commit ∧ row = headRow space head)

theorem compare_historyKey (space : Particle) (i j : UInt64) :
    compare (historyKey space i) (historyKey space j) = compare i j := by
  rw [historyKey, historyKey, compare_append_left]
  cases hcompare : compare i j with
  | lt => exact compare_u64BeBytes hcompare
  | eq => rw [LawfulEqCmp.eq_of_compare hcompare, @ReflCmp.compare_self _ compare]
  | gt =>
      have hlt := compare_u64BeBytes (OrientedCmp.gt_iff_lt.mp hcompare)
      exact OrientedCmp.gt_iff_lt.mpr hlt

theorem headRow_injective (space : Particle) : Function.Injective (headRow space) := by
  rintro ⟨i, commit⟩ ⟨j, commit'⟩ heq
  obtain ⟨hkey, hvalue⟩ := Prod.mk.inj heq
  obtain ⟨-, rfl⟩ := historyKey_injective hkey
  obtain rfl := Vector.toList_inj.mp hvalue
  rfl

theorem begins_headRow (space : Particle) (head : Head) : space.toList <+: (headRow space head).1 :=
  List.prefix_append _ _

theorem exists_heads {db : Database} {space : Particle} {recorded : UInt64 → Option Particle}
    (h : HoldsHistory db space recorded) : ∃ heads : List Head,
      heads.map (headRow space) = matching db .history space.toList ∧ Ascending Head.index heads ∧
      ∀ head, head ∈ heads ↔ recorded head.index = some head.commit := by
  have hrows : ∀ row ∈ matching db .history space.toList, ∃ head, headRow space head = row := by
    intro row hrow
    obtain ⟨hview, hbegins⟩ := mem_matching.mp hrow
    obtain ⟨head, -, heq⟩ := (h row hbegins).mp hview
    exact ⟨head, heq.symm⟩
  obtain ⟨heads, hheads⟩ := exists_map_eq hrows
  refine ⟨heads, hheads, ?_, fun head => ?_⟩
  · have hascending := ascending_matching db .history space.toList
    rw [← hheads] at hascending
    refine (List.pairwise_map.mp hascending).imp fun {a b} hlt => ?_
    exact (compare_historyKey space a.index b.index).symm.trans hlt
  · have hmem : head ∈ heads ↔ headRow space head ∈ matching db .history space.toList := by
      rw [← hheads, List.mem_map_of_injective (headRow_injective space)]
    rw [hmem, mem_matching, h _ (begins_headRow space head)]
    constructor
    · rintro ⟨⟨head', hrecorded, heq⟩, -⟩
      rw [headRow_injective space heq]
      exact hrecorded
    · intro hrecorded
      exact ⟨⟨head, hrecorded, rfl⟩, begins_headRow space head⟩

theorem left_headRows (space : Particle) (heads : List Head) (after : Option UInt64) :
    left Prod.fst (heads.map (headRow space)) (after.map (historyKey space)) =
      (left Head.index heads after).map (headRow space) := by
  rw [left, left, List.filter_map]
  congr 1
  refine List.filter_congr fun head _ => ?_
  cases after with
  | none => rfl
  | some index =>
      change (compare (historyKey space index) (historyKey space head.index)).isLT = (compare index head.index).isLT
      rw [compare_historyKey]

theorem decodeHistoryRow_headRow (space : Particle) (head : Head) :
    decodeHistoryRow space (headRow space head) = .ok head := by
  have hkey : ¬((headRow space head).1.length ≠ 40 ∨ (headRow space head).1.take 32 ≠ space.toList) := by
    rw [headRow, historyKey, List.take_left' (by simp)]
    simp
  have hindex : u64FromBe ((headRow space head).1.drop 32) = head.index := by
    rw [headRow, historyKey, List.drop_left' (by simp), u64FromBe, u64BeBytes, List.reverse_reverse,
      u64FromLe_u64LeBytes]
  rw [decodeHistoryRow, refuse_of_not hkey, hindex]
  change (particle head.commit.toList >>= _) = _
  rw [particle_toList]
  rfl

theorem mapM_decodeHistoryRow (space : Particle) (heads : List Head) :
    (heads.map (headRow space)).mapM (decodeHistoryRow space) = .ok heads := by
  induction heads with
  | nil => rfl
  | cons head heads ih =>
      rw [List.map_cons, List.mapM_cons, decodeHistoryRow_headRow]
      change ((heads.map (headRow space)).mapM (decodeHistoryRow space) >>= _) = _
      rw [ih]
      rfl

/-- The pages of a history enumerate the heads of the namespace by their indices. -/
theorem storeHistory_enumerates {db : Database} (hready : db.failure = none) {space : Particle} {limit : Nat}
    (hpositive : 0 < limit) (hlimit : limit ≤ 4096) {heads : List Head}
    (hheads : heads.map (headRow space) = matching db .history space.toList) (hascending : Ascending Head.index heads) :
    Enumerates Head.index (fun after => storeHistory db space after limit) heads := by
  have hbudget : (⟨limit, limit * 72⟩ : ByteLimits).validate = .ok () := by
    refine if_neg ?_
    rw [MAX_TRANSACTION_BYTES]
    dsimp only
    omega
  refine enumerates_of_pages hascending fun after _ => ?_
  have hrefused : ¬(limit = 0 ∨ limit > 4096) := by omega
  by_cases hlast : after = some 18446744073709551615
  · -- no index is past the last one
    have hnil : left Head.index heads after = [] := by
      rw [hlast, left, List.filter_eq_nil_iff]
      intro head _ hlt
      have hlt := Std.compare_eq_lt.mp (Ordering.isLT_iff_eq_lt.mp hlt)
      have hmax := UInt64.lt_iff_toNat_lt.mp hlt
      have hbound := head.index.toNat_lt
      change 18446744073709551615 < head.index.toNat at hmax
      omega
    refine ⟨[], [], ?_, hnil, fun _ => hnil⟩
    rw [storeHistory, if_neg hrefused, if_pos hlast]
  · have hleft : left Prod.fst (matching db .history space.toList) (after.map (historyKey space)) =
        (left Head.index heads after).map (headRow space) := by
      rw [← hheads, left_headRows]
    have hrows : ∀ row ∈ left Prod.fst (matching db .history space.toList) (after.map (historyKey space)),
        RowFits ⟨limit, limit * 72⟩ row := by
      intro row hrow
      rw [hleft] at hrow
      obtain ⟨head, -, rfl⟩ := List.mem_map.mp hrow
      have hkey : (headRow space head).1.length = 40 := by simp [headRow, historyKey]
      have hvalue : (headRow space head).2.length = 32 := Vector.length_toList
      refine ⟨?_, ?_, ?_⟩
      · omega
      · rw [hvalue, MAX_BYTES_VALUE]
        omega
      · rw [hkey, hvalue]
        dsimp only
        omega
    have hcursor : ∀ k ∈ after.map (historyKey space), k.length ≤ 64 := by
      intro k hk
      obtain ⟨index, -, rfl⟩ := Option.map_eq_some_iff.mp hk
      simp [historyKey]
    obtain ⟨page, rest, hpage, hsplit, hempty, -⟩ := page_of_fits (entries_of_validate hbudget) hrows
    have hscan := (scan_eq_left hready hbudget (by simp) hcursor).trans hpage
    rw [hleft] at hsplit hempty
    obtain ⟨taken, more, hheads', rfl, rfl⟩ := List.map_eq_append_iff.mp hsplit
    refine ⟨taken, more, ?_, hheads', fun hnil => ?_⟩
    · rw [storeHistory, if_neg hrefused, if_neg hlast, hscan]
      exact mapM_decodeHistoryRow space taken
    · rw [hnil] at hempty
      have hnil' := hempty rfl
      exact List.map_eq_nil_iff.mp hnil'

/-! ### Every reader -/

/-- Paging sees everything once, for every reader, content and budget in which each single row fits. -/
structure PagesExactly (F : Type) [Nebu F] : Prop where
  database : ∀ (db : Database) (table : Table) (pre : List UInt8) (limits : ByteLimits), db.failure = none →
    pre.length ≤ 64 → limits.validate = .ok () →
    (∀ key value, db.view table key = some value → pre <+: key → RowFits limits (key, value)) →
    ∃ rows, (∀ key value, (key, value) ∈ rows ↔ db.view table key = some value ∧ pre <+: key) ∧
      Enumerates Prod.fst (fun after => db.scan table after pre limits) rows
  longPrefix : ∀ (db : Database) (table : Table) (after : Option (List UInt8)) (pre : List UInt8) (limits : ByteLimits),
    db.failure = none → limits.validate = .ok () → 64 < pre.length →
    (∀ key value, db.view table key = some value → key.length ≤ 64) →
    db.scan table after pre limits = .error (.limit "scan key") ∧ ∀ key, db.view table key ≠ none → ¬pre <+: key
  memory : ∀ (m : MemStore F) (dimension : UInt8) (limits : ScanLimits), dimension ≤ EPHEMERAL →
    limits.validate = .ok () →
    (∀ key value, m.get dimension key = some value → value.length ≤ limits.maxElements) →
    ∃ rows, (∀ key value, (key, value) ∈ rows ↔ m.get dimension key = some value) ∧
      Enumerates Prod.fst (fun after => m.scan dimension after limits) rows
  disk : ∀ (s : DiskStore F) (dimension : UInt8) (committed : Bytes32 → Option (List F)) (limits : ScanLimits),
    s.pending.unknown = none → s.pending.hasPending = false → s.db.failure = none → dimension < EPHEMERAL →
    HoldsShard s.db dimension committed → limits.validate = .ok () →
    (∀ key value, committed key = some value → value.length ≤ limits.maxElements) →
    ∃ rows, (∀ key value, (key, value) ∈ rows ↔ committed key = some value) ∧
      Enumerates Prod.fst (fun after => s.scan dimension after limits) rows
  history : ∀ (db : Database) (space : Particle) (recorded : UInt64 → Option Particle) (limit : Nat), db.failure = none →
    HoldsHistory db space recorded → 1 ≤ limit → limit ≤ 4096 →
    ∃ heads, (∀ head, head ∈ heads ↔ recorded head.index = some head.commit) ∧
      Enumerates Head.index (fun after => storeHistory db space after limit) heads

theorem pages_exactly {F : Type} [Nebu F] [NebuCanonical F] : PagesExactly F where
  database db table pre limits hready hpre hlimits hfits := by
    refine ⟨matching db table pre, fun key value => mem_matching, ?_⟩
    exact scan_enumerates hready table hpre hlimits fun row hrow =>
      hfits row.1 row.2 (mem_matching.mp hrow).1 (mem_matching.mp hrow).2
  longPrefix db table after pre limits hready hlimits hlong hkeys := by
    refine ⟨?_, fun key hkey hbegins => ?_⟩
    · rw [Database.scan, hready]
      dsimp only
      rw [Transaction.scan, hlimits]
      exact if_pos (.inr hlong)
    · obtain ⟨value, hvalue⟩ := Option.ne_none_iff_exists'.mp hkey
      have hle := hbegins.length_le.trans (hkeys key value hvalue)
      omega
  memory m dimension limits hd hlimits hfits := by
    refine ⟨cacheRows m.state.cache dimension, fun key value => mem_cacheRows, ?_⟩
    exact scanCache_enumerates _ hd hlimits fun row hrow => hfits row.1 row.2 (mem_cacheRows.mp hrow)
  disk s dimension committed limits hunknown hclean hready hd hholds hlimits hfits := by
    obtain ⟨entries, hentries, hascending, hmem⟩ := exists_shardRows hholds
    refine ⟨entries, hmem, diskScan_enumerates hunknown hclean hready hd hlimits hentries hascending ?_⟩
    rintro ⟨key, value⟩ hentry
    exact hfits key value ((hmem key value).mp hentry)
  history db space recorded limit hready hholds hpositive hlimit := by
    obtain ⟨heads, hheads, hascending, hmem⟩ := exists_heads hholds
    exact ⟨heads, hmem, storeHistory_enumerates hready hpositive hlimit hheads hascending⟩

/-- Two values of two elements each. -/
def twoValues : List (ShardEntry Goldilocks) :=
  [(repeated 1, [Nebu.new 3, Nebu.new 4]), (repeated 2, [Nebu.new 5, Nebu.new 6])]

/-- A shard with the two values, and a history of two heads behind one of another namespace. -/
def twoTables : Tables
  | .shard 0 => OrdMap.ofEntries (twoValues.map shardRow)
  | .history => OrdMap.ofEntries [headRow (repeated 1) ⟨0, repeated 4⟩, headRow (repeated 2) ⟨0, repeated 4⟩,
      headRow (repeated 2) ⟨1, repeated 5⟩]
  | _ => ∅

def valueOf (key : Bytes32) : Option (List Goldilocks) :=
  if key = repeated 1 then some [Nebu.new 3, Nebu.new 4]
  else if key = repeated 2 then some [Nebu.new 5, Nebu.new 6] else none

def headOf (index : UInt64) : Option Particle :=
  if index = 0 then some (repeated 4) else if index = 1 then some (repeated 5) else none

theorem holdsShard_twoTables : HoldsShard ⟨twoTables, none⟩ 0 valueOf := by
  intro row
  change (OrdMap.ofEntries (twoValues.map shardRow))[row.1]? = some row.2 ↔ _
  rw [OrdMap.getElem?_ofEntries_of_nodup (by decide +kernel)]
  simp only [twoValues, List.map_cons, List.map_nil, List.mem_cons, List.not_mem_nil, or_false]
  constructor
  · rintro (hrow | hrow)
    · exact ⟨_, _, rfl, hrow⟩
    · exact ⟨_, _, rfl, hrow⟩
  · rintro ⟨key, value, hvalue, hrow⟩
    rw [valueOf] at hvalue
    split_ifs at hvalue with hone htwo
    · rw [← Option.some.inj hvalue, hone] at hrow
      exact .inl hrow
    · rw [← Option.some.inj hvalue, htwo] at hrow
      exact .inr hrow

theorem holdsHistory_twoTables : HoldsHistory ⟨twoTables, none⟩ (repeated 2) headOf := by
  intro row hspace
  change (OrdMap.ofEntries _)[row.1]? = some row.2 ↔ _
  rw [OrdMap.getElem?_ofEntries_of_nodup (by decide +kernel)]
  simp only [List.mem_cons, List.not_mem_nil, or_false]
  constructor
  · rintro (hrow | hrow | hrow)
    · rw [(Prod.mk.inj hrow).1] at hspace
      exact absurd hspace (by decide +kernel)
    · exact ⟨_, rfl, hrow⟩
    · exact ⟨_, rfl, hrow⟩
  · rintro ⟨⟨index, commit⟩, hhead, hrow⟩
    dsimp only at hhead
    rw [headOf] at hhead
    split_ifs at hhead with hzero hone
    · rw [← Option.some.inj hhead, hzero] at hrow
      exact .inr (.inl hrow)
    · rw [← Option.some.inj hhead, hone] at hrow
      exact .inr (.inr hrow)

/-- All five readers, with two rows each, in pages of one row. -/
theorem pages_exactly_twoValues :
    let db : Database := ⟨twoTables, none⟩
    let m : MemStore Goldilocks := ⟨{ WriteBuffer.empty with
      cache := OrdMap.ofEntries (twoValues.map fun e => (⟨0, e.1⟩, e.2)) }⟩
    let s : DiskStore Goldilocks := ⟨db, .empty⟩
    (∃ rows, (∀ key value, (key, value) ∈ rows ↔ db.view .history key = some value ∧ (repeated 2).toList <+: key) ∧
      Enumerates Prod.fst (fun after => db.scan .history after (repeated 2).toList ⟨1, 72⟩) rows) ∧
    db.scan .history none (List.replicate 65 2) ⟨1, 72⟩ = .error (.limit "scan key") ∧
    (∃ rows, (∀ key value, (key, value) ∈ rows ↔ m.get 0 key = some value) ∧
      Enumerates Prod.fst (fun after => m.scan 0 after ⟨4096, 2⟩) rows) ∧
    (∃ rows, (∀ key value, (key, value) ∈ rows ↔ valueOf key = some value) ∧
      Enumerates Prod.fst (fun after => s.scan 0 after ⟨4096, 2⟩) rows) ∧
    ∃ heads, (∀ head, head ∈ heads ↔ headOf head.index = some head.commit) ∧
      Enumerates Head.index (fun after => storeHistory db (repeated 2) after 1) heads := by
  intro db m s
  have hall := pages_exactly (F := Goldilocks)
  refine ⟨?_, ?_, ?_, ?_, ?_⟩
  · refine hall.database db .history (repeated 2).toList ⟨1, 72⟩ rfl (by decide) rfl fun key value hview hspace => ?_
    obtain ⟨head, -, hrow⟩ := (holdsHistory_twoTables (key, value) hspace).mp hview
    rw [hrow]
    refine ⟨?_, ?_, ?_⟩ <;> simp [headRow, historyKey, MAX_BYTES_VALUE]
  · refine (hall.longPrefix db .history none _ ⟨1, 72⟩ rfl rfl (by decide) fun key value hview => ?_).1
    change (OrdMap.ofEntries _)[key]? = some value at hview
    have hshort : ∀ head ∈ [headRow (repeated 1) ⟨0, repeated 4⟩, headRow (repeated 2) ⟨0, repeated 4⟩,
        headRow (repeated 2) ⟨1, repeated 5⟩], head.1.length ≤ 64 := by decide +kernel
    rw [OrdMap.getElem?_ofEntries_of_nodup (by decide +kernel)] at hview
    exact hshort _ hview
  · refine hall.memory m 0 ⟨4096, 2⟩ (by decide) rfl fun key value hvalue => ?_
    change (OrdMap.ofEntries _)[(⟨0, key⟩ : EntryKey)]? = some value at hvalue
    rw [OrdMap.getElem?_ofEntries_of_nodup (by decide +kernel)] at hvalue
    obtain ⟨entry, hentry, heq⟩ := List.mem_map.mp hvalue
    have hshort : ∀ entry ∈ twoValues, entry.2.length ≤ 2 := by decide +kernel
    rw [← (Prod.mk.inj heq).2]
    exact hshort entry hentry
  · refine hall.disk s 0 valueOf ⟨4096, 2⟩ rfl rfl rfl (by decide) holdsShard_twoTables rfl fun key value hvalue => ?_
    rw [valueOf] at hvalue
    split_ifs at hvalue
    · rw [← Option.some.inj hvalue]
      exact Nat.le_refl 2
    · rw [← Option.some.inj hvalue]
      exact Nat.le_refl 2
  · exact hall.history db (repeated 2) headOf 1 rfl holdsHistory_twoTables (by decide) (by decide)

end LeanBbg.Storage
