import LeanBbg.Queries

/-! The primary cells of a state. The rows of a table are those of the state, in the order of the map, so the
walk of `primary_index` over the flat cells finds the cell that `open_entity` finds on the records. -/

set_option linter.unusedSectionVars false

namespace LeanBbg

open Bytes

/-! ### Slices and limbs -/

theorem slice_append (front mid rest : List UInt64) :
    slice (front ++ (mid ++ rest)) front.length (front.length + mid.length) = some mid := by
  have hbounds : front.length ≤ front.length + mid.length ∧
      front.length + mid.length ≤ (front ++ (mid ++ rest)).length := by
    rw [List.length_append, List.length_append]
    omega
  rw [slice, if_pos hbounds, List.drop_left, Nat.add_sub_cancel_left, List.take_left]

theorem getElem?_of_slice {fields cells : List UInt64} {start stop i : Nat}
    (h : slice fields start stop = some cells) (hi : i < cells.length) : fields[start + i]? = cells[i]? := by
  rw [slice] at h
  split_ifs at h with hbounds
  obtain rfl := Option.some.inj h
  have hlt : i < stop - start := by
    rw [List.length_take] at hi
    omega
  rw [List.getElem?_take_of_lt hlt, List.getElem?_drop]

theorem asU32_eq {v : UInt64} (h : v.toNat < 2 ^ 32) : asU32 v = some v :=
  if_pos (UInt64.le_iff_toNat_le.mpr (Nat.le_of_lt_succ h))

/-- The two limbs of a word are the word. -/
theorem limbs_join (x : UInt64) : (x &&& (0xffffffff : UInt64)) ||| (x >>> (32 : UInt64)) <<< (32 : UInt64) = x := by
  have hx := x.toNat_lt
  apply UInt64.toNat_inj.mp
  have hlow : x.toNat &&& (0xffffffff : UInt64).toNat = x.toNat % 2 ^ 32 := Nat.and_two_pow_sub_one_eq_mod x.toNat 32
  have hhigh : x.toNat >>> ((32 : UInt64).toNat % 64) = x.toNat / 2 ^ 32 := Nat.shiftRight_eq_div_pow x.toNat 32
  have hshift : (x.toNat / 2 ^ 32) <<< ((32 : UInt64).toNat % 64) % 2 ^ 64 = 2 ^ 32 * (x.toNat / 2 ^ 32) := by
    change (x.toNat / 2 ^ 32) <<< 32 % 2 ^ 64 = _
    rw [Nat.shiftLeft_eq]
    omega
  rw [UInt64.toNat_or, UInt64.toNat_and, UInt64.toNat_shiftLeft, UInt64.toNat_shiftRight, hlow, hhigh, hshift,
    Nat.or_comm, ← Nat.two_pow_add_eq_or_of_lt (Nat.mod_lt _ (by decide))]
  exact Nat.div_add_mod _ _

/-- The words of a key's limbs. -/
def keyWords (b : Bytes32) : List UInt64 :=
  (List.range 8).map fun i => UInt64.ofNat (leValue ((b.toList.drop (4 * i)).take 4))

theorem keyWords_length (b : Bytes32) : (keyWords b).length = KEY_FIELDS := by
  rw [keyWords, List.length_map, List.length_range]
  rfl

theorem mapM_eq_some_map {α β : Type} {f : α → Option β} {g : α → β} {l : List α} (h : ∀ x ∈ l, f x = some (g x)) :
    l.mapM f = some (l.map g) := by
  induction l with
  | nil => rfl
  | cons x l ih =>
      obtain ⟨hx, hl⟩ := List.forall_mem_cons.mp h
      rw [List.mapM_cons, hx, ih hl]
      rfl

/-- The limbs of a key give its bytes back. -/
theorem keyOfLimbs_keyWords (b : Bytes32) : keyOfLimbs (keyWords b) = some b.toList := by
  have hchunk : ∀ i ∈ List.range 8, (asU32 (UInt64.ofNat (leValue ((b.toList.drop (4 * i)).take 4)))).map
      (fun v => leBytes 4 v.toNat) = some ((b.toList.drop (4 * i)).take 4) := by
    intro i hi
    have hlen : ((b.toList.drop (4 * i)).take 4).length = 4 := by
      have := List.mem_range.mp hi
      rw [List.length_take, List.length_drop, Vector.length_toList]
      omega
    have hlt : leValue ((b.toList.drop (4 * i)).take 4) < 2 ^ 32 := by
      have := leValue_lt ((b.toList.drop (4 * i)).take 4)
      rwa [hlen] at this
    have htoNat : (UInt64.ofNat (leValue ((b.toList.drop (4 * i)).take 4))).toNat =
        leValue ((b.toList.drop (4 * i)).take 4) := by
      rw [UInt64.toNat_ofNat', Nat.mod_eq_of_lt (hlt.trans (by decide))]
    have hbytes := leBytes_leValue ((b.toList.drop (4 * i)).take 4)
    rw [hlen] at hbytes
    rw [asU32_eq (by rwa [htoNat]), Option.map_some, htoNat, hbytes]
  rw [keyOfLimbs, keyWords, List.mapM_map]
  refine (congrArg _ (mapM_eq_some_map hchunk)).trans ?_
  rw [Option.map_some, ← List.flatMap_def, flatMap_chunks, List.take_of_length_le (by simp)]

variable {F : Type} [Hemera F] [DecidableEq F]

theorem map_asU64_bytes32Limbs (hr : NebuReduced F) (b : Bytes32) :
    (bytes32Limbs b : List F).map Nebu.asU64 = keyWords b := by
  rw [bytes32Limbs, keyWords, List.map_map]
  refine List.map_congr_left fun i hi => hr.asU64_new _ ?_
  have hlen : ((b.toList.drop (4 * i)).take 4).length ≤ 4 := by simp
  have hlt := (leValue_lt ((b.toList.drop (4 * i)).take 4)).trans_le (Nat.pow_le_pow_right (by decide) hlen)
  rw [UInt64.toNat_ofNat']
  exact (Nat.mod_le _ _).trans_lt (hlt.trans (by decide))

/-- The cells of a word, read and joined. -/
theorem limbs_read (hr : NebuReduced F) {fields : List UInt64} {start : Nat} {x : UInt64}
    (h : ∀ i < 2, fields[start + i]? = ((u64Limbs x : List F)[i]?).map Nebu.asU64) :
    (fields[start]? >>= asU32) = some (x &&& 0xffffffff) ∧ (fields[start + 1]? >>= asU32) = some (x >>> 32) := by
  have hcell : ∀ y : UInt64, y.toNat < 2 ^ 32 → (some (Nebu.asU64 (new y : F)) >>= asU32) = some y := by
    intro y hy
    rw [hr.asU64_new y (hy.trans (by decide))]
    exact asU32_eq hy
  have hlow : fields[start]? = some (Nebu.asU64 (new (x &&& 0xffffffff) : F)) := h 0 (by decide)
  have hhigh : fields[start + 1]? = some (Nebu.asU64 (new (x >>> 32) : F)) := h 1 (by decide)
  rw [hlow, hhigh]
  exact ⟨hcell _ (lowLimb_lt x), hcell _ (highLimb_lt x)⟩

theorem IsLimb.asU64_lt (hr : NebuReduced F) {v : F} (h : IsLimb v) : (Nebu.asU64 v).toNat < 2 ^ 32 := by
  obtain ⟨x, hx, rfl⟩ := h
  rwa [hr.asU64_new x (hx.trans (by decide))]

/-! ### Rows -/

/-- The cells of a row. -/
def rowCells (e : Bytes32 × List F) : List UInt64 := keyWords e.1 ++ e.2.map Nebu.asU64

theorem map_asU64_dimSerialize (hr : NebuReduced F) (entries : List (Bytes32 × List F)) :
    (dimSerialize entries).map Nebu.asU64 = ((dimSerialize entries).map Nebu.asU64).take HEADER_FIELDS ++
      entries.flatMap rowCells := by
  have hrows : (entries.flatMap fun e => bytes32Limbs e.1 ++ e.2).map Nebu.asU64 = entries.flatMap rowCells := by
    rw [List.map_flatMap]
    refine List.flatMap_congr fun e _ => ?_
    rw [List.map_append, map_asU64_bytes32Limbs hr, rowCells]
  rw [← hrows, dimSerialize, List.map_append]
  rfl

theorem length_row (front : List UInt64) (e : Bytes32 × List F) :
    (front ++ (keyWords e.1 ++ e.2.map Nebu.asU64)).length = front.length + KEY_FIELDS + e.2.length := by
  rw [List.length_append, List.length_append, keyWords_length, List.length_map, Nat.add_assoc]

/-- The values of a row stand after its key. -/
theorem slice_row {fields front rest : List UInt64} {e : Bytes32 × List F}
    (h : fields = front ++ (keyWords e.1 ++ (e.2.map Nebu.asU64 ++ rest))) :
    slice fields (front.length + KEY_FIELDS) (front.length + KEY_FIELDS + e.2.length) = some (e.2.map Nebu.asU64) := by
  rw [h, ← keyWords_length e.1, ← List.length_append, ← List.length_map (Nebu.asU64 (F := F)), ← List.append_assoc]
  exact slice_append _ _ _

/-- What a row is ordered by. -/
def rowOrder (d : Dim) (key : Bytes32) : List UInt8 := (sortKey d key.toList).getD []

/-- A row that `primary_index` reads in one step. -/
structure Readable (d : Dim) (e : Bytes32 × List F) : Prop where
  limbs : ∀ v ∈ e.2, IsLimb v
  sort : sortKey d e.1.toList = some (rowOrder d e.1)
  width : ∀ fields start, slice fields start (start + e.2.length) = some (e.2.map Nebu.asU64) →
    rowWidth fields start d = some e.2.length

/-- The index of the primary cell of a key, walking over the records. -/
def locate (key : Bytes32) (column : Nat) : Nat → List (Bytes32 × List F) → Option Nat
  | _, [] => none
  | offset, (entryKey, values) :: rest =>
      if entryKey = key then some (offset + KEY_FIELDS + column)
      else locate key column (offset + (KEY_FIELDS + values.length)) rest

theorem locate_eq_none {key : Bytes32} {column offset : Nat} {entries : List (Bytes32 × List F)}
    (h : ∀ e ∈ entries, e.1 ≠ key) : locate key column offset entries = none := by
  induction entries generalizing offset with
  | nil => rfl
  | cons e rest ih =>
      obtain ⟨hne, hrest⟩ := List.forall_mem_cons.mp h
      rw [locate, if_neg hne, ih hrest]

/-- Rows of strictly ascending keys, parsed cell by cell, give what the walk over the records gives. -/
theorem scanRows_entries (hr : NebuReduced F) {d : Dim} {key : Bytes32} {fields front : List UInt64}
    {entries : List (Bytes32 × List F)} {found : Option Nat} {previous : Option (List UInt8)}
    (hfields : fields = front ++ entries.flatMap rowCells) (hlen : fields.length < 2 ^ 64)
    (hrows : ∀ e ∈ entries, Readable d e)
    (hsorted : entries.Pairwise fun e e' => compare (rowOrder d e.1) (rowOrder d e'.1) = .lt)
    (hprevious : ∀ p ∈ previous, ∀ e ∈ entries, compare p (rowOrder d e.1) = .lt) :
    scanRows fields d key entries.length front.length found previous =
      some (fields.length, (locate key d.primaryColumn front.length entries).or found) := by
  induction entries generalizing front found previous with
  | nil =>
      rw [hfields]
      simp [scanRows, locate]
  | cons e rest ih =>
      obtain ⟨hrow, hrest⟩ := List.forall_mem_cons.mp hrows
      obtain ⟨hfirst, hsorted⟩ := List.pairwise_cons.mp hsorted
      rw [List.flatMap_cons, rowCells, List.append_assoc] at hfields
      have hkey : slice fields front.length (front.length + KEY_FIELDS) = some (keyWords e.1) := by
        rw [hfields, ← keyWords_length e.1]
        exact slice_append _ _ _
      have hcells := slice_row hfields
      have hlimbs : ¬(e.2.map (Nebu.asU64 (F := F))).any (· > 0xffffffff) = true := by
        intro hany
        obtain ⟨x, hx, hgt⟩ := List.any_eq_true.mp hany
        obtain ⟨v, hv, rfl⟩ := List.mem_map.mp hx
        have hlt := (hrow.limbs v hv).asU64_lt hr
        have hgt := UInt64.lt_iff_toNat_lt.mp (of_decide_eq_true hgt)
        exact absurd hlt (Nat.not_lt.mpr hgt)
      have hbefore : ¬(previous.any fun p => compare p (rowOrder d e.1) ≠ .lt) = true := by
        intro hany
        obtain ⟨p, hp, hne⟩ := (Option.any_eq_true _ _).mp hany
        exact of_decide_eq_true hne (hprevious p hp e List.mem_cons_self)
      have hnext : fields = (front ++ (keyWords e.1 ++ e.2.map Nebu.asU64)) ++ rest.flatMap rowCells := by
        rw [hfields, List.append_assoc, List.append_assoc]
      have hoffset := length_row front e
      have hfit : ¬front.length + KEY_FIELDS + e.2.length ≥ 2 ^ 64 := by
        have := congrArg List.length hnext
        rw [List.length_append, hoffset] at this
        omega
      have hstep : ∀ found', scanRows fields d key rest.length _ found' (some (rowOrder d e.1)) = some (fields.length, _) :=
        fun found' => ih hnext hrest hsorted <| by
          intro p hp e' he'
          obtain rfl := Option.some.inj hp
          exact hfirst e' he'
      rw [hoffset] at hstep
      simp only [List.length_cons, scanRows, hkey, keyOfLimbs_keyWords, hrow.sort, Option.bind_eq_bind,
        Option.bind_some, if_neg hbefore, hrow.width _ _ hcells, if_neg hfit, hcells, if_neg hlimbs, hstep]
      rw [locate]
      by_cases hkey' : e.1 = key
      · have hnone : locate key d.primaryColumn (front.length + KEY_FIELDS + e.2.length) rest = none := by
          refine locate_eq_none fun e' he' heq => ?_
          have hlt := hfirst e' he'
          rw [hkey', heq, @Std.ReflCmp.compare_self _ compare] at hlt
          cases hlt
        rw [hnone, if_pos hkey', if_pos (congrArg Vector.toList hkey')]
        rfl
      · rw [if_neg hkey', if_neg fun h => hkey' (Vector.toList_inj.mp h), Nat.add_assoc]

/-- On the table of readable rows in order, `primary_index` walks to the record of the key. -/
theorem primaryIndex_table (hr : NebuReduced F) {d : Dim} {entries : List (Bytes32 × List F)} (key : Bytes32)
    (hmax : (dimSerialize entries).length ≤ MAX_QUERY_FIELDS) (hrows : ∀ e ∈ entries, Readable d e)
    (hsorted : entries.Pairwise fun e e' => compare (rowOrder d e.1) (rowOrder d e'.1) = .lt) :
    primaryIndex ((dimSerialize entries).map Nebu.asU64) d key =
      locate key d.primaryColumn HEADER_FIELDS entries := by
  have hheader : (((dimSerialize entries).map Nebu.asU64).take HEADER_FIELDS).length = HEADER_FIELDS := rfl
  have hcount : ((dimSerialize entries).map Nebu.asU64)[2]? = some (UInt64.ofNat entries.length) := by
    refine congrArg some (hr.asU64_new _ ?_)
    have hentries := entries_le_length entries
    rw [UInt64.toNat_ofNat']
    refine (Nat.mod_le _ _).trans_lt (Nat.lt_of_le_of_lt ?_ (by decide : 4096 < P))
    rw [MAX_QUERY_FIELDS] at hmax
    rw [KEY_FIELDS] at hentries
    omega
  have htoNat : (UInt64.ofNat entries.length).toNat = entries.length := by
    have hentries := entries_le_length entries
    rw [MAX_QUERY_FIELDS] at hmax
    rw [KEY_FIELDS] at hentries
    rw [UInt64.toNat_ofNat', Nat.mod_eq_of_lt (by omega)]
  have hlen : ((dimSerialize entries).map (Nebu.asU64 (F := F))).length < 2 ^ 64 := by
    rw [List.length_map]
    exact hmax.trans_lt (by decide)
  have hscan : scanRows ((dimSerialize entries).map Nebu.asU64) d key entries.length HEADER_FIELDS none none = _ :=
    scanRows_entries hr (map_asU64_dimSerialize hr entries) hlen hrows hsorted (by simp)
  rw [primaryIndex, hcount]
  simp only [Option.bind_eq_bind, Option.bind_some, htoNat, hscan]
  rw [if_neg (not_not.mpr rfl), Option.or_none, hheader]

/-- A located key has a record, whose cells stand from the start of the row's values on. -/
theorem locate_spec {fields front : List UInt64} {key : Bytes32} {column i : Nat}
    {entries : List (Bytes32 × List F)} (hfields : fields = front ++ entries.flatMap rowCells)
    (h : locate key column front.length entries = some i) :
    ∃ values start, (key, values) ∈ entries ∧ i = start + column ∧
      ∀ j < values.length, fields[start + j]? = (values[j]?).map Nebu.asU64 := by
  induction entries generalizing front with
  | nil => cases h
  | cons e rest ih =>
      rw [locate] at h
      rw [List.flatMap_cons, rowCells, List.append_assoc] at hfields
      split_ifs at h with hkey
      · obtain rfl := Option.some.inj h
        refine ⟨e.2, front.length + KEY_FIELDS, by simp [← hkey], rfl, fun j hj => ?_⟩
        rw [getElem?_of_slice (slice_row hfields) (by rwa [List.length_map]), List.getElem?_map]
      · rw [← Nat.add_assoc, ← length_row front e] at h
        obtain ⟨values, start, hmem, hi, hcells⟩ := ih (by rw [hfields, List.append_assoc, List.append_assoc]) h
        exact ⟨values, start, List.mem_cons_of_mem _ hmem, hi, hcells⟩

theorem exists_locate {key : Bytes32} {values : List F} {entries : List (Bytes32 × List F)}
    (h : (key, values) ∈ entries) (column offset : Nat) : ∃ i, locate key column offset entries = some i := by
  induction entries generalizing offset with
  | nil => cases h
  | cons e rest ih =>
      rw [locate]
      split_ifs with hkey
      · exact ⟨_, rfl⟩
      · rcases List.mem_cons.mp h with rfl | h
        · exact absurd rfl hkey
        · exact ih h _

/-! ### The tables of a state -/

theorem rowOrder_of_ne {d : Dim} (h : d ≠ .time) (key : Bytes32) :
    sortKey d key.toList = some (rowOrder d key) ∧ rowOrder d key = key.toList := by
  have hsort : sortKey d key.toList = some key.toList := if_neg h
  rw [rowOrder, hsort]
  exact ⟨rfl, rfl⟩

theorem toList_keyBytes (height : UInt64) : (keyBytes height).toList = u64LeBytes height ++ List.replicate 24 0 :=
  Vector.toList_mk

theorem rowOrder_time (height : UInt64) :
    sortKey .time (keyBytes height).toList = some (rowOrder .time (keyBytes height)) ∧
      rowOrder .time (keyBytes height) = u64BeBytes height ++ List.replicate 24 0 := by
  have hlen : (u64LeBytes height).length = 8 := u64LeBytes_length height
  have hsort : sortKey .time (keyBytes height).toList = some (u64BeBytes height ++ List.replicate 24 0) := by
    rw [sortKey, if_pos rfl, toList_keyBytes, ← hlen, List.drop_left, List.take_left,
      Storage.u64FromLe_u64LeBytes]
    exact if_neg (by decide)
  rw [rowOrder, hsort]
  exact ⟨rfl, rfl⟩

section Keyed

variable {K V : Type} [Ord K] [TrieKey K] [LawfulTrieKey K] [LeafValue F V]

theorem mem_keyedEntries {map : OrdMap K V} {e : Bytes32 × List F} :
    e ∈ keyedEntries map ↔ ∃ (k : K) (v : V), map[k]? = some v ∧ e = (keyBytes k, leafVals v) := by
  constructor
  · intro he
    obtain ⟨⟨k, v⟩, hentry, rfl⟩ := List.mem_map.mp he
    exact ⟨k, v, (OrdMap.mem_toList map).mp hentry, rfl⟩
  · rintro ⟨k, v, hentry, rfl⟩
    exact List.mem_map_of_mem (f := fun e : K × V => (keyBytes e.1, (leafVals e.2 : List F)))
      ((OrdMap.mem_toList map).mpr hentry)

theorem readable_keyedEntries {d : Dim} {width : Nat} (map : OrdMap K V)
    (hlimbs : ∀ e ∈ (keyedEntries map : List (Bytes32 × List F)), ∀ v ∈ e.2, IsLimb v)
    (hsort : ∀ k : K, sortKey d (keyBytes k).toList = some (rowOrder d (keyBytes k)))
    (hlength : ∀ v : V, (leafVals v : List F).length = width)
    (hwidth : ∀ fields start, rowWidth fields start d = some width) :
    ∀ e ∈ (keyedEntries map : List (Bytes32 × List F)), Readable d e := by
  intro e he
  obtain ⟨k, v, -, rfl⟩ := mem_keyedEntries.mp he
  refine ⟨hlimbs _ he, hsort k, fun fields start _ => ?_⟩
  rw [hwidth, hlength]

end Keyed

/-- The cells of a particle's axons: its degree and the axons in order. -/
def axonCells (l : AxonList) : List F := u64Limbs (UInt64.ofNat l.axons.length) ++ l.axons.flatMap bytes32Limbs

theorem mem_adjacencyEntries {A : Adjacency} {e : Bytes32 × List F} :
    e ∈ adjacencyEntries A ↔
      ∃ (particle : Particle) (l : AxonList), A[particle]? = some l ∧ e = (particle, axonCells l) := by
  constructor
  · intro he
    obtain ⟨⟨particle, l⟩, hentry, rfl⟩ := List.mem_map.mp he
    exact ⟨particle, l, (OrdMap.mem_toList A).mp hentry, rfl⟩
  · rintro ⟨particle, l, hentry, rfl⟩
    exact List.mem_map_of_mem (f := fun e : Particle × AxonList => (e.1, (axonCells e.2 : List F)))
      ((OrdMap.mem_toList A).mpr hentry)

theorem readable_adjacencyEntries (hr : NebuReduced F) {d : Dim} (hd : d = .axonsOut ∨ d = .axonsIn) (A : Adjacency)
    (hmax : ∀ e ∈ (adjacencyEntries A : List (Bytes32 × List F)), e.2.length ≤ MAX_QUERY_FIELDS) :
    ∀ e ∈ (adjacencyEntries A : List (Bytes32 × List F)), Readable d e := by
  intro e he
  refine ⟨isLimb_adjacencyEntries A e he, ?_, fun fields start hslice => ?_⟩
  · refine (rowOrder_of_ne ?_ e.1).1
    rcases hd with rfl | rfl <;> decide
  · have hle := hmax e he
    obtain ⟨particle, l, -, rfl⟩ := mem_adjacencyEntries.mp he
    have hlength : (axonCells l : List F).length = l.axons.length * 8 + 2 := by
      rw [axonCells, List.length_append, List.length_flatMap]
      simp [u64Limbs, Nat.add_comm]
    have hdegree : (UInt64.ofNat l.axons.length).toNat = l.axons.length := by
      rw [hlength, MAX_QUERY_FIELDS] at hle
      rw [UInt64.toNat_ofNat', Nat.mod_eq_of_lt (by omega)]
    have hcells : ∀ i < 2, fields[start + i]? =
        ((u64Limbs (UInt64.ofNat l.axons.length) : List F)[i]?).map Nebu.asU64 := by
      intro i hi
      rw [getElem?_of_slice hslice (by rw [List.length_map, hlength]; omega), List.getElem?_map,
        axonCells, List.getElem?_append_left hi]
    obtain ⟨hlow, hhigh⟩ := limbs_read hr hcells
    have hwidth : rowWidth fields start .axonsOut = some (l.axons.length * 8 + 2) := by
      simp only [rowWidth, hlow, hhigh, Option.bind_eq_bind, Option.bind_some, limbs_join, hdegree]
      rw [hlength, MAX_QUERY_FIELDS] at hle
      exact if_neg (by omega)
    rw [hlength]
    rcases hd with rfl | rfl <;> exact hwidth

namespace State

variable (s : State F)

theorem readable_dimEntries (hr : NebuReduced F) {d : Dim}
    (hmax : (dimSerialize (s.dimEntries d)).length ≤ MAX_QUERY_FIELDS) : ∀ e ∈ s.dimEntries d, Readable d e := by
  have hrow : ∀ e ∈ s.dimEntries d, e.2.length ≤ MAX_QUERY_FIELDS := by
    intro e he
    rw [dimSerialize_length] at hmax
    have := List.le_sum_of_mem (List.mem_map_of_mem (f := fun e : Bytes32 × List F => KEY_FIELDS + e.2.length) he)
    omega
  have hlimbs := s.isLimb_dimEntries d
  have hsort : d ≠ .time → ∀ k : Bytes32, sortKey d (keyBytes k).toList = some (rowOrder d (keyBytes k)) :=
    fun hd k => (rowOrder_of_ne hd k).1
  cases d with
  | particles => exact readable_keyedEntries s.particles hlimbs (hsort (by decide)) (fun _ => rfl) fun _ _ => rfl
  | axonsOut => exact readable_adjacencyEntries hr (.inl rfl) s.axonsOut hrow
  | axonsIn => exact readable_adjacencyEntries hr (.inr rfl) s.axonsIn hrow
  | neurons => exact readable_keyedEntries s.neurons hlimbs (hsort (by decide)) (fun _ => rfl) fun _ _ => rfl
  | locations => exact readable_keyedEntries s.locations hlimbs (hsort (by decide)) (fun _ => rfl) fun _ _ => rfl
  | coins => exact readable_keyedEntries s.coins hlimbs (hsort (by decide)) (fun _ => rfl) fun _ _ => rfl
  | cards => exact readable_keyedEntries s.cards hlimbs (hsort (by decide)) (fun _ => rfl) fun _ _ => rfl
  | files => exact readable_keyedEntries s.files hlimbs (hsort (by decide)) (fun _ => rfl) fun _ _ => rfl
  | time => exact readable_keyedEntries s.time hlimbs (fun h => (rowOrder_time h).1) (fun _ => rfl) fun _ _ => rfl
  | signals => exact readable_keyedEntries s.signals hlimbs (hsort (by decide)) (fun _ => rfl) fun _ _ => rfl
  | balances => exact readable_keyedEntries s.balances hlimbs (hsort (by decide)) (fun _ => rfl) fun _ _ => rfl

/-- The rows of a dimension ascend in the order that `primary_index` asks for. -/
theorem sorted_dimEntries (d : Dim) :
    (s.dimEntries d).Pairwise fun e e' => compare (rowOrder d e.1) (rowOrder d e'.1) = .lt := by
  have hvector : ∀ {V : Type} (map : OrdMap Bytes32 V) (cells : V → List F), d ≠ .time →
      (map.toList.map fun e => (e.1, cells e.2)).Pairwise fun e e' =>
        compare (rowOrder d e.1) (rowOrder d e'.1) = .lt := by
    intro V map cells hd
    rw [List.pairwise_map]
    refine Std.ExtTreeMap.ordered_keys_toList.imp fun {e e'} hlt => ?_
    rw [(rowOrder_of_ne hd e.1).2, (rowOrder_of_ne hd e'.1).2, compare_toList]
    exact hlt
  have htime : (s.dimEntries .time).Pairwise fun e e' =>
      compare (rowOrder .time e.1) (rowOrder .time e'.1) = .lt := by
    rw [dimEntries, keyedEntries, List.pairwise_map]
    refine Std.ExtTreeMap.ordered_keys_toList.imp fun {e e'} hlt => ?_
    rw [(rowOrder_time e.1).2, (rowOrder_time e'.1).2]
    exact compare_append_of_lt (by simp [u64BeBytes]) (compare_u64BeBytes hlt) _ _
  cases d with
  | particles => exact hvector s.particles leafVals (by decide)
  | axonsOut => exact hvector s.axonsOut axonCells (by decide)
  | axonsIn => exact hvector s.axonsIn axonCells (by decide)
  | neurons => exact hvector s.neurons leafVals (by decide)
  | locations => exact hvector s.locations leafVals (by decide)
  | coins => exact hvector s.coins leafVals (by decide)
  | cards => exact hvector s.cards leafVals (by decide)
  | files => exact hvector s.files leafVals (by decide)
  | time => exact htime
  | signals => exact hvector s.signals leafVals (by decide)
  | balances => exact hvector s.balances leafVals (by decide)

/-- The low limb of a word. -/
def lowLimb (v : UInt64) : UInt64 := v &&& 0xffffffff

/-- The first limb of a 32-byte string. -/
def firstLimb (b : Bytes32) : UInt64 := UInt64.ofNat (leValue (b.toList.take 4))

/-- The primary cell of an entity: the first limb of its record, for signals the low limb of the link count. -/
def primaryCell (key : Bytes32) : Dim → Option UInt64
  | .particles => s.particles[key]?.map fun p => lowLimb p.energy
  | .axonsOut => s.axonsOut[key]?.map fun l => lowLimb (UInt64.ofNat l.axons.length)
  | .axonsIn => s.axonsIn[key]?.map fun l => lowLimb (UInt64.ofNat l.axons.length)
  | .neurons => s.neurons[key]?.map fun n => lowLimb n.focus
  | .locations => s.locations[key]?.map fun l => lowLimb (i32Word l.lat)
  | .coins => s.coins[key]?.map fun c => lowLimb c.totalSupply
  | .cards => s.cards[key]?.map fun c => firstLimb c.owner
  | .files => s.files[key]?.map fun f => lowLimb (boolWord f.available)
  | .time =>
      if (key.toList.drop 8).any (· ≠ 0) then none
      else s.time[u64FromLe (key.toList.take 8)]?.map fun root => firstLimb root
  | .signals => s.signals[key]?.map fun r => lowLimb r.linkCount.toUInt64
  | .balances => s.balances[key]?.map fun b => lowLimb b

end State

theorem lowLimb_canonical (x : UInt64) : (State.lowLimb x).toNat < P := (lowLimb_lt x).trans (by decide)

theorem firstLimb_canonical (b : Bytes32) : (State.firstLimb b).toNat < P := by
  have hlt := (leValue_lt (b.toList.take 4)).trans_le (Nat.pow_le_pow_right (by decide) (by simp : _ ≤ 4))
  rw [State.firstLimb, UInt64.toNat_ofNat']
  exact (Nat.mod_le _ _).trans_lt (hlt.trans (by decide))

/-- The heights' keys are the strings with zeros after the first eight bytes. -/
theorem keyBytes_eq_iff {height : UInt64} {key : Bytes32} :
    keyBytes height = key ↔ ¬(key.toList.drop 8).any (· ≠ 0) = true ∧ u64FromLe (key.toList.take 8) = height := by
  have hlen : ∀ h : UInt64, (u64LeBytes h).length = 8 := u64LeBytes_length
  constructor
  · rintro rfl
    rw [toList_keyBytes, ← hlen height, List.drop_left, List.take_left, Storage.u64FromLe_u64LeBytes]
    exact ⟨by decide, rfl⟩
  · rintro ⟨hzero, rfl⟩
    have htail : key.toList.drop 8 = List.replicate 24 0 := by
      refine List.eq_replicate_iff.mpr ⟨by simp, fun b hb => ?_⟩
      by_contra hne
      exact hzero (List.any_eq_true.mpr ⟨b, hb, decide_eq_true hne⟩)
    apply Vector.toList_inj.mp
    rw [toList_keyBytes, Storage.u64LeBytes_u64FromLe (by simp), ← htail, List.take_append_drop]

/-- The primary cells of a dimension's records, read off its rows. -/
theorem primary_of_rows (hr : NebuReduced F) {K V : Type} [Ord K] [Std.TransOrd K] [Std.LawfulEqOrd K] {map : OrdMap K V}
    {bytes : K → Bytes32} {cells : V → List F} {primary : V → UInt64} {entries : List (Bytes32 × List F)} {column : Nat}
    (hmem : ∀ e, e ∈ entries ↔ ∃ (k : K) (x : V), map[k]? = some x ∧ e = (bytes k, cells x))
    (hcell : ∀ x, (cells x)[column]? = some (new (primary x))) (hcanonical : ∀ x, (primary x).toNat < P)
    (key : Bytes32) (v : UInt64) :
    (∃ k : K, bytes k = key ∧ map[k]?.map primary = some v) ↔
      ∃ values cell, (key, values) ∈ entries ∧ values[column]? = some cell ∧ Nebu.asU64 cell = v := by
  constructor
  · rintro ⟨k, rfl, hk⟩
    obtain ⟨x, hx, rfl⟩ := Option.map_eq_some_iff.mp hk
    exact ⟨cells x, _, (hmem _).mpr ⟨k, x, hx, rfl⟩, hcell x, hr.asU64_new _ (hcanonical x)⟩
  · rintro ⟨values, cell, he, hget, rfl⟩
    obtain ⟨k, x, hx, heq⟩ := (hmem _).mp he
    obtain ⟨hkey, rfl⟩ := Prod.mk.inj heq
    refine ⟨k, hkey.symm, ?_⟩
    rw [hcell] at hget
    obtain rfl := Option.some.inj hget
    rw [hx, Option.map_some, hr.asU64_new _ (hcanonical x)]

/-- An entity has a primary cell when its row does, and it is the same cell. -/
theorem State.primaryCell_iff (hr : NebuReduced F) {s : State F} {d : Dim} {key : Bytes32} {v : UInt64} :
    s.primaryCell key d = some v ↔
      ∃ values cell, (key, values) ∈ s.dimEntries d ∧ values[d.primaryColumn]? = some cell ∧ Nebu.asU64 cell = v := by
  have hvector : ∀ {V : Type} {map : OrdMap Bytes32 V} {cells : V → List F} {primary : V → UInt64}
      {entries : List (Bytes32 × List F)} {column : Nat},
      (∀ e, e ∈ entries ↔ ∃ (k : Bytes32) (x : V), map[k]? = some x ∧ e = (k, cells x)) →
      (∀ x, (cells x)[column]? = some (LeanBbg.new (primary x))) → (∀ x, (primary x).toNat < P) →
      (map[key]?.map primary = some v ↔
        ∃ values cell, (key, values) ∈ entries ∧ values[column]? = some cell ∧ Nebu.asU64 cell = v) := by
    intro V map cells primary entries column hmem hcell hcanonical
    rw [← primary_of_rows hr hmem hcell hcanonical]
    exact ⟨fun h => ⟨key, rfl, h⟩, fun ⟨k, hk, h⟩ => hk ▸ h⟩
  cases d with
  | particles => exact hvector (fun _ => mem_keyedEntries) (fun _ => rfl) fun _ => lowLimb_canonical _
  | axonsOut => exact hvector (fun _ => mem_adjacencyEntries) (fun _ => rfl) fun _ => lowLimb_canonical _
  | axonsIn => exact hvector (fun _ => mem_adjacencyEntries) (fun _ => rfl) fun _ => lowLimb_canonical _
  | neurons => exact hvector (fun _ => mem_keyedEntries) (fun _ => rfl) fun _ => lowLimb_canonical _
  | locations => exact hvector (fun _ => mem_keyedEntries) (fun _ => rfl) fun _ => lowLimb_canonical _
  | coins => exact hvector (fun _ => mem_keyedEntries) (fun _ => rfl) fun _ => lowLimb_canonical _
  | cards => exact hvector (fun _ => mem_keyedEntries) (fun _ => rfl) fun _ => firstLimb_canonical _
  | files => exact hvector (fun _ => mem_keyedEntries) (fun _ => rfl) fun _ => lowLimb_canonical _
  | time =>
      have htime : (∃ height : UInt64, keyBytes height = key ∧ s.time[height]?.map firstLimb = some v) ↔
          ∃ values cell, (key, values) ∈ s.dimEntries .time ∧ values[0]? = some cell ∧ Nebu.asU64 cell = v :=
        primary_of_rows hr (fun _ => mem_keyedEntries) (fun _ => rfl) firstLimb_canonical key v
      rw [State.primaryCell]
      refine Iff.trans ?_ htime
      split_ifs with htail
      · refine ⟨(nomatch ·), ?_⟩
        rintro ⟨height, hkey, -⟩
        exact absurd htail (keyBytes_eq_iff.mp hkey).1
      · constructor
        · intro h
          exact ⟨_, keyBytes_eq_iff.mpr ⟨htail, rfl⟩, h⟩
        · rintro ⟨height, hkey, h⟩
          rwa [(keyBytes_eq_iff.mp hkey).2]
  | signals => exact hvector (fun _ => mem_keyedEntries) (fun _ => rfl) fun _ => lowLimb_canonical _
  | balances => exact hvector (fun _ => mem_keyedEntries) (fun _ => rfl) fun _ => lowLimb_canonical _

end LeanBbg
