import LeanBbg.DiskRefinement
import LeanBbg.BufferRuns
import LeanBbg.LibFrames

/-! Identities of change sets. The bytes that are hashed put a length before every part of varying length and order
the changes by their address, so they say what the set is and nothing of how it came about. -/

namespace LeanBbg.Storage

open Std Bytes

/-! ### Batches of the database -/

/-- The bytes that `change_id` hashes. -/
def changeMessage (changes : Changes) : List UInt8 :=
  let ordered := changes.entries.insertionSort fun a b =>
    ((compare (ascii a.1.1.name) (ascii b.1.1.name)).then (compare a.1.2 b.1.2)).isLE = true
  ascii "bbg/database-batch/v1\x00" ++ ordered.flatMap fun change => changeRow change.1 change.2

theorem changeId_eq (hemera : List UInt8 → Bytes32) (changes : Changes) :
    changeId hemera changes = hemera (changeMessage changes) := rfl

/-- A table that has a name: the source opens none past the fourteenth dimension. -/
def Table.Named : Table → Prop
  | shard d => d < 14
  | _ => True

abbrev StagedChange := Sigma fun _ : Table × List UInt8 => Option (List UInt8)

/-- A change whose table has a name and whose lengths are lengths of a machine. -/
structure StagedChange.Sized (change : StagedChange) : Prop where
  named : change.1.1.Named
  key : change.1.2.length < 2 ^ 64
  value : ∀ value ∈ change.2, value.length < 2 ^ 64

/-- A batch of such changes. -/
def Changes.Sized (changes : Changes) : Prop := ∀ change ∈ changes.entries, StagedChange.Sized change

/-- The tables that have names. -/
def NAMED_TABLES : List Table :=
  (List.range 14).map (fun d => .shard (UInt8.ofNat d)) ++
    [.metadata, .content, .heads, .history, .requests, .claims, .migration] ++
    [RecordDomain.nativeState, .nativeHistory, .nativeRequests, .nativeMetadata, .nativeBalances, .nativeBlocks,
      .nativeExport].map .native

theorem mem_namedTables {table : Table} (h : table.Named) : table ∈ NAMED_TABLES := by
  cases table with
  | shard d =>
      refine List.mem_append_left _ (List.mem_append_left _ (List.mem_map.mpr ⟨d.toNat, ?_, ?_⟩))
      · exact List.mem_range.mpr (UInt8.lt_iff_toNat_lt.mp h)
      · rw [UInt8.ofNat_toNat]
  | native domain => cases domain <;> decide
  | metadata => decide
  | content => decide
  | heads => decide
  | history => decide
  | requests => decide
  | claims => decide
  | migration => decide

/-- No two tables have one name. -/
theorem name_injective {table table' : Table} (h : table.Named) (h' : table'.Named)
    (hname : ascii table.name = ascii table'.name) : table = table' := by
  have hnodup : (NAMED_TABLES.map fun table => ascii table.name).Nodup := by decide +kernel
  exact List.inj_on_of_nodup_map hnodup (mem_namedTables h) (mem_namedTables h') hname

theorem name_length {table : Table} (h : table.Named) : (ascii table.name).length < 2 ^ 64 := by
  have hall : ∀ table ∈ NAMED_TABLES, (ascii table.name).length < 2 ^ 64 := by decide +kernel
  exact hall table (mem_namedTables h)

/-- A row of a batch ends where it says. -/
theorem selfDelimiting_changeRow :
    SelfDelimiting (fun change : StagedChange => changeRow change.1 change.2) StagedChange.Sized := by
  rintro ⟨⟨table, key⟩, value⟩ ⟨⟨table', key'⟩, value'⟩ rest rest' hsized hsized' h
  dsimp only [changeRow] at h
  simp only [List.append_assoc] at h
  obtain ⟨hname, hrow⟩ := cancel_counted (name_length hsized.named) (name_length hsized'.named) h
  obtain ⟨hkey, hchange⟩ := cancel_counted hsized.key hsized'.key hrow
  obtain rfl := name_injective hsized.named hsized'.named hname
  cases hkey
  cases value with
  | none =>
      cases value' with
      | none => exact ⟨rfl, (List.cons.inj hchange).2⟩
      | some value' => exact absurd (List.cons.inj hchange).1 (by decide)
  | some value =>
      cases value' with
      | none => exact absurd (List.cons.inj hchange).1 (by decide)
      | some value' =>
          have hvalue : leBytes 8 value.length ++ value ++ rest = leBytes 8 value'.length ++ value' ++ rest' :=
            (List.cons.inj hchange).2
          rw [List.append_assoc, List.append_assoc] at hvalue
          obtain ⟨rfl, hrest⟩ := cancel_counted (hsized.value value rfl) (hsized'.value value' rfl) hvalue
          exact ⟨rfl, hrest⟩

/-! ### The order of a batch -/

/-- Changes are ordered by the name of their table, then by their key. -/
def placeCompare : StagedChange → StagedChange → Ordering :=
  compareLex (compareOn fun change => ascii change.1.1.name) (compareOn fun change => change.1.2)

instance : TransCmp placeCompare :=
  inferInstanceAs (TransCmp (compareLex (compareOn fun change : StagedChange => ascii change.1.1.name)
    (compareOn fun change : StagedChange => change.1.2)))

def Precedes (a b : StagedChange) : Prop := (placeCompare a b).isLE = true

instance : DecidableRel Precedes := fun _ _ => inferInstanceAs (Decidable (_ = true))

theorem changeMessage_eq (changes : Changes) : changeMessage changes = ascii "bbg/database-batch/v1\x00" ++
    (changes.entries.insertionSort Precedes).flatMap fun change => changeRow change.1 change.2 := rfl

instance : IsTrans StagedChange Precedes where
  trans _ _ _ hab hbc := TransCmp.isLE_trans hab hbc

instance : Std.Total Precedes where
  total a b := by
    cases hab : placeCompare a b with
    | lt => exact .inl (by rw [Precedes, hab]; rfl)
    | eq => exact .inl (by rw [Precedes, hab]; rfl)
    | gt => exact .inr (by rw [Precedes, OrientedCmp.gt_iff_lt.mp hab]; rfl)

/-- Changes at one place are changes at one address. -/
theorem address_eq_of_precedes {a b : StagedChange} (ha : a.1.1.Named) (hb : b.1.1.Named) (hab : Precedes a b)
    (hba : Precedes b a) : a.1 = b.1 := by
  have heq : placeCompare a b = .eq := OrientedCmp.isLE_antisymm hab hba
  have hlex : (compare (ascii a.1.1.name) (ascii b.1.1.name)).then (compare a.1.2 b.1.2) = .eq := heq
  rw [Ordering.then_eq_eq, Std.compare_eq_iff_eq, Std.compare_eq_iff_eq] at hlex
  exact Prod.ext (name_injective ha hb hlex.1) hlex.2

/-- The bytes of a batch are equal exactly when the batches are, whatever the order they were staged in. -/
theorem changeMessage_injective {changes changes' : Changes} (h : changes.Sized) (h' : changes'.Sized) :
    changeMessage changes = changeMessage changes' ↔ ∀ address, changes.lookup address = changes'.lookup address := by
  have hperm := List.perm_insertionSort Precedes changes.entries
  have hperm' := List.perm_insertionSort Precedes changes'.entries
  rw [changeMessage_eq, changeMessage_eq]
  constructor
  · intro heq address
    have hordered : changes.entries.insertionSort Precedes = changes'.entries.insertionSort Precedes := by
      refine selfDelimiting_changeRow.flatMap_injective (fun change => ?_) (fun change hchange => ?_)
        (fun change hchange => ?_) (List.append_cancel_left heq)
      · exact fun hnil => absurd (congrArg List.length hnil) (by simp [changeRow])
      · exact h change (hperm.mem_iff.mp hchange)
      · exact h' change (hperm'.mem_iff.mp hchange)
    have hentries : changes.entries.Perm changes'.entries := by
      rw [hordered] at hperm
      exact hperm.symm.trans hperm'
    exact List.perm_dlookup address changes.nodupKeys hentries
  · intro hlookup
    have hentries : changes.entries.Perm changes'.entries := by
      refine List.lookup_ext changes.nodupKeys changes'.nodupKeys fun address value => ?_
      rw [show changes.entries.dlookup address = changes'.entries.dlookup address from hlookup address]
    have hordered : changes.entries.insertionSort Precedes = changes'.entries.insertionSort Precedes := by
      refine List.Perm.eq_of_pairwise (fun a b ha hb hab hba => ?_) (List.pairwise_insertionSort Precedes _)
        (List.pairwise_insertionSort Precedes _) ((hperm.trans hentries).trans hperm'.symm)
      have ha := hperm.mem_iff.mp ha
      have hb := hentries.mem_iff.mpr (hperm'.mem_iff.mp hb)
      exact List.NodupKeys.eq_of_fst_eq changes.nodupKeys ha hb
        (address_eq_of_precedes (h a ha).named (h b hb).named hab hba)
    rw [hordered]

/-! ### Batches of a write buffer -/

section Folds

variable {K V E : Type} [Ord K] [TransOrd K] [LawfulEqOrd K] [DecidableEq K] {key : E → K} {val : E → V}

theorem foldl_insert_of_absent {l : List E} {k : K} (h : ∀ e ∈ l, key e ≠ k) (m : OrdMap K V) :
    (l.foldl (fun m e => m.insert (key e) (val e)) m)[k]? = m[k]? := by
  induction l generalizing m with
  | nil => rfl
  | cons e l ih =>
      obtain ⟨he, hl⟩ := List.forall_mem_cons.mp h
      rw [List.foldl_cons, ih hl, OrdMap.getElem?_insert, if_neg he]

theorem foldl_insert_of_mem {l : List E} (hnodup : (l.map key).Nodup) {e : E} (he : e ∈ l) (m : OrdMap K V) :
    (l.foldl (fun m e => m.insert (key e) (val e)) m)[key e]? = some (val e) := by
  induction l generalizing m with
  | nil => cases he
  | cons e' l ih =>
      obtain ⟨hnot, hnodup⟩ := List.nodup_cons.mp hnodup
      rw [List.foldl_cons]
      rcases List.mem_cons.mp he with rfl | hmem
      · have habsent : ∀ e' ∈ l, key e' ≠ key e := by
          intro e' he' heq
          rw [← heq] at hnot
          exact hnot (List.mem_map_of_mem he')
        rw [foldl_insert_of_absent habsent, OrdMap.getElem?_insert, if_pos rfl]
      · exact ih hnodup hmem _

end Folds

theorem serialize_injective {F : Type} [Nebu F] [NebuRoundTrip F] {value value' : List F}
    (h : serialize value = serialize value') : value = value' := by
  have hwords : value.map Nebu.asU64 = value'.map Nebu.asU64 :=
    flatMap_injective (by decide : 0 < 8) u64LeBytes_length u64LeBytes_injective h
  have hinjective : Function.Injective (Nebu.asU64 : F → UInt64) := by
    intro v w heq
    rw [← NebuRoundTrip.new_asU64 v, heq, NebuRoundTrip.new_asU64]
  exact List.map_injective_iff.mpr hinjective hwords

namespace WriteBuffer

variable {F : Type}

/-- The pending changes in the order of their keys. -/
def changeMap (b : WriteBuffer F) : OrdMap EntryKey (Option (List F)) :=
  b.deleted.keys.foldl (fun m k => m.insert k none) (b.dirty.foldl (fun m e => m.insert e.1 (some e.2)) ∅)

theorem Inv.changeMap_get {b : WriteBuffer F} (h : b.Inv) (k : EntryKey) : b.changeMap[k]? = b.pending k := by
  have hmap : b.changeMap = b.changes.foldl (fun m change => m.insert change.1 change.2) ∅ := by
    rw [changeMap, changes, List.foldl_append, List.foldl_map, List.foldl_map]
  rw [hmap]
  cases hpending : b.pending k with
  | none =>
      rw [foldl_insert_of_absent]
      · simp
      · rintro ⟨k', change⟩ hmem rfl
        rw [h.mem_changes.mp hmem] at hpending
        cases hpending
  | some change => exact foldl_insert_of_mem h.changes_nodup (h.mem_changes.mpr hpending) ∅

variable [Nebu F]

/-- A pending change as it is hashed. -/
def entryRow (change : Change F) : List UInt8 :=
  change.1.dimension :: change.1.key.toList ++
    match change.2 with
    | none => [0]
    | some value => 1 :: leBytes 8 value.length ++ serializeGoldilocks (value.map Nebu.asU64)

/-- The bytes that `WriteBuffer::change_id` hashes. -/
def changeMessage (b : WriteBuffer F) : List UInt8 :=
  ascii "bbg/shard-batch/v1\x00" ++ leBytes 8 b.changeMap.size ++ b.changeMap.toList.flatMap entryRow

theorem changeId_eq (hemera : List UInt8 → Bytes32) (b : WriteBuffer F) :
    b.changeId hemera = hemera b.changeMessage := rfl

/-- A pending change ends where it says. -/
theorem selfDelimiting_entryRow [NebuRoundTrip F] :
    SelfDelimiting (entryRow (F := F)) fun change => ∀ value ∈ change.2, value.length < 2 ^ 64 := by
  rintro ⟨⟨dimension, key⟩, value⟩ ⟨⟨dimension', key'⟩, value'⟩ rest rest' hsized hsized' h
  dsimp only [entryRow] at h
  simp only [List.append_assoc, List.cons_append] at h
  obtain ⟨rfl, hrow⟩ := List.cons.inj h
  obtain ⟨hkey, hchange⟩ := List.append_inj hrow (by simp)
  obtain rfl := Vector.toList_inj.mp hkey
  cases value with
  | none =>
      cases value' with
      | none => exact ⟨rfl, (List.cons.inj hchange).2⟩
      | some value' => exact absurd (List.cons.inj hchange).1 (by decide)
  | some value =>
      cases value' with
      | none => exact absurd (List.cons.inj hchange).1 (by decide)
      | some value' =>
          have hvalue : leBytes 8 value.length ++ serializeGoldilocks (value.map Nebu.asU64) ++ rest =
              leBytes 8 value'.length ++ serializeGoldilocks (value'.map Nebu.asU64) ++ rest' :=
            (List.cons.inj hchange).2
          rw [List.append_assoc, List.append_assoc] at hvalue
          obtain ⟨hcount, hvalue⟩ := List.append_inj hvalue (by simp)
          have hlength := leBytes_injective (hsized value rfl) (hsized' value' rfl) hcount
          obtain ⟨hbytes, hrest⟩ := List.append_inj hvalue (by
            rw [serializeGoldilocks_length, serializeGoldilocks_length, List.length_map, List.length_map, hlength])
          rw [serialize_injective hbytes]
          exact ⟨rfl, hrest⟩

omit [Nebu F] in
theorem Inv.pending_short {b : WriteBuffer F} (h : b.Inv) {k : EntryKey} {value : List F}
    (hpending : b.pending k = some (some value)) : value.length < 2 ^ 64 := by
  have hlen : value.length ≤ MAX_VALUE_ELEMENTS := h.short _ (h.pending_eq_some.mp hpending)
  rw [MAX_VALUE_ELEMENTS] at hlen
  omega

/-- The bytes of two buffers are equal exactly when the buffers have the same changes pending. -/
theorem Inv.changeMessage_iff [NebuRoundTrip F] {b b' : WriteBuffer F} (h : b.Inv) (h' : b'.Inv) :
    b.changeMessage = b'.changeMessage ↔ ∀ k, b.pending k = b'.pending k := by
  have hsized : ∀ {b : WriteBuffer F}, b.Inv → ∀ change ∈ b.changeMap.toList, ∀ value ∈ change.2, value.length < 2 ^ 64 := by
    rintro b h ⟨k, change⟩ hmem value rfl
    rw [OrdMap.mem_toList, h.changeMap_get] at hmem
    exact h.pending_short hmem
  constructor
  · intro heq k
    rw [changeMessage, changeMessage, List.append_assoc, List.append_assoc] at heq
    obtain ⟨-, hrows⟩ := List.append_inj (List.append_cancel_left heq) (by simp)
    have hlist : b.changeMap.toList = b'.changeMap.toList :=
      selfDelimiting_entryRow.flatMap_injective (fun change => nofun) (hsized h) (hsized h') hrows
    rw [← h.changeMap_get, ← h'.changeMap_get, ExtTreeMap.toList_inj.mp hlist]
  · intro heq
    have hmap : b.changeMap = b'.changeMap := by
      refine ExtTreeMap.ext_getElem? fun k => ?_
      rw [h.changeMap_get, h'.changeMap_get, heq]
    rw [changeMessage, changeMessage, hmap]

omit [Nebu F] in
/-- The same changes are pending when the same values and the same deletions are. -/
theorem Inv.pending_eq_iff {b b' : WriteBuffer F} (h : b.Inv) (h' : b'.Inv) :
    (∀ k, b.pending k = b'.pending k) ↔
      (∀ k value, (k, value) ∈ b.dirty ↔ (k, value) ∈ b'.dirty) ∧ ∀ k, b.deleted.contains k = b'.deleted.contains k := by
  constructor
  · intro heq
    refine ⟨fun k value => ?_, fun k => ?_⟩
    · rw [← h.pending_eq_some, ← h'.pending_eq_some, heq]
    · rw [Bool.eq_iff_iff, ← pending_eq_deleted, ← pending_eq_deleted, heq]
  · rintro ⟨hdirty, hdeleted⟩ k
    refine Option.ext fun change => ?_
    cases change with
    | none => rw [pending_eq_deleted, pending_eq_deleted, hdeleted]
    | some value => rw [h.pending_eq_some, h'.pending_eq_some, hdirty]

end WriteBuffer

/-! ### Identities -/

/-- What the two identities hash identifies the change set: a batch of the database by what it has staged for every
address, a write buffer after any calls by its pending values and deletions. -/
structure Identified (F : Type) [Nebu F] : Prop where
  batchHashed : ∀ (hemera : List UInt8 → Bytes32) (changes : Changes), changeId hemera changes = hemera (changeMessage changes)
  batch : ∀ changes changes' : Changes, changes.Sized → changes'.Sized →
    (changeMessage changes = changeMessage changes' ↔ ∀ address, changes.lookup address = changes'.lookup address)
  bufferHashed : ∀ (hemera : List UInt8 → Bytes32) (b : WriteBuffer F), b.changeId hemera = hemera b.changeMessage
  buffer : ∀ calls calls' : List (WriteBuffer.Call F),
    ((WriteBuffer.runCalls .empty calls).changeMessage = (WriteBuffer.runCalls .empty calls').changeMessage ↔
      (∀ k value, (k, value) ∈ (WriteBuffer.runCalls .empty calls).dirty ↔
        (k, value) ∈ (WriteBuffer.runCalls .empty calls').dirty) ∧
      ∀ k, (WriteBuffer.runCalls .empty calls).deleted.contains k =
        (WriteBuffer.runCalls .empty calls').deleted.contains k)

theorem changeIds_identify {F : Type} [Nebu F] [NebuRoundTrip F] : Identified F where
  batchHashed := changeId_eq
  batch _ _ := changeMessage_injective
  bufferHashed := WriteBuffer.changeId_eq
  buffer calls calls' := by
    have h := (WriteBuffer.represented_empty (F := F).runCalls calls).toInv
    have h' := (WriteBuffer.represented_empty (F := F).runCalls calls').toInv
    rw [h.changeMessage_iff h', h.pending_eq_iff h']

/-- Two rows with the bytes of one behind another, and one row with all of them, are hashed apart. -/
theorem changeIds_identify_split :
    let two : Changes := (AList.insert (Table.content, [1]) (some [2]) ∅).insert (.content, [3]) none
    let one : Changes := AList.insert (Table.content, [1]) (some [2, 3]) ∅
    changeMessage two ≠ changeMessage one ∧ two.Sized ∧ one.Sized := by
  intro two one
  have htwo : two.Sized := by
    intro change hchange
    have hmem : change ∈ [(⟨(.content, [3]), none⟩ : StagedChange), ⟨(.content, [1]), some [2]⟩] := hchange
    rcases List.mem_cons.mp hmem with rfl | hmem
    · exact ⟨trivial, by decide, nofun⟩
    · rw [List.mem_singleton.mp hmem]
      exact ⟨trivial, by decide, by decide⟩
  have hone : one.Sized := by
    intro change hchange
    have hmem : change ∈ [(⟨(.content, [1]), some [2, 3]⟩ : StagedChange)] := hchange
    rw [List.mem_singleton.mp hmem]
    exact ⟨trivial, by decide, by decide⟩
  refine ⟨fun heq => ?_, htwo, hone⟩
  have hlookup := ((changeIds_identify (F := Goldilocks)).batch two one htwo hone).mp heq (.content, [3])
  exact absurd hlookup (by decide)

end LeanBbg.Storage
