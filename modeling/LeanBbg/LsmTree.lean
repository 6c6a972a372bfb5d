import LeanBbg.KeyspaceTrees
import LeanBbg.LibMap

/-! A tree that is its rows, and the coding of the tree library for uncompressed journals: all that the keyspace asks
of the library is met together. -/

namespace LeanBbg.Fjall

open Bytes Bytes.Scanner

/-! ### Rows in memory and on the disk -/

structure LsmTree where
  active : List Version
  memtables : List (List Version)
  disk : List Version

namespace LsmTree

def rows (t : LsmTree) : List Version := t.disk ++ (t.memtables.flatten ++ t.active)

def get (t : LsmTree) (key : List UInt8) : Option (List UInt8) :=
  ((t.rows.filter fun v => v.key = key).argmax Version.seqno).bind Version.read

def range (t : LsmTree) : OrdMap (List UInt8) (List UInt8) :=
  .ofEntries (t.rows.filterMap fun v => (t.get v.key).map fun value => (v.key, value))

instance : AbstractTree LsmTree where
  create := ⟨[], [], []⟩
  activeMemtable := active
  sealedMemtables := memtables
  segments := disk
  get := get
  range t := t.range.toList
  insert t v := { t with active := t.active ++ [v] }
  rotateMemtable t :=
    if t.active = [] then none else some { t with active := [], memtables := t.memtables ++ [t.active] }
  clearActiveMemtable t := { t with active := [] }
  registerSegments t n :=
    { t with memtables := t.memtables.drop n, disk := t.disk ++ (t.memtables.take n).flatten }
  reopen t := ⟨[], [], t.disk⟩

theorem get_newest {t : LsmTree} {v : Version} (hv : v ∈ t.rows)
    (hnewest : ∀ w ∈ t.rows, w.key = v.key → w.seqno < v.seqno ∨ w = v) : t.get v.key = v.read := by
  have hmem : v ∈ t.rows.filter fun w => w.key = v.key := List.mem_filter.mpr ⟨hv, decide_eq_true rfl⟩
  rw [get]
  cases hmax : (t.rows.filter fun w => w.key = v.key).argmax Version.seqno with
  | none =>
      rw [List.argmax_eq_none] at hmax
      rw [hmax] at hmem
      cases hmem
  | some w =>
      obtain ⟨hw, hkey⟩ := List.mem_filter.mp (List.argmax_mem hmax)
      rcases hnewest w hw (of_decide_eq_true hkey) with hlt | rfl
      · exact absurd (List.le_of_mem_argmax hmem hmax) (Nat.not_le.mpr hlt)
      · rfl

theorem get_missing {t : LsmTree} {key : List UInt8} (h : ∀ w ∈ t.rows, w.key ≠ key) : t.get key = none := by
  have hnil : (t.rows.filter fun w => w.key = key) = [] :=
    List.filter_eq_nil_iff.mpr fun w hw hkey => h w hw (of_decide_eq_true hkey)
  rw [get, hnil]
  rfl

theorem mem_range {t : LsmTree} {key value : List UInt8} : (key, value) ∈ t.range.toList ↔ t.get key = some value := by
  have hmem : ∀ k v, (k, v) ∈ t.rows.filterMap (fun v => (t.get v.key).map fun value => (v.key, value)) ↔
      t.get k = some v := by
    intro k v
    rw [List.mem_filterMap]
    constructor
    · rintro ⟨w, -, hw⟩
      obtain ⟨value, hvalue, hpair⟩ := Option.map_eq_some_iff.mp hw
      obtain ⟨rfl, rfl⟩ := Prod.mk.inj hpair
      exact hvalue
    · intro hget
      by_cases hkey : ∃ w ∈ t.rows, w.key = k
      · obtain ⟨w, hw, rfl⟩ := hkey
        exact ⟨w, hw, by rw [hget]; rfl⟩
      · have := get_missing fun w hw heq => hkey ⟨w, hw, heq⟩
        rw [this] at hget
        cases hget
  rw [OrdMap.mem_toList, range, OrdMap.getElem?_ofEntries, hmem]
  intro k v v' hv hv'
  exact Option.some_inj.mp (((hmem k v).mp hv).symm.trans ((hmem k v').mp hv'))

instance : LawfulTree LsmTree where
  activeMemtable_create := rfl
  sealedMemtables_create := rfl
  segments_create := rfl
  get_newest _ _ hv hnewest := get_newest hv hnewest
  get_missing _ _ h := get_missing h
  range_ordered t := Std.ExtTreeMap.ordered_keys_toList
  mem_range _ _ _ := mem_range
  activeMemtable_insert _ _ := rfl
  sealedMemtables_insert _ _ := rfl
  segments_insert _ _ := rfl
  rotate_none t h := by
    by_contra hne
    exact absurd ((if_neg hne).symm.trans h) (Option.some_ne_none _)
  rotate_some t t' h := by
    have h : (if t.active = [] then none else some _) = some t' := h
    split_ifs at h
    rw [← Option.some_inj.mp h]
    exact ⟨rfl, rfl, rfl⟩
  activeMemtable_clear _ := rfl
  sealedMemtables_clear _ := rfl
  segments_clear _ := rfl
  activeMemtable_register _ _ := rfl
  sealedMemtables_register _ _ := rfl
  mem_of_register _ _ _ hv := hv
  covered_register _ _ _ _ hv := .of_mem hv
  activeMemtable_reopen _ := rfl
  sealedMemtables_reopen _ := rfl
  segments_reopen _ := rfl

end LsmTree

/-! ### The coding of the library -/

/-- No compression is two bytes, the second for padding. -/
instance : Coding where
  Compression := Unit
  none := ()
  encodeCompression _ := [0, 0]
  decodeCompression := do
    let tag ← byte eof
    let _ ← byte eof
    if tag = 0 then pure () else fail (.error (.invalidTag "CompressionType" tag))
  valueTypeByte
    | .value => 0
    | .tombstone => 1
    | .weakTombstone => 2
  valueTypeOf b :=
    if b = 0 then some .value
    else if b = 1 then some .tombstone
    else if b = 2 then some .weakTombstone
    else none

instance : LawfulCoding where
  local_compression := (local_byte eof).bind fun tag => (local_byte eof).bind fun _ => by
    split_ifs
    · exact local_pure ()
    · exact local_fail _
  reads_none := fun _ => rfl
  onZeros_none := (onZeros_byte soft_eof).bind fun tag htag => (onZeros_byte soft_eof).bind fun _ _ => by
    rw [if_pos htag]
    exact onZeros_pure rfl
  onTorn_none := by
    have hpad : ∀ tag : UInt8, tag = 0 → OnZeros Failure.Soft (fun compression => compression = ())
        (byte eof >>= fun _ => if tag = 0 then pure () else fail (.error (.invalidTag "CompressionType" tag))) := by
      intro tag htag
      refine (onZeros_byte soft_eof).bind fun _ _ => ?_
      rw [if_pos htag]
      exact onZeros_pure rfl
    have hlast : OnTorn Failure.Soft (fun compression => compression = ())
        (byte eof >>= fun _ => (pure () : Scanner Failure Unit)) ([0] ++ []) :=
      (onTorn_byte soft_eof 0).bind (reads_byte eof 0) (fun _ _ => onZeros_pure rfl) (onTorn_nil _)
    exact (onTorn_byte soft_eof 0).bind (reads_byte eof 0) hpad hlast
  valueTypeOf_byte valueType := by cases valueType <;> rfl

end LeanBbg.Fjall
