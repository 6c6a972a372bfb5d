import LeanBbg.ApplicationSpec
import LeanBbg.LibSlots

/-! The pending mutations of a shard store: a write-through cache, the staged values with the index of
their positions, and the staged deletions, within two budgets. -/

namespace LeanBbg.Storage

open Std

/-- Local-only state: cached, never staged and never on disk. -/
def EPHEMERAL : UInt8 := 13

def MAX_PENDING_ELEMENTS : Nat := 2097152

def MAX_PENDING_KEYS : Nat := 65536

structure EntryKey where
  dimension : UInt8
  key : Bytes32
  deriving DecidableEq

instance : Ord EntryKey := ⟨compareLex (compareOn EntryKey.dimension) (compareOn EntryKey.key)⟩

instance : TransOrd EntryKey :=
  inferInstanceAs (TransCmp (compareLex (compareOn EntryKey.dimension) (compareOn EntryKey.key)))

instance : LawfulEqOrd EntryKey where
  eq_of_compare {a b} h := by
    have hlex : (compare a.dimension b.dimension).then (compare a.key b.key) = .eq := h
    rw [Ordering.then_eq_eq, Std.compare_eq_iff_eq, Std.compare_eq_iff_eq] at hlex
    cases a
    cases b
    rw [EntryKey.mk.injEq]
    exact hlex

def checkDimension (dimension : UInt8) : Except StorageError Unit :=
  if dimension > EPHEMERAL then .error (.invalidDimension dimension) else .ok ()

theorem checkDimension_eq_ok {dimension : UInt8} : checkDimension dimension = .ok () ↔ dimension ≤ EPHEMERAL := by
  rw [checkDimension]
  split_ifs with h
  · exact ⟨nofun, fun hle => absurd h (UInt8.not_lt.mpr hle)⟩
  · exact ⟨fun _ => UInt8.not_lt.mp h, fun _ => rfl⟩

variable {F : Type}

structure WriteBuffer (F : Type) where
  cache : OrdMap EntryKey (List F)
  dirty : List (EntryKey × List F)
  deleted : OrdMap EntryKey Unit
  unknown : Option StorageError
  positions : OrdMap EntryKey Nat
  elements : Nat

namespace WriteBuffer

def empty : WriteBuffer F := ⟨∅, [], ∅, none, ∅, 0⟩

def ready (b : WriteBuffer F) : Except StorageError Unit :=
  match b.unknown with
  | some e => .error e
  | none => .ok ()

def checkKeyCapacity (b : WriteBuffer F) (k : EntryKey) : Except StorageError Unit :=
  if !(b.deleted.contains k || b.positions.contains k) && b.dirty.length + b.deleted.size ≥ MAX_PENDING_KEYS then
    .error (.limit "pending key count")
  else .ok ()

/-- The elements of the staged value at a position; the index only names positions that exist. -/
def elementsAt (b : WriteBuffer F) (i : Nat) : Nat := (b.dirty[i]?).elim 0 fun entry => entry.2.length

def put (b : WriteBuffer F) (dimension : UInt8) (key : Bytes32) (value : List F) :
    Except StorageError (WriteBuffer F) := do
  b.ready
  checkDimension dimension
  let k : EntryKey := ⟨dimension, key⟩
  if value.length > MAX_VALUE_ELEMENTS then .error (.limit "value element count")
  else if dimension ≠ EPHEMERAL then do
    let position := b.positions[k]?
    let elements := b.elements - position.elim 0 b.elementsAt + value.length
    if elements > MAX_PENDING_ELEMENTS then .error (.limit "pending element count")
    else do
      b.checkKeyCapacity k
      let b := { b with deleted := b.deleted.erase k, elements := elements, cache := b.cache.insert k value }
      match position with
      | some i => .ok { b with dirty := b.dirty.set i (k, value) }
      | none =>
          .ok { b with positions := b.positions.insert k b.dirty.length, dirty := b.dirty ++ [(k, value)] }
  else .ok { b with cache := b.cache.insert k value }

def delete (b : WriteBuffer F) (dimension : UInt8) (key : Bytes32) : Except StorageError (WriteBuffer F) := do
  b.ready
  checkDimension dimension
  let k : EntryKey := ⟨dimension, key⟩
  if dimension ≠ EPHEMERAL then do
    b.checkKeyCapacity k
    let b := { b with deleted := b.deleted.insert k (), cache := b.cache.erase k }
    match b.positions[k]? with
    | some i =>
        let dirty := Slots.swapRemove b.dirty i
        .ok { b with
          dirty := dirty
          elements := b.elements - b.elementsAt i
          positions := Slots.reindex b.positions k i dirty }
    | none => .ok b
  else .ok { b with cache := b.cache.erase k }

def clearPending (b : WriteBuffer F) : WriteBuffer F :=
  { b with dirty := [], deleted := ∅, positions := ∅, elements := 0 }

/-- Disk remains authoritative; only local-only values stay cached. -/
def finish (b : WriteBuffer F) : WriteBuffer F :=
  { b.clearPending with cache := b.cache.filter fun k _ => k.dimension = EPHEMERAL }

def hasPending (b : WriteBuffer F) : Bool := !b.dirty.isEmpty || !b.deleted.isEmpty

def clean (b : WriteBuffer F) : Except StorageError Unit := do
  b.ready
  if b.hasPending then .error .pendingWrites else .ok ()

/-- `change_id`: the hash of the pending set in the order of its keys. -/
def changeId [Nebu F] (hemera : List UInt8 → Bytes32) (b : WriteBuffer F) : Bytes32 :=
  let changes : OrdMap EntryKey (Option (List F)) := b.dirty.foldl (fun m e => m.insert e.1 (some e.2)) ∅
  let changes := b.deleted.keys.foldl (fun m k => m.insert k none) changes
  hemera (ascii "bbg/shard-batch/v1\x00" ++ Bytes.leBytes 8 changes.size ++ changes.toList.flatMap fun change =>
    change.1.dimension :: change.1.key.toList ++
      match change.2 with
      | none => [0]
      | some value => 1 :: Bytes.leBytes 8 value.length ++ serializeGoldilocks (value.map Nebu.asU64))

/-! ### The invariant -/

/-- What the buffer has staged for a key: a value, a deletion or nothing. -/
def pending (b : WriteBuffer F) (k : EntryKey) : Option (Option (List F)) :=
  if b.deleted.contains k then some none else (Slots.value b.positions b.dirty k).map some

structure Inv (b : WriteBuffer F) : Prop where
  indexed : Slots.Indexed b.positions b.dirty
  disjoint : ∀ k : EntryKey, b.deleted.contains k = true → b.positions[k]? = none
  dirtyPersistent : ∀ e ∈ b.dirty, e.1.dimension < EPHEMERAL
  deletedPersistent : ∀ k : EntryKey, b.deleted.contains k = true → k.dimension < EPHEMERAL
  short : ∀ e ∈ b.dirty, e.2.length ≤ MAX_VALUE_ELEMENTS
  counted : b.elements = (b.dirty.map fun e => e.2.length).sum
  elements_le : b.elements ≤ MAX_PENDING_ELEMENTS
  keys_le : b.dirty.length + b.deleted.size ≤ MAX_PENDING_KEYS

theorem inv_empty : (empty : WriteBuffer F).Inv where
  indexed := Slots.indexed_nil
  disjoint _ h := by simp [empty] at h
  dirtyPersistent := nofun
  deletedPersistent _ h := by simp [empty] at h
  short := nofun
  counted := rfl
  elements_le := Nat.zero_le _
  keys_le := by simp [empty]

/-! ### Staging -/

/-- The elements that a key takes of the budget. -/
def weight (b : WriteBuffer F) (k : EntryKey) : Nat := b.positions[k]?.elim 0 b.elementsAt

/-- The pending set has room for the key. -/
def HasRoom (b : WriteBuffer F) (k : EntryKey) : Prop :=
  (b.deleted.contains k || b.positions.contains k) = true ∨ b.dirty.length + b.deleted.size < MAX_PENDING_KEYS

/-- The pending set has room for a value of so many elements at the key. -/
def Fits (b : WriteBuffer F) (k : EntryKey) (n : Nat) : Prop :=
  b.elements - b.weight k + n ≤ MAX_PENDING_ELEMENTS ∧ b.HasRoom k

/-- The buffer with a value staged. -/
def stageValue (b : WriteBuffer F) (k : EntryKey) (value : List F) : WriteBuffer F :=
  let b' := { b with
    deleted := b.deleted.erase k
    elements := b.elements - b.weight k + value.length
    cache := b.cache.insert k value }
  match b.positions[k]? with
  | some i => { b' with dirty := b.dirty.set i (k, value) }
  | none => { b' with positions := b.positions.insert k b.dirty.length, dirty := b.dirty ++ [(k, value)] }

/-- The buffer with a deletion staged. -/
def stageDeletion (b : WriteBuffer F) (k : EntryKey) : WriteBuffer F :=
  let b' := { b with deleted := b.deleted.insert k (), cache := b.cache.erase k }
  match b.positions[k]? with
  | some i =>
      let dirty := Slots.swapRemove b.dirty i
      { b' with
        dirty := dirty
        elements := b.elements - b.elementsAt i
        positions := Slots.reindex b.positions k i dirty }
  | none => b'

theorem checkKeyCapacity_eq {b : WriteBuffer F} {k : EntryKey} [Decidable (b.HasRoom k)] :
    b.checkKeyCapacity k = if b.HasRoom k then .ok () else .error (.limit "pending key count") := by
  rw [checkKeyCapacity]
  have hiff : ((!(b.deleted.contains k || b.positions.contains k) &&
      decide (b.dirty.length + b.deleted.size ≥ MAX_PENDING_KEYS)) = true) ↔ ¬b.HasRoom k := by
    rw [HasRoom, Bool.and_eq_true, Bool.not_eq_true', decide_eq_true_iff, not_or, Bool.not_eq_true, Nat.not_lt]
  by_cases h : b.HasRoom k
  · rw [if_pos h, if_neg fun hc => hiff.mp hc h]
  · rw [if_neg h, if_pos (hiff.mpr h)]

theorem ready_of_none {b : WriteBuffer F} (h : b.unknown = none) : b.ready = .ok () := by
  rw [ready, h]

theorem ready_of_some {b : WriteBuffer F} {e : StorageError} (h : b.unknown = some e) : b.ready = .error e := by
  rw [ready, h]

open scoped Classical in
/-- `put` of a persistent value: refused whole, or staged. -/
theorem put_eq {b : WriteBuffer F} (hready : b.unknown = none) {dimension : UInt8} (hd : dimension < EPHEMERAL)
    (key : Bytes32) (value : List F) :
    b.put dimension key value =
      if value.length > MAX_VALUE_ELEMENTS then .error (.limit "value element count")
      else if b.elements - b.weight ⟨dimension, key⟩ + value.length > MAX_PENDING_ELEMENTS then
        .error (.limit "pending element count")
      else if b.HasRoom ⟨dimension, key⟩ then .ok (b.stageValue ⟨dimension, key⟩ value)
      else .error (.limit "pending key count") := by
  have hne : dimension ≠ EPHEMERAL := UInt8.ne_of_lt hd
  rw [put, ready_of_none hready, checkDimension_eq_ok.mpr (UInt8.le_of_lt hd), weight]
  dsimp only [bind, Except.bind]
  rw [checkKeyCapacity_eq, if_pos hne]
  split_ifs with hlong helements hroom
  · rfl
  · rfl
  · rw [stageValue, weight]
    cases b.positions[(⟨dimension, key⟩ : EntryKey)]? <;> rfl
  · rfl

theorem put_ephemeral {b : WriteBuffer F} (hready : b.unknown = none) (key : Bytes32) (value : List F) :
    b.put EPHEMERAL key value =
      if value.length > MAX_VALUE_ELEMENTS then .error (.limit "value element count")
      else .ok { b with cache := b.cache.insert ⟨EPHEMERAL, key⟩ value } := by
  rw [put, ready_of_none hready, checkDimension_eq_ok.mpr (UInt8.le_refl _)]
  rfl

theorem put_dimension {b : WriteBuffer F} (hready : b.unknown = none) {dimension : UInt8}
    (hd : ¬dimension ≤ EPHEMERAL) (key : Bytes32) (value : List F) :
    b.put dimension key value = .error (.invalidDimension dimension) := by
  rw [put, ready_of_none hready, checkDimension, if_pos (UInt8.not_le.mp hd)]
  rfl

open scoped Classical in
theorem delete_eq {b : WriteBuffer F} (hready : b.unknown = none) {dimension : UInt8} (hd : dimension < EPHEMERAL)
    (key : Bytes32) :
    b.delete dimension key =
      if b.HasRoom ⟨dimension, key⟩ then .ok (b.stageDeletion ⟨dimension, key⟩)
      else .error (.limit "pending key count") := by
  have hne : dimension ≠ EPHEMERAL := UInt8.ne_of_lt hd
  rw [delete, ready_of_none hready, checkDimension_eq_ok.mpr (UInt8.le_of_lt hd)]
  dsimp only [bind, Except.bind]
  rw [checkKeyCapacity_eq, if_pos hne]
  split_ifs with hroom
  · rw [stageDeletion]
    cases b.positions[(⟨dimension, key⟩ : EntryKey)]? <;> rfl
  · rfl

theorem delete_ephemeral {b : WriteBuffer F} (hready : b.unknown = none) (key : Bytes32) :
    b.delete EPHEMERAL key = .ok { b with cache := b.cache.erase ⟨EPHEMERAL, key⟩ } := by
  rw [delete, ready_of_none hready, checkDimension_eq_ok.mpr (UInt8.le_refl _)]
  rfl

theorem delete_dimension {b : WriteBuffer F} (hready : b.unknown = none) {dimension : UInt8}
    (hd : ¬dimension ≤ EPHEMERAL) (key : Bytes32) :
    b.delete dimension key = .error (.invalidDimension dimension) := by
  rw [delete, ready_of_none hready, checkDimension, if_pos (UInt8.not_le.mp hd)]
  rfl

/-! ### What staging keeps -/

variable {b : WriteBuffer F} {k : EntryKey}

theorem Inv.weight_of_position (h : b.Inv) {i : Nat} (hi : b.positions[k]? = some i) :
    ∃ old, b.dirty[i]? = some (k, old) ∧ b.weight k = old.length ∧
      b.elements = old.length + ((Slots.swapRemove b.dirty i).map fun e => e.2.length).sum := by
  obtain ⟨old, hold⟩ := (h.indexed k i).mp hi
  refine ⟨old, hold, ?_, ?_⟩
  · rw [weight, hi, Option.elim_some, elementsAt, hold]
    rfl
  · rw [h.counted, ((Slots.perm_swapRemove hold).map fun e => e.2.length).sum_eq]
    rfl

theorem Inv.stageValue (h : b.Inv) (hd : k.dimension < EPHEMERAL) {value : List F}
    (hlen : value.length ≤ MAX_VALUE_ELEMENTS) (hfits : b.Fits k value.length) : (b.stageValue k value).Inv := by
  obtain ⟨helements, hroom⟩ := hfits
  cases hi : b.positions[k]? with
  | some i =>
      obtain ⟨old, hold, hweight, hcounted⟩ := h.weight_of_position hi
      have hsum := ((Slots.perm_set hold (k, value)).map fun e => e.2.length).sum_eq
      have hsum' := ((Slots.perm_swapRemove hold).map fun e => e.2.length).sum_eq
      simp only [List.map_cons, List.sum_cons] at hsum hsum'
      have hmem : ∀ e ∈ b.dirty.set i (k, value), e ∈ b.dirty ∨ e = (k, value) := fun e he => List.mem_or_eq_of_mem_set he
      rw [WriteBuffer.stageValue, hi]
      refine ⟨h.indexed.set hi value, fun q hq => ?_, fun e he => ?_, fun q hq => ?_, fun e he => ?_, ?_, helements, ?_⟩
      · rw [OrdMap.contains_erase] at hq
        split_ifs at hq
        exact h.disjoint q hq
      · rcases hmem e he with hold | rfl
        · exact h.dirtyPersistent e hold
        · exact hd
      · rw [OrdMap.contains_erase] at hq
        split_ifs at hq
        exact h.deletedPersistent q hq
      · rcases hmem e he with hold | rfl
        · exact h.short e hold
        · exact hlen
      · dsimp only
        rw [hweight]
        omega
      · dsimp only
        rw [List.length_set]
        exact (Nat.add_le_add_left ExtTreeMap.size_erase_le _).trans h.keys_le
  | none =>
      have hweight : b.weight k = 0 := by
        rw [weight, hi]
        rfl
      have hmem : ∀ e ∈ b.dirty ++ [(k, value)], e ∈ b.dirty ∨ e = (k, value) := fun e he =>
        (List.mem_append.mp he).imp_right List.mem_singleton.mp
      rw [WriteBuffer.stageValue, hi]
      refine ⟨h.indexed.push hi value, fun q hq => ?_, fun e he => ?_, fun q hq => ?_, fun e he => ?_, ?_, helements, ?_⟩
      · rw [OrdMap.contains_erase] at hq
        split_ifs at hq with hkq
        rw [OrdMap.getElem?_insert, if_neg hkq]
        exact h.disjoint q hq
      · rcases hmem e he with hold | rfl
        · exact h.dirtyPersistent e hold
        · exact hd
      · rw [OrdMap.contains_erase] at hq
        split_ifs at hq
        exact h.deletedPersistent q hq
      · rcases hmem e he with hold | rfl
        · exact h.short e hold
        · exact hlen
      · dsimp only
        rw [hweight, h.counted, List.map_append, List.sum_append]
        simp
      · -- the key leaves the deletions, or there was room for one more
        have hkeys := h.keys_le
        dsimp only
        rw [List.length_append, List.length_singleton, ExtTreeMap.size_erase]
        rcases hroom with hexists | hroom
        · rw [OrdMap.contains_eq_isSome b.positions, hi, Option.isSome_none, Bool.or_false] at hexists
          have hpos : 0 < b.deleted.size := by
            rw [Nat.pos_iff_ne_zero]
            intro hzero
            rw [ExtTreeMap.eq_empty_iff_size_eq_zero.mpr hzero] at hexists
            simp at hexists
          rw [if_pos hexists]
          omega
        · split_ifs <;> omega

theorem Inv.pending_stageValue (h : b.Inv) (value : List F) (q : EntryKey) :
    (b.stageValue k value).pending q = if q = k then some (some value) else b.pending q := by
  cases hi : b.positions[k]? with
  | some i =>
      rw [WriteBuffer.stageValue, hi, pending, pending]
      dsimp only
      rw [OrdMap.contains_erase, h.indexed.value_set hi]
      by_cases hq : q = k
      · rw [if_pos hq, if_pos hq.symm, if_pos hq]
        rfl
      · rw [if_neg hq, if_neg (Ne.symm hq), if_neg hq]
  | none =>
      rw [WriteBuffer.stageValue, hi, pending, pending]
      dsimp only
      rw [OrdMap.contains_erase, h.indexed.value_push hi]
      by_cases hq : q = k
      · rw [if_pos hq, if_pos hq.symm, if_pos hq]
        rfl
      · rw [if_neg hq, if_neg (Ne.symm hq), if_neg hq]

theorem Inv.stageDeletion (h : b.Inv) (hd : k.dimension < EPHEMERAL) (hroom : b.HasRoom k) :
    (b.stageDeletion k).Inv := by
  have hdeleted : ∀ q : EntryKey, (b.deleted.insert k ()).contains q = true → q = k ∨ b.deleted.contains q = true := by
    intro q hq
    rw [OrdMap.contains_insert] at hq
    split_ifs at hq with heq
    · exact .inl heq.symm
    · exact .inr hq
  have hkeys := h.keys_le
  cases hi : b.positions[k]? with
  | some i =>
      obtain ⟨old, hold, hweight, hcounted⟩ := h.weight_of_position hi
      have hperm := Slots.perm_swapRemove hold
      have hnone := (h.indexed.swapRemove hi).value_eq_none.mp ((h.indexed.value_swapRemove hi k).trans (if_pos rfl))
      rw [weight, hi, Option.elim_some] at hweight
      rw [WriteBuffer.stageDeletion, hi]
      refine ⟨h.indexed.swapRemove hi, fun q hq => ?_, fun e he => ?_, fun q hq => ?_, fun e he => ?_, ?_, ?_, ?_⟩
      · rcases hdeleted q hq with rfl | hq
        · exact hnone
        · by_cases hqk : q = k
          · subst hqk
            exact hnone
          · have hvalue := h.indexed.value_swapRemove hi q
            rw [if_neg hqk, h.indexed.value_eq_none.mpr (h.disjoint q hq)] at hvalue
            exact (h.indexed.swapRemove hi).value_eq_none.mp hvalue
      · exact h.dirtyPersistent e (hperm.mem_iff.mpr (List.mem_cons_of_mem _ he))
      · rcases hdeleted q hq with rfl | hq
        · exact hd
        · exact h.deletedPersistent q hq
      · exact h.short e (hperm.mem_iff.mpr (List.mem_cons_of_mem _ he))
      · dsimp only
        rw [hweight]
        omega
      · exact (Nat.sub_le _ _).trans h.elements_le
      · have hlength := hperm.length_eq
        rw [List.length_cons] at hlength
        have hsize : (b.deleted.insert k ()).size ≤ b.deleted.size + 1 := ExtTreeMap.size_insert_le
        dsimp only
        omega
  | none =>
      rw [WriteBuffer.stageDeletion, hi]
      refine ⟨h.indexed, fun q hq => ?_, h.dirtyPersistent, fun q hq => ?_, h.short, h.counted, h.elements_le, ?_⟩
      · rcases hdeleted q hq with rfl | hq
        · exact hi
        · exact h.disjoint q hq
      · rcases hdeleted q hq with rfl | hq
        · exact hd
        · exact h.deletedPersistent q hq
      · dsimp only
        rw [ExtTreeMap.size_insert]
        rw [HasRoom, OrdMap.contains_eq_isSome b.positions, hi, Option.isSome_none, Bool.or_false] at hroom
        split_ifs with hcontains
        · exact hkeys
        · have := hroom.resolve_left hcontains
          omega

theorem Inv.pending_stageDeletion (h : b.Inv) (q : EntryKey) :
    (b.stageDeletion k).pending q = if q = k then some none else b.pending q := by
  cases hi : b.positions[k]? with
  | some i =>
      rw [WriteBuffer.stageDeletion, hi, pending, pending]
      dsimp only
      rw [OrdMap.contains_insert, h.indexed.value_swapRemove hi]
      by_cases hq : q = k
      · rw [if_pos hq.symm, if_pos hq, if_pos hq]
        rfl
      · rw [if_neg (Ne.symm hq), if_neg hq, if_neg hq]
  | none =>
      rw [WriteBuffer.stageDeletion, hi, pending, pending]
      dsimp only
      rw [OrdMap.contains_insert]
      by_cases hq : q = k
      · rw [if_pos hq.symm, if_pos hq]
        rfl
      · rw [if_neg (Ne.symm hq), if_neg hq]

@[simp] theorem stageValue_cache (b : WriteBuffer F) (k : EntryKey) (value : List F) :
    (b.stageValue k value).cache = b.cache.insert k value := by
  rw [stageValue]
  split <;> rfl

@[simp] theorem stageValue_unknown (b : WriteBuffer F) (k : EntryKey) (value : List F) :
    (b.stageValue k value).unknown = b.unknown := by
  rw [stageValue]
  split <;> rfl

@[simp] theorem stageDeletion_cache (b : WriteBuffer F) (k : EntryKey) :
    (b.stageDeletion k).cache = b.cache.erase k := by
  rw [stageDeletion]
  split <;> rfl

@[simp] theorem stageDeletion_unknown (b : WriteBuffer F) (k : EntryKey) :
    (b.stageDeletion k).unknown = b.unknown := by
  rw [stageDeletion]
  split <;> rfl

/-- The cache is no part of the invariant, nor is the outcome of the last commit. -/
theorem Inv.of_same {b' : WriteBuffer F} (h : b.Inv) (hdirty : b'.dirty = b.dirty) (hdeleted : b'.deleted = b.deleted)
    (hpositions : b'.positions = b.positions) (helements : b'.elements = b.elements) : b'.Inv := by
  refine ⟨?_, ?_, ?_, ?_, ?_, ?_, ?_, ?_⟩
  · rw [hdirty, hpositions]
    exact h.indexed
  · rw [hdeleted, hpositions]
    exact h.disjoint
  · rw [hdirty]
    exact h.dirtyPersistent
  · rw [hdeleted]
    exact h.deletedPersistent
  · rw [hdirty]
    exact h.short
  · rw [hdirty, helements]
    exact h.counted
  · rw [helements]
    exact h.elements_le
  · rw [hdirty, hdeleted]
    exact h.keys_le

theorem inv_clearPending (b : WriteBuffer F) : b.clearPending.Inv := inv_empty.of_same rfl rfl rfl rfl

@[simp] theorem pending_clearPending (b : WriteBuffer F) (q : EntryKey) : b.clearPending.pending q = none := by
  simp [clearPending, pending, Slots.value]

theorem Inv.pending_ephemeral (h : b.Inv) {q : EntryKey} (hq : ¬q.dimension < EPHEMERAL) : b.pending q = none := by
  rw [pending]
  split_ifs with hdeleted
  · exact absurd (h.deletedPersistent q hdeleted) hq
  · cases hvalue : Slots.value b.positions b.dirty q with
    | none => rfl
    | some v => exact absurd (h.dirtyPersistent _ (h.indexed.value_eq_some.mp hvalue)) hq

theorem Inv.pending_eq_some (h : b.Inv) {q : EntryKey} {value : List F} :
    b.pending q = some (some value) ↔ (q, value) ∈ b.dirty := by
  rw [pending]
  split_ifs with hdeleted
  · refine ⟨fun heq => absurd heq (by simp), fun hmem => ?_⟩
    exact absurd hmem (h.indexed.not_mem (h.disjoint q hdeleted) value)
  · rw [Option.map_eq_some_iff, ← h.indexed.value_eq_some]
    constructor
    · rintro ⟨v, hv, heq⟩
      exact Option.some_inj.mp heq ▸ hv
    · exact fun hv => ⟨value, hv, rfl⟩

theorem pending_eq_deleted {q : EntryKey} : b.pending q = some none ↔ b.deleted.contains q = true := by
  rw [pending]
  split_ifs with hdeleted
  · exact ⟨fun _ => hdeleted, fun _ => rfl⟩
  · refine ⟨fun heq => ?_, fun hcontains => absurd hcontains hdeleted⟩
    obtain ⟨v, -, hv⟩ := Option.map_eq_some_iff.mp heq
    cases hv

/-- Nothing is pending exactly when nothing is staged for any key. -/
theorem Inv.hasPending_eq_false (h : b.Inv) : b.hasPending = false ↔ ∀ q, b.pending q = none := by
  rw [hasPending, Bool.or_eq_false_iff, Bool.not_eq_false', Bool.not_eq_false', List.isEmpty_iff, ExtTreeMap.isEmpty_iff]
  constructor
  · rintro ⟨hdirty, hdeleted⟩ q
    rw [pending, hdeleted, hdirty]
    simp [Slots.value]
  · intro hnone
    refine ⟨List.eq_nil_iff_forall_not_mem.mpr fun e he => ?_, ?_⟩
    · have := hnone e.1
      rw [h.pending_eq_some.mpr he] at this
      cases this
    · refine ExtTreeMap.ext_getElem? fun q => ?_
      have hcontains : b.deleted.contains q = false := by
        rw [Bool.eq_false_iff]
        intro hcontains
        have := hnone q
        rw [pending_eq_deleted.mpr hcontains] at this
        cases this
      rw [OrdMap.contains_eq_isSome, Option.isSome_eq_false_iff, Option.isNone_iff_eq_none] at hcontains
      rw [hcontains]
      simp

end WriteBuffer

end LeanBbg.Storage
