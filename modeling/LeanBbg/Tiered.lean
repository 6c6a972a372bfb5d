import LeanBbg.DiskRefinement

/-! A store of two tiers: a memory cache in front of an authoritative shard view. Writes go through to both;
a promotion copies a value into the cache and an eviction drops it there. -/

namespace LeanBbg.Storage

open Std Bytes Attempt

variable {F : Type}

/-! ### The memory tier -/

/-- The elements of a value after a write through its slice: they change, their number does not. -/
def overwrite (elements value : List F) : List F := elements.take value.length ++ value.drop elements.length

theorem overwrite_length (elements value : List F) : (overwrite elements value).length = value.length := by
  rw [overwrite, List.length_append, List.length_take, List.length_drop]
  omega

structure MemStore (F : Type) where
  state : WriteBuffer F

namespace MemStore

def get (m : MemStore F) (dimension : UInt8) (key : Bytes32) : Option (List F) :=
  m.state.cache[(⟨dimension, key⟩ : EntryKey)]?

def put (m : MemStore F) (dimension : UInt8) (key : Bytes32) (value : List F) : Except StorageError (MemStore F) :=
  (m.state.put dimension key value).map MemStore.mk

/-- `get_mut` and a write through the slice that it lends. -/
def write (m : MemStore F) (dimension : UInt8) (key : Bytes32) (elements : List F) : Option (MemStore F) :=
  (m.get dimension key).map fun value =>
    ⟨{ m.state with cache := m.state.cache.insert ⟨dimension, key⟩ (overwrite elements value) }⟩

def markDirty (m : MemStore F) (dimension : UInt8) (key : Bytes32) : Except StorageError (MemStore F) := do
  checkDimension dimension
  if dimension ≠ EPHEMERAL then
    match m.get dimension key with
    | some value => m.put dimension key value
    | none => .ok m
  else .ok m

def remove (m : MemStore F) (dimension : UInt8) (key : Bytes32) :
    Except StorageError (Option (List F) × MemStore F) := do
  let value := m.get dimension key
  let state ← m.state.delete dimension key
  .ok (value, ⟨state⟩)

/-- The default `read` of a store. -/
def read (m : MemStore F) (dimension : UInt8) (key : Bytes32) (maxElements : Nat) :
    Except StorageError (Option (List F)) := do
  checkDimension dimension
  checkReadLimit maxElements
  (m.get dimension key).mapM fun value => copyValue value maxElements

def commit [Nebu F] (hemera : List UInt8 → Bytes32) (m : MemStore F) : Bytes32 × MemStore F :=
  (m.state.changeId hemera, ⟨m.state.clearPending⟩)

end MemStore

/-! ### The two tiers -/

structure TieredStore (F : Type) where
  hot : MemStore F
  warm : DiskStore F
  failure : Option StorageError

namespace TieredStore

variable [Nebu F]

def isPoisoned (t : TieredStore F) : Bool := t.failure.isSome || t.warm.isPoisoned

/-- `retain_failure`. -/
def retainFailure {α : Type} (t : TieredStore F) (result : Except StorageError α) :
    Except StorageError α × TieredStore F :=
  match result with
  | .error e => (.error e, { t with failure := some e })
  | .ok a => (.ok a, t)

def read (t : TieredStore F) (dimension : UInt8) (key : Bytes32) (maxElements : Nat) :
    Except StorageError (Option (List F)) :=
  match t.failure with
  | some e => .error e
  | none =>
      if dimension ≠ EPHEMERAL then
        match (if t.warm.isPoisoned then none else t.hot.get dimension key) with
        | some value => (copyValue value maxElements).map some
        | none => t.warm.read dimension key maxElements
      else t.hot.read dimension key maxElements

def put (t : TieredStore F) (dimension : UInt8) (key : Bytes32) (value : List F) :
    Except StorageError Unit × TieredStore F :=
  match t.failure with
  | some e => (.error e, t)
  | none =>
      if dimension ≠ EPHEMERAL then
        match t.warm.put dimension key value with
        | .error e => (.error e, t)
        | .ok warm =>
            let t := { t with warm := warm }
            match t.hot.put dimension key value with
            | .error e => t.retainFailure (.error e)
            | .ok hot => { t with hot := hot }.retainFailure (.ok ())
      else
        match t.hot.put dimension key value with
        | .error e => (.error e, t)
        | .ok hot => (.ok (), { t with hot := hot })

def promote (t : TieredStore F) (dimension : UInt8) (key : Bytes32) : Except StorageError Bool × TieredStore F :=
  match t.failure with
  | some e => (.error e, t)
  | none =>
      match t.read dimension key MAX_VALUE_ELEMENTS with
      | .error e => (.error e, t)
      | .ok none => (.ok false, t)
      | .ok (some value) =>
          match t.hot.put dimension key value with
          | .error e => (.error e, t)
          | .ok hot => (.ok true, { t with hot := hot })

def evict [DecidableEq F] (t : TieredStore F) (dimension : UInt8) (key : Bytes32) :
    Except StorageError Unit × TieredStore F :=
  match t.failure with
  | some e => (.error e, t)
  | none =>
      match checkDimension dimension with
      | .error e => (.error e, t)
      | .ok () =>
          if dimension = EPHEMERAL then (.ok (), t)
          else if !t.warm.pending.hasPending then
            let hot := t.hot.get dimension key
            match t.warm.read dimension key MAX_VALUE_ELEMENTS with
            | .error e => (.error e, t)
            | .ok none => (.ok (), t)
            | .ok (some value) =>
                if hot = some value then
                  match t.hot.remove dimension key with
                  | .error e => (.error e, t)
                  | .ok (_, hot) => (.ok (), { t with hot := hot })
                else (.ok (), t)
          else (.ok (), t)

/-- `get_mut` and a write; `none` when no slice is lent. -/
def write (t : TieredStore F) (dimension : UInt8) (key : Bytes32) (elements : List F) : Option (TieredStore F) :=
  if t.isPoisoned then none else (t.hot.write dimension key elements).map fun hot => { t with hot := hot }

def markDirty (t : TieredStore F) (dimension : UInt8) (key : Bytes32) : Except StorageError Unit × TieredStore F :=
  match t.failure with
  | some e => (.error e, t)
  | none =>
      match checkDimension dimension with
      | .error e => (.error e, t)
      | .ok () =>
          -- the write to the shard view and the mark of the cache are one fallible body
          let body : Except (StorageError × TieredStore F) (TieredStore F) := do
            let t ←
              match (if dimension ≠ EPHEMERAL then t.hot.get dimension key else none) with
              | some value =>
                  match t.warm.put dimension key value with
                  | .error e => .error (e, t)
                  | .ok warm => .ok { t with warm := warm }
              | none => .ok t
            match t.hot.markDirty dimension key with
            | .error e => .error (e, t)
            | .ok hot => .ok { t with hot := hot }
          match body with
          | .error (e, t) => t.retainFailure (.error e)
          | .ok t => t.retainFailure (.ok ())

def remove (t : TieredStore F) (dimension : UInt8) (key : Bytes32) :
    Except StorageError (Option (List F)) × TieredStore F :=
  match t.failure with
  | some e => (.error e, t)
  | none =>
      match t.read dimension key MAX_VALUE_ELEMENTS with
      | .error e => (.error e, t)
      | .ok value =>
          if dimension ≠ EPHEMERAL then
            match t.warm.remove dimension key with
            | .error e => (.error e, t)
            | .ok (_, warm) =>
                let t := { t with warm := warm }
                match t.hot.remove dimension key with
                | .error e => t.retainFailure (.error e)
                | .ok (_, hot) => { t with hot := hot }.retainFailure (.ok value)
          else
            match t.hot.remove dimension key with
            | .error e => (.error e, t)
            | .ok (_, hot) => (.ok value, { t with hot := hot })

def commit (hemera : List UInt8 → Bytes32) (outcome : CommitOutcome) (t : TieredStore F) :
    Except StorageError Bytes32 × TieredStore F :=
  match t.failure with
  | some e => (.error e, t)
  | none =>
      match t.warm.commit hemera outcome with
      | (.error e, warm) => { t with warm := warm }.retainFailure (.error e)
      | (.ok id, warm) => { t with warm := warm, hot := (t.hot.commit hemera).2 }.retainFailure (.ok id)

/-- A cache without values in front of a fresh view. -/
def new (db : Database) : TieredStore F := ⟨⟨.empty⟩, .new db, none⟩

end TieredStore

/-- A slice is lent for a cached value, and only the cache of its key changes. -/
theorem MemStore.write_ok {m m' : MemStore F} {dimension : UInt8} {key : Bytes32} {elements : List F}
    (h : m.write dimension key elements = some m') : ∃ value, m.get dimension key = some value ∧
      m'.state.cache = m.state.cache.insert ⟨dimension, key⟩ (overwrite elements value) ∧
      m'.state.unknown = m.state.unknown ∧ m'.state.dirty = m.state.dirty ∧ m'.state.deleted = m.state.deleted ∧
      m'.state.positions = m.state.positions ∧ m'.state.elements = m.state.elements := by
  obtain ⟨value, hget, rfl⟩ := Option.map_eq_some_iff.mp h
  exact ⟨value, hget, rfl, rfl, rfl, rfl, rfl, rfl⟩

/-- `mark_dirty` by its branches. Every failure after the check of the dimension is retained. -/
theorem TieredStore.markDirty_eq [Nebu F] {t : TieredStore F} (hfailure : t.failure = none) {dimension : UInt8}
    (hd : dimension ≤ EPHEMERAL) (key : Bytes32) :
    t.markDirty dimension key =
      if dimension = EPHEMERAL then (.ok (), t)
      else
        match t.hot.get dimension key with
        | none => (.ok (), t)
        | some value =>
            match t.warm.put dimension key value with
            | .error e => (.error e, { t with failure := some e })
            | .ok warm =>
                match t.hot.put dimension key value with
                | .error e => (.error e, { t with warm := warm, failure := some e })
                | .ok hot => (.ok (), { t with warm := warm, hot := hot }) := by
  rw [TieredStore.markDirty, hfailure, checkDimension_eq_ok.mpr hd]
  dsimp only [MemStore.markDirty]
  rw [checkDimension_eq_ok.mpr hd]
  by_cases heq : dimension = EPHEMERAL
  · rw [if_pos heq, if_neg (not_not.mpr heq)]
    dsimp only [bind, Except.bind]
    rw [if_neg (not_not.mpr heq)]
    rfl
  · rw [if_neg heq, if_pos heq]
    cases hget : t.hot.get dimension key with
    | none =>
        dsimp only [bind, Except.bind]
        rw [if_pos heq, hget]
        rfl
    | some value =>
        dsimp only [bind, Except.bind]
        cases t.warm.put dimension key value with
        | error e => rfl
        | ok warm =>
            dsimp only
            rw [if_pos heq, hget]
            dsimp only
            cases t.hot.put dimension key value with
            | error e => rfl
            | ok hot => rfl

end LeanBbg.Storage
