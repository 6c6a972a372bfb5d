import LeanBbg.Buffer

/-! The calls of a write buffer, statement by statement, and what holds after any sequence of them: the index names
the staged values, the budgets are counted exactly, the cache agrees, and a call that fails has changed nothing. -/

namespace LeanBbg.Storage.WriteBuffer

open Std

variable {F : Type}

/-! ### Calls -/

/-- `ready`. -/
def readyCall : EStateM StorageError (WriteBuffer F) Unit := do
  match (← get).unknown with
  | some e => throw e
  | none => pure ()

def checkDimensionCall (dimension : UInt8) : EStateM StorageError (WriteBuffer F) Unit := do
  if dimension > EPHEMERAL then throw (.invalidDimension dimension)

def checkKeyCapacityCall (k : EntryKey) : EStateM StorageError (WriteBuffer F) Unit := do
  let existing := (← get).deleted.contains k || (← get).positions.contains k
  if !existing && (← get).dirty.length + (← get).deleted.size ≥ MAX_PENDING_KEYS then
    throw (.limit "pending key count")

/-- `WriteBuffer::put`: an error keeps the buffer as it is at that point. -/
def putCall (dimension : UInt8) (key : Bytes32) (value : List F) : EStateM StorageError (WriteBuffer F) Unit := do
  readyCall
  checkDimensionCall dimension
  if value.length > MAX_VALUE_ELEMENTS then throw (.limit "value element count")
  let k : EntryKey := ⟨dimension, key⟩
  if dimension ≠ EPHEMERAL then do
    let position := (← get).positions[k]?
    let elements := (← get).elements - position.elim 0 (← get).elementsAt + value.length
    if elements > MAX_PENDING_ELEMENTS then throw (.limit "pending element count")
    checkKeyCapacityCall k
    modify fun b => { b with deleted := b.deleted.erase k }
    match position with
    | some i => modify fun b => { b with dirty := b.dirty.modify i fun e => (e.1, value) }
    | none => do
        modify fun b => { b with positions := b.positions.insert k b.dirty.length }
        modify fun b => { b with dirty := b.dirty ++ [(k, value)] }
    modify fun b => { b with elements := elements }
  modify fun b => { b with cache := b.cache.insert k value }

/-- `WriteBuffer::delete`. -/
def deleteCall (dimension : UInt8) (key : Bytes32) : EStateM StorageError (WriteBuffer F) Unit := do
  readyCall
  checkDimensionCall dimension
  let k : EntryKey := ⟨dimension, key⟩
  if dimension ≠ EPHEMERAL then do
    checkKeyCapacityCall k
    let position := (← get).positions[k]?
    modify fun b => { b with positions := b.positions.erase k }
    match position with
    | some i => do
        let removed := (← get).elementsAt i
        modify fun b => { b with dirty := Slots.swapRemove b.dirty i }
        modify fun b => { b with elements := b.elements - removed }
        match (← get).dirty[i]? with
        | some moved => modify fun b => { b with positions := b.positions.insert moved.1 i }
        | none => pure ()
    | none => pure ()
    modify fun b => { b with deleted := b.deleted.insert k () }
  modify fun b => { b with cache := b.cache.erase k }

/-! ### A call stages its change as a whole -/

theorem readyCall_of_none {b : WriteBuffer F} (h : b.unknown = none) : readyCall b = .ok () b := by
  change (match b.unknown with
    | some e => throw e
    | none => pure () : EStateM StorageError (WriteBuffer F) Unit) b = _
  rw [h]
  rfl

theorem readyCall_of_some {b : WriteBuffer F} {e : StorageError} (h : b.unknown = some e) : readyCall b = .error e b := by
  change (match b.unknown with
    | some e => throw e
    | none => pure () : EStateM StorageError (WriteBuffer F) Unit) b = _
  rw [h]
  rfl

theorem bind_eq_of_ok {α β : Type} {x : EStateM StorageError (WriteBuffer F) α} {b b' : WriteBuffer F} {a : α}
    (h : x b = .ok a b') (f : α → EStateM StorageError (WriteBuffer F) β) : (x >>= f) b = f a b' := by
  change EStateM.bind x f b = _
  rw [EStateM.bind, h]

theorem bind_eq_of_error {α β : Type} {x : EStateM StorageError (WriteBuffer F) α} {b b' : WriteBuffer F}
    {e : StorageError} (h : x b = .error e b') (f : α → EStateM StorageError (WriteBuffer F) β) :
    (x >>= f) b = .error e b' := by
  change EStateM.bind x f b = _
  rw [EStateM.bind, h]

theorem checkDimensionCall_eq (b : WriteBuffer F) (dimension : UInt8) : checkDimensionCall dimension b =
    if dimension > EPHEMERAL then .error (.invalidDimension dimension) b else .ok () b := by
  rw [checkDimensionCall]
  split_ifs <;> rfl

open scoped Classical in
theorem checkKeyCapacityCall_eq (b : WriteBuffer F) (k : EntryKey) : checkKeyCapacityCall k b =
    if b.HasRoom k then .ok () b else .error (.limit "pending key count") b := by
  have hmodel := @checkKeyCapacity_eq F b k _
  rw [checkKeyCapacity] at hmodel
  change (if !(b.deleted.contains k || b.positions.contains k) && b.dirty.length + b.deleted.size ≥ MAX_PENDING_KEYS then
    throw (.limit "pending key count") else pure () : EStateM StorageError (WriteBuffer F) Unit) b = _
  by_cases hroom : b.HasRoom k
  · rw [if_pos hroom] at hmodel ⊢
    split_ifs at hmodel ⊢ with hfull
    rfl
  · rw [if_neg hroom] at hmodel ⊢
    split_ifs at hmodel ⊢ with hfull
    rfl

/-- A call that the model answers with a buffer stages it, and one that the model refuses leaves the buffer. -/
def answer (b : WriteBuffer F) : Except StorageError (WriteBuffer F) → EStateM.Result StorageError (WriteBuffer F) Unit
  | .ok b' => .ok () b'
  | .error e => .error e b

theorem modify_eq_set {dirty : List (EntryKey × List F)} {i : Nat} {k : EntryKey} {old : List F}
    (h : dirty[i]? = some (k, old)) (value : List F) : dirty.modify i (fun e => (e.1, value)) = dirty.set i (k, value) := by
  refine List.ext_getElem? fun j => ?_
  rw [List.getElem?_modify, List.getElem?_set]
  by_cases hij : i = j
  · subst hij
    rw [h, if_pos rfl, if_pos (List.getElem?_eq_some_iff.mp h).1]
    simp
  · rw [if_neg hij]
    simp [hij]

theorem putCall_eq {b : WriteBuffer F} (h : b.Inv) (dimension : UInt8) (key : Bytes32) (value : List F) :
    putCall dimension key value b = b.answer (b.put dimension key value) := by
  classical
  cases hready : b.unknown with
  | some e =>
      rw [putCall, bind_eq_of_error (readyCall_of_some hready), put, ready_of_some hready]
      rfl
  | none =>
      rw [putCall, bind_eq_of_ok (readyCall_of_none hready)]
      have hcheck := checkDimensionCall_eq b dimension
      by_cases hd : dimension ≤ EPHEMERAL
      · rw [if_neg (UInt8.not_lt.mpr hd)] at hcheck
        rw [bind_eq_of_ok hcheck]
        by_cases hlong : value.length > MAX_VALUE_ELEMENTS
        · have hput : b.put dimension key value = .error (.limit "value element count") := by
            rw [put, ready_of_none hready, checkDimension_eq_ok.mpr hd]
            exact if_pos hlong
          rw [if_pos hlong, hput]
          rfl
        · rw [if_neg hlong]
          by_cases hephemeral : dimension = EPHEMERAL
          · subst hephemeral
            rw [put_ephemeral hready, if_neg hlong]
            rfl
          · have hlt : dimension < EPHEMERAL := UInt8.lt_of_le_of_ne hd hephemeral
            rw [put_eq hready hlt, if_neg hlong]
            change (if dimension ≠ EPHEMERAL then _ else _ : EStateM StorageError (WriteBuffer F) Unit) b = _
            rw [if_pos hephemeral]
            change (if b.elements - b.weight ⟨dimension, key⟩ + value.length > MAX_PENDING_ELEMENTS then _ else _ :
              EStateM StorageError (WriteBuffer F) Unit) b = _
            split_ifs with helements hroom
            · rfl
            · have hcapacity := checkKeyCapacityCall_eq b ⟨dimension, key⟩
              rw [if_pos hroom] at hcapacity
              rw [bind_eq_of_ok hcapacity]
              rw [stageValue, weight]
              cases hi : b.positions[(⟨dimension, key⟩ : EntryKey)]? with
              | some i =>
                  obtain ⟨old, hold⟩ := (h.indexed _ i).mp hi
                  dsimp only
                  rw [← modify_eq_set hold value]
                  rfl
              | none => rfl
            · have hcapacity := checkKeyCapacityCall_eq b ⟨dimension, key⟩
              rw [if_neg hroom] at hcapacity
              rw [bind_eq_of_error hcapacity]
              rfl
      · rw [if_pos (UInt8.not_le.mp hd)] at hcheck
        rw [bind_eq_of_error hcheck, put_dimension hready hd]
        rfl

theorem deleteCall_eq (b : WriteBuffer F) (dimension : UInt8) (key : Bytes32) :
    deleteCall dimension key b = b.answer (b.delete dimension key) := by
  classical
  cases hready : b.unknown with
  | some e =>
      rw [deleteCall, bind_eq_of_error (readyCall_of_some hready), delete, ready_of_some hready]
      rfl
  | none =>
      rw [deleteCall, bind_eq_of_ok (readyCall_of_none hready)]
      have hcheck := checkDimensionCall_eq b dimension
      by_cases hd : dimension ≤ EPHEMERAL
      · rw [if_neg (UInt8.not_lt.mpr hd)] at hcheck
        rw [bind_eq_of_ok hcheck]
        by_cases hephemeral : dimension = EPHEMERAL
        · subst hephemeral
          rw [delete_ephemeral hready]
          rfl
        · have hcapacity := checkKeyCapacityCall_eq b ⟨dimension, key⟩
          rw [delete_eq hready (UInt8.lt_of_le_of_ne hd hephemeral)]
          change (if dimension ≠ EPHEMERAL then _ else _ : EStateM StorageError (WriteBuffer F) Unit) b = _
          rw [if_pos hephemeral]
          split_ifs at hcapacity ⊢ with hroom
          · have hget : (get : EStateM StorageError (WriteBuffer F) (WriteBuffer F)) b = .ok b b := rfl
            rw [bind_eq_of_ok hcapacity, bind_eq_of_ok hget, stageDeletion]
            cases hi : b.positions[(⟨dimension, key⟩ : EntryKey)]? with
            | some i =>
                dsimp only
                rw [Slots.reindex]
                change (match (Slots.swapRemove b.dirty i)[i]? with
                  | some moved => _
                  | none => _ : EStateM StorageError (WriteBuffer F) Unit) _ = _
                cases (Slots.swapRemove b.dirty i)[i]? <;> rfl
            | none =>
                have hsame : (⟨b.cache.erase ⟨dimension, key⟩, b.dirty, b.deleted.insert ⟨dimension, key⟩ (), b.unknown,
                    b.positions.erase ⟨dimension, key⟩, b.elements⟩ : WriteBuffer F) =
                    { b with
                      deleted := b.deleted.insert ⟨dimension, key⟩ ()
                      cache := b.cache.erase ⟨dimension, key⟩ } := by
                  rw [OrdMap.erase_of_getElem? hi]
                exact congrArg (EStateM.Result.ok ()) hsame
          · rw [bind_eq_of_error hcapacity]
            rfl
      · rw [if_pos (UInt8.not_le.mp hd)] at hcheck
        rw [bind_eq_of_error hcheck, delete_dimension hready hd]
        rfl

/-! ### What every call keeps -/

/-- The representation of a buffer: the invariant of what is staged, and a cache that agrees with it. -/
structure Represented (b : WriteBuffer F) : Prop extends b.Inv where
  cached : ∀ k value, (k, value) ∈ b.dirty → b.cache[k]? = some value
  uncached : ∀ k : EntryKey, b.deleted.contains k = true → b.cache[k]? = none

theorem represented_empty : (empty : WriteBuffer F).Represented where
  toInv := inv_empty
  cached := nofun
  uncached _ h := by simp [empty] at h

variable {b b' : WriteBuffer F}

/-- The cache agrees with what is staged. -/
theorem represented_iff (h : b.Inv) : b.Represented ↔ ∀ k change, b.pending k = some change → b.cache[k]? = change := by
  constructor
  · intro hrepresented k change hpending
    cases change with
    | none => exact hrepresented.uncached k (pending_eq_deleted.mp hpending)
    | some value => exact hrepresented.cached k value (h.pending_eq_some.mp hpending)
  · intro hcache
    exact ⟨h, fun k value hmem => hcache k (some value) (h.pending_eq_some.mpr hmem),
      fun k hdeleted => hcache k none (pending_eq_deleted.mpr hdeleted)⟩

/-- A local-only value is cached and nothing else changes. -/
theorem Represented.cacheOnly (h : b.Represented) {k : EntryKey} (hk : ¬k.dimension < EPHEMERAL)
    {cache : OrdMap EntryKey (List F)} (hcache : ∀ q, q ≠ k → cache[q]? = b.cache[q]?) :
    ({ b with cache := cache } : WriteBuffer F).Represented := by
  have hinv : ({ b with cache := cache } : WriteBuffer F).Inv := h.toInv.of_same rfl rfl rfl rfl
  refine (represented_iff hinv).mpr fun q change hpending => ?_
  have hne : q ≠ k := by
    rintro rfl
    rw [hinv.pending_ephemeral hk] at hpending
    cases hpending
  exact (hcache q hne).trans ((represented_iff h.toInv).mp h q change hpending)

theorem Represented.put (h : b.Represented) {dimension : UInt8} {key : Bytes32} {value : List F}
    (hput : b.put dimension key value = .ok b') : b'.Represented ∧ b'.cache[(⟨dimension, key⟩ : EntryKey)]? = some value := by
  classical
  cases hready : b.unknown with
  | some e =>
      rw [WriteBuffer.put, ready_of_some hready] at hput
      cases hput
  | none =>
      by_cases hd : dimension < EPHEMERAL
      · rw [put_eq hready hd] at hput
        split_ifs at hput with hlong helements hroom
        obtain rfl := Except.ok.inj hput
        have hinv := h.toInv.stageValue hd (Nat.not_lt.mp hlong) ⟨Nat.not_lt.mp helements, hroom⟩
        refine ⟨(represented_iff hinv).mpr fun q change hpending => ?_, ?_⟩
        · rw [h.toInv.pending_stageValue] at hpending
          rw [stageValue_cache, OrdMap.getElem?_insert]
          split_ifs at hpending with hq
          · rw [if_pos hq.symm]
            exact Option.some.inj hpending
          · rw [if_neg (Ne.symm hq)]
            exact (represented_iff h.toInv).mp h q change hpending
        · rw [stageValue_cache, OrdMap.getElem?_insert, if_pos rfl]
      · by_cases hephemeral : dimension = EPHEMERAL
        · subst hephemeral
          rw [put_ephemeral hready] at hput
          split_ifs at hput with hlong
          obtain rfl := Except.ok.inj hput
          refine ⟨h.cacheOnly (k := ⟨EPHEMERAL, key⟩) hd fun q hq => ?_, ?_⟩
          · rw [OrdMap.getElem?_insert, if_neg (Ne.symm hq)]
          · dsimp only
            rw [OrdMap.getElem?_insert, if_pos rfl]
        · have hgt : ¬dimension ≤ EPHEMERAL := fun hle => hd (UInt8.lt_of_le_of_ne hle hephemeral)
          rw [put_dimension hready hgt] at hput
          cases hput

theorem Represented.delete (h : b.Represented) {dimension : UInt8} {key : Bytes32}
    (hdelete : b.delete dimension key = .ok b') : b'.Represented ∧ b'.cache[(⟨dimension, key⟩ : EntryKey)]? = none := by
  classical
  cases hready : b.unknown with
  | some e =>
      rw [WriteBuffer.delete, ready_of_some hready] at hdelete
      cases hdelete
  | none =>
      by_cases hd : dimension < EPHEMERAL
      · rw [delete_eq hready hd] at hdelete
        split_ifs at hdelete with hroom
        obtain rfl := Except.ok.inj hdelete
        have hinv := h.toInv.stageDeletion hd hroom
        refine ⟨(represented_iff hinv).mpr fun q change hpending => ?_, ?_⟩
        · rw [h.toInv.pending_stageDeletion] at hpending
          rw [stageDeletion_cache, OrdMap.getElem?_erase]
          split_ifs at hpending with hq
          · rw [if_pos hq.symm]
            exact Option.some.inj hpending
          · rw [if_neg (Ne.symm hq)]
            exact (represented_iff h.toInv).mp h q change hpending
        · rw [stageDeletion_cache, OrdMap.getElem?_erase, if_pos rfl]
      · by_cases hephemeral : dimension = EPHEMERAL
        · subst hephemeral
          rw [delete_ephemeral hready] at hdelete
          obtain rfl := Except.ok.inj hdelete
          refine ⟨h.cacheOnly (k := ⟨EPHEMERAL, key⟩) hd fun q hq => ?_, ?_⟩
          · rw [OrdMap.getElem?_erase, if_neg (Ne.symm hq)]
          · dsimp only
            rw [OrdMap.getElem?_erase, if_pos rfl]
        · have hgt : ¬dimension ≤ EPHEMERAL := fun hle => hd (UInt8.lt_of_le_of_ne hle hephemeral)
          rw [delete_dimension hready hgt] at hdelete
          cases hdelete

theorem represented_clearPending (b : WriteBuffer F) : b.clearPending.Represented := by
  refine (represented_iff (inv_clearPending b)).mpr fun k change hpending => ?_
  rw [pending_clearPending] at hpending
  cases hpending

theorem represented_finish (b : WriteBuffer F) : b.finish.Represented := by
  have hinv : b.finish.Inv := inv_empty.of_same rfl rfl rfl rfl
  refine (represented_iff hinv).mpr fun k change hpending => ?_
  have hnone : b.finish.pending k = none := pending_clearPending b k
  rw [hnone] at hpending
  cases hpending

/-! ### Runs -/

/-- A call on a write buffer. -/
inductive Call (F : Type) where
  | put (dimension : UInt8) (key : Bytes32) (value : List F)
  | delete (dimension : UInt8) (key : Bytes32)
  | clearPending
  | finish

def Call.run : Call F → EStateM StorageError (WriteBuffer F) Unit
  | put dimension key value => putCall dimension key value
  | delete dimension key => deleteCall dimension key
  | clearPending => modify WriteBuffer.clearPending
  | finish => modify WriteBuffer.finish

/-- The buffer after a call, which may have failed. -/
def Call.after (b : WriteBuffer F) (call : Call F) : WriteBuffer F :=
  match call.run b with
  | .ok _ b => b
  | .error _ b => b

/-- The buffer after any calls. -/
def runCalls (b : WriteBuffer F) (calls : List (Call F)) : WriteBuffer F := calls.foldl Call.after b

/-- A call keeps the representation, and one that fails keeps the buffer. -/
theorem Represented.call (h : b.Represented) (call : Call F) :
    match call.run b with
    | .ok _ b' => b'.Represented
    | .error _ b' => b' = b := by
  cases call with
  | put dimension key value =>
      change match putCall dimension key value b with
        | .ok _ b' => b'.Represented
        | .error _ b' => b' = b
      rw [putCall_eq h.toInv]
      cases hput : b.put dimension key value with
      | ok b' => exact (h.put hput).1
      | error e => rfl
  | delete dimension key =>
      change match deleteCall dimension key b with
        | .ok _ b' => b'.Represented
        | .error _ b' => b' = b
      rw [deleteCall_eq]
      cases hdelete : b.delete dimension key with
      | ok b' => exact (h.delete hdelete).1
      | error e => rfl
  | clearPending => exact represented_clearPending b
  | finish => exact represented_finish b

theorem Represented.after (h : b.Represented) (call : Call F) : (call.after b).Represented := by
  have hcall := h.call call
  rw [Call.after]
  cases hrun : call.run b with
  | ok u b' =>
      rw [hrun] at hcall
      exact hcall
  | error e b' =>
      rw [hrun] at hcall
      obtain rfl := hcall
      exact h

theorem Represented.runCalls (h : b.Represented) (calls : List (Call F)) :
    (WriteBuffer.runCalls b calls).Represented := by
  induction calls generalizing b with
  | nil => exact h
  | cons call calls ih => exact ih (h.after call)

/-- What holds of a buffer after any calls. -/
structure Consistent (b : WriteBuffer F) : Prop where
  positions : ∀ (k : EntryKey) i, b.positions[k]? = some i ↔ ∃ value, b.dirty[i]? = some (k, value)
  unique : ∀ (i j : Nat) (k : EntryKey) value value', b.dirty[i]? = some (k, value) → b.dirty[j]? = some (k, value') → i = j
  disjoint : ∀ (k : EntryKey) value, (k, value) ∈ b.dirty → b.deleted.contains k = false
  dirtyPersistent : ∀ e ∈ b.dirty, e.1.dimension ≠ EPHEMERAL
  deletedPersistent : ∀ k : EntryKey, b.deleted.contains k = true → k.dimension ≠ EPHEMERAL
  counted : b.elements = (b.dirty.map fun e => e.2.length).sum
  noUnderflow : ∀ (k : EntryKey) i, b.positions[k]? = some i → b.elementsAt i ≤ b.elements
  keys : b.dirty.length + b.deleted.size ≤ 65536
  elements : b.elements ≤ 2097152
  cached : ∀ k value, (k, value) ∈ b.dirty → b.cache[k]? = some value
  uncached : ∀ k : EntryKey, b.deleted.contains k = true → b.cache[k]? = none
  latest : ∀ dimension key value b', putCall dimension key value b = .ok () b' →
    b'.cache[(⟨dimension, key⟩ : EntryKey)]? = some value
  unchanged : ∀ (call : Call F) e b', call.run b = .error e b' → b' = b

end LeanBbg.Storage.WriteBuffer
