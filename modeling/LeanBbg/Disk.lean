import LeanBbg.Buffer
import LeanBbg.Overlay

/-! The shard view over the physical owner: staged values and deletions over the committed rows, and a
commit that publishes the whole pending set in one transaction. -/

namespace LeanBbg.Storage

open Std Bytes Attempt

/-! ### Chunks -/

section Chunks

variable {α : Type} {n : Nat}

theorem toChunks_go_append (xs : List α) (chunk : Array α) (chunks : Array (List α)) :
    List.toChunks.go n xs chunk chunks = chunks.toList ++ List.toChunks.go n xs chunk #[] := by
  induction xs generalizing chunk chunks with
  | nil => simp [List.toChunks.go]
  | cons x xs ih =>
      rw [List.toChunks.go, List.toChunks.go]
      split_ifs
      · rw [ih, ih _ (#[].push chunk.toList)]
        simp
      · exact ih _ chunks

theorem toChunks_go_fill (hn : n ≠ 0) (xs rest : List α) (chunk : Array α) (hfull : chunk.size + xs.length = n) :
    List.toChunks.go n (xs ++ rest) chunk #[] = (chunk.toList ++ xs) :: rest.toChunks n := by
  induction xs generalizing chunk with
  | nil =>
      rw [List.length_nil, Nat.add_zero] at hfull
      rw [List.nil_append, List.append_nil]
      cases rest with
      | nil => cases n <;> simp [List.toChunks.go, List.toChunks]
      | cons y ys =>
          rw [List.toChunks.go, if_pos (by simpa using hfull), toChunks_go_append]
          cases n with
          | zero => exact absurd rfl hn
          | succ n => rfl
  | cons x xs ih =>
      rw [List.length_cons] at hfull
      have hne : ¬(chunk.size == n) = true := by
        rw [beq_iff_eq]
        omega
      rw [List.cons_append, List.toChunks.go, if_neg hne, ih _ (by rw [Array.size_push]; omega)]
      simp

/-- A full chunk comes off the front. -/
theorem toChunks_append {chunk : List α} (hn : n ≠ 0) (hchunk : chunk.length = n) (rest : List α) :
    (chunk ++ rest).toChunks n = chunk :: rest.toChunks n := by
  cases chunk with
  | nil => exact absurd hchunk.symm hn
  | cons x xs =>
      cases n with
      | zero => exact absurd rfl hn
      | succ n =>
          rw [List.length_cons] at hchunk
          exact toChunks_go_fill hn xs rest #[x] (by simp; omega)

end Chunks

/-! ### Field vectors as rows -/

/-- Field elements are given by their canonical representatives. -/
class NebuCanonical (F : Type) [Nebu F] : Prop extends NebuRoundTrip F where
  asU64_lt : ∀ v : F, (Nebu.asU64 v).toNat < P
  asU64_new : ∀ x : UInt64, x.toNat < P → Nebu.asU64 (Nebu.new x : F) = x

variable {F : Type} [Nebu F]

/-- `serialize_goldilocks`. -/
def serialize (value : List F) : List UInt8 := serializeGoldilocks (value.map Nebu.asU64)

/-- `deserialize_goldilocks`. -/
def deserialize (bytes : List UInt8) (maxElements : Nat) : Except StorageError (List F) :=
  (deserializeGoldilocks bytes maxElements).map (List.map Nebu.new)

theorem serializeGoldilocks_length (values : List UInt64) : (serializeGoldilocks values).length = 8 * values.length := by
  induction values with
  | nil => rfl
  | cons v values ih =>
      rw [serializeGoldilocks, List.flatMap_cons, List.length_append, u64LeBytes_length, List.length_cons]
      rw [serializeGoldilocks] at ih
      omega

theorem serialize_length (value : List F) : (serialize value).length = 8 * value.length := by
  rw [serialize, serializeGoldilocks_length, List.length_map]

/-- One chunk of a row. -/
def decodeElement (chunk : List UInt8) : Except StorageError UInt64 :=
  let value := u64FromLe chunk
  if value.toNat ≥ P then .error (.corrupt "noncanonical field element") else .ok value

theorem mapM_decodeElement {values : List UInt64} (h : ∀ v ∈ values, v.toNat < P) :
    ((serializeGoldilocks values).toChunks 8).mapM decodeElement = .ok values := by
  induction values with
  | nil => rfl
  | cons v values ih =>
      have hv := h v List.mem_cons_self
      have hrest := ih fun w hw => h w (List.mem_cons_of_mem _ hw)
      have hdecode : decodeElement (u64LeBytes v) = .ok v := by
        rw [decodeElement, u64FromLe_u64LeBytes]
        exact if_neg (Nat.not_le.mpr hv)
      rw [serializeGoldilocks, List.flatMap_cons, toChunks_append (by decide) (u64LeBytes_length v), List.mapM_cons,
        hdecode]
      rw [serializeGoldilocks] at hrest
      change (do let vs ← (List.toChunks 8 _).mapM decodeElement; pure (v :: vs)) = _
      rw [hrest]
      rfl

theorem deserializeGoldilocks_eq (bytes : List UInt8) (maxElements : Nat) :
    deserializeGoldilocks bytes maxElements =
      if maxElements > MAX_VALUE_ELEMENTS then .error (.limit "read element count")
      else if bytes.length % 8 ≠ 0 then .error (.corrupt "field encoding length")
      else if bytes.length / 8 > maxElements then .error (.limit "value exceeds read budget")
      else (bytes.toChunks 8).mapM decodeElement := by
  rw [deserializeGoldilocks, checkReadLimit]
  split_ifs <;> rfl

/-- What is written is read back. -/
theorem deserialize_serialize [NebuCanonical F] {value : List F} {n : Nat} (hvalue : value.length ≤ n)
    (hn : n ≤ MAX_VALUE_ELEMENTS) : deserialize (serialize value) n = .ok value := by
  have hlength := serialize_length value
  rw [deserialize, deserializeGoldilocks_eq, if_neg (by omega), if_neg (by omega), if_neg (by omega), serialize,
    mapM_decodeElement]
  · change Except.ok _ = _
    rw [List.map_map]
    congr 1
    exact (List.map_congr_left fun v _ => NebuRoundTrip.new_asU64 v).trans (List.map_id value)
  · intro v hv
    obtain ⟨w, -, rfl⟩ := List.mem_map.mp hv
    exact NebuCanonical.asU64_lt w

/-- What is accepted is canonical: the induction takes one chunk of the row at a time. -/
theorem serialize_of_mapM [NebuCanonical F] (bytes : List UInt8) (hlength : bytes.length % 8 = 0) {values : List UInt64}
    (h : (bytes.toChunks 8).mapM decodeElement = .ok values) :
    serialize (values.map (Nebu.new : UInt64 → F)) = bytes := by
  by_cases hnil : bytes = []
  · subst hnil
    obtain rfl := Except.ok.inj h
    rfl
  · have hpos : 0 < bytes.length := List.length_pos_iff.mpr hnil
    have hchunk : (bytes.take 8).length = 8 := by
      rw [List.length_take]
      omega
    rw [← List.take_append_drop 8 bytes, toChunks_append (by decide) hchunk, List.mapM_cons] at h
    obtain ⟨v, hv, h⟩ := exists_of_bind_ok h
    obtain ⟨vs, hvs, h⟩ := exists_of_bind_ok h
    obtain rfl := Except.ok.inj h
    have hrest := serialize_of_mapM (bytes.drop 8) (by rw [List.length_drop]; omega) hvs
    rw [decodeElement] at hv
    split_ifs at hv with hcanonical
    obtain rfl := Except.ok.inj hv
    rw [serialize, serializeGoldilocks] at hrest
    rw [List.map_cons, serialize, List.map_cons, serializeGoldilocks, List.flatMap_cons, hrest,
      NebuCanonical.asU64_new _ (Nat.not_le.mp hcanonical), u64LeBytes_u64FromLe hchunk, List.take_append_drop]
termination_by bytes.length

theorem serialize_of_deserialize [NebuCanonical F] {bytes : List UInt8} {n : Nat} {value : List F}
    (h : deserialize bytes n = .ok value) : serialize value = bytes := by
  rw [deserialize, deserializeGoldilocks_eq] at h
  split_ifs at h with hn hlength hlong
  · cases h
  · cases h
  · cases h
  cases hmap : (bytes.toChunks 8).mapM decodeElement with
  | error e =>
      rw [hmap] at h
      cases h
  | ok values =>
      rw [hmap] at h
      obtain rfl := Except.ok.inj h
      exact serialize_of_mapM bytes (not_not.mp hlength) hmap

/-! ### The store -/

structure DiskStore (F : Type) where
  db : Database
  pending : WriteBuffer F

structure ScanLimits where
  maxEntries : Nat
  maxElements : Nat

def MAX_SCAN_ENTRIES : Nat := 4096

def ScanLimits.validate (limits : ScanLimits) : Except StorageError Unit :=
  if limits.maxEntries = 0 ∨ limits.maxEntries > MAX_SCAN_ENTRIES then .error (.limit "scan entry count")
  else checkReadLimit limits.maxElements

abbrev ShardEntry (F : Type) := Bytes32 × List F

def copyValue (value : List F) (maxElements : Nat) : Except StorageError (List F) := do
  checkReadLimit maxElements
  if value.length > maxElements then .error (.limit "value exceeds read budget") else .ok value

def collectLoop (limits : ScanLimits) :
    List (ShardEntry F) → Nat → List (Except StorageError (ShardEntry F)) → Except StorageError (List (ShardEntry F))
  | page, _, [] => .ok page
  | _, _, .error e :: _ => .error e
  | page, elements, .ok entry :: rest =>
      if entry.2.length > limits.maxElements then .error (.limit "scan value exceeds page budget")
      else if entry.2.length > limits.maxElements - elements then .ok page
      else collectLoop limits (page ++ [entry]) (elements + entry.2.length) rest

def collectPage (entries : List (Except StorageError (ShardEntry F))) (limits : ScanLimits) :
    Except StorageError (List (ShardEntry F)) := do
  limits.validate
  collectLoop limits [] 0 (entries.take limits.maxEntries)

def scanCache (cache : OrdMap EntryKey (List F)) (dimension : UInt8) (after : Option Bytes32) (limits : ScanLimits) :
    Except StorageError (List (ShardEntry F)) := do
  checkDimension dimension
  limits.validate
  let range := cache.toList.filter fun e =>
    decide (e.1.dimension = dimension) && after.all fun key => (compare key e.1.key).isLT
  collectPage (range.map fun e => (copyValue e.2 limits.maxElements).map fun value => (e.1.key, value)) limits

namespace DiskStore

def new (db : Database) : DiskStore F := ⟨db, .empty⟩

def ready (s : DiskStore F) : Except StorageError Unit := do
  s.pending.ready
  match s.db.failure with
  | some e => .error e
  | none => .ok ()

def isPoisoned (s : DiskStore F) : Bool := s.pending.unknown.isSome || s.db.failure.isSome

def load (s : DiskStore F) (dimension : UInt8) (key : Bytes32) (limit : Nat) :
    Except StorageError (Option (List F)) := do
  s.ready
  checkDimension dimension
  checkReadLimit limit
  if dimension = EPHEMERAL then .ok none
  else do
    let row ← s.db.read (.shard dimension) key.toList (limit * 8)
    row.mapM fun bytes => deserialize bytes limit

def read (s : DiskStore F) (dimension : UInt8) (key : Bytes32) (maxElements : Nat) :
    Except StorageError (Option (List F)) := do
  s.ready
  checkDimension dimension
  checkReadLimit maxElements
  if s.pending.deleted.contains ⟨dimension, key⟩ then .ok none
  else
    match s.pending.cache[(⟨dimension, key⟩ : EntryKey)]? with
    | some value => (copyValue value maxElements).map some
    | none => s.load dimension key maxElements

def put (s : DiskStore F) (dimension : UInt8) (key : Bytes32) (value : List F) :
    Except StorageError (DiskStore F) := do
  s.ready
  let pending ← s.pending.put dimension key value
  .ok { s with pending := pending }

def remove (s : DiskStore F) (dimension : UInt8) (key : Bytes32) :
    Except StorageError (Option (List F) × DiskStore F) := do
  let value ← s.read dimension key MAX_VALUE_ELEMENTS
  let pending ← s.pending.delete dimension key
  .ok (value, { s with pending := pending })

def lastCommit (s : DiskStore F) : Except StorageError (Option Bytes32) := do
  s.ready
  s.db.commitMarker

/-- The closure of a commit. -/
def publish (pending : WriteBuffer F) (tx : Transaction) : Except StorageError (Unit × Transaction) := do
  let tx ← pending.dirty.foldlM (fun tx e => tx.putShard e.1.dimension e.1.key (e.2.map Nebu.asU64)) tx
  let tx ← pending.deleted.keys.foldlM (fun tx k => tx.remove (.shard k.dimension) k.key.toList) tx
  .ok ((), tx)

def commit (hemera : List UInt8 → Bytes32) (outcome : CommitOutcome) (s : DiskStore F) :
    Except StorageError Bytes32 × DiskStore F :=
  match s.ready with
  | .error e => (.error e, s)
  | .ok () =>
      if !s.pending.hasPending then (s.lastCommit.map fun id => id.getD (s.pending.changeId hemera), s)
      else
        match s.db.transact hemera id outcome (publish s.pending) with
        | (.ok commit, db) =>
            match commit.changeId with
            | some id => (.ok id, ⟨db, s.pending.finish⟩)
            | none => (.error (.corrupt "missing shard commit identity"), ⟨db, s.pending⟩)
        | (.error e, db) =>
            match e with
            | .commitUnknown _ _ => (.error e, ⟨db, { s.pending with unknown := some e }⟩)
            | _ => (.error e, ⟨db, s.pending⟩)

def scan (s : DiskStore F) (dimension : UInt8) (after : Option Bytes32) (limits : ScanLimits) :
    Except StorageError (List (ShardEntry F)) := do
  s.ready
  checkDimension dimension
  limits.validate
  s.pending.clean
  if dimension = EPHEMERAL then scanCache s.pending.cache dimension after limits
  else do
    let rows ← s.db.scan (.shard dimension) (after.map Vector.toList) []
      ⟨limits.maxEntries, limits.maxElements * 8 + limits.maxEntries * 32⟩
    collectPage (rows.map fun row =>
      if h : row.1.length = 32 then
        (deserialize row.2 limits.maxElements).map fun value => (⟨row.1.toArray, by simpa using h⟩, value)
      else .error (.corrupt "shard key length")) limits

end DiskStore

end LeanBbg.Storage
