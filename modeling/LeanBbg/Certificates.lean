import LeanBbg.RootBinding
import LeanBbg.RollingHash
import LeanBbg.ApplicationSpec
import Mathlib.Tactic.IntervalCases

/-! State certificates: the fourteen root leaves and the complete tables of some dimensions. A certificate
that verifies against the V1 root of a state shows the leaves and the tables of that state, and the state
gives a certificate for every set of dimensions within the field limit. -/

set_option linter.unusedSectionVars false

namespace LeanBbg

open Bytes

/-- `lens::brakedown::COMMITMENT_VERSION`. -/
class Lens where
  COMMITMENT_VERSION : UInt32

def CERTIFICATE_VERSION : UInt32 := 2

def MAX_FIELDS : Nat := 2 ^ 20

structure DimensionTable where
  ns : UInt64
  fields : List UInt64
  deriving DecidableEq

structure StateCertificate where
  version : UInt32
  lensVersion : UInt32
  /-- Public dimensions 0..10, A, N, statistics, in root-compression order. -/
  leaves : Vector (Vector UInt64 4) 14
  dimensions : List DimensionTable
  deriving DecidableEq

def Dim.fromU64 (v : UInt64) : Option Dim :=
  match v.toNat with
  | 0 => some .particles
  | 1 => some .axonsOut
  | 2 => some .axonsIn
  | 3 => some .neurons
  | 4 => some .locations
  | 5 => some .coins
  | 6 => some .cards
  | 7 => some .files
  | 8 => some .time
  | 9 => some .signals
  | 10 => some .balances
  | _ => none

theorem Dim.fromU64_of_le {v : UInt64} (h : v ≤ 10) : ∃ d, fromU64 v = some d := by
  have hle : v.toNat ≤ 10 := UInt64.le_iff_toNat_le.mp h
  unfold fromU64
  generalize v.toNat = i at hle ⊢
  interval_cases i <;> exact ⟨_, rfl⟩

/-- A word that is no canonical field representative. -/
def Noncanonical (v : UInt64) : Prop := v.toNat ≥ P

instance : DecidablePred Noncanonical := fun v => inferInstanceAs (Decidable (v.toNat ≥ P))

namespace DimensionTable

/-- The header does not fit the table, or a field is not canonical. -/
def Malformed (table : DimensionTable) : Prop :=
  table.fields.length < HEADER_FIELDS ∨ table.fields.getD 0 0 ≠ TABLE_VERSION ∨
    table.fields.getD 1 0 ≠ UInt64.ofNat table.fields.length ∨
    table.fields.getD 2 0 > UInt64.ofNat ((table.fields.length - HEADER_FIELDS) / KEY_FIELDS) ∨
    (table.fields.getD 2 0 = 0 ∧ table.fields.length ≠ HEADER_FIELDS) ∨ ∃ v ∈ table.fields, Noncanonical v

instance (table : DimensionTable) : Decidable table.Malformed := by
  unfold Malformed
  infer_instance

/-- The loop of `validate_shape`, with the previous namespace and the fields so far. -/
def validate : Option UInt64 → Nat → List DimensionTable → Except String Unit
  | _, _, [] => .ok ()
  | previous, total, table :: rest =>
      if table.ns > 10 ∨ previous.any (· ≥ table.ns) then
        .error "certificate namespaces must be unique, increasing and in 0..10"
      else if total + table.fields.length ≥ 2 ^ 64 then .error "certificate size overflow"
      else if total + table.fields.length > MAX_FIELDS then .error "certificate field limit exceeded"
      else if table.Malformed then .error "invalid dimension metadata or noncanonical field"
      else validate (some table.ns) (total + table.fields.length) rest

end DimensionTable

/-- `[u64; 4]` of a root in bytes. -/
def rootLimbs (root : Bytes32) : Vector UInt64 4 := Vector.ofFn fun i : Fin 4 => UInt64.ofNat (limbValue root i)

namespace StateCertificate

variable [Lens]

def validateShape (c : StateCertificate) : Except String Unit :=
  if c.version ≠ CERTIFICATE_VERSION ∨ c.lensVersion ≠ Lens.COMMITMENT_VERSION then
    .error "unsupported state certificate or commitment version"
  else if ∃ leaf ∈ c.leaves.toList, ∃ v ∈ leaf.toList, Noncanonical v then .error "noncanonical root leaf"
  else if c.dimensions.length > 11 then .error "too many certificate dimensions"
  else DimensionTable.validate none 0 c.dimensions

variable (F : Type) [Hemera F] [Brakedown F]

/-- Every table opens the leaf of its dimension; namespaces are in range here. -/
def checkTables (leaves : Vector (Vector UInt64 4) 14) : List DimensionTable → Except String Unit
  | [] => .ok ()
  | table :: rest =>
      let commitment := commitFields (table.fields.map new : List F)
      let expected := (leaves.toList.getD table.ns.toNat (Vector.replicate 4 0)).toList.flatMap u64LeBytes
      if commitment.toList ≠ expected then
        .error ("dimension " ++ toString table.ns ++ " does not match its root commitment")
      else checkTables leaves rest

omit [Brakedown F] in
def fieldLeaves (c : StateCertificate) : RootLeaves F where
  dims := Vector.ofFn fun i : Fin 11 => (c.leaves.get ⟨i, by omega⟩).map new
  a := c.leaves[11].map new
  n := c.leaves[12].map new
  stats := c.leaves[13].map new

/-- Authenticate every included table and recompute the complete state root. -/
def root (c : StateCertificate) : Except String (Vector UInt64 4) := do
  c.validateShape
  checkTables F c.leaves c.dimensions
  return (rootFromLeaves (c.fieldLeaves F)).map Nebu.asU64

def verify (c : StateCertificate) (expectedRoot : Vector UInt64 4) : Except String Unit :=
  if ∃ v ∈ expectedRoot.toList, Noncanonical v then .error "noncanonical expected state root"
  else do
    let root ← c.root F
    if root ≠ expectedRoot then .error "state certificate root mismatch" else .ok ()

end StateCertificate

variable {F : Type} [Hemera F] [DecidableEq F]

/-- The leaves as `[[u64; 4]; 14]`, in root-compression order. -/
def RootLeaves.words (leaves : RootLeaves F) : Vector (Vector UInt64 4) 14 :=
  ⟨(leaves.ordered.map fun leaf => leaf.map Nebu.asU64).toArray, by simp [ordered]⟩

namespace State

/-- The rows of a namespace in range. -/
def entries (s : State F) (ns : UInt64) : List (Bytes32 × List F) := s.dimEntries ((Dim.fromU64 ns).getD .particles)

def fieldCount (s : State F) (ns : UInt64) : Nat :=
  HEADER_FIELDS + ((s.entries ns).map fun e => KEY_FIELDS + e.2.length).sum

/-- The loop of `from_state`, with the fields so far; namespaces are in range here. -/
def dimensionTables (s : State F) : Nat → List UInt64 → Except String (List DimensionTable)
  | _, [] => .ok []
  | total, ns :: rest =>
      let count := s.fieldCount ns
      if total + count ≥ 2 ^ 64 then .error "certificate size overflow"
      else if total + count > MAX_FIELDS then .error "certificate field limit exceeded"
      else do
        let dimensions ← s.dimensionTables (total + count) rest
        return ⟨ns, (dimSerialize (s.entries ns)).map Nebu.asU64⟩ :: dimensions

end State

/-- `from_state`. -/
def StateCertificate.fromState [Lens] [Brakedown F] (s : State F) (namespaces : List UInt64) :
    Except String StateCertificate :=
  if namespaces.length > 11 ∨ ∃ ns ∈ namespaces, ns > 10 then .error "certificate namespaces must be in 0..10"
  else
    let sorted := namespaces.mergeSort
    if ∃ pair ∈ sorted.zip sorted.tail, pair.1 = pair.2 then .error "duplicate certificate namespace"
    else do
      let dimensions ← s.dimensionTables 0 sorted
      let certificate : StateCertificate :=
        ⟨CERTIFICATE_VERSION, Lens.COMMITMENT_VERSION, s.rootLeaves.words, dimensions⟩
      let root ← certificate.root F
      if root.toList.flatMap u64LeBytes ≠ s.root.toList then
        .error "stale cached BBG root; refresh state after mutation"
      else return certificate

/-! ### Words as field elements -/

variable (F) in
/-- `as_u64` inverts `new` on canonical words, and the elements of a compression have canonical values. -/
structure NebuReduced : Prop where
  asU64_new : ∀ x : UInt64, x.toNat < P → Nebu.asU64 (new x : F) = x
  asU64_compress4 : ∀ a b : Digest F, ∀ v ∈ (compress4 a b).toList, (Nebu.asU64 v).toNat < P

/-- The element of a canonical word. -/
def IsWord (v : F) : Prop := ∃ x : UInt64, x.toNat < P ∧ v = new x

/-- The element of a 32-bit limb. -/
def IsLimb (v : F) : Prop := ∃ x : UInt64, x.toNat < 2 ^ 32 ∧ v = new x

theorem IsLimb.isWord {v : F} (h : IsLimb v) : IsWord v := by
  obtain ⟨x, hx, rfl⟩ := h
  exact ⟨x, hx.trans (by decide), rfl⟩

theorem IsWord.new_asU64 (hr : NebuReduced F) {v : F} (h : IsWord v) : new (Nebu.asU64 v) = v := by
  obtain ⟨x, hx, rfl⟩ := h
  rw [hr.asU64_new x hx]

theorem IsWord.asU64_lt (hr : NebuReduced F) {v : F} (h : IsWord v) : (Nebu.asU64 v).toNat < P := by
  obtain ⟨x, hx, rfl⟩ := h
  rwa [hr.asU64_new x hx]

theorem map_new_asU64 (hr : NebuReduced F) {l : List F} (h : ∀ v ∈ l, IsWord v) :
    (l.map Nebu.asU64).map new = l := by
  rw [List.map_map]
  exact (List.map_congr_left fun v hv => (h v hv).new_asU64 hr).trans (List.map_id l)

theorem map_asU64_new (hr : NebuReduced F) {l : List UInt64} (h : ∀ v ∈ l, ¬Noncanonical v) :
    (l.map (new : UInt64 → F)).map Nebu.asU64 = l := by
  rw [List.map_map]
  exact (List.map_congr_left fun v hv => hr.asU64_new v (Nat.not_le.mp (h v hv))).trans (List.map_id l)

theorem lowLimb_lt (x : UInt64) : (x &&& 0xffffffff).toNat < 2 ^ 32 := by
  rw [UInt64.toNat_and]
  exact Nat.lt_of_le_of_lt Nat.and_le_right (by decide)

theorem highLimb_lt (x : UInt64) : (x >>> 32).toNat < 2 ^ 32 := by
  have hx := x.toNat_lt
  rw [UInt64.toNat_shiftRight]
  exact Nat.lt_of_le_of_lt (Nat.shiftRight_eq_div_pow x.toNat 32).le (by omega)

theorem isLimb_u64Limbs (x : UInt64) : ∀ v ∈ (u64Limbs x : List F), IsLimb v := by
  intro v hv
  simp only [u64Limbs, List.mem_cons, List.not_mem_nil, or_false] at hv
  rcases hv with rfl | rfl
  · exact ⟨_, lowLimb_lt x, rfl⟩
  · exact ⟨_, highLimb_lt x, rfl⟩

theorem isLimb_bytes32Limbs (b : Bytes32) : ∀ v ∈ (bytes32Limbs b : List F), IsLimb v := by
  intro v hv
  obtain ⟨i, -, rfl⟩ := List.mem_map.mp hv
  refine ⟨_, ?_, rfl⟩
  have hlen : ((b.toList.drop (4 * i)).take 4).length ≤ 4 := by simp
  have hlt := (leValue_lt ((b.toList.drop (4 * i)).take 4)).trans_le (Nat.pow_le_pow_right (by decide) hlen)
  rw [UInt64.toNat_ofNat']
  exact (Nat.mod_le _ _).trans_lt (hlt.trans_le (by decide))

/-! ### Cells of a table -/

theorem isLimb_scalarFields (words : List UInt64) : ∀ v ∈ (scalarFields words : List F), IsLimb v := by
  intro v hv
  obtain ⟨x, -, hx⟩ := List.mem_flatMap.mp hv
  exact isLimb_u64Limbs x v hx

theorem isLimb_keyedEntries {K V : Type} [Ord K] [TrieKey K] [LawfulTrieKey K] [LeafValue F V]
    (hleaf : ∀ value : V, ∀ v ∈ (leafVals value : List F), IsLimb v) (map : OrdMap K V) :
    ∀ e ∈ (keyedEntries map : List (Bytes32 × List F)), ∀ v ∈ e.2, IsLimb v := by
  intro e he
  obtain ⟨entry, -, rfl⟩ := List.mem_map.mp he
  exact hleaf entry.2

theorem isLimb_adjacencyEntries (A : Adjacency) :
    ∀ e ∈ (adjacencyEntries A : List (Bytes32 × List F)), ∀ v ∈ e.2, IsLimb v := by
  intro e he v hv
  obtain ⟨entry, -, rfl⟩ := List.mem_map.mp he
  rcases List.mem_append.mp hv with hv | hv
  · exact isLimb_u64Limbs _ v hv
  · obtain ⟨axon, -, hv⟩ := List.mem_flatMap.mp hv
    exact isLimb_bytes32Limbs axon v hv

/-- The public dimensions hold limbs only. -/
theorem State.isLimb_dimEntries (s : State F) (d : Dim) : ∀ e ∈ s.dimEntries d, ∀ v ∈ e.2, IsLimb v := by
  cases d with
  | particles => exact isLimb_keyedEntries (fun p => isLimb_scalarFields p.words) s.particles
  | axonsOut => exact isLimb_adjacencyEntries s.axonsOut
  | axonsIn => exact isLimb_adjacencyEntries s.axonsIn
  | neurons => exact isLimb_keyedEntries (fun n => isLimb_scalarFields n.words) s.neurons
  | locations => exact isLimb_keyedEntries (fun l => isLimb_scalarFields l.words) s.locations
  | coins => exact isLimb_keyedEntries (fun c => isLimb_u64Limbs c.totalSupply) s.coins
  | cards =>
      refine isLimb_keyedEntries (fun c v hv => ?_) s.cards
      simp only [leafVals, List.mem_append] at hv
      rcases hv with hv | hv | hv | hv | hv
      · exact isLimb_bytes32Limbs _ v hv
      · exact isLimb_bytes32Limbs _ v hv
      · exact isLimb_bytes32Limbs _ v hv
      · exact isLimb_u64Limbs _ v hv
      · exact isLimb_u64Limbs _ v hv
  | files => exact isLimb_keyedEntries (fun f => isLimb_scalarFields f.words) s.files
  | time => exact isLimb_keyedEntries isLimb_bytes32Limbs s.time
  | signals =>
      refine isLimb_keyedEntries (fun c v hv => ?_) s.signals
      simp only [leafVals, List.mem_append] at hv
      rcases hv with hv | hv | hv | hv | hv | hv
      · exact isLimb_bytes32Limbs _ v hv
      · exact isLimb_bytes32Limbs _ v hv
      · exact isLimb_u64Limbs _ v hv
      · exact isLimb_u64Limbs _ v hv
      · exact isLimb_bytes32Limbs _ v hv
      · exact isLimb_u64Limbs _ v hv
  | balances => exact isLimb_keyedEntries isLimb_u64Limbs s.balances

theorem dimSerialize_length (entries : List (Bytes32 × List F)) :
    (dimSerialize entries).length = HEADER_FIELDS + (entries.map fun e => KEY_FIELDS + e.2.length).sum := by
  rw [dimSerialize, List.length_append, List.length_flatMap]
  simp only [List.length_append, bytes32Limbs_length]
  rfl

theorem entries_le_length (entries : List (Bytes32 × List F)) :
    HEADER_FIELDS + KEY_FIELDS * entries.length ≤ (dimSerialize entries).length := by
  rw [dimSerialize_length]
  induction entries with
  | nil => exact Nat.le_refl _
  | cons e entries ih =>
      rw [List.map_cons, List.sum_cons, List.length_cons, Nat.mul_succ]
      omega

theorem isWord_dimSerialize {entries : List (Bytes32 × List F)} (hlimbs : ∀ e ∈ entries, ∀ v ∈ e.2, IsLimb v)
    (hlen : (dimSerialize entries).length < P) : ∀ v ∈ dimSerialize entries, IsWord v := by
  have hsmall : ∀ n ≤ (dimSerialize entries).length, (UInt64.ofNat n).toNat < P := by
    intro n hn
    rw [UInt64.toNat_ofNat']
    exact (Nat.mod_le _ _).trans_lt (hn.trans_lt hlen)
  have hentries := entries_le_length entries
  intro v hv
  rcases List.mem_append.mp hv with hv | hv
  · simp only [List.mem_cons, List.not_mem_nil, or_false] at hv
    rcases hv with rfl | rfl | rfl
    · exact ⟨_, by decide, rfl⟩
    · exact ⟨_, hsmall _ (dimSerialize_length entries).ge, rfl⟩
    · exact ⟨_, hsmall _ (by rw [KEY_FIELDS] at hentries; omega), rfl⟩
  · obtain ⟨e, he, hv⟩ := List.mem_flatMap.mp hv
    rcases List.mem_append.mp hv with hv | hv
    · exact (isLimb_bytes32Limbs e.1 v hv).isWord
    · exact (hlimbs e he v hv).isWord

/-! ### Padding -/

theorem nextPowerOfTwo_bounds (n : Nat) : n ≤ nextPowerOfTwo n ∧ nextPowerOfTwo n ≤ max 1 (2 * n) := by
  refine ⟨Nat.le_pow_clog (by decide) n, ?_⟩
  rcases Nat.lt_or_ge 1 n with hlt | hle
  · have hpos := Nat.clog_pos (b := 2) (by decide) hlt
    have hpred := Nat.pow_pred_clog_lt_self (b := 2) (by decide) hlt
    have hsucc : 2 ^ Nat.clog 2 n = 2 ^ (Nat.clog 2 n).pred * 2 := by
      rw [← Nat.pow_succ, Nat.succ_pred hpos.ne']
    rw [nextPowerOfTwo, hsucc]
    omega
  · rw [nextPowerOfTwo, Nat.clog_of_right_le_one hle]
    exact le_max_left 1 (2 * n)

theorem padded_length (fields : List F) : (padded fields).length = nextPowerOfTwo fields.length := by
  have hle := (nextPowerOfTwo_bounds fields.length).1
  rw [padded, List.length_append, List.length_replicate]
  exact Nat.add_sub_cancel' hle

theorem padded_getElem? {fields : List F} {i : Nat} (hi : i < fields.length) : (padded fields)[i]? = fields[i]? :=
  List.getElem?_append_left hi

/-- The length word of the header tells a table from every longer or shorter one with the same padding. -/
theorem eq_of_padded_eq (hs : Symbolic F) {table : DimensionTable} {entries : List (Bytes32 × List F)}
    (hfit : ¬table.Malformed) (hmax : table.fields.length ≤ MAX_FIELDS)
    (h : padded (table.fields.map new) = padded (dimSerialize entries)) :
    table.fields.map new = dimSerialize entries := by
  simp only [DimensionTable.Malformed, not_or, not_not] at hfit
  obtain ⟨hheader, -, hlength, -⟩ := hfit
  have hheader : 3 ≤ table.fields.length := Nat.not_lt.mp hheader
  have hpow := congrArg List.length h
  rw [padded_length, padded_length, List.length_map] at hpow
  have hserial : (dimSerialize entries).length ≤ 2 * MAX_FIELDS := by
    have hle := (nextPowerOfTwo_bounds (dimSerialize entries).length).1
    have hge := (nextPowerOfTwo_bounds table.fields.length).2
    omega
  have hword : (new (UInt64.ofNat table.fields.length) : F) = new (UInt64.ofNat (dimSerialize entries).length) := by
    have hget := congrArg (fun l : List F => l[1]?) h
    rw [padded_getElem? (by rw [List.length_map]; omega),
      padded_getElem? (by have := entries_le_length entries; rw [HEADER_FIELDS] at this; omega), List.getElem?_map,
      List.getElem?_eq_getElem (by omega)] at hget
    rw [List.getD_eq_getElem _ _ (by omega)] at hlength
    rw [← hlength, dimSerialize_length]
    exact Option.some.inj hget
  have hsmall : ∀ n ≤ 2 * MAX_FIELDS, (UInt64.ofNat n).toNat = n := by
    intro n hn
    rw [UInt64.toNat_ofNat', Nat.mod_eq_of_lt (hn.trans_lt (by decide))]
  have hlen : table.fields.length = (dimSerialize entries).length := by
    have hcanonical : ∀ n ≤ 2 * MAX_FIELDS, (UInt64.ofNat n).toNat < P := by
      intro n hn
      rw [hsmall n hn]
      exact hn.trans_lt (by decide)
    have hinj := hs.new_injective _ _ (hcanonical _ (by omega)) (hcanonical _ hserial) hword
    have hnat := congrArg UInt64.toNat hinj
    rwa [hsmall _ (by omega), hsmall _ hserial] at hnat
  exact (List.append_inj h (by rw [List.length_map, hlen])).1

/-! ### Limbs of digests -/

/-- The chunks of a list are the list. -/
theorem flatMap_chunks {α : Type} (l : List α) (width n : Nat) :
    (List.range n).flatMap (fun i => (l.drop (width * i)).take width) = l.take (width * n) := by
  induction n with
  | zero => rfl
  | succ n ih =>
      rw [List.range_succ, List.flatMap_append, ih, List.flatMap_singleton, Nat.mul_succ, List.take_add]

theorem rootLimbs_flatMap (b : Bytes32) : (rootLimbs b).toList.flatMap u64LeBytes = b.toList := by
  have hchunk : ∀ i < 4, u64LeBytes (UInt64.ofNat (limbValue b i)) = (b.toList.drop (8 * i)).take 8 := by
    intro i hi
    exact Storage.u64LeBytes_u64FromLe (by rw [List.length_take, List.length_drop, Vector.length_toList]; omega)
  have hlist : (rootLimbs b).toList = (List.range 4).map fun i => UInt64.ofNat (limbValue b i) := by
    rw [rootLimbs, Vector.toList_ofFn]
    rfl
  rw [hlist, List.flatMap_map, List.flatMap_congr fun i hi => hchunk i (List.mem_range.mp hi), flatMap_chunks]
  exact List.take_of_length_le (by simp)

theorem rootLimbs_rootToBytes (d : Digest F) : rootLimbs (rootToBytes d) = d.map Nebu.asU64 := by
  apply Vector.toList_inj.mp
  apply flatMap_u64LeBytes_injective
  rw [rootLimbs_flatMap, Vector.toList_map, List.flatMap_map]
  exact Vector.toList_mk

theorem map_asU64_digestLimbs (hr : NebuReduced F) {b : Bytes32} (hb : CanonicalDigest b) :
    (digestLimbs b : Digest F).map Nebu.asU64 = rootLimbs b := by
  have hlt : ∀ i < 4, limbValue b i < 2 ^ 64 := fun i hi => (hb i hi).trans (by decide)
  apply Vector.ext
  intro i hi
  rw [Vector.getElem_map, digestLimbs, rootLimbs, Vector.getElem_ofFn, Vector.getElem_ofFn]
  refine hr.asU64_new _ ?_
  rw [UInt64.toNat_ofNat', Nat.mod_eq_of_lt (hlt i hi)]
  exact hb i hi

/-- A leaf made of the limbs of a canonical digest. -/
def Digested (leaf : Digest F) : Prop := ∃ b, CanonicalDigest b ∧ leaf = digestLimbs b

theorem Digested.isWord {leaf : Digest F} (h : Digested leaf) : ∀ v ∈ leaf.toList, IsWord v := by
  obtain ⟨b, hb, rfl⟩ := h
  intro v hv
  rw [digestLimbs, Vector.toList_ofFn] at hv
  obtain ⟨i, rfl⟩ := (List.mem_ofFn' _ _).mp hv
  refine ⟨_, ?_, rfl⟩
  rw [UInt64.toNat_ofNat']
  exact (Nat.mod_le _ _).trans_lt (hb i i.isLt)

section Leaves

variable [Brakedown F] {s : State F}

theorem State.digested_rootLeaves (hv : s.rootVersion = .v1) : ∀ leaf ∈ s.rootLeaves.ordered, Digested leaf := by
  have hcommit : ∀ entries : List (Bytes32 × List F), Digested (digestLimbs (commitDim entries) : Digest F) := by
    intro entries
    exact ⟨_, Brakedown.commit_canonical _, rfl⟩
  have hstats : Digested (digestLimbs (s.statistics.commit F) : Digest F) := ⟨_, Hemera.hash_canonical _, rfl⟩
  simp only [RootLeaves.ordered, rootLeaves, hv, v1Leaves]
  simp [hcommit, hstats]

/-- The leaf of a namespace holds the commitment to its table. -/
theorem State.words_getD (hr : NebuReduced F) (hv : s.rootVersion = .v1) {ns : UInt64} (hns : ns ≤ 10) :
    s.rootLeaves.words.toList.getD ns.toNat (Vector.replicate 4 0) = rootLimbs (commitDim (s.entries ns)) := by
  have hle : ns.toNat ≤ 10 := UInt64.le_iff_toNat_le.mp hns
  have hcanonical : CanonicalDigest (commitDim (s.entries ns)) := Brakedown.commit_canonical _
  rw [← map_asU64_digestLimbs hr hcanonical]
  simp only [RootLeaves.words, RootLeaves.ordered, rootLeaves, hv, v1Leaves, entries, Dim.fromU64]
  generalize ns.toNat = i at hle ⊢
  interval_cases i <;> rfl

end Leaves

namespace StateCertificate

theorem fieldLeaves_ordered (c : StateCertificate) :
    (c.fieldLeaves F).ordered = c.leaves.toList.map fun leaf => leaf.map new := by
  refine List.ext_getElem (by simp [RootLeaves.ordered]) fun i hi hi' => ?_
  have hlt : i < 14 := by simpa [RootLeaves.ordered] using hi
  simp only [fieldLeaves, RootLeaves.ordered, List.getElem_map, Vector.getElem_toList]
  interval_cases i <;> rfl

/-- The words of digested leaves give the leaves back. -/
theorem words_map_new (hr : NebuReduced F) {leaves : RootLeaves F} (h : ∀ leaf ∈ leaves.ordered, Digested leaf) :
    leaves.words.toList.map (fun leaf => leaf.map new) = leaves.ordered := by
  have hlist : leaves.words.toList = leaves.ordered.map fun leaf => leaf.map Nebu.asU64 := Vector.toList_mk
  rw [hlist, List.map_map]
  refine (List.map_congr_left fun leaf hleaf => ?_).trans (List.map_id _)
  apply Vector.toList_inj.mp
  rw [Function.comp_apply, Vector.toList_map, Vector.toList_map]
  exact map_new_asU64 hr (h leaf hleaf).isWord

/-! ### Soundness -/

/-- What a table that passed `validate_shape` satisfies. -/
theorem validate_ok {previous : Option UInt64} {total : Nat} {tables : List DimensionTable}
    (h : DimensionTable.validate previous total tables = .ok ()) :
    ∀ table ∈ tables, table.ns ≤ 10 ∧ table.fields.length ≤ MAX_FIELDS ∧ ¬table.Malformed := by
  induction tables generalizing previous total with
  | nil => simp
  | cons table rest ih =>
      rw [DimensionTable.validate] at h
      split_ifs at h with hns hover hmax hmal
      intro t ht
      rcases List.mem_cons.mp ht with rfl | ht
      · rw [not_or] at hns
        exact ⟨UInt64.not_lt.mp hns.1, by omega, hmal⟩
      · exact ih h t ht

variable [Brakedown F]

theorem checkTables_ok {leaves : Vector (Vector UInt64 4) 14} {tables : List DimensionTable} :
    checkTables F leaves tables = .ok () ↔ ∀ table ∈ tables, (commitFields (table.fields.map new : List F)).toList =
      (leaves.toList.getD table.ns.toNat (Vector.replicate 4 0)).toList.flatMap u64LeBytes := by
  induction tables with
  | nil => simp [checkTables]
  | cons table rest ih =>
      rw [checkTables, List.forall_mem_cons, ← ih]
      split_ifs with hne
      · exact ⟨(nomatch ·), fun h => absurd h.1 hne⟩
      · exact ⟨fun h => ⟨not_not.mp hne, h⟩, fun h => h.2⟩

variable [Lens]

/-- What a certificate that verifies satisfies. -/
theorem verify_ok {c : StateCertificate} {expectedRoot : Vector UInt64 4} (h : c.verify F expectedRoot = .ok ()) :
    (∀ leaf ∈ c.leaves.toList, ∀ v ∈ leaf.toList, ¬Noncanonical v) ∧
      DimensionTable.validate none 0 c.dimensions = .ok () ∧ checkTables F c.leaves c.dimensions = .ok () ∧
      (rootFromLeaves (c.fieldLeaves F)).map Nebu.asU64 = expectedRoot := by
  rw [verify, root] at h
  split_ifs at h with hexpected
  cases hshape : c.validateShape with
  | error e =>
      rw [hshape] at h
      cases h
  | ok u =>
      cases htables : checkTables F c.leaves c.dimensions with
      | error e =>
          rw [hshape, htables] at h
          cases h
      | ok u =>
          rw [hshape, htables] at h
          change (if (rootFromLeaves (c.fieldLeaves F)).map Nebu.asU64 ≠ expectedRoot then _ else _) = _ at h
          split_ifs at h with hroot
          rw [validateShape] at hshape
          split_ifs at hshape with hversion hleaves hcount
          refine ⟨?_, hshape, rfl, not_not.mp hroot⟩
          intro leaf hleaf v hv hnon
          exact hleaves ⟨leaf, hleaf, v, hv, hnon⟩

/-- The limbs of the two roots compared determine them, and the commitment does not identify a table of the
certificate with another table of its namespace. -/
structure Binds (c : StateCertificate) (s : State F) : Prop where
  root_injective : (rootFromLeaves (c.fieldLeaves F)).map Nebu.asU64 = (rootFromLeaves s.rootLeaves).map Nebu.asU64 →
    rootFromLeaves (c.fieldLeaves F) = rootFromLeaves s.rootLeaves
  commit_injective : ∀ table ∈ c.dimensions,
    Brakedown.commit (padded (table.fields.map new : List F)) =
        Brakedown.commit (padded (dimSerialize (s.entries table.ns))) →
      padded (table.fields.map new) = padded (dimSerialize (s.entries table.ns))

/-- The root fold determines the leaves of a certificate. -/
theorem leaves_of_verify (hs : Symbolic F) (hr : NebuReduced F) {s : State F} {c : StateCertificate}
    (hb : Binds c s) (h : c.verify F (rootLimbs s.root) = .ok ()) : c.leaves = s.rootLeaves.words := by
  obtain ⟨hcanonical, -, -, hroot⟩ := verify_ok h
  rw [State.root, rootLimbs_rootToBytes] at hroot
  obtain ⟨-, hordered⟩ := hs.free.foldl_injective (.inr (.inr rfl)) (.inr (.inr rfl)) (hb.root_injective hroot)
  rw [fieldLeaves_ordered] at hordered
  apply Vector.toList_inj.mp
  have hwords : s.rootLeaves.words.toList = s.rootLeaves.ordered.map fun leaf => leaf.map Nebu.asU64 := Vector.toList_mk
  rw [hwords, ← hordered, List.map_map]
  refine ((List.map_congr_left fun leaf hleaf => ?_).trans (List.map_id _)).symm
  apply Vector.toList_inj.mp
  rw [Function.comp_apply, Vector.toList_map, Vector.toList_map]
  exact map_asU64_new hr (hcanonical leaf hleaf)

/-- A table that opens the state's own leaf is the state's table. -/
theorem fields_of_verify (hs : Symbolic F) (hr : NebuReduced F) {s : State F} (hv : s.rootVersion = .v1)
    {c : StateCertificate} (hb : Binds c s) (h : c.verify F (rootLimbs s.root) = .ok ()) :
    ∀ table ∈ c.dimensions, table.ns ≤ 10 ∧
      table.fields = (dimSerialize (s.entries table.ns)).map Nebu.asU64 := by
  intro table htable
  have hleaves := leaves_of_verify hs hr hb h
  obtain ⟨-, hvalid, hchecked, -⟩ := verify_ok h
  obtain ⟨hns, hmax, hfit⟩ := validate_ok hvalid table htable
  have hopen := checkTables_ok.mp hchecked table htable
  rw [hleaves, State.words_getD hr hv hns, rootLimbs_flatMap] at hopen
  have hpadded := hb.commit_injective table htable (Vector.toList_inj.mp hopen)
  have hfields := eq_of_padded_eq hs hfit hmax hpadded
  refine ⟨hns, ?_⟩
  rw [← hfields]
  refine (map_asU64_new hr fun v hv hnon => ?_).symm
  exact hfit (.inr (.inr (.inr (.inr (.inr ⟨v, hv, hnon⟩)))))

/-! ### Completeness -/

end StateCertificate

namespace State

/-- The table `from_state` puts into a certificate. -/
def dimensionTable (s : State F) (ns : UInt64) : DimensionTable := ⟨ns, (dimSerialize (s.entries ns)).map Nebu.asU64⟩

theorem dimensionTable_length (s : State F) (ns : UInt64) : (s.dimensionTable ns).fields.length = s.fieldCount ns := by
  rw [dimensionTable, List.length_map, dimSerialize_length, fieldCount]

theorem dimensionTables_ok {s : State F} {total : Nat} {nss : List UInt64}
    (h : total + (nss.map s.fieldCount).sum ≤ MAX_FIELDS) :
    s.dimensionTables total nss = .ok (nss.map s.dimensionTable) := by
  induction nss generalizing total with
  | nil => rfl
  | cons ns rest ih =>
      rw [List.map_cons, List.sum_cons, ← Nat.add_assoc] at h
      have hmax : total + s.fieldCount ns ≤ MAX_FIELDS := (Nat.le_add_right _ _).trans h
      rw [dimensionTables, if_neg (Nat.not_le.mpr (hmax.trans_lt (by decide))), if_neg (Nat.not_lt.mpr hmax), ih h]
      rfl

theorem isWord_table (s : State F) {ns : UInt64} (hmax : s.fieldCount ns ≤ MAX_FIELDS) :
    ∀ v ∈ dimSerialize (s.entries ns), IsWord v := by
  refine isWord_dimSerialize (s.isLimb_dimEntries _) ?_
  rw [dimSerialize_length]
  exact hmax.trans_lt (by decide)

theorem dimensionTable_fits (hr : NebuReduced F) (s : State F) {ns : UInt64} (hmax : s.fieldCount ns ≤ MAX_FIELDS) :
    ¬(s.dimensionTable ns).Malformed := by
  have hwords := s.isWord_table hmax
  have hlen := s.dimensionTable_length ns
  have hentries := entries_le_length (s.entries ns)
  rw [dimSerialize_length, ← fieldCount, HEADER_FIELDS, KEY_FIELDS] at hentries
  have hmax' : s.fieldCount ns < 2 ^ 64 := hmax.trans_lt (by decide)
  have hsmall : ∀ n ≤ s.fieldCount ns, Nebu.asU64 (LeanBbg.new (UInt64.ofNat n) : F) = UInt64.ofNat n := by
    intro n hn
    refine hr.asU64_new _ ?_
    rw [UInt64.toNat_ofNat']
    exact (Nat.mod_le _ _).trans_lt (hn.trans_lt (hmax.trans_lt (by decide)))
  have hcount : (s.dimensionTable ns).fields.getD 2 0 = UInt64.ofNat (s.entries ns).length := hsmall _ (by omega)
  have hcountNat : (UInt64.ofNat (s.entries ns).length).toNat = (s.entries ns).length := by
    rw [UInt64.toNat_ofNat', Nat.mod_eq_of_lt (by omega)]
  rintro (h | h | h | h | h | h)
  · rw [hlen, HEADER_FIELDS] at h
    omega
  · exact h (hr.asU64_new _ (by decide))
  · rw [hlen] at h
    exact h (hsmall _ (Nat.le_refl _))
  · rw [hcount, hlen, gt_iff_lt, UInt64.lt_iff_toNat_lt, hcountNat, UInt64.toNat_ofNat', HEADER_FIELDS, KEY_FIELDS,
      Nat.mod_eq_of_lt (by omega)] at h
    omega
  · obtain ⟨hzero, hne⟩ := h
    rw [hcount] at hzero
    have hnil : (s.entries ns).length = 0 := by
      rw [← hcountNat, hzero]
      rfl
    rw [hlen, fieldCount, List.eq_nil_of_length_eq_zero hnil] at hne
    exact hne rfl
  · obtain ⟨v, hv, hnon⟩ := h
    obtain ⟨x, hx, rfl⟩ := List.mem_map.mp hv
    exact absurd ((hwords x hx).asU64_lt hr) (Nat.not_lt.mpr hnon)

/-- The honest tables of increasing namespaces pass `validate_shape`. -/
theorem validate_dimensionTables (hr : NebuReduced F) {s : State F} {previous : Option UInt64} {total : Nat}
    {nss : List UInt64} (hprevious : ∀ p ∈ previous, ∀ ns ∈ nss, p < ns) (hsorted : nss.Pairwise (· < ·))
    (hrange : ∀ ns ∈ nss, ns ≤ 10) (h : total + (nss.map s.fieldCount).sum ≤ MAX_FIELDS) :
    DimensionTable.validate previous total (nss.map s.dimensionTable) = .ok () := by
  induction nss generalizing previous total with
  | nil => rfl
  | cons ns rest ih =>
      obtain ⟨hfirst, hrest⟩ := List.pairwise_cons.mp hsorted
      rw [List.map_cons, List.sum_cons, ← Nat.add_assoc] at h
      have hmax : total + s.fieldCount ns ≤ MAX_FIELDS := (Nat.le_add_right _ _).trans h
      have hns : ¬((s.dimensionTable ns).ns > 10 ∨ previous.any (· ≥ (s.dimensionTable ns).ns)) := by
        rintro (hgt | hany)
        · exact absurd (hrange ns List.mem_cons_self) (UInt64.not_le.mpr hgt)
        · obtain ⟨p, hp, hle⟩ := (Option.any_eq_true _ _).mp hany
          exact absurd (hprevious p hp ns List.mem_cons_self) (UInt64.not_lt.mpr (of_decide_eq_true hle))
      rw [List.map_cons, DimensionTable.validate, if_neg hns, dimensionTable_length,
        if_neg (Nat.not_le.mpr (hmax.trans_lt (by decide))), if_neg (Nat.not_lt.mpr hmax),
        if_neg (dimensionTable_fits hr s (by omega))]
      refine ih ?_ hrest (fun n hn => hrange n (List.mem_cons_of_mem _ hn)) h
      intro p hp n hn
      obtain rfl := Option.some.inj hp
      exact hfirst n hn

end State

section Lists

theorem lt_of_mem_zip_tail {l : List UInt64} (h : l.Pairwise (· < ·)) : ∀ pair ∈ l.zip l.tail, pair.1 < pair.2 := by
  induction l with
  | nil => simp
  | cons x l ih =>
      cases l with
      | nil => simp
      | cons y l =>
          obtain ⟨hx, hl⟩ := List.pairwise_cons.mp h
          intro pair hpair
          rcases List.mem_cons.mp hpair with rfl | hpair
          · exact hx y List.mem_cons_self
          · exact ih hl pair hpair

/-- Sorting distinct words gives an increasing list. -/
theorem pairwise_lt_mergeSort {l : List UInt64} (h : l.Nodup) : l.mergeSort.Pairwise (· < ·) := by
  have hsorted : l.mergeSort.Pairwise (· ≤ ·) := by
    refine (List.pairwise_mergeSort (fun a b c hab hbc => ?_) (fun a b => ?_) l).imp of_decide_eq_true
    · exact decide_eq_true (UInt64.le_trans (of_decide_eq_true hab) (of_decide_eq_true hbc))
    · simpa using UInt64.le_total a b
  have hnodup : l.mergeSort.Pairwise (· ≠ ·) := (List.mergeSort_perm l _).nodup_iff.mpr h
  exact (hsorted.and hnodup).imp fun hab => UInt64.lt_of_le_of_ne hab.1 hab.2

/-- There are eleven namespaces. -/
theorem length_le_of_nodup {l : List UInt64} (h : l.Nodup) (hrange : ∀ ns ∈ l, ns ≤ 10) : l.length ≤ 11 := by
  have hnodup : (l.map UInt64.toNat).Nodup := h.map fun _ _ => UInt64.toNat_inj.mp
  have hsub : l.map UInt64.toNat ⊆ List.range 11 := by
    intro n hn
    obtain ⟨ns, hns, rfl⟩ := List.mem_map.mp hn
    have := UInt64.le_iff_toNat_le.mp (hrange ns hns)
    exact List.mem_range.mpr (Nat.lt_succ_of_le this)
  have := (hnodup.subperm hsub).length_le
  rwa [List.length_map, List.length_range] at this

end Lists

namespace StateCertificate

variable [Brakedown F] [Lens]

/-- The certificate of a state for increasing namespaces. -/
def honest (s : State F) (nss : List UInt64) : StateCertificate :=
  ⟨CERTIFICATE_VERSION, Lens.COMMITMENT_VERSION, s.rootLeaves.words, nss.map s.dimensionTable⟩

theorem honest_fieldLeaves (hr : NebuReduced F) {s : State F} (hv : s.rootVersion = .v1) (nss : List UInt64) :
    rootFromLeaves ((honest s nss).fieldLeaves F) = rootFromLeaves s.rootLeaves := by
  rw [rootFromLeaves, fieldLeaves_ordered, honest, words_map_new hr (State.digested_rootLeaves hv), rootFromLeaves]

/-- An honest certificate is compared with the state's own leaves and tables. -/
theorem honest_binds (hr : NebuReduced F) {s : State F} (hv : s.rootVersion = .v1) {nss : List UInt64}
    (hmax : ∀ ns ∈ nss, s.fieldCount ns ≤ MAX_FIELDS) : Binds (honest s nss) s where
  root_injective _ := honest_fieldLeaves hr hv nss
  commit_injective table htable _ := by
    obtain ⟨ns, hns, rfl⟩ := List.mem_map.mp htable
    rw [State.dimensionTable, map_new_asU64 hr (s.isWord_table (hmax ns hns))]

theorem honest_root (hr : NebuReduced F) {s : State F} (hv : s.rootVersion = .v1) {nss : List UInt64}
    (hsorted : nss.Pairwise (· < ·)) (hrange : ∀ ns ∈ nss, ns ≤ 10)
    (hmax : (nss.map s.fieldCount).sum ≤ MAX_FIELDS) :
    (honest s nss).root F = .ok ((rootFromLeaves s.rootLeaves).map Nebu.asU64) := by
  have hdigested := State.digested_rootLeaves hv
  have hcanonical : ¬∃ leaf ∈ (honest s nss).leaves.toList, ∃ v ∈ leaf.toList, Noncanonical v := by
    rintro ⟨leaf, hleaf, v, hv, hnon⟩
    obtain ⟨d, hd, rfl⟩ := List.mem_map.mp hleaf
    rw [Vector.toList_map] at hv
    obtain ⟨x, hx, rfl⟩ := List.mem_map.mp hv
    exact absurd (((hdigested d hd).isWord x hx).asU64_lt hr) (Nat.not_lt.mpr hnon)
  have hshape : (honest s nss).validateShape = .ok () := by
    have hlen : (honest s nss).dimensions.length ≤ 11 := by
      rw [honest, List.length_map]
      exact length_le_of_nodup (hsorted.imp fun h => UInt64.ne_of_lt h) hrange
    rw [validateShape, if_neg (by simp [honest]), if_neg hcanonical, if_neg (Nat.not_lt.mpr hlen)]
    exact State.validate_dimensionTables hr (by simp) hsorted hrange (by rwa [Nat.zero_add])
  have htables : checkTables F (honest s nss).leaves (honest s nss).dimensions = .ok () := by
    refine checkTables_ok.mpr fun table htable => ?_
    obtain ⟨ns, hns, rfl⟩ := List.mem_map.mp htable
    have hcount : s.fieldCount ns ≤ MAX_FIELDS :=
      (List.le_sum_of_mem (List.mem_map_of_mem hns)).trans hmax
    rw [State.dimensionTable, map_new_asU64 hr (s.isWord_table hcount), honest,
      State.words_getD hr hv (hrange ns hns), rootLimbs_flatMap]
    rfl
  rw [root, hshape, htables, ← honest_fieldLeaves hr hv nss]
  rfl

theorem fromState_ok (hr : NebuReduced F) {s : State F} (hv : s.rootVersion = .v1) {namespaces : List UInt64}
    (hnodup : namespaces.Nodup) (hrange : ∀ ns ∈ namespaces, ns ≤ 10)
    (hmax : (namespaces.map s.fieldCount).sum ≤ MAX_FIELDS) :
    fromState s namespaces = .ok (honest s namespaces.mergeSort) ∧
      (honest s namespaces.mergeSort).verify F (rootLimbs s.root) = .ok () := by
  have hperm := List.mergeSort_perm namespaces fun a b => decide (a ≤ b)
  have hsorted := pairwise_lt_mergeSort hnodup
  have hrange' : ∀ ns ∈ namespaces.mergeSort, ns ≤ 10 := fun ns hns => hrange ns (hperm.mem_iff.mp hns)
  have hmax' : (namespaces.mergeSort.map s.fieldCount).sum ≤ MAX_FIELDS := by
    rwa [(hperm.map s.fieldCount).sum_eq]
  have hroot := honest_root hr hv hsorted hrange' hmax'
  constructor
  · have hfits : ¬(namespaces.length > 11 ∨ ∃ ns ∈ namespaces, ns > 10) := by
      rintro (hlen | ⟨ns, hns, hgt⟩)
      · exact absurd (length_le_of_nodup hnodup hrange) (Nat.not_le.mpr hlen)
      · exact absurd (hrange ns hns) (UInt64.not_le.mpr hgt)
    have hdistinct : ¬∃ pair ∈ namespaces.mergeSort.zip namespaces.mergeSort.tail, pair.1 = pair.2 := by
      rintro ⟨pair, hpair, heq⟩
      exact absurd heq (UInt64.ne_of_lt (lt_of_mem_zip_tail hsorted pair hpair))
    have hfresh : ((rootFromLeaves s.rootLeaves).map Nebu.asU64).toList.flatMap u64LeBytes = s.root.toList := by
      rw [← rootLimbs_rootToBytes, rootLimbs_flatMap]
      rfl
    rw [fromState, if_neg hfits]
    simp only
    rw [if_neg hdistinct, State.dimensionTables_ok (by rwa [Nat.zero_add])]
    change (honest s _).root F >>= _ = _
    rw [hroot]
    exact if_neg (not_not.mpr hfresh)
  · have hcanonical : ¬∃ v ∈ (rootLimbs s.root).toList, Noncanonical v := by
      rintro ⟨v, hv, hnon⟩
      rw [State.root, rootLimbs_rootToBytes, Vector.toList_map] at hv
      obtain ⟨x, hx, rfl⟩ := List.mem_map.mp hv
      obtain ⟨front, hlast⟩ : ∃ front, rootFromLeaves s.rootLeaves = compress4 front s.rootLeaves.stats := by
        rw [rootFromLeaves, RootLeaves.ordered, List.foldl_append]
        exact ⟨_, rfl⟩
      rw [hlast] at hx
      exact absurd (hr.asU64_compress4 _ _ x hx) (Nat.not_lt.mpr hnon)
    rw [verify, if_neg hcanonical, hroot]
    refine if_neg (not_not.mpr ?_)
    rw [State.root, rootLimbs_rootToBytes]

/-- A certificate that verifies against the V1 root of a state has the leaves of the state and, for each of
its namespaces, exactly the table of the state; and the state certifies every set of namespaces whose tables
are within the field limit. -/
theorem certificates_exact (hs : Symbolic F) (hr : NebuReduced F) (s : State F) (hv : s.rootVersion = .v1) :
    (∀ c : StateCertificate, Binds c s → c.verify F (rootLimbs s.root) = .ok () →
      c.leaves = s.rootLeaves.words ∧ ∀ table ∈ c.dimensions, ∃ d, Dim.fromU64 table.ns = some d ∧
        table.fields = (dimSerialize (s.dimEntries d)).map Nebu.asU64) ∧
    ∀ namespaces : List UInt64, namespaces.Nodup → (∀ ns ∈ namespaces, ns ≤ 10) →
      (namespaces.map s.fieldCount).sum ≤ MAX_FIELDS →
      ∃ c, fromState s namespaces = .ok c ∧ c.dimensions.map DimensionTable.ns = namespaces.mergeSort ∧
        c.verify F (rootLimbs s.root) = .ok () := by
  constructor
  · intro c hb h
    refine ⟨leaves_of_verify hs hr hb h, fun table htable => ?_⟩
    obtain ⟨hns, hfields⟩ := fields_of_verify hs hr hv hb h table htable
    obtain ⟨d, hd⟩ := Dim.fromU64_of_le hns
    refine ⟨d, hd, ?_⟩
    rw [hfields, State.entries, hd]
    rfl
  · intro namespaces hnodup hrange hmax
    obtain ⟨hok, hverify⟩ := fromState_ok hr hv hnodup hrange hmax
    refine ⟨_, hok, ?_, hverify⟩
    rw [honest, List.map_map]
    exact List.map_id _

end StateCertificate

/-- The symbolic field, with a commitment that hashes the words of the table. -/
def Committed := Term

namespace Committed

instance : DecidableEq Committed := inferInstanceAs (DecidableEq Term)

instance : Hemera Committed := inferInstanceAs (Hemera Term)

instance : Brakedown Committed where
  commit evals := Rolling.hash (evals.flatMap fun v => u64LeBytes (Nebu.asU64 v))
  commit_canonical _ := Rolling.hash_canonical _

instance : Lens := ⟨2⟩

theorem symbolic : Symbolic Committed := Term.symbolic

theorem reduced : NebuReduced Committed where
  asU64_new x hx := if_pos hx
  asU64_compress4 := by
    have hout : ∀ a b : Digest Term, ∀ v ∈ (compress4 a b).toList, Nebu.asU64 v = 0 := by
      intro a b v hv
      obtain ⟨i, hi, rfl⟩ := List.getElem_of_mem hv
      rw [Vector.getElem_toList, Term.compress4_getElem a b i (by simpa using hi)]
      rfl
    intro a b v hv
    have hzero : Nebu.asU64 v = 0 := hout a b v hv
    rw [hzero]
    decide

/-- One particle with energy 77. -/
def oneParticle : State Committed :=
  { State.new with
    rootVersion := .v1
    particles := Std.ExtTreeMap.insert ∅ (Vector.replicate 32 1) ⟨77, 0, 0, 0, 0, 0⟩ }

theorem oneParticle_fieldCount : [9, 0].map oneParticle.fieldCount = [3, 23] := by decide +kernel

/-- The certificate of the particles and the signals shows both tables. -/
theorem certificates_exact_oneParticle : ∃ c, StateCertificate.fromState oneParticle [9, 0] = .ok c ∧
    c.verify Committed (rootLimbs oneParticle.root) = .ok () ∧ c.leaves = oneParticle.rootLeaves.words ∧
    ∀ table ∈ c.dimensions, ∃ d, Dim.fromU64 table.ns = some d ∧
      table.fields = (dimSerialize (oneParticle.dimEntries d)).map Nebu.asU64 := by
  have hnodup : [(9 : UInt64), 0].Nodup := by decide
  have hrange : ∀ ns ∈ [(9 : UInt64), 0], ns ≤ 10 := by simp
  have hmax : ([9, 0].map oneParticle.fieldCount).sum ≤ MAX_FIELDS := by
    rw [oneParticle_fieldCount]
    decide
  have hcount : ∀ ns ∈ [(9 : UInt64), 0].mergeSort, oneParticle.fieldCount ns ≤ MAX_FIELDS := by
    intro ns hns
    exact (List.le_sum_of_mem (List.mem_map_of_mem ((List.mergeSort_perm _ _).mem_iff.mp hns))).trans hmax
  obtain ⟨sound, complete⟩ := StateCertificate.certificates_exact symbolic reduced oneParticle rfl
  obtain ⟨c, hok, -, hverify⟩ := complete [9, 0] hnodup hrange hmax
  have hhonest := (StateCertificate.fromState_ok reduced rfl hnodup hrange hmax).1
  obtain rfl := Except.ok.inj (hok.symm.trans hhonest)
  have hsound := sound _ (StateCertificate.honest_binds reduced rfl hcount) hverify
  exact ⟨_, hok, hverify, hsound⟩

end Committed

end LeanBbg
