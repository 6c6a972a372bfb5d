import LeanBbg.State

/-! The root: fourteen leaves folded with `compress4`. Under V2 a dimension's leaf is the root of its
record trie, under V1 the limbs of a Brakedown commitment to its flat table. The commitment scheme
(`lens`) is not part of the repository: it is the class `Brakedown`. -/

namespace LeanBbg

/-- `Brakedown::commit` of an evaluation vector: 32 bytes of canonical limbs. -/
class Brakedown (F : Type) [Hemera F] where
  commit : List F → Bytes32
  commit_canonical : ∀ evals, CanonicalDigest (commit evals)

variable {F : Type} [Hemera F] [DecidableEq F]

/-! ### Committed statistics -/

structure GraphStats where
  nodeCount : UInt64
  /-- Entry counts of the eleven dimensions. -/
  relationSizes : Vector UInt64 11
  maxDegree : UInt64
  diameterBound : UInt64
  deriving DecidableEq

def GraphStats.words (g : GraphStats) : List UInt64 :=
  [g.nodeCount] ++ g.relationSizes.toList ++ [g.maxDegree, g.diameterBound]

def GraphStats.serialize (g : GraphStats) : List UInt8 := g.words.flatMap u64LeBytes

variable (F) in
def GraphStats.commit (g : GraphStats) : Particle := Hemera.hash (F := F) g.serialize

/-- `goldilocks_from_bytes32` of a canonical digest; the source asserts that it is one. -/
def digestLimbs (bytes : Bytes32) : Digest F := Vector.ofFn fun i : Fin 4 => new (UInt64.ofNat (limbValue bytes i))

/-! ### Root leaves -/

structure RootLeaves (F : Type) where
  dims : Vector (Digest F) 11
  a : Digest F
  n : Digest F
  stats : Digest F

def RootLeaves.ordered (leaves : RootLeaves F) : List (Digest F) :=
  leaves.dims.toList ++ [leaves.a, leaves.n, leaves.stats]

def rootFromLeaves (leaves : RootLeaves F) : Digest F := leaves.ordered.foldl compress4 rootIv

def rootToBytes (root : Digest F) : Bytes32 :=
  ⟨(root.toList.flatMap fun limb => u64LeBytes (Nebu.asU64 limb)).toArray, by
    simp [List.length_flatMap]⟩

/-! ### Flat tables -/

/-- The eleven public dimensions, in root order. -/
inductive Dim where
  | particles
  | axonsOut
  | axonsIn
  | neurons
  | locations
  | coins
  | cards
  | files
  | time
  | signals
  | balances
  deriving DecidableEq

def TABLE_VERSION : UInt64 := 2

def HEADER_FIELDS : Nat := 3

def KEY_FIELDS : Nat := 8

/-- `[version, length, entries, (key(8) ‖ fields)*]`. -/
def dimSerialize (entries : List (Bytes32 × List F)) : List F :=
  let count := HEADER_FIELDS + (entries.map fun e => KEY_FIELDS + e.2.length).sum
  [new TABLE_VERSION, new (UInt64.ofNat count), new (UInt64.ofNat entries.length)] ++
    entries.flatMap fun e => bytes32Limbs e.1 ++ e.2

/-- The least power of two that is not below `n`. -/
def nextPowerOfTwo (n : Nat) : Nat := 2 ^ Nat.clog 2 n

/-- Zero-padding to a power of two. -/
def padded (fields : List F) : List F :=
  fields ++ List.replicate (nextPowerOfTwo fields.length - fields.length) zero

def commitFields [Brakedown F] (fields : List F) : Bytes32 := Brakedown.commit (padded fields)

def commitDim [Brakedown F] (entries : List (Bytes32 × List F)) : Bytes32 := commitFields (dimSerialize entries)

/-- The table rows of a keyed dimension: the fields of a row are those of the record's trie leaf. -/
def keyedEntries {K V : Type} [Ord K] [TrieKey K] [LawfulTrieKey K] [LeafValue F V] (map : OrdMap K V) :
    List (Bytes32 × List F) :=
  map.toList.map fun e => (keyBytes e.1, leafVals e.2)

/-- The table rows of an adjacency index: degree, then the axons in order. -/
def adjacencyEntries (A : Adjacency) : List (Bytes32 × List F) :=
  A.toList.map fun e => (e.1, u64Limbs (UInt64.ofNat e.2.axons.length) ++ e.2.axons.flatMap bytes32Limbs)

namespace State

def dimEntries (s : State F) : Dim → List (Bytes32 × List F)
  | .particles => keyedEntries s.particles
  | .axonsOut => adjacencyEntries s.axonsOut
  | .axonsIn => adjacencyEntries s.axonsIn
  | .neurons => keyedEntries s.neurons
  | .locations => keyedEntries s.locations
  | .coins => keyedEntries s.coins
  | .cards => keyedEntries s.cards
  | .files => keyedEntries s.files
  | .time => keyedEntries s.time
  | .signals => keyedEntries s.signals
  | .balances => keyedEntries s.balances

def statistics (s : State F) : GraphStats where
  nodeCount := UInt64.ofNat s.particles.size
  relationSizes := #v[UInt64.ofNat s.particles.size, UInt64.ofNat s.axonsOut.size, UInt64.ofNat s.axonsIn.size,
    UInt64.ofNat s.neurons.size, UInt64.ofNat s.locations.size, UInt64.ofNat s.coins.size,
    UInt64.ofNat s.cards.size, UInt64.ofNat s.files.size, UInt64.ofNat s.time.size,
    UInt64.ofNat s.signals.size, UInt64.ofNat s.balances.size]
  maxDegree := UInt64.ofNat (max s.axonsOut.longest s.axonsIn.longest)
  diameterBound := s.diameterOverride.getD (saturatingSub (UInt64.ofNat s.particles.size) 1)

/-- Every dimension leaf is its trie root. -/
def v2Leaves (s : State F) : Vector (Digest F) 11 × Digest F × Digest F :=
  (#v[node (Keyed.leafEntries s.particles), node (Keyed.leafEntries s.axonsOut), node (Keyed.leafEntries s.axonsIn),
      node (Keyed.leafEntries s.neurons), node (Keyed.leafEntries s.locations), node (Keyed.leafEntries s.coins),
      node (Keyed.leafEntries s.cards), node (Keyed.leafEntries s.files), node (Keyed.leafEntries s.time),
      node (Keyed.leafEntries s.signals), node (Keyed.leafEntries s.balances)],
    node (Keyed.leafEntries s.commitments), node (Keyed.leafEntries s.nullifiers))

variable [Brakedown F]

/-- Every dimension leaf is the limbs of its Brakedown commitment. -/
def v1Leaves (s : State F) : Vector (Digest F) 11 × Digest F × Digest F :=
  let limbs (entries : List (Bytes32 × List F)) : Digest F := digestLimbs (commitDim entries)
  (#v[limbs (s.dimEntries .particles), limbs (s.dimEntries .axonsOut), limbs (s.dimEntries .axonsIn),
      limbs (s.dimEntries .neurons), limbs (s.dimEntries .locations), limbs (s.dimEntries .coins),
      limbs (s.dimEntries .cards), limbs (s.dimEntries .files), limbs (s.dimEntries .time),
      limbs (s.dimEntries .signals), limbs (s.dimEntries .balances)],
    limbs (s.commitments.toList.map fun e => (e.1, [e.2])),
    limbs (s.nullifiers.toList.map fun e => (e.1, [LeanBbg.new 1])))

def rootLeaves (s : State F) : RootLeaves F :=
  let leaves := match s.rootVersion with
    | .v1 => s.v1Leaves
    | .v2 => s.v2Leaves
  ⟨leaves.1, leaves.2.1, leaves.2.2, digestLimbs (s.statistics.commit F)⟩

/-- The root, computed from the records on every read. -/
def root (s : State F) : Particle := rootToBytes (rootFromLeaves s.rootLeaves)

end State

end LeanBbg
