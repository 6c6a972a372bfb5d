import LeanBbg.Certificates
import LeanBbg.RecordStream

/-! Authenticated reads of single cells. A query proof opens one cell of a dimension's table and carries the
certificate of the whole table; a verifier who trusts a root parses the table, finds the record of a key in
it and compares the index of the record's primary cell with the index of the proof. -/

set_option linter.unusedSectionVars false

namespace LeanBbg

open Bytes

/-- Openings of `lens::brakedown`, for the transcript `bbg-dim-open`. -/
class BrakedownOpening (F : Type) [Hemera F] [Brakedown F] where
  Opening : Type
  /-- `Brakedown::open` of an evaluation vector at a point. -/
  openPoly : List F → List F → Opening
  /-- `Brakedown::verify` of a commitment, a point, a value and an opening. -/
  verify : Bytes32 → List F → F → Opening → Bool

def QUERY_VERSION : UInt32 := 3

def MAX_QUERY_FIELDS : Nat := 4096

/-- `dim as u64`. -/
def Dim.toU64 : Dim → UInt64
  | .particles => 0
  | .axonsOut => 1
  | .axonsIn => 2
  | .neurons => 3
  | .locations => 4
  | .coins => 5
  | .cards => 6
  | .files => 7
  | .time => 8
  | .signals => 9
  | .balances => 10

theorem Dim.fromU64_toU64 (d : Dim) : fromU64 d.toU64 = some d := by cases d <;> rfl

theorem Dim.toU64_le (d : Dim) : d.toU64 ≤ 10 := by cases d <;> decide

structure QueryContext where
  version : UInt32
  certificate : StateCertificate
  ns : UInt64
  index : UInt64

structure QueryProof (F : Type) [Hemera F] [Brakedown F] [BrakedownOpening F] where
  commitment : Bytes32
  opening : BrakedownOpening.Opening F
  valueBytes : List UInt8
  context : Option QueryContext
  /-- The hypercube corner (LSB-first) of the opened cell. -/
  point : List F

/-- `[u64; 4]` of a trusted root with canonical limbs. -/
def rootFields (root : Bytes32) : Option (Vector UInt64 4) :=
  if ∀ v ∈ (rootLimbs root).toList, ¬Noncanonical v then some (rootLimbs root) else none

/-! ### The primary cell of a key -/

/-- `u32::try_from`. -/
def asU32 (v : UInt64) : Option UInt64 := if v ≤ 0xffffffff then some v else none

/-- `fields.get(start..stop)`. -/
def slice (fields : List UInt64) (start stop : Nat) : Option (List UInt64) :=
  if start ≤ stop ∧ stop ≤ fields.length then some ((fields.drop start).take (stop - start)) else none

/-- The bytes of a row's key limbs. -/
def keyOfLimbs (limbs : List UInt64) : Option (List UInt8) :=
  (limbs.mapM fun limb => (asU32 limb).map fun v => leBytes 4 v.toNat).map List.flatten

/-- What a row is ordered by: its key, for heights big-endian. -/
def sortKey (d : Dim) (bytes : List UInt8) : Option (List UInt8) :=
  if d = .time then
    if (bytes.drop 8).any (· ≠ 0) then none
    else some (u64BeBytes (u64FromLe (bytes.take 8)) ++ List.replicate 24 0)
  else some bytes

/-- The cells of a row after its key. -/
def rowWidth (fields : List UInt64) (start : Nat) : Dim → Option Nat
  | .particles => some 12
  | .neurons => some 8
  | .locations => some 4
  | .coins => some 2
  | .cards => some 28
  | .files => some 4
  | .time => some 8
  | .signals => some 30
  | .axonsOut | .axonsIn => do
      let low ← fields[start]? >>= asU32
      let high ← fields[start + 1]? >>= asU32
      let degree := low ||| high <<< 32
      if degree.toNat * 8 + 2 ≥ 2 ^ 64 then none else some (degree.toNat * 8 + 2)
  | .balances => some 2

/-- The column of `link_count` for signals, else the first. -/
def Dim.primaryColumn : Dim → Nat
  | .signals => 16
  | _ => 0

/-- The loop of `primary_index`, for the rows left: the offset after the last row and the cell found. -/
def scanRows (fields : List UInt64) (d : Dim) (key : Bytes32) :
    Nat → Nat → Option Nat → Option (List UInt8) → Option (Nat × Option Nat)
  | 0, offset, found, _ => some (offset, found)
  | rows + 1, offset, found, previous => do
      let limbs ← slice fields offset (offset + KEY_FIELDS)
      let bytes ← keyOfLimbs limbs
      let sort ← sortKey d bytes
      if previous.any fun p => compare p sort ≠ .lt then none
      else
        let start := offset + KEY_FIELDS
        let width ← rowWidth fields start d
        if start + width ≥ 2 ^ 64 then none
        else
          let cells ← slice fields start (start + width)
          if cells.any (· > 0xffffffff) then none
          else
            scanRows fields d key rows (start + width)
              (if bytes = key.toList then some (start + d.primaryColumn) else found) (some sort)

def primaryIndex (fields : List UInt64) (d : Dim) (key : Bytes32) : Option Nat := do
  let entries ← fields[2]?
  let (offset, found) ← scanRows fields d key entries.toNat HEADER_FIELDS none none
  if offset ≠ fields.length then none else found

/-! ### Verification -/

section Verify

variable {F : Type} [Hemera F] [Brakedown F] [BrakedownOpening F] [Lens]

/-- The variables of a padded table. -/
def numVars (length : Nat) : Nat := Nat.log2 (nextPowerOfTwo length)

/-- The point is the corner of the cell. -/
def AtCorner (point : List F) (length index : Nat) : Prop :=
  point.length = numVars length ∧
    ∀ i < point.length, (point[i]?.map Nebu.asU64) = some (UInt64.ofNat ((index >>> i) &&& 1))

instance (point : List F) (length index : Nat) : Decidable (AtCorner point length index) :=
  inferInstanceAs (Decidable (_ ∧ _))

def authenticated (proof : QueryProof F) (root : Option Bytes32) : Option Unit := do
  let context ← proof.context
  if context.version ≠ QUERY_VERSION ∨ context.ns > 10 ∨ context.certificate.dimensions.length ≠ 1 then none
  else
    let table ← context.certificate.dimensions.head?
    if table.ns ≠ context.ns ∨ table.fields.length > MAX_QUERY_FIELDS then none
    else
      let actualRoot ← (context.certificate.root F).toOption
      if root.any fun root => rootFields root ≠ some actualRoot then none
      else
        let value ← table.fields[context.index.toNat]?
        if proof.valueBytes ≠ u64LeBytes value then none
        else if ¬AtCorner proof.point table.fields.length context.index.toNat then none
        else if proof.commitment.toList ≠ (context.certificate.leaves.toList.getD context.ns.toNat
            (Vector.replicate 4 0)).toList.flatMap u64LeBytes then
          none
        else if BrakedownOpening.verify proof.commitment proof.point (new value) proof.opening then some ()
        else none

def verifyEntity (proof : QueryProof F) (root : Bytes32) (d : Dim) (key : Bytes32) : Bool :=
  if (authenticated proof (some root)).isNone then false
  else
    proof.context.any fun context =>
      if context.ns ≠ d.toU64 then false
      else
        context.certificate.dimensions.head?.any fun table =>
          (primaryIndex table.fields d key).any fun index => UInt64.ofNat index = context.index

def verifyPublicBalance (proof : QueryProof F) (root owner token : Bytes32) : Option UInt64 :=
  if verifyEntity proof root .balances (balanceKey (F := F) owner token) = false then none
  else do
    let context ← proof.context
    let table ← context.certificate.dimensions.head?
    let low ← table.fields[context.index.toNat]? >>= asU32
    let high ← table.fields[context.index.toNat + 1]? >>= asU32
    return low ||| high <<< 32

end Verify

/-! ### Proofs of a state's own cells -/

section Prove

variable {F : Type} [Hemera F] [DecidableEq F] [Brakedown F] [BrakedownOpening F] [Lens]

def QueryContext.fromState (s : State F) (d : Dim) (index : Nat) : Option QueryContext := do
  let certificate ← (StateCertificate.fromState s [d.toU64]).toOption
  return ⟨QUERY_VERSION, certificate, d.toU64, UInt64.ofNat index⟩

/-- The LSB-first hypercube corner for a flat evaluation index. -/
def cornerPoint (index vars : Nat) : List F :=
  (List.range vars).map fun j => if (index >>> j) &&& 1 = 1 then new 1 else zero

/-- Commit the dimension and open it at the corner of a cell. -/
def openCellFromEntries (entries : List (Bytes32 × List F)) (index : Nat) : Option (QueryProof F) := do
  let value ← (dimSerialize entries)[index]?
  let evals := padded (dimSerialize entries)
  let point := cornerPoint index (Nat.log2 evals.length)
  return {
    commitment := Brakedown.commit evals
    opening := BrakedownOpening.openPoly evals point
    valueBytes := u64LeBytes (Nebu.asU64 value)
    context := none
    point := point }

/-- The dimensions that `open_cell` gives a context. -/
def Dim.Disclosed (d : Dim) : Prop := d.toU64 ≤ 9

instance (d : Dim) : Decidable d.Disclosed := inferInstanceAs (Decidable (d.toU64 ≤ 9))

def openCell (s : State F) (d : Dim) (index : Nat) : Option (QueryProof F) :=
  let entries := s.dimEntries d
  let count := HEADER_FIELDS + (entries.map fun e => KEY_FIELDS + e.2.length).sum
  if d.Disclosed ∧ count > MAX_QUERY_FIELDS then none
  else do
    let proof ← openCellFromEntries entries index
    if d.Disclosed then
      let context ← QueryContext.fromState s d index
      return { proof with context := some context }
    else return proof

/-- The loop of `open_entity`, from an offset on. -/
def openEntityFrom (s : State F) (d : Dim) (key : Bytes32) (valueCol : Nat) :
    Nat → List (Bytes32 × List F) → Option (QueryProof F)
  | _, [] => none
  | offset, (entryKey, values) :: rest =>
      if entryKey = key then
        if valueCol < values.length then openCell s d (offset + KEY_FIELDS + valueCol) else none
      else openEntityFrom s d key valueCol (offset + (KEY_FIELDS + values.length)) rest

def openEntity (s : State F) (d : Dim) (key : Bytes32) (valueCol : Nat) : Option (QueryProof F) :=
  openEntityFrom s d key valueCol HEADER_FIELDS (s.dimEntries d)

def proveParticle (s : State F) (particle : Particle) : Option (QueryProof F) := openEntity s .particles particle 0

def proveNeuron (s : State F) (id : NeuronId) : Option (QueryProof F) := openEntity s .neurons id 0

def proveAxonsOut (s : State F) (particle : Particle) : Option (QueryProof F) := openEntity s .axonsOut particle 0

def proveAxonsIn (s : State F) (particle : Particle) : Option (QueryProof F) := openEntity s .axonsIn particle 0

def proveLocation (s : State F) (id : Particle) : Option (QueryProof F) := openEntity s .locations id 0

def proveCoin (s : State F) (denom : Particle) : Option (QueryProof F) := openEntity s .coins denom 0

def proveCard (s : State F) (cardId : Particle) : Option (QueryProof F) := openEntity s .cards cardId 0

def proveFile (s : State F) (particle : Particle) : Option (QueryProof F) := openEntity s .files particle 0

/-- `link_count` follows two eight-limb ids. -/
def proveSignalKey (s : State F) (key : Particle) : Option (QueryProof F) := openEntity s .signals key 16

def proveTime (s : State F) (height : UInt64) : Option (QueryProof F) := openEntity s .time (keyBytes height) 0

def proveBalances (s : State F) (owner token : Bytes32) : Option (QueryProof F) :=
  openEntity s .balances (balanceKey (F := F) owner token) 0

/-- Disclose the table of balances. -/
def provePublicBalance (s : State F) (owner token : Bytes32) : Option (QueryProof F) := do
  let fields := HEADER_FIELDS + s.balances.size * (KEY_FIELDS + 2)
  if fields ≥ 2 ^ 64 ∨ fields > MAX_QUERY_FIELDS then none
  else
    let position ← s.balances.keys.findIdx? (· = balanceKey (F := F) owner token)
    let index := HEADER_FIELDS + position * (KEY_FIELDS + 2) + KEY_FIELDS
    let proof ← proveBalances s owner token
    let context ← QueryContext.fromState s .balances index
    return { proof with context := some context }

def bbgQuery (s : State F) (d : Dim) (key : Bytes32) : Option (QueryProof F) :=
  if d = .time ∧ (key.toList.drop 8).any (· ≠ 0) then none
  else
    match d with
    | .particles => proveParticle s key
    | .axonsOut => proveAxonsOut s key
    | .axonsIn => proveAxonsIn s key
    | .neurons => proveNeuron s key
    | .locations => proveLocation s key
    | .coins => proveCoin s key
    | .cards => proveCard s key
    | .files => proveFile s key
    | .time => proveTime s (u64FromLe (key.toList.take 8))
    | .signals => proveSignalKey s key
    | .balances => none

end Prove

end LeanBbg
