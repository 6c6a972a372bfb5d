import LeanBbg.Records

/-! The state and the one operation that changes it, `insert(signal)`. The committed containers are the
plain maps and adjacency lists they refine; keys that are hashes go through `Hemera.hash`. -/

namespace LeanBbg

variable {F : Type} [Hemera F]

structure Cyberlink where
  /-- `from` -/
  source : Particle
  /-- `to` -/
  target : Particle
  token : Particle
  amount : UInt64
  valence : Int8

structure BoxMove where
  nullifier : Particle
  commitment : Option (Particle × UInt64)

structure Signal where
  neuron : NeuronId
  links : List Cyberlink
  boxMoves : List BoxMove
  height : UInt64

inductive InsertError where
  | doubleSpend
  deriving DecidableEq

inductive RootVersion where
  | v1
  | v2
  deriving DecidableEq

/-- `u64::to_le_bytes`. -/
def u64LeBytes (v : UInt64) : List UInt8 := Bytes.leBytes 8 v.toNat

theorem u64LeBytes_injective : Function.Injective u64LeBytes := fun a b h =>
  UInt64.toNat_inj.mp (Bytes.leBytes_injective a.toNat_lt b.toNat_lt h)

@[simp] theorem u64LeBytes_length (v : UInt64) : (u64LeBytes v).length = 8 := Bytes.leBytes_length 8 _

/-- `u64::saturating_add`. -/
def saturatingAdd (a b : UInt64) : UInt64 := UInt64.ofNat (min (a.toNat + b.toNat) (2 ^ 64 - 1))

/-- `u64::saturating_sub`. -/
def saturatingSub (a b : UInt64) : UInt64 := if b ≤ a then a - b else 0

/-- `u64::checked_add`. -/
def checkedAdd (a b : UInt64) : Option UInt64 := if a.toNat + b.toNat < 2 ^ 64 then some (a + b) else none

/-! ### Derived keys -/

variable (F)

/-- The axon-particle id `H(from ‖ to)`. -/
def axonId (source target : Particle) : Particle := Hemera.hash (F := F) (source.toList ++ target.toList)

/-- `H(owner ‖ token)`. -/
def balanceKey (owner token : Bytes32) : Bytes32 := Hemera.hash (F := F) (owner.toList ++ token.toList)

/-- `H(neuron ‖ step)`, the step little-endian. -/
def signalKey (neuron : NeuronId) (step : UInt64) : Particle := Hemera.hash (F := F) (neuron.toList ++ u64LeBytes step)

/-- `H(ν ‖ h0 ‖ scope_hash)`. -/
def intentKey (neuron : NeuronId) (h0 : UInt64) (scopeHash : Particle) : Particle :=
  Hemera.hash (F := F) (neuron.toList ++ (u64LeBytes h0 ++ scopeHash.toList))

/-- The eleven dimensions, the private sets and what is kept beside them. -/
structure State where
  particles : OrdMap Particle ParticleRecord
  axonsOut : Adjacency
  axonsIn : Adjacency
  neurons : OrdMap NeuronId NeuronRecord
  locations : OrdMap Particle LocationRecord
  coins : OrdMap Particle CoinRecord
  cards : OrdMap Particle CardRecord
  files : OrdMap Particle FileRecord
  /-- height → root snapshot -/
  time : OrdMap UInt64 Particle
  signals : OrdMap Particle SignalRecord
  commitments : OrdMap Bytes32 F
  nullifiers : OrdMap Bytes32 Unit
  balances : OrdMap Bytes32 UInt64
  intents : OrdMap Particle IntentRecord
  /-- axon → (from, to), not committed -/
  axonEdges : OrdMap Particle (Particle × Particle)
  diameterOverride : Option UInt64
  height : UInt64
  rootVersion : RootVersion

variable {F}

namespace State

variable [DecidableEq F]

def new : State F where
  particles := ∅
  axonsOut := ∅
  axonsIn := ∅
  neurons := ∅
  locations := ∅
  coins := ∅
  cards := ∅
  files := ∅
  time := ∅
  signals := ∅
  commitments := ∅
  nullifiers := ∅
  balances := ∅
  intents := ∅
  axonEdges := ∅
  diameterOverride := none
  height := 0
  rootVersion := .v2

/-! ### Signal insertion -/

/-- One box movement: the nullifier is spent and the output, if any, committed. -/
def applyMove (s : State F) (mv : BoxMove) : State F :=
  let s := { s with nullifiers := s.nullifiers.insert mv.nullifier () }
  match mv.commitment with
  | some (point, value) => { s with commitments := s.commitments.insert point (LeanBbg.new value) }
  | none => s

/-- The topology of a link: both adjacency lists and the reverse map. -/
def linkTopology (s : State F) (link : Cyberlink) : State F :=
  let axon := axonId F link.source link.target
  { s with
    axonsOut := s.axonsOut.add link.source axon
    axonsIn := s.axonsIn.add link.target axon
    axonEdges := if s.axonEdges.contains axon then s.axonEdges else s.axonEdges.insert axon (link.source, link.target) }

/-- `particles[H(p,q)]`: weight += a. The right-hand side is read before the entry is made. -/
def addWeight (s : State F) (axon : Particle) (amount : UInt64) : State F :=
  let weight := (s.particles[axon]?.map fun p => saturatingAdd p.weight amount).getD amount
  { s with particles := s.particles.insert axon { s.particles[axon]?.getD .zero with weight := weight } }

/-- `particles[q]`: energy += a. -/
def addEnergy (s : State F) (target : Particle) (amount : UInt64) : State F :=
  let energy := (s.particles[target]?.map fun p => saturatingAdd p.energy amount).getD amount
  { s with particles := s.particles.insert target { s.particles[target]?.getD .zero with energy := energy } }

/-- `neurons[ν]`: focus −= a, for a neuron that has a record. -/
def spendFocus (s : State F) (neuron : NeuronId) (amount : UInt64) : State F :=
  match s.neurons[neuron]? with
  | some nr => { s with neurons := s.neurons.insert neuron { nr with focus := saturatingSub nr.focus amount } }
  | none => s

def credit (s : State F) (key : Bytes32) (amount : UInt64) : State F :=
  let credited := (s.balances[key]?.map fun b => saturatingAdd b amount).getD amount
  { s with balances := s.balances.insert key credited }

/-- A zero balance is an absent row. -/
def debit (s : State F) (key : Bytes32) (amount : UInt64) : State F :=
  let next := (s.balances[key]?.map fun b => saturatingSub b amount).getD 0
  { s with balances := if next = 0 then s.balances.erase key else s.balances.insert key next }

/-- What a link with conviction moves. -/
def moveConviction (s : State F) (neuron : NeuronId) (link : Cyberlink) : State F :=
  let s := s.addWeight (axonId F link.source link.target) link.amount
  let s := s.addEnergy link.target link.amount
  let s := s.spendFocus neuron link.amount
  let s := s.credit (balanceKey F link.target link.token) link.amount
  s.debit (balanceKey F link.source link.token) link.amount

/-- One cyberlink of a signal by `neuron`. -/
def applyLink (neuron : NeuronId) (s : State F) (link : Cyberlink) : State F :=
  let s := s.linkTopology link
  if link.amount = 0 then s else s.moveConviction neuron link

/-- A nullifier of the signal is spent. -/
def spent (s : State F) (signal : Signal) : Bool := signal.boxMoves.any fun mv => s.nullifiers.contains mv.nullifier

/-- Insert a pre-validated signal; only a spent nullifier is refused, before anything is written. -/
def insert (s : State F) (signal : Signal) : Except InsertError Unit × State F :=
  if s.spent signal then (.error .doubleSpend, s)
  else
    let s := signal.boxMoves.foldl applyMove s
    (.ok (), signal.links.foldl (applyLink signal.neuron) s)

def applyIntent (s : State F) (intent : IntentRecord) : State F :=
  { s with intents := s.intents.insert (intentKey F intent.neuron intent.h0 intent.scopeHash) intent }

def applySignalRecord (s : State F) (record : SignalRecord) : State F :=
  { s with signals := s.signals.insert (signalKey F record.neuron record.step) record }

end State

end LeanBbg
