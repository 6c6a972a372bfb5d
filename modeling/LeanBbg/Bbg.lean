import LeanBbg.Root

/-! The facade: state, checkpoint and pruning policy as one unit. Pruning protects the particles of the
highest rank and removes stale axons, or, over the size limit, the axons of the lowest weight first. -/

namespace LeanBbg

variable {F : Type} [Hemera F] [DecidableEq F] [Brakedown F]

structure PruneConfig where
  maxBytes : UInt64
  /-- The share of particles, by `piStar`, that is protected. -/
  rankFloorPct : UInt8
  halfLifeEpochs : UInt64

/-- 1 GiB, the top 20 percent, 1000 epochs. -/
def PruneConfig.default : PruneConfig := ⟨1073741824, 20, 1000⟩

/-- Blocks in an epoch. -/
def EPOCH_BLOCKS : UInt64 := 100

structure CheckpointProof where
  profile : UInt8
  bytes : List UInt8

structure Checkpoint where
  root : Particle
  acc : Option CheckpointProof
  height : UInt64

/-- The checkpoint of the current state; a proof of an earlier root is dropped. -/
def Checkpoint.advance (s : State F) : Checkpoint := ⟨s.root, none, s.height⟩

/-- The epoch of the last signal that touched each axon. -/
abbrev LastTouched := OrdMap Particle UInt64

/-! ### Pruning -/

namespace State

/-- The rank below which entries may be pruned. -/
def rankFloor (s : State F) (pct : UInt8) : UInt64 :=
  if pct = 0 then UInt64.ofNat (2 ^ 64 - 1)
  else
    let scores := (s.particles.toList.map fun e => e.2.piStar).mergeSort fun a b => decide (a ≤ b)
    let protectedCount := (scores.length * pct.toNat + 99) / 100
    scores[scores.length - protectedCount]?.getD 0

/-- A rough size of the graph dimensions. -/
def estimateBytes (s : State F) : UInt64 :=
  let lists (A : Adjacency) : UInt64 := (A.toList.map fun e => 32 + UInt64.ofNat e.2.axons.length * 32).sum
  UInt64.ofNat s.particles.size * 80 + lists s.axonsOut + lists s.axonsIn + UInt64.ofNat s.neurons.size * 64

/-- The unprotected entries: all particles over the size limit, else the stale axons. -/
def unprotected (s : State F) (touched : LastTouched) (config : PruneConfig) (epoch : UInt64) :
    List (Particle × UInt64) :=
  let floor := s.rankFloor config.rankFloorPct
  if config.maxBytes < s.estimateBytes then
    (s.particles.toList.filter fun e => e.2.piStar < floor).map fun e => (e.1, e.2.weight)
  else
    (touched.toList.filter fun e =>
      ((s.particles[e.1]?.map ParticleRecord.piStar).getD 0 < floor) &&
        config.halfLifeEpochs < saturatingSub epoch e.2).map
      fun e => (e.1, (s.particles[e.1]?.map ParticleRecord.weight).getD 0)

/-- The candidates, lowest weight first, and whether the state is over its budget; `none` when there are
more than the limit. -/
def candidates (s : State F) (touched : LastTouched) (config : PruneConfig) (epoch : UInt64) (limit : Option Nat) :
    Option (Bool × List Particle) :=
  let found := s.unprotected touched config epoch
  if limit.any fun n => n < found.length then none
  else some (config.maxBytes < s.estimateBytes,
    (found.mergeSort fun a b => decide (a.2 ≤ b.2)).map Prod.fst)

/-- Remove an axon and all its index references. -/
def removeAxon (s : State F) (axon : Particle) : State F :=
  let s := { s with particles := s.particles.erase axon }
  match s.axonEdges[axon]? with
  | none => s
  | some (source, target) =>
      { s with
        axonEdges := s.axonEdges.erase axon
        axonsOut := s.axonsOut.removeAxon source axon
        axonsIn := s.axonsIn.removeAxon target axon }

end State

/-- State, checkpoint and pruning policy. -/
structure Bbg (F : Type) where
  state : State F
  checkpoint : Checkpoint
  pruneConfig : PruneConfig
  lastTouched : LastTouched

namespace Bbg

def new : Bbg F := ⟨State.new, Checkpoint.advance (State.new : State F), PruneConfig.default, ∅⟩

def removeAxon (b : Bbg F) (axon : Particle) : Bbg F :=
  { b with state := b.state.removeAxon axon, lastTouched := b.lastTouched.erase axon }

/-- The loop of `prune`: over budget, it ends when the estimate is within the limit. -/
def pruneLoop (overBudget : Bool) : Bbg F → List Particle → Bbg F
  | b, [] => b
  | b, axon :: rest =>
      if overBudget && b.state.estimateBytes ≤ b.pruneConfig.maxBytes then b
      else pruneLoop overBudget (b.removeAxon axon) rest

/-- One pruning cycle at the end of `epoch`, without a limit on the candidates. -/
def prune (b : Bbg F) (epoch : UInt64) : Bbg F :=
  match b.state.candidates b.lastTouched b.pruneConfig epoch none with
  | some (overBudget, sorted) => pruneLoop overBudget b sorted
  | none => b

/-- Record that the axons of the links were touched in the current epoch. -/
def touchLinks (b : Bbg F) (links : List Cyberlink) : Bbg F :=
  let epoch := b.state.height / EPOCH_BLOCKS
  { b with
    lastTouched := links.foldl (fun m link => m.insert (axonId F link.source link.target) epoch) b.lastTouched }

/-- Insert a signal, and on success touch its axons. -/
def insert (b : Bbg F) (signal : Signal) : Except InsertError Unit × Bbg F :=
  match b.state.insert signal with
  | (.error e, s) => (.error e, { b with state := s })
  | (.ok (), s) => (.ok (), { b with state := s }.touchLinks signal.links)

/-- The root snapshot at the current height, and the height after it. -/
def snapshotTime (b : Bbg F) : Bbg F :=
  { b with
    state := { b.state with
      time := b.state.time.insert b.state.height b.state.root
      height := b.state.height + 1 } }

def advanceCheckpoint (b : Bbg F) : Bbg F := { b with checkpoint := Checkpoint.advance b.state }

/-- A time snapshot, the next height, pruning at epoch boundaries, and the checkpoint. -/
def finalizeBlock (b : Bbg F) : Bbg F :=
  let b := b.snapshotTime
  let b := if b.state.height % EPOCH_BLOCKS = 0 then b.prune (b.state.height / EPOCH_BLOCKS) else b
  b.advanceCheckpoint

def applyIntent (b : Bbg F) (intent : IntentRecord) : Bbg F := { b with state := b.state.applyIntent intent }

def applySignalRecord (b : Bbg F) (record : SignalRecord) : Bbg F :=
  { b with state := b.state.applySignalRecord record }

end Bbg

end LeanBbg
