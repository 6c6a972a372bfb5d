import LeanBbg.NativeRecords

/-! Native transitions. A batch is applied to the graph in place; before the first write to an address its
record is captured, and a preparation that fails, or is dropped, writes the captured records back. A step
of a preparation either succeeds or fails, and a failure keeps the preparation as it is at that point. -/

set_option linter.unusedSectionVars false

namespace LeanBbg

variable {F : Type} [Hemera F] [DecidableEq F] [Brakedown F]

def MAX_KEYS : Nat := 65536

def MAX_BYTES : Nat := 8 * 1024 * 1024

def MAX_EVENTS : Nat := 64

/-- The errors of a transition, with the texts of the source. -/
inductive Error where
  | arguments
  | checkpointProof
  | doubleSpend
  | overflow (field : String)
  | limit (what : String)
  | signalExists
  deriving DecidableEq

inductive NativeChange where
  | signal (signal : Signal) (header : SignalRecord)
  | intent (intent : IntentRecord)
  | localCredit (neuron token : Particle) (amount focus : UInt64)

structure Snapshot where
  height : UInt64
  root : Particle

structure RecordChange where
  key : List UInt8
  value : Option (List UInt8)

/-! ### The undo log -/

/-- The captured records, and the scalar fields at the start. -/
structure Undo where
  values : OrdMap Addr (Option (List UInt8))
  bytes : Nat
  height : UInt64
  checkpointRoot : Particle
  checkpointHeight : UInt64

/-- A list of more than the limit is refused before it is encoded. -/
def boundedRead (b : Bbg F) (a : Addr) : Except Error (Option (List UInt8)) :=
  let tooLong (l : Option AxonList) : Bool := l.any fun l => (MAX_BYTES - 8) / 32 < l.axons.length
  let refused := match a with
    | .cell (.axonsOut p) => tooLong b.state.axonsOut[p]?
    | .cell (.axonsIn p) => tooLong b.state.axonsIn[p]?
    | _ => false
  if refused then .error (.limit "adjacency bytes") else .ok (read b a)

/-- Write one record back. The scalar fields behind the metadata are restored apart. -/
def restore (b : Bbg F) : Addr → Option (List UInt8) → Option (Bbg F)
  | .metadata, _ => some b
  | .cell c, none => some (Cells.put c none b)
  | .cell c, some bytes => (c.decode bytes).map fun r => Cells.put c r.1 b

namespace Undo

def new (b : Bbg F) : Undo := ⟨∅, 0, b.state.height, b.checkpoint.root, b.checkpoint.height⟩

/-- Capture an address unless it is captured already. -/
def capture (u : Undo) (b : Bbg F) (a : Addr) : Except Error Undo :=
  if u.values.contains a then .ok u
  else if u.values.size = MAX_KEYS then .error (.limit "undo keys")
  else
    match boundedRead b a with
    | .error e => .error e
    | .ok value =>
        let bytes := u.bytes + (a.key.length + (value.map List.length).getD 0)
        if MAX_BYTES < bytes then .error (.limit "undo bytes")
        else .ok { u with values := u.values.insert a value, bytes := bytes }

/-- Write all captured records back, in key order, then the scalar fields. -/
def restore (u : Undo) (b : Bbg F) : Option (Bbg F) :=
  (u.values.toList.foldlM (fun b e => LeanBbg.restore b e.1 e.2) b).map fun b =>
    { b with
      state := { b.state with height := u.height }
      checkpoint := { b.checkpoint with root := u.checkpointRoot, height := u.checkpointHeight } }

end Undo

/-! ### The persistent records -/

/-- The records of one domain, in key order. -/
def recordStream {K V : Type} [Ord K] [Std.TransOrd K] (domain : UInt8) (entity : K → List UInt8)
    (value : V → List UInt8) (map : OrdMap K V) : List (List UInt8 × List UInt8) :=
  map.toList.map fun e => (recordKey domain (entity e.1), value e.2)

/-- The domains that no transition writes. -/
def fixedStreams (s : State F) : List (List (List UInt8 × List UInt8)) :=
  [recordStream 5 Vector.toList locationBytes s.locations,
    recordStream 6 Vector.toList (fun c : CoinRecord => integers [c.totalSupply]) s.coins,
    recordStream 7 Vector.toList cardBytes s.cards,
    recordStream 8 Vector.toList fileBytes s.files]

def recordStreams (b : Bbg F) : List (List (List UInt8 × List UInt8)) :=
  let s := b.state
  [[(recordKey 0 [], metadata b)],
    recordStream 1 Vector.toList (fun p : ParticleRecord => integers p.words) s.particles,
    recordStream 2 Vector.toList (fun l : AxonList => adjacencyBytes l.axons) s.axonsOut,
    recordStream 3 Vector.toList (fun l : AxonList => adjacencyBytes l.axons) s.axonsIn,
    recordStream 4 Vector.toList (fun n : NeuronRecord => integers n.words) s.neurons] ++
  fixedStreams s ++
  [recordStream 9 u64BeBytes Vector.toList s.time,
    recordStream 10 Vector.toList signalBytes s.signals,
    recordStream 11 Vector.toList (fun v : F => integers [Nebu.asU64 v]) s.commitments,
    recordStream 12 Vector.toList (fun _ : Unit => []) s.nullifiers,
    recordStream 13 Vector.toList (fun v : UInt64 => integers [v]) s.balances,
    recordStream 14 Vector.toList intentBytes s.intents,
    recordStream 15 Vector.toList (fun e : Particle × Particle => e.1.toList ++ e.2.toList) s.axonEdges,
    recordStream 16 Vector.toList (fun epoch : UInt64 => integers [epoch]) b.lastTouched]

/-- The exact persisted state, ordered by byte key. -/
def recordList (b : Bbg F) : List (List UInt8 × List UInt8) := (recordStreams b).flatten

/-- Native profiles carry no checkpoint proof. -/
def records (b : Bbg F) : Except Error (List (List UInt8 × List UInt8)) :=
  if b.checkpoint.acc.isSome then .error .checkpointProof else .ok (recordList b)

/-! ### Preparations -/

structure Prepared (F : Type) where
  bbg : Bbg F
  undo : Undo
  changes : List RecordChange
  snapshots : List Snapshot

/-- The outcome of a step; a failure keeps the preparation to be dropped. -/
abbrev Attempt (F : Type) := Except (Error × Prepared F)

/-- The nullifiers of a signal are unspent and distinct. -/
def validateMoves (b : Bbg F) : OrdMap Bytes32 Unit → List BoxMove → Except Error Unit
  | _, [] => .ok ()
  | seen, mv :: moves =>
      if b.state.nullifiers.contains mv.nullifier || seen.contains mv.nullifier then .error .doubleSpend
      else validateMoves b (seen.insert mv.nullifier ()) moves

/-- The credits of a signal do not overflow, counted on a copy of the balances it reads. -/
def validateLinks (b : Bbg F) : OrdMap Bytes32 UInt64 → List Cyberlink → Except Error Unit
  | _, [] => .ok ()
  | balances, link :: links =>
      let target := balanceKey F link.target link.token
      let source := balanceKey F link.source link.token
      match checkedAdd (balances[target]?.getD (b.state.balances[target]?.getD 0)) link.amount with
      | none => .error (.overflow "balance")
      | some credit =>
          let balances := balances.insert target credit
          let debit := balances[source]?.getD (b.state.balances[source]?.getD 0)
          validateLinks b (balances.insert source (saturatingSub debit link.amount)) links

def validate (b : Bbg F) (signal : Signal) (key : Particle) (header : SignalRecord) : Except Error Unit :=
  if checkedAdd b.state.height 1 = none then .error (.overflow "height")
  else if 2 ^ 32 ≤ signal.links.length then .error (.overflow "link count")
  else if header.neuron ≠ signal.neuron ∨ header.linkCount ≠ UInt32.ofNat signal.links.length ∨
      header.blockHeight ≠ signal.height then .error .arguments
  else if b.state.signals.contains key then .error .signalExists
  else if MAX_KEYS < signal.links.length + signal.boxMoves.length then .error (.limit "signal items")
  else
    match validateMoves b ∅ signal.boxMoves with
    | .error e => .error e
    | .ok () => validateLinks b ∅ signal.links

namespace Prepared

def capture (p : Prepared F) (c : Cell) : Attempt F (Prepared F) :=
  match p.undo.capture p.bbg (.cell c) with
  | .ok undo => .ok { p with undo := undo }
  | .error e => .error (e, p)

def captureAll (p : Prepared F) (cells : List Cell) : Attempt F (Prepared F) := cells.foldlM capture p

variable (F) in
/-- The addresses captured for a link, in order. -/
def linkCaptures (link : Cyberlink) : List Cell :=
  let axon := axonId F link.source link.target
  [.particle axon, .particle link.target, .axonsOut link.source, .axonsIn link.target,
    .balance (balanceKey F link.source link.token), .balance (balanceKey F link.target link.token),
    .axonEdge axon, .lastTouched axon]

/-- The addresses captured for a signal, in order. -/
def signalCaptures (b : Bbg F) (signal : Signal) (key : Particle) : List Cell :=
  [.neuron signal.neuron, .time b.state.height, .signal key] ++ signal.boxMoves.flatMap Bbg.moveCells ++
    signal.links.flatMap (linkCaptures F)

/-- The pruning loop, with every axon captured before it is removed. -/
def pruneLoop (overBudget : Bool) : Prepared F → List Particle → Attempt F (Prepared F)
  | p, [] => .ok p
  | p, axon :: rest =>
      if overBudget && p.bbg.state.estimateBytes ≤ p.bbg.pruneConfig.maxBytes then .ok p
      else do
        let p ← p.captureAll (p.bbg.removeCells axon)
        pruneLoop overBudget { p with bbg := p.bbg.removeAxon axon } rest

def prune (p : Prepared F) : Attempt F (Prepared F) :=
  let epoch := p.bbg.state.height / EPOCH_BLOCKS
  match p.bbg.state.candidates p.bbg.lastTouched p.bbg.pruneConfig epoch (some MAX_KEYS) with
  | none => .error (.limit "pruning candidates", p)
  | some (overBudget, candidates) => pruneLoop overBudget p candidates

def pruneAtEpoch (p : Prepared F) : Attempt F (Prepared F) :=
  if p.bbg.state.height % EPOCH_BLOCKS = 0 then p.prune else .ok p

def signal (p : Prepared F) (signal : Signal) (header : SignalRecord) : Attempt F (Prepared F) := do
  let key := signalKey F header.neuron header.step
  match validate p.bbg signal key header with
  | .error e => .error (e, p)
  | .ok () =>
      let p ← p.captureAll (signalCaptures p.bbg signal key)
      match p.bbg.insert signal with
      | (.error _, b) => .error (.doubleSpend, { p with bbg := b })
      | (.ok (), b) =>
          let p := { p with bbg := (b.applySignalRecord header).snapshotTime }
          let p ← p.pruneAtEpoch
          .ok { p with bbg := p.bbg.advanceCheckpoint }

def intent (p : Prepared F) (intent : IntentRecord) : Attempt F (Prepared F) := do
  let p ← p.capture (.intent (intentKey F intent.neuron intent.h0 intent.scopeHash))
  .ok { p with bbg := p.bbg.applyIntent intent }

/-- A credit of balance and focus. -/
def localCredit (p : Prepared F) (neuron token : Particle) (amount focus : UInt64) : Attempt F (Prepared F) := do
  let key := balanceKey F neuron token
  match checkedAdd (p.bbg.state.balances[key]?.getD 0) amount with
  | none => .error (.overflow "balance", p)
  | some balance =>
      match checkedAdd ((p.bbg.state.neurons[neuron]?.map NeuronRecord.focus).getD 0) focus with
      | none => .error (.overflow "focus", p)
      | some nextFocus =>
          let p ← p.capture (.balance key)
          let p ← p.capture (.neuron neuron)
          let record := p.bbg.state.neurons[neuron]?.getD ⟨0, 0, 0, 0⟩
          let b := { p.bbg with
            state := { p.bbg.state with
              balances := p.bbg.state.balances.insert key balance
              neurons := p.bbg.state.neurons.insert neuron { record with focus := nextFocus } } }
          .ok { p with bbg := b.advanceCheckpoint }

def event (p : Prepared F) : NativeChange → Attempt F (Prepared F)
  | .signal signal header => p.signal signal header
  | .intent intent => p.intent intent
  | .localCredit neuron token amount focus => p.localCredit neuron token amount focus

/-- One event and its snapshot. -/
def eventSnapshot (p : Prepared F) (change : NativeChange) : Attempt F (Prepared F) := do
  let p ← p.event change
  .ok { p with snapshots := p.snapshots ++ [⟨p.bbg.state.height, p.bbg.state.root⟩] }

/-- The captured addresses whose record is not the captured one. -/
def collect (b : Bbg F) : Nat → List (Addr × Option (List UInt8)) → Except Error (List RecordChange)
  | _, [] => .ok []
  | bytes, (a, old) :: rest => do
      let value ← boundedRead b a
      if value = old then collect b bytes rest
      else
        let bytes := bytes + (a.key.length + (value.map List.length).getD 0)
        if MAX_BYTES < bytes then .error (.limit "write-set bytes")
        else do
          let changes ← collect b bytes rest
          .ok (⟨a.key, value⟩ :: changes)

def collectChanges (p : Prepared F) : Attempt F (Prepared F) :=
  match collect p.bbg 0 p.undo.values.toList with
  | .error e => .error (e, p)
  | .ok changes => .ok { p with changes := changes }

/-- Retain the candidate. -/
def publish (p : Prepared F) : Bbg F := p.bbg

/-- Give the graph back as it was; `none` is a panic of the decoder. -/
def drop (p : Prepared F) : Option (Bbg F) := p.undo.restore p.bbg

end Prepared

namespace Bbg

/-- The preparation at the start, with the metadata captured. -/
def beginBatch (b : Bbg F) : Attempt F (Prepared F) :=
  let p : Prepared F := ⟨b, Undo.new b, [], []⟩
  match p.undo.capture b .metadata with
  | .ok undo => .ok { p with undo := undo }
  | .error e => .error (e, p)

def runBatch (b : Bbg F) (events : List NativeChange) : Attempt F (Prepared F) := do
  let p ← b.beginBatch
  let p ← events.foldlM Prepared.eventSnapshot p
  p.collectChanges

/-- A preparation, or an error with the graph as the dropped preparation leaves it. -/
def prepareNativeBatch (b : Bbg F) (events : List NativeChange) : Except (Error × Option (Bbg F)) (Prepared F) :=
  if events.isEmpty ∨ MAX_EVENTS < events.length then .error (.limit "event count", some b)
  else if b.checkpoint.acc.isSome then .error (.checkpointProof, some b)
  else if 100 < b.pruneConfig.rankFloorPct then .error (.limit "pruning rank floor", some b)
  else
    match b.runBatch events with
    | .error (e, p) => .error (e, p.drop)
    | .ok p => .ok p

end Bbg

end LeanBbg
