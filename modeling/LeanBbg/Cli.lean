import LeanBbg.Frames
import LeanBbg.Pruning

/-! The command line. A store is a log of frames; a command replays the log into a fresh graph, acts on the
graph in memory and appends the frame of what it did. Pruning by hand is not logged: nothing on the command
line gives a record a rank, so the rank floor is zero and the pruning removes nothing. -/

set_option linter.unusedSectionVars false

namespace LeanBbg.Cli

open LeanBbg.Decode LeanBbg.Frame

variable {F : Type} [Hemera F] [DecidableEq F] [Brakedown F]

/-! ### Arguments -/

/-- The value of an ASCII hex digit. -/
def hexDigit (c : Char) : Option Nat :=
  if '0' ≤ c ∧ c ≤ '9' then some (c.toNat - '0'.toNat)
  else if 'a' ≤ c ∧ c ≤ 'f' then some (c.toNat - 'a'.toNat + 10)
  else if 'A' ≤ c ∧ c ≤ 'F' then some (c.toNat - 'A'.toNat + 10)
  else none

def stripHex : List Char → List Char
  | '0' :: 'x' :: rest => rest
  | s => s

/-- A hex key of 32 bytes, with an optional `0x`, padded with zeros on the left. -/
def h32 (s : String) : Option Bytes32 :=
  let s := stripHex s.toList
  if s.isEmpty ∨ 64 < s.length then none
  else
    (s.mapM hexDigit).map fun digits =>
      let padded := List.replicate (64 - digits.length) 0 ++ digits
      Vector.ofFn fun i : Fin 32 => UInt8.ofNat (16 * padded.getD (2 * i) 0 + padded.getD (2 * i + 1) 0)

inductive Command where
  | root
  | height
  | stats
  | get (dim key : String)
  | dump (dim : Option String)
  | apply (neuron source target token : String) (amount : UInt64) (valence : Int8)
  | intend (neuron : String) (h0 : UInt64) (scope : String)
  | finalize
  | prune
  | prove (dim key : String)

/-! ### Commands on the graph in memory -/

def cyberlinkSignal (height : UInt64) (neuron : NeuronId) (link : Cyberlink) : Signal := ⟨neuron, [link], [], height⟩

/-- The graph after a command, and the event that is appended to the log. -/
def runCommand (b : Bbg F) : Command → Bbg F × Option Event
  | .apply neuron source target token amount valence =>
      match h32 neuron, h32 source, h32 target, h32 token with
      | some neuron, some source, some target, some token =>
          let signal := cyberlinkSignal b.state.height neuron ⟨source, target, token, amount, valence⟩
          match b.insert signal with
          | (.error _, b) => (b, none)
          | (.ok (), b) => (b, some (.signal signal))
      | _, _, _, _ => (b, none)
  | .intend neuron h0 scope =>
      match h32 neuron, h32 scope with
      | some neuron, some scope =>
          let intent : IntentRecord := ⟨neuron, h0, scope, Vector.replicate 64 0⟩
          (b.applyIntent intent, some (.intent intent))
      | _, _ => (b, none)
  | .finalize => (b.finalizeBlock, some .finalize)
  | .prune => (b.prune (b.state.height / EPOCH_BLOCKS), none)
  | .root => (b, none)
  | .height => (b, none)
  | .stats => (b, none)
  | .get _ _ => (b, none)
  | .dump _ => (b, none)
  | .prove _ _ => (b, none)

/-! ### The store -/

/-- One event of the log. A signal that is refused leaves the graph as it is. -/
def replay (b : Bbg F) : Event → Bbg F
  | .signal s => (b.insert s).2
  | .intent i => b.applyIntent i
  | .finalize => b.finalizeBlock

/-- The graph of a log; `none` is a store without a log. -/
def openStore (tape : Tape) : Option (List UInt8) → Except Fault (Bbg F)
  | none => .ok Bbg.new
  | some bytes => (decodeEvents tape bytes).map fun events => events.foldl replay Bbg.new

def append (log : Option (List UInt8)) (frame : List UInt8) : Option (List UInt8) := some (log.getD [] ++ frame)

/-- The graph that the last command left in memory, and the log on disk. -/
structure Session (F : Type) where
  memory : Bbg F
  log : Option (List UInt8)

/-- One command against the store. -/
def execute (tape : Tape) (s : Session F) (command : Command) : Except Fault (Session F) :=
  match openStore tape s.log with
  | .error e => .error e
  | .ok b =>
      match runCommand b command with
      | (b, none) => .ok ⟨b, s.log⟩
      | (b, some event) => .ok ⟨b, append s.log (encodeEvent tape event)⟩

def runCommands (tape : Tape) (commands : List Command) : Except Fault (Session F) :=
  commands.foldlM (execute tape) ⟨Bbg.new, none⟩

/-! ### No ranks -/

/-- No record has a rank. -/
def Unranked (particles : OrdMap Particle ParticleRecord) : Prop :=
  ∀ (p : Particle) (r : ParticleRecord), particles[p]? = some r → r.piStar = 0

theorem Unranked.insert {particles : OrdMap Particle ParticleRecord} (h : Unranked particles) (key : Particle)
    (write : ParticleRecord → ParticleRecord) (hwrite : ∀ r, (write r).piStar = r.piStar) :
    Unranked (particles.insert key (write (particles[key]?.getD .zero))) := by
  intro p r hget
  rw [OrdMap.getElem?_insert] at hget
  split_ifs at hget
  · obtain rfl := Option.some_inj.mp hget
    rw [hwrite]
    cases hold : particles[key]? with
    | none => rfl
    | some old => exact h key old hold
  · exact h p r hget

theorem Unranked.addWeight {s : State F} (h : Unranked s.particles) (axon : Particle) (amount : UInt64) :
    Unranked (s.addWeight axon amount).particles :=
  h.insert axon (fun r => { r with
    weight := (s.particles[axon]?.map fun p => saturatingAdd p.weight amount).getD amount }) fun _ => rfl

theorem Unranked.addEnergy {s : State F} (h : Unranked s.particles) (target : Particle) (amount : UInt64) :
    Unranked (s.addEnergy target amount).particles :=
  h.insert target (fun r => { r with
    energy := (s.particles[target]?.map fun p => saturatingAdd p.energy amount).getD amount }) fun _ => rfl

/-- A link writes weights and energies, not ranks. -/
theorem Unranked.applyLink {s : State F} (h : Unranked s.particles) (neuron : NeuronId) (link : Cyberlink) :
    Unranked (s.applyLink neuron link).particles := by
  have hfocus : ∀ (s : State F) (amount : UInt64), (s.spendFocus neuron amount).particles = s.particles := by
    intro s amount
    rw [State.spendFocus]
    cases s.neurons[neuron]? <;> rfl
  rw [State.applyLink]
  split_ifs
  · exact h
  · rw [State.moveConviction]
    dsimp only [State.debit, State.credit]
    rw [hfocus]
    exact (Unranked.addWeight (s := s.linkTopology link) h _ _).addEnergy _ _

theorem Unranked.foldl_applyLink {s : State F} (h : Unranked s.particles) (neuron : NeuronId) (links : List Cyberlink) :
    Unranked (links.foldl (State.applyLink neuron) s).particles := by
  induction links generalizing s with
  | nil => exact h
  | cons link links ih => exact ih (h.applyLink neuron link)

theorem foldl_applyMove_particles (moves : List BoxMove) (s : State F) :
    (moves.foldl State.applyMove s).particles = s.particles := by
  induction moves generalizing s with
  | nil => rfl
  | cons mv moves ih =>
      refine (ih (s.applyMove mv)).trans ?_
      rw [State.applyMove]
      cases mv.commitment <;> rfl

theorem keeps_unranked : Bbg.Keeps (F := F) (fun _ b => Unranked b.state.particles) fun _ => True where
  accept _ b signal _ hI _ := by
    have hmoved : Unranked (signal.boxMoves.foldl State.applyMove b.state).particles := by
      rw [foldl_applyMove_particles]
      exact hI
    exact hmoved.foldl_applyLink signal.neuron signal.links
  removeAxon _ b axon hI p r hget := by
    rw [(Bbg.removeAxon_maps b axon).1, OrdMap.getElem?_erase] at hget
    split_ifs at hget
    exact hI p r hget
  snapshotTime _ _ hI := hI
  advanceCheckpoint _ _ hI := hI
  pruneConfig _ _ _ hI := hI
  applyIntent _ _ _ hI := hI
  applySignalRecord _ _ _ hI := hI
  credit _ _ _ _ _ _ hI := hI

/-! ### Graphs of the command line -/

/-- No record has a rank, and the configuration is the default. -/
structure Plain (b : Bbg F) : Prop where
  unranked : Unranked b.state.particles
  config : b.pruneConfig = PruneConfig.default

theorem plain_new : Plain (Bbg.new : Bbg F) := ⟨by simp [Unranked, Bbg.new, State.new], rfl⟩

theorem finalizeBlock_pruneConfig (b : Bbg F) : b.finalizeBlock.pruneConfig = b.pruneConfig :=
  Bbg.finalizeBlock_induction (I := fun b' => b'.pruneConfig = b.pruneConfig) (fun _ _ _ _ hI => hI) (fun _ hI => hI) rfl

theorem Plain.replay {b : Bbg F} (h : Plain b) (event : Event) : Plain (replay b event) := by
  cases event with
  | signal s =>
      rw [Cli.replay, Bbg.insert_eq]
      split_ifs with hspent
      · exact h
      · exact ⟨keeps_unranked.accept [] b s trivial h.unranked (by simpa using hspent), h.config⟩
  | intent i => exact ⟨h.unranked, h.config⟩
  | finalize =>
      refine ⟨?_, (finalizeBlock_pruneConfig b).trans h.config⟩
      exact Bbg.finalizeBlock_induction (fun _ axon _ b hI => keeps_unranked.removeAxon [] b axon hI) (fun _ hI => hI)
        h.unranked

/-- Without ranks the floor is zero, and pruning finds nothing below it. -/
theorem Plain.prune {b : Bbg F} (h : Plain b) (epoch : UInt64) : b.prune epoch = b := by
  have hfloor : b.state.rankFloor PruneConfig.default.rankFloorPct = 0 := by
    rcases State.rankFloor_mem (s := b.state) PruneConfig.default.rankFloorPct (by decide) with
      ⟨-, hzero⟩ | ⟨p, r, hget, hrank⟩
    · exact hzero
    · exact hrank.symm.trans (h.unranked p r hget)
  rw [← Bbg.pruneWith_self, h.config]
  exact Bbg.pruneWith_of_floor_zero hfloor epoch

/-! ### Commands and replay -/

/-- What the command line logs: a payload of a few bytes. -/
def Small (event : Event) : Prop := event.Countable ∧ event.chunk.payload.length < 2 ^ 16

theorem small_signal (height : UInt64) (neuron : NeuronId) (link : Cyberlink) :
    Small (.signal (cyberlinkSignal height neuron link)) := by
  refine ⟨⟨show 1 < 2 ^ 32 by decide, show 0 < 2 ^ 32 by decide⟩, ?_⟩
  have hle := length_serializeSignal_le (cyberlinkSignal height neuron link)
  change (serializeSignal (cyberlinkSignal height neuron link)).length < 2 ^ 16
  have hlinks : (cyberlinkSignal height neuron link).links.length = 1 := rfl
  have hmoves : (cyberlinkSignal height neuron link).boxMoves.length = 0 := rfl
  rw [hlinks, hmoves, LINK_BYTES] at hle
  omega

theorem small_intent (i : IntentRecord) : Small (.intent i) :=
  ⟨trivial, by
    change (serializeIntent i).length < 2 ^ 16
    rw [length_serializeIntent]
    decide⟩

/-- A command that logs an event does to the graph what the replay of the event does; one that logs nothing
leaves the graph as it is. -/
theorem runCommand_cases {b : Bbg F} (h : Plain b) (command : Command) :
    runCommand b command = (b, none) ∨ ∃ event, Small event ∧ runCommand b command = (replay b event, some event) := by
  cases command with
  | apply neuron source target token amount valence =>
      rw [runCommand]
      cases h32 neuron with
      | none => exact .inl rfl
      | some neuron =>
          cases h32 source with
          | none => exact .inl rfl
          | some source =>
              cases h32 target with
              | none => exact .inl rfl
              | some target =>
                  cases h32 token with
                  | none => exact .inl rfl
                  | some token =>
                      dsimp only
                      right
                      refine ⟨_, small_signal b.state.height neuron ⟨source, target, token, amount, valence⟩, ?_⟩
                      rw [replay, Bbg.insert_eq]
                      rfl
  | intend neuron h0 scope =>
      rw [runCommand]
      cases h32 neuron with
      | none => exact .inl rfl
      | some neuron =>
          cases h32 scope with
          | none => exact .inl rfl
          | some scope => exact .inr ⟨_, small_intent ⟨neuron, h0, scope, Vector.replicate 64 0⟩, rfl⟩
  | finalize => exact .inr ⟨.finalize, ⟨trivial, by decide⟩, rfl⟩
  | prune =>
      rw [runCommand, h.prune]
      exact .inl rfl
  | root => exact .inl rfl
  | height => exact .inl rfl
  | stats => exact .inl rfl
  | get dim key => exact .inl rfl
  | dump dim => exact .inl rfl
  | prove dim key => exact .inl rfl

/-- The log has the frames of a list of events, and the graph in memory is their replay. -/
def Logged (tape : Tape) (s : Session F) : Prop :=
  ∃ events : List Event, (∀ event ∈ events, Small event) ∧ s.memory = events.foldl replay Bbg.new ∧
    (s.log = none ∧ events = [] ∨ s.log = some (events.flatMap (encodeEvent tape)))

variable {tape : Tape}

/-- The log of a session replays to its graph. -/
theorem Logged.openStore (htape : ∀ frames : List Chunk, (∀ c ∈ frames, c.payload.length < 2 ^ 16) → tape.Delivers frames)
    {s : Session F} (h : Logged tape s) : Cli.openStore tape s.log = .ok s.memory := by
  obtain ⟨events, hsmall, hmemory, hlog⟩ := h
  rcases hlog with ⟨hlog, rfl⟩ | hlog
  · rw [hlog, hmemory]
    rfl
  · have hdeliver : tape.Delivers (events.map Event.chunk) := by
      refine htape _ fun c hc => ?_
      obtain ⟨event, hevent, rfl⟩ := List.mem_map.mp hc
      exact (hsmall event hevent).2
    rw [hlog, Cli.openStore, decodeEvents_flatMap hdeliver fun event hevent => (hsmall event hevent).1, hmemory]
    rfl

theorem foldl_replay_plain (events : List Event) {b : Bbg F} (h : Plain b) : Plain (events.foldl replay b) := by
  induction events generalizing b with
  | nil => exact h
  | cons event events ih => exact ih (h.replay event)

theorem Logged.execute (htape : ∀ frames : List Chunk, (∀ c ∈ frames, c.payload.length < 2 ^ 16) → tape.Delivers frames)
    {s : Session F} (h : Logged tape s) (command : Command) : ∃ s', Cli.execute tape s command = .ok s' ∧ Logged tape s' := by
  have hopen := h.openStore htape
  obtain ⟨events, hsmall, hmemory, hlog⟩ := h
  have hplain : Plain s.memory := hmemory ▸ foldl_replay_plain events plain_new
  rw [Cli.execute, hopen]
  rcases runCommand_cases hplain command with hrun | ⟨event, hevent, hrun⟩
  · refine ⟨⟨s.memory, s.log⟩, ?_, events, hsmall, hmemory, hlog⟩
    dsimp only
    rw [hrun]
  · refine ⟨⟨replay s.memory event, append s.log (encodeEvent tape event)⟩, ?_, events ++ [event], ?_, ?_, .inr ?_⟩
    · dsimp only
      rw [hrun]
    · intro e he
      rcases List.mem_append.mp he with he | he
      · exact hsmall e he
      · rwa [List.mem_singleton.mp he]
    · rw [List.foldl_append, ← hmemory]
      rfl
    · rw [List.flatMap_append, List.flatMap_singleton]
      rcases hlog with ⟨hlog, rfl⟩ | hlog
      · rw [hlog]
        rfl
      · rw [hlog]
        rfl

theorem exists_runCommands (htape : ∀ frames : List Chunk, (∀ c ∈ frames, c.payload.length < 2 ^ 16) → tape.Delivers frames)
    {s : Session F} (h : Logged tape s) (commands : List Command) :
    ∃ s', commands.foldlM (Cli.execute tape) s = .ok s' ∧ Logged tape s' := by
  induction commands generalizing s with
  | nil => exact ⟨s, rfl, h⟩
  | cons command commands ih =>
      obtain ⟨s₁, hexecute, h₁⟩ := h.execute htape command
      obtain ⟨s₂, hrest, h₂⟩ := ih h₁
      refine ⟨s₂, ?_, h₂⟩
      rw [List.foldlM_cons, hexecute]
      exact hrest

/-- Every sequence of commands against a store without a log runs, and the graph that the last command left
in memory is the graph that the log replays to. -/
theorem openStore_runCommands
    (htape : ∀ frames : List Chunk, (∀ c ∈ frames, c.payload.length < 2 ^ 16) → tape.Delivers frames)
    (commands : List Command) :
    ∃ s : Session F, runCommands tape commands = .ok s ∧ openStore tape s.log = .ok s.memory := by
  have hstart : Logged tape (⟨Bbg.new, none⟩ : Session F) := ⟨[], nofun, rfl, .inl ⟨rfl, rfl⟩⟩
  obtain ⟨s, hrun, h⟩ := exists_runCommands htape hstart commands
  exact ⟨s, hrun, h.openStore htape⟩

theorem openStore_runCommands_pruned : ∃ s : Session Rolling,
    runCommands FlagTape.tape [.apply "1" "2" "0x3" "0" 9 1, .intend "1" 0 "ab", .prune, .finalize] = .ok s ∧
      openStore FlagTape.tape s.log = .ok s.memory :=
  openStore_runCommands (fun frames _ => FlagTape.delivers frames) _

end LeanBbg.Cli
