import LeanBbg.LibRefine
import LeanBbg.Rollback

/-! The native path refines the plain one: what an accepted batch publishes is what the plain operations
make of its events in order, and its snapshots are those of the plain run. -/

set_option linter.unusedSectionVars false

namespace LeanBbg

open Attempt

variable {F : Type} [Hemera F] [DecidableEq F] [Brakedown F]

namespace Bbg

/-- A signal by the plain operations: insertion, its record, and the end of the block. -/
def plainSignal (b : Bbg F) (signal : Signal) (header : SignalRecord) : Option (Bbg F) :=
  match b.insert signal with
  | (.error _, _) => none
  | (.ok (), b) => some (b.applySignalRecord header).finalizeBlock

/-- A credit of balance and focus, refused on overflow. -/
def plainCredit (b : Bbg F) (neuron token : Particle) (amount focus : UInt64) : Option (Bbg F) := do
  let key := balanceKey F neuron token
  let balance ← checkedAdd (b.state.balances[key]?.getD 0) amount
  let nextFocus ← checkedAdd ((b.state.neurons[neuron]?.map NeuronRecord.focus).getD 0) focus
  let record := b.state.neurons[neuron]?.getD ⟨0, 0, 0, 0⟩
  let credited := b.onState fun s => { s with
    balances := s.balances.insert key balance
    neurons := s.neurons.insert neuron { record with focus := nextFocus } }
  some credited.advanceCheckpoint

def plainEvent (b : Bbg F) : NativeChange → Option (Bbg F)
  | .signal signal header => b.plainSignal signal header
  | .intent intent => some (b.applyIntent intent)
  | .localCredit neuron token amount focus => b.plainCredit neuron token amount focus

/-- An event by the plain operations, with the height and root after it. -/
def plainStep (b : Bbg F) (change : NativeChange) : Option (Snapshot × Bbg F) :=
  (b.plainEvent change).map fun b => (⟨b.state.height, b.state.root⟩, b)

end Bbg

namespace State

/-- Within its limit, the bounded candidate list is the unbounded one. -/
theorem candidates_of_limit {s : State F} {touched : LastTouched} {config : PruneConfig} {epoch : UInt64} {n : Nat}
    {found : Bool × List Particle} (h : s.candidates touched config epoch (some n) = some found) :
    s.candidates touched config epoch none = some found := by
  rw [candidates] at h ⊢
  split_ifs at h
  exact h

end State

namespace Prepared

variable {p p' : Prepared F}

/-- Nothing that a caller sees has changed. -/
structure SameView (p p' : Prepared F) : Prop where
  bbg : p'.bbg = p.bbg
  snapshots : p'.snapshots = p.snapshots

theorem capture_view {c : Cell} (h : p.capture c = .ok p') : SameView p p' := by
  rw [capture] at h
  cases hu : p.undo.capture p.bbg (.cell c) with
  | error e =>
      rw [hu] at h
      cases h
  | ok u =>
      rw [hu] at h
      obtain rfl := Except.ok.inj h
      exact ⟨rfl, rfl⟩

theorem captureAll_view {cells : List Cell} (h : p.captureAll cells = .ok p') : SameView p p' := by
  induction cells generalizing p with
  | nil =>
      obtain rfl := Except.ok.inj h
      exact ⟨rfl, rfl⟩
  | cons c cells ih =>
      rw [captureAll, List.foldlM_cons] at h
      obtain ⟨p₁, hfirst, hrest⟩ := exists_of_bind_ok h
      have hview := capture_view hfirst
      have hview' := ih hrest
      exact ⟨hview'.bbg.trans hview.bbg, hview'.snapshots.trans hview.snapshots⟩

theorem pruneLoop_refines {overBudget : Bool} {axons : List Particle} (h : p.pruneLoop overBudget axons = .ok p') :
    p'.bbg = Bbg.pruneLoop overBudget p.bbg axons ∧ p'.snapshots = p.snapshots := by
  induction axons generalizing p with
  | nil =>
      obtain rfl := Except.ok.inj h
      exact ⟨rfl, rfl⟩
  | cons axon axons ih =>
      rw [pruneLoop] at h
      rw [Bbg.pruneLoop]
      split_ifs at h ⊢ with hdone
      · obtain rfl := Except.ok.inj h
        exact ⟨rfl, rfl⟩
      · obtain ⟨p₁, hcapture, hrest⟩ := exists_of_bind_ok h
        have hview := captureAll_view hcapture
        obtain ⟨hbbg, hsnapshots⟩ := ih hrest
        rw [hview.bbg] at hbbg
        exact ⟨hbbg, hsnapshots.trans hview.snapshots⟩

theorem prune_refines (h : p.prune = .ok p') :
    p'.bbg = p.bbg.prune (p.bbg.state.height / EPOCH_BLOCKS) ∧ p'.snapshots = p.snapshots := by
  rw [prune] at h
  cases hfound : p.bbg.state.candidates p.bbg.lastTouched p.bbg.pruneConfig (p.bbg.state.height / EPOCH_BLOCKS)
      (some MAX_KEYS) with
  | none =>
      rw [hfound] at h
      cases h
  | some found =>
      rw [hfound] at h
      rw [Bbg.prune, State.candidates_of_limit hfound]
      exact pruneLoop_refines h

theorem signal_refines {signal : Signal} {header : SignalRecord} (h : p.signal signal header = .ok p') :
    p.bbg.plainSignal signal header = some p'.bbg ∧ p'.snapshots = p.snapshots := by
  rw [Prepared.signal] at h
  cases hvalid : validate p.bbg signal (signalKey F header.neuron header.step) header with
  | error e =>
      rw [hvalid] at h
      cases h
  | ok u =>
      rw [hvalid] at h
      obtain ⟨p₁, hcapture, h⟩ := exists_of_bind_ok h
      have hview := captureAll_view hcapture
      rw [hview.bbg] at h
      rw [Bbg.plainSignal, Bbg.insert_eq]
      rw [Bbg.insert_eq] at h
      split_ifs at h ⊢ with hspent
      obtain ⟨p₂, hprune, h⟩ := exists_of_bind_ok h
      obtain rfl := Except.ok.inj h
      dsimp only at hprune ⊢
      rw [pruneAtEpoch] at hprune
      rw [Bbg.finalizeBlock]
      dsimp only at hprune ⊢
      split_ifs at hprune ⊢ with hepoch
      · obtain ⟨hbbg, hsnapshots⟩ := prune_refines hprune
        rw [hbbg]
        exact ⟨rfl, hsnapshots.trans hview.snapshots⟩
      · obtain rfl := Except.ok.inj hprune
        exact ⟨rfl, hview.snapshots⟩

theorem intent_refines {intent : IntentRecord} (h : p.intent intent = .ok p') :
    p'.bbg = p.bbg.applyIntent intent ∧ p'.snapshots = p.snapshots := by
  obtain ⟨p₁, hcapture, h⟩ := exists_of_bind_ok h
  have hview := capture_view hcapture
  obtain rfl := Except.ok.inj h
  exact ⟨congrArg (fun b => b.applyIntent intent) hview.bbg, hview.snapshots⟩

theorem localCredit_refines {neuron token : Particle} {amount focus : UInt64}
    (h : p.localCredit neuron token amount focus = .ok p') :
    p.bbg.plainCredit neuron token amount focus = some p'.bbg ∧ p'.snapshots = p.snapshots := by
  rw [Prepared.localCredit] at h
  rw [Bbg.plainCredit]
  cases hbalance : checkedAdd (p.bbg.state.balances[balanceKey F neuron token]?.getD 0) amount with
  | none =>
      rw [hbalance] at h
      cases h
  | some balance =>
      rw [hbalance] at h
      dsimp only at h
      cases hfocus : checkedAdd ((p.bbg.state.neurons[neuron]?.map NeuronRecord.focus).getD 0) focus with
      | none =>
          rw [hfocus] at h
          cases h
      | some nextFocus =>
          rw [hfocus] at h
          obtain ⟨p₁, hfirst, h⟩ := exists_of_bind_ok h
          obtain ⟨p₂, hsecond, h⟩ := exists_of_bind_ok h
          have hview := capture_view hfirst
          have hview' := capture_view hsecond
          obtain rfl := Except.ok.inj h
          refine ⟨?_, hview'.snapshots.trans hview.snapshots⟩
          simp only [Option.bind_eq_bind, Option.bind_some, hview'.bbg, hview.bbg]
          rfl

theorem event_refines {change : NativeChange} (h : p.event change = .ok p') :
    p.bbg.plainEvent change = some p'.bbg ∧ p'.snapshots = p.snapshots := by
  cases change with
  | signal signal header => exact signal_refines h
  | intent intent =>
      obtain ⟨hbbg, hsnapshots⟩ := intent_refines h
      exact ⟨congrArg some hbbg.symm, hsnapshots⟩
  | localCredit neuron token amount focus => exact localCredit_refines h

/-- The events of a batch are a plain run, and the snapshots its answers. -/
theorem events_refine {events : List NativeChange} (h : events.foldlM eventSnapshot p = .ok p') :
    ∃ snapshots, Refine.run Bbg.plainStep p.bbg events = some (snapshots, p'.bbg) ∧
      p'.snapshots = p.snapshots ++ snapshots := by
  induction events generalizing p with
  | nil =>
      obtain rfl := Except.ok.inj h
      exact ⟨[], rfl, (List.append_nil _).symm⟩
  | cons change events ih =>
      rw [List.foldlM_cons] at h
      obtain ⟨p₁, hfirst, hrest⟩ := exists_of_bind_ok h
      obtain ⟨p₂, hevent, hsnapshot⟩ := exists_of_bind_ok hfirst
      obtain rfl := Except.ok.inj hsnapshot
      obtain ⟨hplain, hsnapshots⟩ := event_refines hevent
      obtain ⟨rest, hrun, heq⟩ := ih hrest
      refine ⟨⟨p₂.bbg.state.height, p₂.bbg.state.root⟩ :: rest, ?_, ?_⟩
      · rw [Refine.run, Bbg.plainStep, hplain, Option.map_some, Option.bind_some, hrun]
        rfl
      · rw [heq, hsnapshots, List.append_assoc]
        rfl

theorem collectChanges_view (h : p.collectChanges = .ok p') : SameView p p' := by
  rw [collectChanges] at h
  cases hcollect : collect p.bbg 0 p.undo.values.toList with
  | error e =>
      rw [hcollect] at h
      cases h
  | ok changes =>
      rw [hcollect] at h
      obtain rfl := Except.ok.inj h
      exact ⟨rfl, rfl⟩

end Prepared

namespace Bbg

open Prepared

theorem beginBatch_view {b : Bbg F} {p : Prepared F} (h : b.beginBatch = .ok p) : p.bbg = b ∧ p.snapshots = [] := by
  rw [beginBatch] at h
  dsimp only at h
  cases hu : (Undo.new b).capture b .metadata with
  | error e =>
      rw [hu] at h
      cases h
  | ok u =>
      rw [hu] at h
      obtain rfl := Except.ok.inj h
      exact ⟨rfl, rfl⟩

theorem runBatch_of_prepare {b : Bbg F} {events : List NativeChange} {p : Prepared F}
    (h : b.prepareNativeBatch events = .ok p) : b.runBatch events = .ok p := by
  rw [prepareNativeBatch] at h
  split_ifs at h
  generalize b.runBatch events = x at h ⊢
  cases x with
  | error ep => cases h
  | ok p' =>
      obtain rfl := Except.ok.inj h
      rfl

/-- An accepted batch publishes what the plain operations make of its events in order. -/
theorem prepare_refines {b : Bbg F} {events : List NativeChange} {p : Prepared F}
    (h : b.prepareNativeBatch events = .ok p) :
    Refine.run plainStep b events = some (p.snapshots, p.publish) := by
  have hrun := runBatch_of_prepare h
  rw [runBatch] at hrun
  obtain ⟨p₁, hbegin, hrun⟩ := exists_of_bind_ok hrun
  obtain ⟨p₂, hevents, hcollect⟩ := exists_of_bind_ok hrun
  obtain ⟨hbbg, hnil⟩ := beginBatch_view hbegin
  obtain ⟨snapshots, hplain, hsnapshots⟩ := events_refine hevents
  have hview := collectChanges_view hcollect
  rw [hbbg] at hplain
  rw [hnil, List.nil_append] at hsnapshots
  rw [publish, hview.bbg, hview.snapshots, hsnapshots, hplain]

/-- A signal with a spent box and a link of conviction, and then an intent. -/
def spendAndDeclare : List NativeChange :=
  [.signal ⟨Vector.replicate 32 1, [⟨Vector.replicate 32 2, Vector.replicate 32 3, Vector.replicate 32 4, 9, 1⟩],
      [⟨Vector.replicate 32 5, some (Vector.replicate 32 6, 8)⟩], 0⟩
      ⟨Vector.replicate 32 1, Vector.replicate 32 7, 1, 0, Vector.replicate 32 8, 0⟩,
    .intent ⟨Vector.replicate 32 1, 3, Vector.replicate 32 9, Vector.replicate 64 0⟩]

theorem exists_of_isOk {E α : Type} {x : Except E α} (h : x.isOk) : ∃ a, x = .ok a := by
  cases x with
  | ok a => exact ⟨a, rfl⟩
  | error e => cases h

theorem prepare_refines_spendAndDeclare : ∃ p, (new : Bbg Goldilocks).prepareNativeBatch spendAndDeclare = .ok p ∧
    Refine.run plainStep new spendAndDeclare = some (p.snapshots, p.publish) := by
  obtain ⟨p, hp⟩ := exists_of_isOk
    (show ((new : Bbg Goldilocks).prepareNativeBatch spendAndDeclare).isOk = true by decide +kernel)
  exact ⟨p, hp, prepare_refines hp⟩

end Bbg

end LeanBbg
