import LeanBbg.NativeRefinement

/-! Runs of the graph: plain operations, pruning, and native batches that are published or dropped. Every
step is made of the acceptance of signals and of a few writes that accept nothing, so an invariant over
runs needs one lemma for each of these. -/

set_option linter.unusedSectionVars false

namespace LeanBbg

variable {F : Type} [Hemera F] [DecidableEq F] [Brakedown F]

namespace Bbg

inductive Op where
  | insert (signal : Signal)
  | finalizeBlock
  | prune (config : PruneConfig) (epoch : UInt64)
  | applyIntent (intent : IntentRecord)
  | applySignalRecord (record : SignalRecord)
  | publish (events : List NativeChange)
  | drop (events : List NativeChange)

/-- `prune::prune` with a configuration of the caller. -/
def pruneWith (b : Bbg F) (config : PruneConfig) (epoch : UInt64) : Bbg F :=
  { prune { b with pruneConfig := config } epoch with pruneConfig := b.pruneConfig }

def NativeChange.signal? : NativeChange → Option Signal
  | .signal signal _ => some signal
  | _ => none

/-- The signals of a batch. -/
def signalsOf (events : List NativeChange) : List Signal := events.filterMap NativeChange.signal?

/-- One operation: the signals it accepts, and the graph after it; `none` is a panic. -/
def step (b : Bbg F) : Op → Option (List Signal × Bbg F)
  | .insert signal =>
      match b.insert signal with
      | (.ok (), b) => some ([signal], b)
      | (.error _, b) => some ([], b)
  | .finalizeBlock => some ([], b.finalizeBlock)
  | .prune config epoch => some ([], b.pruneWith config epoch)
  | .applyIntent intent => some ([], b.applyIntent intent)
  | .applySignalRecord record => some ([], b.applySignalRecord record)
  | .publish events =>
      match b.prepareNativeBatch events with
      | .ok p => some (signalsOf events, p.publish)
      | .error (_, left) => left.map fun b => ([], b)
  | .drop events =>
      match b.prepareNativeBatch events with
      | .ok p => p.drop.map fun b => ([], b)
      | .error (_, left) => left.map fun b => ([], b)

/-! ### Steps -/

theorem step_insert (b : Bbg F) (signal : Signal) : b.step (.insert signal) =
    if b.state.spent signal then some ([], b) else some ([signal], b.accept signal) := by
  rw [step, insert_eq]
  split_ifs <;> rfl

/-! ### Pruning and finalization -/

/-- What every removal of an axon of the list keeps, the pruning loop keeps. -/
theorem pruneLoop_induction {I : Bbg F → Prop} {overBudget : Bool} {axons : List Particle} {b : Bbg F}
    (hremove : ∀ axon ∈ axons, ∀ b : Bbg F, I b → I (b.removeAxon axon)) (hI : I b) : I (pruneLoop overBudget b axons) := by
  induction axons generalizing b with
  | nil => exact hI
  | cons axon axons ih =>
      rw [Bbg.pruneLoop]
      split_ifs
      · exact hI
      · exact ih (fun a ha => hremove a (List.mem_cons_of_mem _ ha)) (hremove axon List.mem_cons_self b hI)

theorem prune_induction {I : Bbg F → Prop} {epoch : UInt64} {b : Bbg F}
    (hremove : ∀ axon ∈ (b.state.unprotected b.lastTouched b.pruneConfig epoch).map Prod.fst,
      ∀ b : Bbg F, I b → I (b.removeAxon axon)) (hI : I b) : I (b.prune epoch) := by
  rw [Bbg.prune, State.candidates]
  refine pruneLoop_induction (fun axon haxon => hremove axon ?_) hI
  obtain ⟨e, he, rfl⟩ := List.mem_map.mp haxon
  exact List.mem_map_of_mem (List.mem_mergeSort.mp he)

/-- The end of a block is the snapshot, the pruning at the end of an epoch, and the checkpoint. -/
theorem finalizeBlock_induction {I : Bbg F → Prop} {b : Bbg F}
    (hprune : b.snapshotTime.state.height % EPOCH_BLOCKS = 0 →
      ∀ axon ∈ (b.snapshotTime.state.unprotected b.snapshotTime.lastTouched b.snapshotTime.pruneConfig
        (b.snapshotTime.state.height / EPOCH_BLOCKS)).map Prod.fst, ∀ b : Bbg F, I b → I (b.removeAxon axon))
    (hcheckpoint : ∀ b : Bbg F, I b → I b.advanceCheckpoint) (hI : I b.snapshotTime) : I b.finalizeBlock := by
  rw [Bbg.finalizeBlock]
  refine hcheckpoint _ ?_
  split_ifs with hepoch
  · exact prune_induction (hprune hepoch) hI
  · exact hI

/-! ### Batches -/

variable [NebuRoundTrip F]

theorem step_drop (b : Bbg F) (events : List NativeChange) : b.step (.drop events) = some ([], b) := by
  obtain ⟨herror, hok⟩ := rollback_exact b events
  rw [step]
  cases hprepare : b.prepareNativeBatch events with
  | ok p =>
      dsimp only
      rw [hok p hprepare]
      rfl
  | error failed =>
      obtain ⟨e, left⟩ := failed
      dsimp only
      rw [herror e left hprepare]
      rfl

/-- A batch that is not accepted leaves the graph as it is. -/
theorem step_publish (b : Bbg F) (events : List NativeChange) : b.step (.publish events) = some ([], b) ∨
    ∃ p, b.prepareNativeBatch events = .ok p ∧ b.step (.publish events) = some (signalsOf events, p.publish) := by
  obtain ⟨herror, -⟩ := rollback_exact b events
  rw [step]
  cases hprepare : b.prepareNativeBatch events with
  | ok p => exact .inr ⟨p, rfl, rfl⟩
  | error failed =>
      obtain ⟨e, left⟩ := failed
      left
      dsimp only
      rw [herror e left hprepare]
      rfl

/-- No operation panics. -/
theorem exists_step (b : Bbg F) (op : Op) : ∃ next, b.step op = some next := by
  cases op with
  | insert signal =>
      rw [step_insert]
      split_ifs
      · exact ⟨_, rfl⟩
      · exact ⟨_, rfl⟩
  | finalizeBlock => exact ⟨_, rfl⟩
  | prune config epoch => exact ⟨_, rfl⟩
  | applyIntent intent => exact ⟨_, rfl⟩
  | applySignalRecord record => exact ⟨_, rfl⟩
  | publish events =>
      rcases step_publish b events with hstep | ⟨p, -, hstep⟩
      · exact ⟨_, hstep⟩
      · exact ⟨_, hstep⟩
  | drop events => exact ⟨_, step_drop b events⟩

/-! ### Invariants -/

/-- An invariant with the signals accepted so far, which signals of `A` keep when they are accepted, and
which the other writes keep. -/
structure Keeps (I : List Signal → Bbg F → Prop) (A : Signal → Prop) : Prop where
  accept : ∀ acc b signal, A signal → I acc b → b.state.spent signal = false → I (acc ++ [signal]) (b.accept signal)
  removeAxon : ∀ acc b axon, I acc b → I acc (b.removeAxon axon)
  snapshotTime : ∀ acc b, I acc b → I acc b.snapshotTime
  advanceCheckpoint : ∀ acc b, I acc b → I acc b.advanceCheckpoint
  pruneConfig : ∀ acc b config, I acc b → I acc { b with pruneConfig := config }
  applyIntent : ∀ acc b intent, I acc b → I acc (b.applyIntent intent)
  applySignalRecord : ∀ acc b record, I acc b → I acc (b.applySignalRecord record)
  credit : ∀ acc (b : Bbg F) key balance neuron record, I acc b →
    I acc (b.onState fun s => { s with
      balances := s.balances.insert key balance
      neurons := s.neurons.insert neuron record })

variable {I : List Signal → Bbg F → Prop} {A : Signal → Prop} {acc : List Signal} {b : Bbg F}

theorem Keeps.prune (h : Keeps I A) {epoch : UInt64} (hI : I acc b) : I acc (b.prune epoch) :=
  prune_induction (fun axon _ b hI => h.removeAxon acc b axon hI) hI

theorem Keeps.finalizeBlock (h : Keeps I A) (hI : I acc b) : I acc b.finalizeBlock :=
  finalizeBlock_induction (fun _ axon _ b hI => h.removeAxon acc b axon hI) (h.advanceCheckpoint acc)
    (h.snapshotTime acc b hI)

theorem Keeps.plainEvent (h : Keeps I A) {change : NativeChange} {b' : Bbg F} (hI : I acc b)
    (hevent : b.plainEvent change = some b') (hA : ∀ s ∈ NativeChange.signal? change, A s) :
    I (acc ++ (NativeChange.signal? change).toList) b' := by
  cases change with
  | signal signal header =>
      rw [Bbg.plainEvent, plainSignal, insert_eq] at hevent
      split_ifs at hevent with hspent
      obtain rfl := Option.some_inj.mp hevent
      have hsigned := h.accept acc b signal (hA signal rfl) hI (by simpa using hspent)
      exact h.finalizeBlock (h.applySignalRecord _ _ header hsigned)
  | intent intent =>
      obtain rfl := Option.some_inj.mp hevent
      exact (List.append_nil acc).symm ▸ h.applyIntent acc b intent hI
  | localCredit neuron token amount focus =>
      obtain ⟨balance, -, hevent⟩ := Option.bind_eq_some_iff.mp hevent
      obtain ⟨nextFocus, -, hevent⟩ := Option.bind_eq_some_iff.mp hevent
      obtain rfl := Option.some_inj.mp hevent
      exact (List.append_nil acc).symm ▸ h.advanceCheckpoint acc _ (h.credit acc b _ balance neuron _ hI)

theorem Keeps.plainRun (h : Keeps I A) {events : List NativeChange} {snapshots : List Snapshot} {b' : Bbg F}
    (hI : I acc b) (hrun : Refine.run plainStep b events = some (snapshots, b')) (hA : ∀ s ∈ signalsOf events, A s) :
    I (acc ++ signalsOf events) b' := by
  induction events generalizing acc b snapshots with
  | nil =>
      obtain ⟨-, rfl⟩ := Prod.mk.inj (Option.some_inj.mp hrun)
      exact (List.append_nil acc).symm ▸ hI
  | cons change events ih =>
      have hsplit : signalsOf (change :: events) = (NativeChange.signal? change).toList ++ signalsOf events := by
        cases change <;> rfl
      rw [Refine.run, Option.bind_eq_some_iff] at hrun
      obtain ⟨next, hnext, hrest⟩ := hrun
      obtain ⟨b₁, hevent, rfl⟩ := Option.map_eq_some_iff.mp hnext
      obtain ⟨⟨rest, b₂⟩, hrun, heq⟩ := Option.map_eq_some_iff.mp hrest
      obtain ⟨-, rfl⟩ := Prod.mk.inj heq
      rw [hsplit] at hA ⊢
      have hfirst := h.plainEvent hI hevent fun s hs => hA s (List.mem_append_left _ (Option.mem_toList.mpr hs))
      rw [← List.append_assoc]
      exact ih hfirst hrun fun s hs => hA s (List.mem_append_right _ hs)

theorem Keeps.step (h : Keeps I A) {op : Op} {accepted : List Signal} {b' : Bbg F} (hI : I acc b)
    (hstep : b.step op = some (accepted, b')) (hA : ∀ s ∈ accepted, A s) : I (acc ++ accepted) b' := by
  cases op with
  | insert signal =>
      rw [step_insert] at hstep
      split_ifs at hstep with hspent
      · obtain ⟨rfl, rfl⟩ := Prod.mk.inj (Option.some_inj.mp hstep)
        exact (List.append_nil acc).symm ▸ hI
      · obtain ⟨rfl, rfl⟩ := Prod.mk.inj (Option.some_inj.mp hstep)
        exact h.accept acc b signal (hA signal (List.mem_singleton.mpr rfl)) hI (by simpa using hspent)
  | finalizeBlock =>
      obtain ⟨rfl, rfl⟩ := Prod.mk.inj (Option.some_inj.mp hstep)
      exact (List.append_nil acc).symm ▸ h.finalizeBlock hI
  | prune config epoch =>
      obtain ⟨rfl, rfl⟩ := Prod.mk.inj (Option.some_inj.mp hstep)
      exact (List.append_nil acc).symm ▸ h.pruneConfig acc _ _ (h.prune (h.pruneConfig acc b config hI))
  | applyIntent intent =>
      obtain ⟨rfl, rfl⟩ := Prod.mk.inj (Option.some_inj.mp hstep)
      exact (List.append_nil acc).symm ▸ h.applyIntent acc b intent hI
  | applySignalRecord record =>
      obtain ⟨rfl, rfl⟩ := Prod.mk.inj (Option.some_inj.mp hstep)
      exact (List.append_nil acc).symm ▸ h.applySignalRecord acc b record hI
  | publish events =>
      rcases step_publish b events with hsame | ⟨p, hprepare, hpublish⟩
      · obtain ⟨rfl, rfl⟩ := Prod.mk.inj (Option.some_inj.mp (hsame.symm.trans hstep))
        exact (List.append_nil acc).symm ▸ hI
      · obtain ⟨rfl, rfl⟩ := Prod.mk.inj (Option.some_inj.mp (hpublish.symm.trans hstep))
        exact h.plainRun hI (prepare_refines hprepare) hA
  | drop events =>
      obtain ⟨rfl, rfl⟩ := Prod.mk.inj (Option.some_inj.mp ((step_drop b events).symm.trans hstep))
      exact (List.append_nil acc).symm ▸ hI

/-- An invariant that holds at the start holds at the end of every run whose accepted signals are of `A`. -/
theorem Keeps.run (h : Keeps I A) (acc : List Signal) {ops : List Op} {answers : List (List Signal)} {b' : Bbg F} (hI : I acc b)
    (hrun : Refine.run Bbg.step b ops = some (answers, b')) (hA : ∀ s ∈ answers.flatten, A s) :
    I (acc ++ answers.flatten) b' := by
  have hbegin : (∀ s ∈ ([] : List (List Signal)).flatten, A s) → I (acc ++ ([] : List (List Signal)).flatten) b :=
    fun _ => by simpa using hI
  have hkeep := Refine.run_induction
    (I := fun answers b => (∀ s ∈ answers.flatten, A s) → I (acc ++ answers.flatten) b)
    (fun answers b op next hI hstep hA => by
      rw [List.flatten_append, List.flatten_singleton] at hA ⊢
      rw [← List.append_assoc]
      exact h.step (hI fun s hs => hA s (List.mem_append_left _ hs)) hstep fun s hs =>
        hA s (List.mem_append_right _ hs))
    hbegin hrun
  exact hkeep hA

end Bbg

end LeanBbg
