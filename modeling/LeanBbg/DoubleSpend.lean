import LeanBbg.GraphRuns

/-! Spent nullifiers over whole runs. The set holds the nullifiers of the accepted signals and only grows,
and a refused insertion changes nothing. A nullifier is accepted once, except that the plain insertion
checks all moves of a signal before it records any: a signal that spends one nullifier twice is accepted.
The native path checks each move against the earlier ones of its signal too. -/

set_option linter.unusedSectionVars false

namespace LeanBbg

variable {F : Type} [Hemera F] [DecidableEq F] [Brakedown F]

def Signal.nullifiers (signal : Signal) : List Bytes32 := signal.boxMoves.map BoxMove.nullifier

/-- The nullifiers of all moves of a list of signals. -/
def spends (signals : List Signal) : List Bytes32 := signals.flatMap Signal.nullifiers

namespace State

theorem applyMove_nullifiers (s : State F) (mv : BoxMove) :
    (s.applyMove mv).nullifiers = s.nullifiers.insert mv.nullifier () := by
  rw [applyMove]
  cases mv.commitment <;> rfl

theorem applyLink_nullifiers (neuron : NeuronId) (s : State F) (link : Cyberlink) :
    (s.applyLink neuron link).nullifiers = s.nullifiers := by
  have hfocus : ∀ (s : State F) (amount : UInt64), (s.spendFocus neuron amount).nullifiers = s.nullifiers := by
    intro s amount
    rw [spendFocus]
    cases s.neurons[neuron]? <;> rfl
  rw [applyLink]
  split_ifs
  · rfl
  · exact hfocus _ _

theorem foldl_applyLink_nullifiers (neuron : NeuronId) (links : List Cyberlink) (s : State F) :
    (links.foldl (applyLink neuron) s).nullifiers = s.nullifiers := by
  induction links generalizing s with
  | nil => rfl
  | cons link links ih => exact (ih _).trans (applyLink_nullifiers neuron s link)

theorem foldl_applyMove_nullifiers (moves : List BoxMove) (s : State F) (n : Bytes32) :
    (moves.foldl applyMove s).nullifiers.contains n ↔
      s.nullifiers.contains n ∨ n ∈ moves.map BoxMove.nullifier := by
  induction moves generalizing s with
  | nil => simp
  | cons mv moves ih =>
      rw [List.foldl_cons, ih, applyMove_nullifiers, Std.ExtTreeMap.contains_insert, Bool.or_eq_true, beq_iff_eq,
        Std.compare_eq_iff_eq, List.map_cons, List.mem_cons]
      tauto

/-- A signal is refused when one of its nullifiers is spent. -/
theorem spent_iff {s : State F} {signal : Signal} :
    s.spent signal = true ↔ ∃ n ∈ signal.nullifiers, s.nullifiers.contains n := by
  rw [spent, List.any_eq_true]
  simp [Signal.nullifiers]

end State

namespace Bbg

theorem accept_nullifiers (b : Bbg F) (signal : Signal) (n : Bytes32) :
    (b.accept signal).state.nullifiers.contains n ↔ b.state.nullifiers.contains n ∨ n ∈ signal.nullifiers := by
  change (signal.links.foldl (State.applyLink signal.neuron) _).nullifiers.contains n ↔ _
  rw [State.foldl_applyLink_nullifiers]
  exact State.foldl_applyMove_nullifiers signal.boxMoves b.state n

theorem removeAxon_nullifiers (b : Bbg F) (axon : Particle) :
    (b.removeAxon axon).state.nullifiers = b.state.nullifiers := by
  rw [removeAxon, State.removeAxon]
  cases b.state.axonEdges[axon]? <;> rfl

/-- The set of nullifiers is that of the accepted signals. -/
def SpentExactly (acc : List Signal) (b : Bbg F) : Prop :=
  ∀ n, b.state.nullifiers.contains n ↔ n ∈ spends acc

theorem spends_append (acc : List Signal) (signal : Signal) : spends (acc ++ [signal]) = spends acc ++ signal.nullifiers := by
  rw [spends, List.flatMap_append, List.flatMap_singleton]
  rfl

theorem keeps_spentExactly : Keeps (F := F) SpentExactly fun _ => True where
  accept acc b signal _ hI _ n := by
    rw [accept_nullifiers, spends_append, List.mem_append, hI n]
  removeAxon acc b axon hI n := by
    rw [removeAxon_nullifiers]
    exact hI n
  snapshotTime _ _ hI := hI
  advanceCheckpoint _ _ hI := hI
  pruneConfig _ _ _ hI := hI
  applyIntent _ _ _ hI := hI
  applySignalRecord _ _ _ hI := hI
  credit _ _ _ _ _ _ hI := hI

/-- When every signal spends distinct nullifiers, no nullifier is accepted twice. -/
theorem keeps_nodup : Keeps (F := F) (fun acc b => SpentExactly acc b ∧ (spends acc).Nodup)
    fun signal => signal.nullifiers.Nodup where
  accept acc b signal hnodup hI hspent := by
    refine ⟨keeps_spentExactly.accept acc b signal trivial hI.1 hspent, ?_⟩
    rw [spends_append, List.nodup_append]
    refine ⟨hI.2, hnodup, fun n hn m hm heq => ?_⟩
    subst heq
    have : b.state.spent signal = true := State.spent_iff.mpr ⟨n, hm, (hI.1 n).mpr hn⟩
    rw [hspent] at this
    cases this
  removeAxon acc b axon hI := ⟨keeps_spentExactly.removeAxon acc b axon hI.1, hI.2⟩
  snapshotTime _ _ hI := hI
  advanceCheckpoint _ _ hI := hI
  pruneConfig _ _ _ hI := hI
  applyIntent _ _ _ hI := hI
  applySignalRecord _ _ _ hI := hI
  credit _ _ _ _ _ _ hI := hI

/-! ### The check of the native path -/

theorem validateMoves_nodup {b : Bbg F} {seen : OrdMap Bytes32 Unit} {moves : List BoxMove}
    (h : validateMoves b seen moves = .ok ()) :
    (moves.map BoxMove.nullifier).Nodup ∧ ∀ n ∈ moves.map BoxMove.nullifier, seen.contains n = false := by
  induction moves generalizing seen with
  | nil => simp
  | cons mv moves ih =>
      rw [validateMoves] at h
      split_ifs at h with hseen
      obtain ⟨hnodup, hrest⟩ := ih h
      rw [Bool.or_eq_true, not_or] at hseen
      rw [List.map_cons, List.nodup_cons, List.forall_mem_cons]
      refine ⟨⟨fun hmem => ?_, hnodup⟩, Bool.eq_false_iff.mpr hseen.2, fun n hn => ?_⟩
      · have := hrest _ hmem
        rw [Std.ExtTreeMap.contains_insert_self] at this
        cases this
      · have := hrest n hn
        rw [Std.ExtTreeMap.contains_insert, Bool.or_eq_false_iff] at this
        exact this.2

theorem validate_nodup {b : Bbg F} {signal : Signal} {key : Particle} {header : SignalRecord}
    (h : validate b signal key header = .ok ()) : signal.nullifiers.Nodup := by
  rw [validate] at h
  split_ifs at h
  cases hmoves : validateMoves b ∅ signal.boxMoves with
  | error e =>
      rw [hmoves] at h
      cases h
  | ok u => exact (validateMoves_nodup hmoves).1

/-- Every signal of an accepted batch spends distinct nullifiers. -/
theorem nodup_of_prepare {b : Bbg F} {events : List NativeChange} {p : Prepared F}
    (h : b.prepareNativeBatch events = .ok p) : ∀ signal ∈ signalsOf events, signal.nullifiers.Nodup := by
  have hevents : ∀ (events : List NativeChange) (p p' : Prepared F), events.foldlM Prepared.eventSnapshot p = .ok p' →
      ∀ signal ∈ signalsOf events, signal.nullifiers.Nodup := by
    intro events
    induction events with
    | nil => simp [signalsOf]
    | cons change events ih =>
        intro p p' hfold signal hsignal
        rw [List.foldlM_cons] at hfold
        obtain ⟨p₁, hfirst, hrest⟩ := Attempt.exists_of_bind_ok hfold
        obtain ⟨change', hmem, heq⟩ := List.mem_filterMap.mp hsignal
        rcases List.mem_cons.mp hmem with rfl | hmem
        · cases change' with
          | signal signal' header =>
              obtain rfl := Option.some_inj.mp heq
              obtain ⟨p₂, hevent, -⟩ := Attempt.exists_of_bind_ok hfirst
              change p.signal signal' header = .ok p₂ at hevent
              rw [Prepared.signal] at hevent
              cases hvalid : validate p.bbg signal' (signalKey F header.neuron header.step) header with
              | error e =>
                  rw [hvalid] at hevent
                  cases hevent
              | ok u => exact validate_nodup hvalid
          | intent intent => cases heq
          | localCredit neuron token amount focus => cases heq
        · exact ih p₁ p' hrest signal (List.mem_filterMap.mpr ⟨change', hmem, heq⟩)
  have hrun := runBatch_of_prepare h
  rw [runBatch] at hrun
  obtain ⟨p₁, -, hrun⟩ := Attempt.exists_of_bind_ok hrun
  obtain ⟨p₂, hfold, -⟩ := Attempt.exists_of_bind_ok hrun
  exact hevents events p₁ p₂ hfold

/-! ### Whole runs -/

/-- A plain insertion is of distinct nullifiers, unless it is refused. -/
def Unrepeated (b : Bbg F) : Op → Prop
  | .insert signal => b.state.spent signal = true ∨ signal.nullifiers.Nodup
  | _ => True

variable [NebuRoundTrip F]

/-- The accepted signals of a step spend distinct nullifiers exactly when the step meets the condition. -/
theorem step_unrepeated (b : Bbg F) (op : Op) (next : List Signal × Bbg F) (h : b.step op = some next) :
    (∀ signal ∈ next.1, signal.nullifiers.Nodup) ↔ b.Unrepeated op := by
  cases op with
  | insert signal =>
      rw [step_insert] at h
      rw [Unrepeated]
      split_ifs at h with hspent
      · obtain rfl := Option.some_inj.mp h
        simp [hspent]
      · obtain rfl := Option.some_inj.mp h
        simp [hspent]
  | publish events =>
      rcases step_publish b events with hsame | ⟨p, hprepare, hpublish⟩
      · obtain rfl := Option.some_inj.mp (hsame.symm.trans h)
        simp [Unrepeated]
      · obtain rfl := Option.some_inj.mp (hpublish.symm.trans h)
        simpa [Unrepeated] using nodup_of_prepare hprepare
  | drop events =>
      obtain rfl := Option.some_inj.mp ((step_drop b events).symm.trans h)
      simp [Unrepeated]
  | finalizeBlock =>
      obtain rfl := Option.some_inj.mp h
      simp [Unrepeated]
  | prune config epoch =>
      obtain rfl := Option.some_inj.mp h
      simp [Unrepeated]
  | applyIntent intent =>
      obtain rfl := Option.some_inj.mp h
      simp [Unrepeated]
  | applySignalRecord record =>
      obtain rfl := Option.some_inj.mp h
      simp [Unrepeated]

/-- Every run exists and ends in a graph whose nullifiers are those of the accepted signals; no next step
removes one; a refused insertion changes nothing; and no nullifier is accepted twice exactly when no plain
insertion of the run repeats an unspent nullifier. -/
theorem run_spends_once (ops : List Op) :
    ∃ answers b, Refine.run step (new : Bbg F) ops = some (answers, b) ∧
      (∀ n, b.state.nullifiers.contains n ↔ n ∈ spends answers.flatten) ∧
      (∀ op next, b.step op = some next → ∀ n, b.state.nullifiers.contains n → next.2.state.nullifiers.contains n) ∧
      (∀ signal e b', b.insert signal = (.error e, b') → b' = b) ∧
      ((spends answers.flatten).Nodup ↔ Refine.RunAlong step Unrepeated (new : Bbg F) ops) := by
  obtain ⟨answers, b, hrun⟩ := Refine.exists_run exists_step (new : Bbg F) ops
  have hstart : SpentExactly [] (new : Bbg F) := by
    intro n
    simp [new, State.new, spends]
  have hexact : SpentExactly answers.flatten b := keeps_spentExactly.run [] hstart hrun fun _ _ => trivial
  refine ⟨answers, b, hrun, hexact, ?_, ?_, ?_⟩
  · intro op next hnext n hn
    have hnext' : SpentExactly (answers.flatten ++ next.1) next.2 :=
      keeps_spentExactly.step hexact hnext fun _ _ => trivial
    rw [hnext' n, spends, List.flatMap_append]
    exact List.mem_append_left _ ((hexact n).mp hn)
  · intro signal e b' hinsert
    rw [insert_eq] at hinsert
    split_ifs at hinsert
    · exact (Prod.mk.inj hinsert).2.symm
    · cases hinsert
  · have hiff : (∀ ans ∈ answers, ∀ signal ∈ ans, signal.nullifiers.Nodup) ↔
        Refine.RunAlong step Unrepeated (new : Bbg F) ops :=
      Refine.runAlong_iff (fun ans => ∀ signal ∈ ans, signal.nullifiers.Nodup) step_unrepeated hrun
    rw [← hiff]
    constructor
    · intro hnodup ans hans signal hsignal
      refine hnodup.sublist ?_
      rw [spends, List.flatMap_def]
      exact List.sublist_flatten_of_mem (List.mem_map_of_mem (List.mem_flatten.mpr ⟨ans, hans, hsignal⟩))
    · intro hall
      refine (keeps_nodup.run [] ⟨hstart, List.nodup_nil⟩ hrun fun signal hsignal => ?_).2
      obtain ⟨ans, hans, hmem⟩ := List.mem_flatten.mp hsignal
      exact hall ans hans signal hmem

/-- A signal of one neuron that spends one nullifier twice. -/
def spendsTwice : Signal :=
  ⟨Vector.replicate 32 1, [], [⟨Vector.replicate 32 2, none⟩, ⟨Vector.replicate 32 2, none⟩], 0⟩

/-- It is accepted by the empty graph. -/
theorem run_spendsTwice : ∃ answers b, Refine.run step (new : Bbg Goldilocks) [.insert spendsTwice] = some (answers, b) ∧
    ¬(spends answers.flatten).Nodup := by
  have hspent : (new : Bbg Goldilocks).state.spent spendsTwice = false := by decide +kernel
  refine ⟨[[spendsTwice]], (new : Bbg Goldilocks).accept spendsTwice, ?_, by decide⟩
  rw [Refine.run, step_insert, hspent]
  rfl

/-- The theorem at a run that inserts the signal's box once and then publishes a batch. -/
theorem run_spends_once_batch : ∃ answers b, Refine.run step (new : Bbg Goldilocks)
      [.insert ⟨Vector.replicate 32 1, [], [⟨Vector.replicate 32 2, none⟩], 0⟩, .publish spendAndDeclare] =
        some (answers, b) ∧
    ∀ n, b.state.nullifiers.contains n ↔ n ∈ spends answers.flatten := by
  obtain ⟨answers, b, hrun, hexact, -⟩ := run_spends_once (F := Goldilocks)
    [.insert ⟨Vector.replicate 32 1, [], [⟨Vector.replicate 32 2, none⟩], 0⟩, .publish spendAndDeclare]
  exact ⟨answers, b, hrun, hexact⟩

end Bbg

end LeanBbg
