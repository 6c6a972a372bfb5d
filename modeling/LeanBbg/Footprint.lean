import LeanBbg.Cells

/-! Which cells the operations of the graph write. -/

set_option linter.unusedSectionVars false

namespace LeanBbg

open Cells

variable {F : Type} [Hemera F] [DecidableEq F]

namespace Bbg

/-- The graphs differ in the cells of `S` and in the checkpoint and height only. -/
structure Writes (S : Set Cell) (b b' : Bbg F) : Prop where
  cells : Within S b b'
  fixed : b'.fixed = b.fixed

/-- The graphs differ in the cells of `S` only. -/
structure Touches (S : Set Cell) (b b' : Bbg F) : Prop extends Writes S b b' where
  height : b'.state.height = b.state.height
  checkpoint : b'.checkpoint = b.checkpoint

variable {S : Set Cell} {b b₁ b₂ : Bbg F}

theorem Writes.refl : Writes S b b := ⟨Within.refl, rfl⟩

theorem Writes.trans (h : Writes S b b₁) (h' : Writes S b₁ b₂) : Writes S b b₂ :=
  ⟨h.cells.trans h'.cells, h'.fixed.trans h.fixed⟩

theorem Touches.refl : Touches S b b := ⟨Writes.refl, rfl, rfl⟩

theorem Touches.trans (h : Touches S b b₁) (h' : Touches S b₁ b₂) : Touches S b b₂ :=
  ⟨h.toWrites.trans h'.toWrites, h'.height.trans h.height, h'.checkpoint.trans h.checkpoint⟩

theorem touches_put {c : Cell} (hc : c ∈ S) (v : Option (c.Val F)) : Touches S b (Cells.put c v b) :=
  ⟨⟨within_put hc v, fixed_put c v b⟩, height_put c v b, checkpoint_put c v b⟩

/-- A loop touches what its body touches. -/
theorem touches_foldl {X : Type} {f : Bbg F → X → Bbg F} {l : List X} (h : ∀ x ∈ l, ∀ b, Touches S b (f b x)) :
    Touches S b (l.foldl f b) := by
  induction l generalizing b with
  | nil => exact Touches.refl
  | cons x l ih =>
      exact (h x (List.mem_cons_self ..) b).trans (ih fun y hy => h y (List.mem_cons_of_mem _ hy))

/-- Apply a function to the state. -/
def onState (b : Bbg F) (f : State F → State F) : Bbg F := { b with state := f b.state }

theorem onState_foldl {X : Type} (f : State F → X → State F) (l : List X) (b : Bbg F) :
    b.onState (fun s => l.foldl f s) = l.foldl (fun b x => b.onState fun s => f s x) b := by
  induction l generalizing b with
  | nil => rfl
  | cons x l ih => exact ih (b.onState fun s => f s x)

/-- A list that is put is a cell that is put. -/
theorem put_eq (A : Adjacency) (p : Particle) (l : List Particle) : A.put p l = OrdMap.put A p (AxonList.ofList l) := by
  rw [Adjacency.put]
  cases AxonList.ofList l <;> rfl

/-! ### Signal insertion -/

/-- The cells of a box move, in the order in which they are captured for it. -/
def moveCells (mv : BoxMove) : List Cell :=
  .nullifier mv.nullifier :: (mv.commitment.toList.map fun output => .commitment output.1)

variable (F) in
/-- The cells of a link by `neuron`. -/
def linkCells (neuron : NeuronId) (link : Cyberlink) : List Cell :=
  [.neuron neuron, .particle (axonId F link.source link.target), .particle link.target, .axonsOut link.source,
    .axonsIn link.target, .balance (balanceKey F link.source link.token),
    .balance (balanceKey F link.target link.token), .axonEdge (axonId F link.source link.target)]

theorem touches_applyMove {mv : BoxMove} (hS : ∀ c ∈ moveCells mv, c ∈ S) :
    Touches S b (b.onState fun s => s.applyMove mv) := by
  have hspend : Touches S b (Cells.put (.nullifier mv.nullifier) (some ()) b) :=
    touches_put (hS _ (by simp [moveCells])) _
  cases hout : mv.commitment with
  | none =>
      have heq : (b.onState fun s => s.applyMove mv) = Cells.put (.nullifier mv.nullifier) (some ()) b := by
        rw [onState, State.applyMove, hout]
        rfl
      rwa [heq]
  | some output =>
      have heq : (b.onState fun s => s.applyMove mv) = Cells.put (.commitment output.1) (some (LeanBbg.new output.2 : F))
          (Cells.put (.nullifier mv.nullifier) (some ()) b) := by
        rw [onState, State.applyMove, hout]
        rfl
      rw [heq]
      exact hspend.trans (touches_put (hS _ (by simp [moveCells, hout])) _)

theorem touches_linkTopology {neuron : NeuronId} {link : Cyberlink} (hS : ∀ c ∈ linkCells F neuron link, c ∈ S) :
    Touches S b (b.onState fun s => s.linkTopology link) := by
  have hadd : ∀ (A : Adjacency) (p a : Particle), ∃ l, A.add p a = OrdMap.put A p l := by
    intro A p a
    rw [Adjacency.add]
    split_ifs
    · refine ⟨A[p]?, ?_⟩
      cases hget : A[p]? with
      | none => exact (OrdMap.erase_of_getElem? hget).symm
      | some l => exact (OrdMap.insert_of_getElem? hget).symm
    · exact ⟨_, put_eq ..⟩
  obtain ⟨out, hout⟩ := hadd b.state.axonsOut link.source (axonId F link.source link.target)
  obtain ⟨inn, hinn⟩ := hadd b.state.axonsIn link.target (axonId F link.source link.target)
  have hedge : ∃ e, (if b.state.axonEdges.contains (axonId F link.source link.target) then b.state.axonEdges
      else b.state.axonEdges.insert (axonId F link.source link.target) (link.source, link.target)) =
        b.state.axonEdges.put (axonId F link.source link.target) e := by
    split_ifs with hmem
    · rw [OrdMap.contains_eq_isSome, Option.isSome_iff_exists] at hmem
      obtain ⟨e, he⟩ := hmem
      exact ⟨some e, (OrdMap.insert_of_getElem? he).symm⟩
    · exact ⟨some (link.source, link.target), rfl⟩
  obtain ⟨e, he⟩ := hedge
  have heq : (b.onState fun s => s.linkTopology link) = Cells.put (.axonEdge (axonId F link.source link.target)) e
      (Cells.put (.axonsIn link.target) inn (Cells.put (.axonsOut link.source) out b)) := by
    rw [onState, State.linkTopology, hout, hinn, he]
    rfl
  rw [heq]
  exact ((touches_put (hS _ (by simp [linkCells])) _).trans (touches_put (hS _ (by simp [linkCells])) _)).trans
    (touches_put (hS _ (by simp [linkCells])) _)

theorem touches_spendFocus {neuron : NeuronId} (hS : .neuron neuron ∈ S) (amount : UInt64) :
    Touches S b (b.onState fun s => s.spendFocus neuron amount) := by
  cases hget : b.state.neurons[neuron]? with
  | none =>
      have heq : (b.onState fun s => s.spendFocus neuron amount) = b := by
        rw [onState, State.spendFocus, hget]
      rw [heq]
      exact Touches.refl
  | some nr =>
      have heq : (b.onState fun s => s.spendFocus neuron amount) =
          Cells.put (.neuron neuron) (some { nr with focus := saturatingSub nr.focus amount }) b := by
        rw [onState, State.spendFocus, hget]
        rfl
      rw [heq]
      exact touches_put hS _

theorem touches_debit {key : Bytes32} (hS : .balance key ∈ S) (amount : UInt64) :
    Touches S b (b.onState fun s => s.debit key amount) := by
  have heq : ∃ v, (b.onState fun s => s.debit key amount) = Cells.put (.balance key) v b := by
    rw [onState, State.debit]
    split_ifs
    · exact ⟨none, rfl⟩
    · exact ⟨some _, rfl⟩
  obtain ⟨v, heq⟩ := heq
  rw [heq]
  exact touches_put hS v

theorem touches_applyLink {neuron : NeuronId} {link : Cyberlink} (hS : ∀ c ∈ linkCells F neuron link, c ∈ S) :
    Touches S b (b.onState fun s => s.applyLink neuron link) := by
  have htopology := touches_linkTopology (b := b) hS
  by_cases hamount : link.amount = 0
  · have heq : (b.onState fun s => s.applyLink neuron link) = b.onState fun s => s.linkTopology link := by
      rw [onState, State.applyLink, if_pos hamount]
      rfl
    rwa [heq]
  · have heq : (b.onState fun s => s.applyLink neuron link) =
        (b.onState fun s => s.linkTopology link).onState fun s => s.moveConviction neuron link := by
      rw [onState, State.applyLink, if_neg hamount]
      rfl
    rw [heq]
    refine htopology.trans ?_
    generalize (b.onState fun s => s.linkTopology link) = b₁
    have hmove : (b₁.onState fun s => s.moveConviction neuron link) =
        ((((b₁.onState fun s => s.addWeight (axonId F link.source link.target) link.amount).onState fun s =>
          s.addEnergy link.target link.amount).onState fun s => s.spendFocus neuron link.amount).onState fun s =>
          s.credit (balanceKey F link.target link.token) link.amount).onState fun s =>
          s.debit (balanceKey F link.source link.token) link.amount := rfl
    have hweight (b : Bbg F) :
        Touches S b (b.onState fun s => s.addWeight (axonId F link.source link.target) link.amount) :=
      touches_put (c := .particle (axonId F link.source link.target)) (hS _ (by simp [linkCells])) (some _)
    have henergy (b : Bbg F) : Touches S b (b.onState fun s => s.addEnergy link.target link.amount) :=
      touches_put (c := .particle link.target) (hS _ (by simp [linkCells])) (some _)
    have hcredit (b : Bbg F) :
        Touches S b (b.onState fun s => s.credit (balanceKey F link.target link.token) link.amount) :=
      touches_put (c := .balance (balanceKey F link.target link.token)) (hS _ (by simp [linkCells])) (some _)
    rw [hmove]
    exact ((((hweight _).trans (henergy _)).trans (touches_spendFocus (hS _ (by simp [linkCells])) _)).trans
      (hcredit _)).trans (touches_debit (hS _ (by simp [linkCells])) _)

theorem touches_touchLinks {links : List Cyberlink}
    (hS : ∀ link ∈ links, .lastTouched (axonId F link.source link.target) ∈ S) : Touches S b (b.touchLinks links) := by
  have hloop : ∀ (links : List Cyberlink) (epoch : UInt64) (b : Bbg F),
      (⟨b.state, b.checkpoint, b.pruneConfig,
          links.foldl (fun m link => m.insert (axonId F link.source link.target) epoch) b.lastTouched⟩ : Bbg F) =
        links.foldl (fun b link => Cells.put (.lastTouched (axonId F link.source link.target)) (some epoch) b) b := by
    intro links epoch
    induction links with
    | nil => exact fun b => rfl
    | cons link links ih =>
        intro b
        have hb := ih ⟨b.state, b.checkpoint, b.pruneConfig,
          b.lastTouched.insert (axonId F link.source link.target) epoch⟩
        exact hb
  rw [touchLinks, hloop]
  exact touches_foldl fun link hlink b => touches_put (hS link hlink) _

variable (F) in
/-- The cells that the insertion of a signal writes. -/
def insertCells (signal : Signal) : List Cell :=
  signal.boxMoves.flatMap moveCells ++ (signal.links.flatMap fun link =>
    linkCells F signal.neuron link ++ [.lastTouched (axonId F link.source link.target)])

/-- The graph after a signal that is not refused. -/
def accept (b : Bbg F) (signal : Signal) : Bbg F :=
  let b := b.onState fun s => signal.boxMoves.foldl State.applyMove s
  let b := b.onState fun s => signal.links.foldl (State.applyLink signal.neuron) s
  b.touchLinks signal.links

theorem insert_eq (b : Bbg F) (signal : Signal) :
    b.insert signal = if b.state.spent signal then (.error .doubleSpend, b) else (.ok (), b.accept signal) := by
  rw [insert, State.insert]
  split_ifs <;> rfl

theorem touches_accept {signal : Signal} (hS : ∀ c ∈ insertCells F signal, c ∈ S) : Touches S b (b.accept signal) := by
  have hmove : ∀ mv ∈ signal.boxMoves, ∀ c ∈ moveCells mv, c ∈ S := fun mv hmv c hc =>
    hS c (List.mem_append_left _ (List.mem_flatMap.mpr ⟨mv, hmv, hc⟩))
  have hlink : ∀ link ∈ signal.links, ∀ c ∈ linkCells F signal.neuron link ++
      [.lastTouched (axonId F link.source link.target)], c ∈ S := fun link hl c hc =>
    hS c (List.mem_append_right _ (List.mem_flatMap.mpr ⟨link, hl, hc⟩))
  have hmoves (b : Bbg F) : Touches S b (b.onState fun s => signal.boxMoves.foldl State.applyMove s) := by
    rw [onState_foldl]
    exact touches_foldl fun mv hmv b => touches_applyMove (hmove mv hmv)
  have hlinks (b : Bbg F) :
      Touches S b (b.onState fun s => signal.links.foldl (State.applyLink signal.neuron) s) := by
    rw [onState_foldl]
    exact touches_foldl fun link hl b =>
      touches_applyLink fun c hc => hlink link hl c (List.mem_append_left _ hc)
  have htouched (b : Bbg F) : Touches S b (b.touchLinks signal.links) :=
    touches_touchLinks fun link hl => hlink link hl _ (List.mem_append_right _ (List.mem_singleton.mpr rfl))
  exact ((hmoves b).trans (hlinks _)).trans (htouched _)

theorem touches_applySignalRecord {record : SignalRecord} (hS : .signal (signalKey F record.neuron record.step) ∈ S) :
    Touches S b (b.applySignalRecord record) :=
  touches_put (c := .signal (signalKey F record.neuron record.step)) hS (some record)

theorem touches_applyIntent {intent : IntentRecord}
    (hS : .intent (intentKey F intent.neuron intent.h0 intent.scopeHash) ∈ S) : Touches S b (b.applyIntent intent) :=
  touches_put (c := .intent (intentKey F intent.neuron intent.h0 intent.scopeHash)) hS (some intent)

/-! ### Finalization and pruning -/

theorem writes_snapshotTime [Brakedown F] (hS : .time b.state.height ∈ S) : Writes S b b.snapshotTime := by
  have hput := (touches_put (b := b) hS (some b.state.root)).toWrites
  refine ⟨fun c hc => ?_, hput.fixed⟩
  rw [← hput.cells c hc]
  cases c <;> rfl

theorem writes_advanceCheckpoint [Brakedown F] : Writes S b b.advanceCheckpoint :=
  ⟨fun c _ => by cases c <;> rfl, rfl⟩

/-- The cells that the removal of an axon writes, in the order in which they are captured for it. -/
def removeCells (b : Bbg F) (axon : Particle) : List Cell :=
  [.particle axon, .axonEdge axon, .lastTouched axon] ++
    (b.state.axonEdges[axon]?.toList.flatMap fun edge => [.axonsOut edge.1, .axonsIn edge.2])

theorem touches_removeAxon {axon : Particle} (hS : ∀ c ∈ b.removeCells axon, c ∈ S) :
    Touches S b (b.removeAxon axon) := by
  have hfirst : Touches S b (Cells.put (.lastTouched axon) none (Cells.put (.particle axon) none b)) :=
    (touches_put (hS _ (by simp [removeCells])) _).trans (touches_put (hS _ (by simp [removeCells])) _)
  cases hedge : b.state.axonEdges[axon]? with
  | none =>
      have heq : b.removeAxon axon = Cells.put (.lastTouched axon) none (Cells.put (.particle axon) none b) := by
        simp only [removeAxon, State.removeAxon, hedge]
        rfl
      rwa [heq]
  | some edge =>
      have heq : b.removeAxon axon =
          Cells.put (.axonsIn edge.2) (AxonList.ofList ((b.state.axonsIn.axons edge.2).filter (· != axon)))
            (Cells.put (.axonsOut edge.1) (AxonList.ofList ((b.state.axonsOut.axons edge.1).filter (· != axon)))
              (Cells.put (.axonEdge axon) none
                (Cells.put (.lastTouched axon) none (Cells.put (.particle axon) none b)))) := by
        simp only [removeAxon, State.removeAxon, hedge, Adjacency.removeAxon, put_eq]
        rfl
      rw [heq]
      exact ((hfirst.trans (touches_put (hS _ (by simp [removeCells])) _)).trans
        (touches_put (hS _ (by simp [removeCells, hedge])) _)).trans
        (touches_put (hS _ (by simp [removeCells, hedge])) _)

end Bbg

end LeanBbg
