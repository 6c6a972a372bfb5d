import LeanBbg.Goldilocks
import LeanBbg.LibAttempt
import LeanBbg.Transition

/-! Rollback is exact. Throughout a preparation the graph differs from its start at captured addresses only,
and every captured record is the one of the start; so writing the captured records back gives the graph of
the start, whatever the step at which the preparation ends. -/

set_option linter.unusedSectionVars false

namespace LeanBbg

open Cells Attempt

variable {F : Type} [Hemera F] [DecidableEq F] [Brakedown F]

namespace Prepared

def Captured (p : Prepared F) (c : Cell) : Prop := p.undo.values.contains (.cell c)

/-- The preparation can be undone to `b₀`, and has captured the addresses of `A₀`. -/
structure Tracks (b₀ : Bbg F) (A₀ : Set Addr) (p : Prepared F) : Prop where
  writes : Bbg.Writes {c | p.Captured c} b₀ p.bbg
  saved : ∀ a v, p.undo.values[a]? = some v → boundedRead b₀ a = .ok v
  acc : p.bbg.checkpoint.acc = none
  height : p.undo.height = b₀.state.height
  root : p.undo.checkpointRoot = b₀.checkpoint.root
  checkpointHeight : p.undo.checkpointHeight = b₀.checkpoint.height
  begun : ∀ a ∈ A₀, p.undo.values.contains a

end Prepared

/-! ### Captured records -/

theorem boundedRead_congr {b b' : Bbg F} {c : Cell} (h : Cells.get c b = Cells.get c b') :
    boundedRead b (.cell c) = boundedRead b' (.cell c) := by
  have hread : read b (.cell c) = read b' (.cell c) := by rw [read, read, h]
  cases c with
  | axonsOut p =>
      have hget : b.state.axonsOut[p]? = b'.state.axonsOut[p]? := h
      simp only [boundedRead, hread, hget]
  | axonsIn p =>
      have hget : b.state.axonsIn[p]? = b'.state.axonsIn[p]? := h
      simp only [boundedRead, hread, hget]
  | _ => simp only [boundedRead, hread]

/-- A bounded read is the encoding of the record, and of a list short enough to be decoded. -/
theorem boundedRead_eq_ok {b : Bbg F} {c : Cell} {v : Option (List UInt8)} (h : boundedRead b (.cell c) = .ok v) :
    v = (Cells.get c b).map c.encode ∧ ∀ r, Cells.get c b = some r → c.Short r := by
  have hshort : ∀ (l : Option AxonList) (r : AxonList),
      ¬(l.any fun l => (MAX_BYTES - 8) / 32 < l.axons.length) → l = some r → r.axons.length < 2 ^ 64 := by
    rintro l r hany rfl
    simp only [Option.any_some, decide_eq_true_eq, not_lt] at hany
    exact hany.trans_lt (by decide)
  cases c with
  | axonsOut p =>
      simp only [boundedRead] at h
      split_ifs at h with hlong
      exact ⟨(Except.ok.inj h).symm, fun r hr => hshort _ r hlong hr⟩
  | axonsIn p =>
      simp only [boundedRead] at h
      split_ifs at h with hlong
      exact ⟨(Except.ok.inj h).symm, fun r hr => hshort _ r hlong hr⟩
  | _ => exact ⟨(Except.ok.inj h).symm, fun _ _ => trivial⟩

/-- Writing a captured record back puts the cell of the start. -/
theorem restore_cell [NebuRoundTrip F] {b₀ : Bbg F} {c : Cell} {v : Option (List UInt8)}
    (h : boundedRead b₀ (.cell c) = .ok v) (b : Bbg F) :
    restore b (.cell c) v = some (Cells.put c (Cells.get c b₀) b) := by
  obtain ⟨rfl, hshort⟩ := boundedRead_eq_ok h
  cases hget : Cells.get c b₀ with
  | none => rfl
  | some r =>
      rw [Option.map_some, restore, Cell.decode_encode c r (hshort r hget)]
      rfl

def Addr.cell? : Addr → Option Cell
  | .metadata => none
  | .cell c => some c

/-- The restoring loop puts the cells of the start at all captured cells. -/
theorem foldlM_restore [NebuRoundTrip F] {b₀ : Bbg F} {l : List (Addr × Option (List UInt8))}
    (h : ∀ e ∈ l, boundedRead b₀ e.1 = .ok e.2) (b : Bbg F) :
    l.foldlM (fun b e => restore b e.1 e.2) b =
      some (restoreFrom b₀ (l.filterMap fun e => e.1.cell?) b) := by
  induction l generalizing b with
  | nil => rfl
  | cons e l ih =>
      have hrest := ih fun e' he' => h e' (List.mem_cons_of_mem _ he')
      obtain ⟨a, v⟩ := e
      cases a with
      | metadata => exact hrest b
      | cell c =>
          have hfirst := h (.cell c, v) (List.mem_cons_self ..)
          rw [List.foldlM_cons, restore_cell hfirst]
          exact hrest _

namespace Bbg

theorem height_restoreFrom (b₀ : Bbg F) (cells : List Cell) (b : Bbg F) :
    (restoreFrom b₀ cells b).fixed = b.fixed ∧ (restoreFrom b₀ cells b).checkpoint = b.checkpoint := by
  induction cells generalizing b with
  | nil => exact ⟨rfl, rfl⟩
  | cons c cells ih =>
      obtain ⟨hfixed, hcheckpoint⟩ := ih (Cells.put c (Cells.get c b₀) b)
      exact ⟨hfixed.trans (fixed_put ..), hcheckpoint.trans (checkpoint_put ..)⟩

end Bbg

namespace Prepared

variable {b₀ : Bbg F} {A₀ : Set Addr} {p : Prepared F}

/-- Dropping a preparation gives back the graph of the start. -/
theorem Tracks.drop_eq [NebuRoundTrip F] (h : Tracks b₀ A₀ p) (hacc : b₀.checkpoint.acc = none) : p.drop = some b₀ := by
  have hsaved : ∀ e ∈ p.undo.values.toList, boundedRead b₀ e.1 = .ok e.2 := fun e he =>
    h.saved e.1 e.2 (p.undo.values.mem_toList.mp he)
  rw [drop, Undo.restore, foldlM_restore hsaved, Option.map_some, Option.some_inj]
  generalize hcells : (p.undo.values.toList.filterMap fun e => e.1.cell?) = cells
  have hmem : ∀ c, p.Captured c → c ∈ cells := by
    intro c hc
    rw [Captured, OrdMap.contains_eq_isSome, Option.isSome_iff_exists] at hc
    obtain ⟨v, hv⟩ := hc
    rw [← hcells]
    exact List.mem_filterMap.mpr ⟨(.cell c, v), p.undo.values.mem_toList.mpr hv, rfl⟩
  have hwithin : Within {c | c ∈ cells} b₀ p.bbg := h.writes.cells.mono hmem
  obtain ⟨hfixed, hcheckpoint⟩ := Bbg.height_restoreFrom b₀ cells p.bbg
  refine Bbg.ext_cells (fun c => ?_) ?_ ?_ ?_
  · rw [← hwithin.get_restoreFrom c]
    cases c <;> rfl
  · exact hfixed.trans h.writes.fixed
  · exact h.height
  · have hkeep : (restoreFrom b₀ cells p.bbg).checkpoint.acc = b₀.checkpoint.acc := by
      rw [hcheckpoint, h.acc, hacc]
    change Checkpoint.mk p.undo.checkpointRoot (restoreFrom b₀ cells p.bbg).checkpoint.acc p.undo.checkpointHeight =
      b₀.checkpoint
    rw [h.root, h.checkpointHeight, hkeep]

/-! ### Steps -/

/-- What a capture leaves: the graph, and at least the captured addresses there were. -/
structure Extends (p p' : Prepared F) : Prop where
  bbg : p'.bbg = p.bbg
  captured : ∀ c, p.Captured c → p'.Captured c

theorem Extends.trans {p₁ p₂ : Prepared F} (h : Extends p p₁) (h' : Extends p₁ p₂) : Extends p p₂ :=
  ⟨h'.bbg.trans h.bbg, fun c hc => h'.captured c (h.captured c hc)⟩

/-- An address is captured as it is at the start. -/
theorem Tracks.captureAddr (h : Tracks b₀ A₀ p) {a : Addr} {u : Undo} (hu : p.undo.capture p.bbg a = .ok u)
    (hread : ¬p.undo.values.contains a → boundedRead p.bbg a = boundedRead b₀ a) :
    Tracks b₀ A₀ { p with undo := u } ∧ Extends p { p with undo := u } ∧ u.values.contains a := by
  rw [Undo.capture] at hu
  split_ifs at hu with hmem hsize
  · obtain rfl := Except.ok.inj hu
    exact ⟨h, ⟨rfl, fun _ h => h⟩, hmem⟩
  · cases hvalue : boundedRead p.bbg a with
    | error e =>
        rw [hvalue] at hu
        cases hu
    | ok v =>
        rw [hvalue] at hu
        dsimp only at hu
        split_ifs at hu with hbytes
        obtain rfl := Except.ok.inj hu
        have hextAll : ∀ a', p.undo.values.contains a' → (p.undo.values.insert a v).contains a' := by
          intro a' ha'
          rw [Std.ExtTreeMap.contains_insert, Bool.or_eq_true]
          exact .inr ha'
        refine ⟨⟨⟨h.writes.cells.mono fun c => hextAll (.cell c), h.writes.fixed⟩, ?_, h.acc, h.height, h.root, h.checkpointHeight,
          fun a' ha' => hextAll a' (h.begun a' ha')⟩, ⟨rfl, fun c => hextAll (.cell c)⟩, Std.ExtTreeMap.contains_insert_self⟩
        intro a' w hw
        rw [OrdMap.getElem?_insert] at hw
        split_ifs at hw with heq
        · rw [← heq, ← hread hmem, hvalue, Option.some_inj.mp hw]
        · exact h.saved a' w hw

theorem Tracks.capture (h : Tracks b₀ A₀ p) (c : Cell) :
    Post (fun p' => Tracks b₀ A₀ p' ∧ Extends p p' ∧ p'.Captured c) (Tracks b₀ A₀) (p.capture c) := by
  rw [Prepared.capture]
  cases hu : p.undo.capture p.bbg (.cell c) with
  | error e => exact h
  | ok u => exact h.captureAddr hu fun hmem => boundedRead_congr (h.writes.cells c hmem)

theorem Tracks.captureAll (h : Tracks b₀ A₀ p) (cells : List Cell) :
    Post (fun p' => Tracks b₀ A₀ p' ∧ Extends p p' ∧ ∀ c ∈ cells, p'.Captured c) (Tracks b₀ A₀) (p.captureAll cells) := by
  induction cells generalizing p with
  | nil => exact ⟨h, ⟨rfl, fun _ h => h⟩, by simp⟩
  | cons c cells ih =>
      rw [Prepared.captureAll, List.foldlM_cons]
      refine (h.capture c).bind fun p₁ ⟨h₁, hext, hc⟩ => (ih h₁).imp ?_ fun _ h => h
      rintro p₂ ⟨h₂, hext', hcells⟩
      refine ⟨h₂, hext.trans hext', fun c' hc' => ?_⟩
      rcases List.mem_cons.mp hc' with rfl | hc'
      · exact hext'.captured _ hc
      · exact hcells c' hc'

/-- A write within the captured addresses. -/
theorem Tracks.write (h : Tracks b₀ A₀ p) {b : Bbg F} (hwrites : Bbg.Writes {c | p.Captured c} p.bbg b)
    (hacc : b.checkpoint.acc = none) : Tracks b₀ A₀ { p with bbg := b } :=
  ⟨h.writes.trans hwrites, h.saved, hacc, h.height, h.root, h.checkpointHeight, h.begun⟩

theorem Tracks.touch (h : Tracks b₀ A₀ p) {b : Bbg F} (htouches : Bbg.Touches {c | p.Captured c} p.bbg b) :
    Tracks b₀ A₀ { p with bbg := b } :=
  h.write htouches.toWrites (by rw [htouches.checkpoint]; exact h.acc)

theorem Tracks.advance (h : Tracks b₀ A₀ p) : Tracks b₀ A₀ { p with bbg := p.bbg.advanceCheckpoint } :=
  h.write Bbg.writes_advanceCheckpoint rfl

theorem Tracks.pruneLoop {overBudget : Bool} {axons : List Particle} (h : Tracks b₀ A₀ p) :
    Post (Tracks b₀ A₀) (Tracks b₀ A₀) (p.pruneLoop overBudget axons) := by
  induction axons generalizing p with
  | nil => exact h
  | cons axon axons ih =>
      rw [Prepared.pruneLoop]
      split_ifs
      · exact h
      · refine (h.captureAll _).bind fun p₁ ⟨h₁, hext, hcells⟩ => ih (h₁.touch (Bbg.touches_removeAxon ?_))
        rw [hext.bbg]
        exact hcells

theorem Tracks.prune (h : Tracks b₀ A₀ p) : Post (Tracks b₀ A₀) (Tracks b₀ A₀) p.prune := by
  rw [Prepared.prune]
  cases p.bbg.state.candidates p.bbg.lastTouched p.bbg.pruneConfig (p.bbg.state.height / EPOCH_BLOCKS)
      (some MAX_KEYS) with
  | none => exact h
  | some found => exact h.pruneLoop

theorem Tracks.pruneAtEpoch (h : Tracks b₀ A₀ p) : Post (Tracks b₀ A₀) (Tracks b₀ A₀) p.pruneAtEpoch := by
  rw [Prepared.pruneAtEpoch]
  split_ifs
  · exact h.prune
  · exact h

/-- Insertion writes what was captured for the signal. -/
theorem insertCells_subset (b : Bbg F) (signal : Signal) (key : Particle) {c : Cell}
    (hc : c ∈ Bbg.insertCells F signal) : c ∈ signalCaptures b signal key := by
  rw [Bbg.insertCells, List.mem_append] at hc
  rw [signalCaptures, List.mem_append, List.mem_append]
  rcases hc with hmove | hlink
  · exact .inl (.inr hmove)
  · obtain ⟨link, hl, hc⟩ := List.mem_flatMap.mp hlink
    by_cases hneuron : c = .neuron signal.neuron
    · exact .inl (.inl (by simp [hneuron]))
    · refine .inr (List.mem_flatMap.mpr ⟨link, hl, ?_⟩)
      simp only [Bbg.linkCells, List.mem_append, List.mem_cons, List.not_mem_nil, or_false] at hc
      simp only [linkCaptures, List.mem_cons, List.not_mem_nil, or_false]
      tauto

theorem Tracks.signal (h : Tracks b₀ A₀ p) (signal : Signal) (header : SignalRecord) :
    Post (Tracks b₀ A₀) (Tracks b₀ A₀) (p.signal signal header) := by
  rw [Prepared.signal]
  cases validate p.bbg signal (signalKey F header.neuron header.step) header with
  | error e => exact h
  | ok u =>
      refine (h.captureAll _).bind fun p₁ ⟨h₁, hext, hcells⟩ => ?_
      rw [Bbg.insert_eq]
      split_ifs
      · exact h₁
      · generalize hb : p₁.bbg.accept signal = b
        have htouch : Bbg.Touches {c | p₁.Captured c} p₁.bbg (b.applySignalRecord header) :=
          (hb ▸ Bbg.touches_accept fun c hc => hcells c (insertCells_subset p.bbg signal _ hc)).trans
            (Bbg.touches_applySignalRecord (hcells _ (by simp [signalCaptures])))
        have htime : .time (b.applySignalRecord header).state.height ∈ {c | p₁.Captured c} := by
          rw [htouch.height, hext.bbg]
          exact hcells _ (by simp [signalCaptures])
        have h₂ : Tracks b₀ A₀ { p₁ with bbg := (b.applySignalRecord header).snapshotTime } :=
          h₁.write (htouch.toWrites.trans (Bbg.writes_snapshotTime htime))
            (by change (b.applySignalRecord header).checkpoint.acc = none; rw [htouch.checkpoint]; exact h₁.acc)
        exact h₂.pruneAtEpoch.bind fun p₃ h₃ => h₃.advance

theorem Tracks.intent (h : Tracks b₀ A₀ p) (intent : IntentRecord) :
    Post (Tracks b₀ A₀) (Tracks b₀ A₀) (p.intent intent) :=
  (h.capture _).bind fun _ ⟨h₁, _, hc⟩ => h₁.touch (Bbg.touches_applyIntent hc)

theorem Tracks.localCredit (h : Tracks b₀ A₀ p) (neuron token : Particle) (amount focus : UInt64) :
    Post (Tracks b₀ A₀) (Tracks b₀ A₀) (p.localCredit neuron token amount focus) := by
  rw [Prepared.localCredit]
  cases checkedAdd (p.bbg.state.balances[balanceKey F neuron token]?.getD 0) amount with
  | none => exact h
  | some balance =>
      dsimp only
      cases checkedAdd ((p.bbg.state.neurons[neuron]?.map NeuronRecord.focus).getD 0) focus with
      | none => exact h
      | some nextFocus =>
          refine (h.capture _).bind fun p₁ ⟨h₁, _, hbalance⟩ => (h₁.capture _).bind fun p₂ ⟨h₂, hext, hneuron⟩ => ?_
          have htouch : Bbg.Touches {c | p₂.Captured c} p₂.bbg (Cells.put (.neuron neuron)
              (some { p₂.bbg.state.neurons[neuron]?.getD ⟨0, 0, 0, 0⟩ with focus := nextFocus })
              (Cells.put (.balance (balanceKey F neuron token)) (some balance) p₂.bbg)) :=
            (Bbg.touches_put (hext.captured _ hbalance) _).trans (Bbg.touches_put hneuron _)
          exact (h₂.touch htouch).advance

theorem Tracks.eventSnapshot (h : Tracks b₀ A₀ p) (change : NativeChange) :
    Post (Tracks b₀ A₀) (Tracks b₀ A₀) (p.eventSnapshot change) := by
  have hevent : Post (Tracks b₀ A₀) (Tracks b₀ A₀) (p.event change) := by
    cases change with
    | signal signal header => exact h.signal signal header
    | intent intent => exact h.intent intent
    | localCredit neuron token amount focus => exact h.localCredit neuron token amount focus
  exact hevent.bind fun p₁ h₁ => ⟨h₁.writes, h₁.saved, h₁.acc, h₁.height, h₁.root, h₁.checkpointHeight, h₁.begun⟩

theorem Tracks.collectChanges (h : Tracks b₀ A₀ p) : Post (Tracks b₀ A₀) (Tracks b₀ A₀) p.collectChanges := by
  rw [Prepared.collectChanges]
  cases collect p.bbg 0 p.undo.values.toList with
  | error e => exact h
  | ok changes => exact ⟨h.writes, h.saved, h.acc, h.height, h.root, h.checkpointHeight, h.begun⟩

end Prepared

namespace Bbg

open Prepared

theorem tracks_new {b : Bbg F} (hacc : b.checkpoint.acc = none) : Tracks b ∅ ⟨b, Undo.new b, [], []⟩ :=
  ⟨Writes.refl, fun a v h => by simp [Undo.new] at h, hacc, rfl, rfl, rfl, fun _ h => h.elim⟩

theorem tracks_beginBatch {b : Bbg F} (hacc : b.checkpoint.acc = none) {x : Attempt F (Prepared F)}
    (hx : b.beginBatch = x) : Post (Tracks b {.metadata}) (Tracks b ∅) x := by
  have h := tracks_new hacc
  rw [beginBatch] at hx
  dsimp only at hx
  cases hu : (Undo.new b).capture b .metadata with
  | error e =>
      rw [hu] at hx
      subst hx
      exact h
  | ok u =>
      rw [hu] at hx
      subst hx
      obtain ⟨h₁, -, hmem⟩ := h.captureAddr hu fun _ => rfl
      exact ⟨h₁.writes, h₁.saved, h₁.acc, h₁.height, h₁.root, h₁.checkpointHeight, fun a ha => ha ▸ hmem⟩

/-- A whole batch, whether it fails or not, can be undone. -/
theorem tracks_runBatch {b : Bbg F} (hacc : b.checkpoint.acc = none) {events : List NativeChange}
    {x : Attempt F (Prepared F)} (hx : b.runBatch events = x) : Post (Tracks b {.metadata}) (Tracks b ∅) x := by
  have hforget : ∀ p, Tracks b {.metadata} p → Tracks b ∅ p := fun p h =>
    ⟨h.writes, h.saved, h.acc, h.height, h.root, h.checkpointHeight, fun _ h => h.elim⟩
  rw [runBatch] at hx
  generalize hbegin : b.beginBatch = start at hx
  subst hx
  refine (tracks_beginBatch hacc hbegin).bind fun p h => ?_
  exact ((post_foldlM (fun change _ _ h => h.eventSnapshot change) h).bind fun _ h =>
    h.collectChanges).imp (fun _ h => h) hforget

/-- A preparation that fails, and one that succeeds and is dropped, leave the graph as it was. -/
theorem rollback_exact [NebuRoundTrip F] (b : Bbg F) (events : List NativeChange) :
    (∀ e left, b.prepareNativeBatch events = .error (e, left) → left = some b) ∧
      ∀ p, b.prepareNativeBatch events = .ok p → p.drop = some b := by
  rw [prepareNativeBatch]
  split_ifs with hcount hacc hfloor
  · exact ⟨fun e left h => (Prod.mk.inj (Except.error.inj h)).2.symm, nofun⟩
  · exact ⟨fun e left h => (Prod.mk.inj (Except.error.inj h)).2.symm, nofun⟩
  · exact ⟨fun e left h => (Prod.mk.inj (Except.error.inj h)).2.symm, nofun⟩
  · have hnone : b.checkpoint.acc = none := by simpa using hacc
    generalize hrun : b.runBatch events = x
    have htracks := tracks_runBatch hnone hrun
    cases x with
    | error ep =>
        refine ⟨fun e left h => ?_, nofun⟩
        rw [← (Prod.mk.inj (Except.error.inj h)).2]
        exact Tracks.drop_eq htracks hnone
    | ok p =>
        refine ⟨nofun, fun p' h => ?_⟩
        obtain rfl := Except.ok.inj h
        exact Tracks.drop_eq htracks hnone

/-- A batch whose second event, a header that names another neuron, fails after the first was applied. -/
def mismatched : List NativeChange :=
  [.localCredit (Vector.replicate 32 1) (Vector.replicate 32 2) 5 7,
    .signal ⟨Vector.replicate 32 1, [], [], 0⟩
      ⟨Vector.replicate 32 3, Vector.replicate 32 4, 0, 0, Vector.replicate 32 5, 0⟩]

theorem rollback_exact_mismatched : ∃ left, (new : Bbg Goldilocks).prepareNativeBatch mismatched =
    .error (.arguments, left) ∧ left = some new := by
  have hfails : (match (new : Bbg Goldilocks).prepareNativeBatch mismatched with
      | .error (e, _) => decide (e = .arguments)
      | .ok _ => false) = true := by decide +kernel
  cases hprepare : (new : Bbg Goldilocks).prepareNativeBatch mismatched with
  | ok p =>
      rw [hprepare] at hfails
      cases hfails
  | error failed =>
      obtain ⟨e, left⟩ := failed
      rw [hprepare] at hfails
      obtain rfl : e = .arguments := of_decide_eq_true hfails
      exact ⟨left, rfl, (rollback_exact new mismatched).1 _ _ hprepare⟩

end Bbg

end LeanBbg
