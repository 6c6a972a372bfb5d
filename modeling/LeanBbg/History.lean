import LeanBbg.NativeRuns
import LeanBbg.RollingHash

/-! Native history is append-only. A block ends with a row of the time dimension that holds the root of the
state before it, and a signal of a published batch adds its record besides. The history of a run is the list
of these roots and records in their order; the time and signals dimensions hold exactly this list. -/

set_option linter.unusedSectionVars false

namespace LeanBbg

variable {F : Type} [Hemera F] [DecidableEq F] [Brakedown F]

namespace Bbg

/-! ### Histories -/

/-- The roots that are recorded in the time dimension, and the signal records that are added. -/
structure History where
  roots : List Particle
  headers : List SignalRecord

namespace History

def none : History := ⟨[], []⟩

def append (h h' : History) : History := ⟨h.roots ++ h'.roots, h.headers ++ h'.headers⟩

theorem append_assoc (h h' h'' : History) : (h.append h').append h'' = h.append (h'.append h'') := by
  simp only [append, List.append_assoc]

theorem append_none (h : History) : h.append none = h := by
  simp only [append, none, List.append_nil]

end History

/-- A signal of a batch records the root of the state with its effects and its record. -/
def eventHistory (b : Bbg F) : NativeChange → History
  | .signal signal header => ⟨[((b.accept signal).applySignalRecord header).state.root], [header]⟩
  | _ => .none

def eventsHistory : Bbg F → List NativeChange → History
  | _, [] => .none
  | b, change :: events =>
      (b.eventHistory change).append ((b.plainEvent change).elim .none fun b => eventsHistory b events)

/-- The end of a block records the root before it. Of the batches only the published ones have a history. -/
def actHistory (b : Bbg F) : Act → History
  | .op .finalizeBlock => ⟨[b.state.root], []⟩
  | .op (.publish events) => if (b.prepareNativeBatch events).isOk then eventsHistory b events else .none
  | _ => .none

/-- The history of a run. -/
def history : Bbg F → List Act → History
  | _, [] => .none
  | b, a :: acts => (b.actHistory a).append ((b.act a).elim .none fun next => history next.2 acts)

/-- Signal records are written by native batches only. -/
def Act.Native : Act → Prop
  | .op (.applySignalRecord _) => False
  | _ => True

/-- The dimensions hold the history: row `h` of the time dimension is the root of block `h`, there are as many
blocks as the height says, and the signal records are those of the history, each at a key of its own. -/
structure Records (hist : History) (b : Bbg F) : Prop where
  height : b.state.height.toNat = hist.roots.length
  time : ∀ h : UInt64, b.state.time[h]? = hist.roots[h.toNat]?
  keys : (hist.headers.map fun r => signalKey F r.neuron r.step).Nodup
  signals : ∀ (k : Particle) (r : SignalRecord),
    b.state.signals[k]? = some r ↔ r ∈ hist.headers ∧ k = signalKey F r.neuron r.step

/-! ### Steps -/

/-- The graphs agree on the height, the time rows and the signal records. -/
structure SameHistory (b b' : Bbg F) : Prop where
  height : b'.state.height = b.state.height
  time : ∀ h : UInt64, b'.state.time[h]? = b.state.time[h]?
  signals : ∀ k : Particle, b'.state.signals[k]? = b.state.signals[k]?

variable {b b₁ b₂ : Bbg F} {hist : History}

theorem SameHistory.refl : SameHistory b b := ⟨rfl, fun _ => rfl, fun _ => rfl⟩

theorem SameHistory.trans (h : SameHistory b b₁) (h' : SameHistory b₁ b₂) : SameHistory b b₂ :=
  ⟨h'.height.trans h.height, fun k => (h'.time k).trans (h.time k), fun k => (h'.signals k).trans (h.signals k)⟩

theorem Records.of_same (h : Records hist b) (hsame : SameHistory b b₁) : Records hist b₁ :=
  ⟨by rw [hsame.height]; exact h.height, fun k => (hsame.time k).trans (h.time k), h.keys,
    fun k r => by rw [hsame.signals]; exact h.signals k r⟩

theorem Records.still (h : Records hist b) (hsame : SameHistory b b₁) : Records (hist.append .none) b₁ := by
  rw [History.append_none]
  exact h.of_same hsame

theorem sameHistory_accept (b : Bbg F) (signal : Signal) : SameHistory b (b.accept signal) := by
  have htouches : Touches {c | (∀ h, c ≠ .time h) ∧ ∀ k, c ≠ .signal k} b (b.accept signal) := by
    refine touches_accept fun c hc => ?_
    rcases List.mem_append.mp hc with hmove | hlink
    · obtain ⟨mv, -, hmv⟩ := List.mem_flatMap.mp hmove
      simp only [moveCells, List.mem_cons, List.mem_map] at hmv
      rcases hmv with rfl | ⟨output, -, rfl⟩
      · exact ⟨fun _ => Cell.noConfusion, fun _ => Cell.noConfusion⟩
      · exact ⟨fun _ => Cell.noConfusion, fun _ => Cell.noConfusion⟩
    · obtain ⟨link, -, hc⟩ := List.mem_flatMap.mp hlink
      simp only [linkCells, List.cons_append, List.nil_append, List.mem_cons, List.not_mem_nil, or_false] at hc
      rcases hc with rfl | rfl | rfl | rfl | rfl | rfl | rfl | rfl | rfl <;>
        exact ⟨fun _ => Cell.noConfusion, fun _ => Cell.noConfusion⟩
  exact ⟨htouches.height, fun h => htouches.cells (.time h) fun hmem => hmem.1 h rfl,
    fun k => htouches.cells (.signal k) fun hmem => hmem.2 k rfl⟩

theorem sameHistory_removeAxon (b : Bbg F) (axon : Particle) : SameHistory b (b.removeAxon axon) := by
  rw [removeAxon, State.removeAxon]
  cases b.state.axonEdges[axon]? <;> exact ⟨rfl, fun _ => rfl, fun _ => rfl⟩

theorem sameHistory_prune (b : Bbg F) (epoch : UInt64) : SameHistory b (b.prune epoch) :=
  prune_induction (I := SameHistory b) (fun axon _ b' h => h.trans (sameHistory_removeAxon b' axon)) SameHistory.refl

theorem sameHistory_finalizeBlock (b : Bbg F) : SameHistory b.snapshotTime b.finalizeBlock :=
  finalizeBlock_induction (I := SameHistory b.snapshotTime)
    (fun _ axon _ b' h => h.trans (sameHistory_removeAxon b' axon)) (fun _ h => ⟨h.height, h.time, h.signals⟩)
    SameHistory.refl

/-- A snapshot appends its root, while heights do not wrap. -/
theorem Records.snapshotTime (h : Records hist b) (hlt : hist.roots.length + 1 < 2 ^ 64) :
    Records (hist.append ⟨[b.state.root], []⟩) b.snapshotTime := by
  have hheight : (b.state.height + 1).toNat = hist.roots.length + 1 := by
    rw [UInt64.toNat_add, h.height]
    exact Nat.mod_eq_of_lt hlt
  refine ⟨?_, fun k => ?_, ?_, ?_⟩
  · rw [History.append, List.length_append]
    exact hheight
  · change (b.state.time.insert b.state.height b.state.root)[k]? = (hist.roots ++ [b.state.root])[k.toNat]?
    rw [OrdMap.getElem?_insert]
    split_ifs with hk
    · subst hk
      rw [h.height, List.getElem?_concat_length]
    · rw [h.time]
      have hne : k.toNat ≠ hist.roots.length := fun heq => hk (UInt64.toNat_inj.mp (h.height.trans heq.symm))
      rcases Nat.lt_or_ge k.toNat hist.roots.length with hlt | hge
      · exact (List.getElem?_append_left hlt).symm
      · rw [List.getElem?_eq_none hge, List.getElem?_eq_none]
        rw [List.length_append, List.length_singleton]
        omega
  · rw [History.append, List.append_nil]
    exact h.keys
  · rw [History.append, List.append_nil]
    exact h.signals

/-- A record at a fresh key is added to the others. -/
theorem Records.applySignalRecord (h : Records hist b) (record : SignalRecord)
    (hfresh : b.state.signals.contains (signalKey F record.neuron record.step) = false) :
    Records (hist.append ⟨[], [record]⟩) (b.applySignalRecord record) := by
  rw [OrdMap.contains_eq_isSome, Option.isSome_eq_false_iff, Option.isNone_iff_eq_none] at hfresh
  have hnew : ∀ r ∈ hist.headers, signalKey F r.neuron r.step ≠ signalKey F record.neuron record.step := by
    intro r hr heq
    have hget := (h.signals _ r).mpr ⟨hr, rfl⟩
    rw [heq, hfresh] at hget
    cases hget
  refine ⟨?_, fun k => ?_, ?_, fun k r => ?_⟩
  · rw [History.append, List.append_nil]
    exact h.height
  · rw [History.append, List.append_nil]
    exact h.time k
  · rw [History.append, List.map_append, List.nodup_append]
    refine ⟨h.keys, List.nodup_singleton _, ?_⟩
    intro k hk k' hk'
    obtain ⟨r, hr, rfl⟩ := List.mem_map.mp hk
    obtain rfl := List.mem_singleton.mp hk'
    exact hnew r hr
  · change (b.state.signals.insert (signalKey F record.neuron record.step) record)[k]? = some r ↔ _
    rw [OrdMap.getElem?_insert, History.append, List.mem_append, List.mem_singleton]
    split_ifs with hk
    · subst hk
      rw [Option.some_inj]
      constructor
      · rintro rfl
        exact ⟨.inr rfl, rfl⟩
      · rintro ⟨hr | hr, hkey⟩
        · exact absurd hkey.symm (hnew r hr)
        · exact hr.symm
    · rw [h.signals]
      constructor
      · rintro ⟨hr, hkey⟩
        exact ⟨.inl hr, hkey⟩
      · rintro ⟨hr | rfl, hkey⟩
        · exact ⟨hr, hkey⟩
        · exact absurd hkey.symm hk

theorem signals_fresh {signal : Signal} {key : Particle} {header : SignalRecord}
    (h : validate b signal key header = .ok ()) : b.state.signals.contains key = false := by
  rw [validate] at h
  split_ifs at h with _ _ _ hexists
  · exact Bool.not_eq_true _ ▸ hexists

/-- An event of an accepted batch appends its history. -/
theorem Records.event (h : Records hist b) {change : NativeChange} (hchecked : b.Checked change)
    (hevent : b.plainEvent change = some b₁) (hlt : (hist.append (b.eventHistory change)).roots.length < 2 ^ 64) :
    Records (hist.append (b.eventHistory change)) b₁ := by
  cases change with
  | signal signal header =>
      rw [plainEvent, plainSignal, insert_eq] at hevent
      split_ifs at hevent
      obtain rfl := Option.some_inj.mp hevent
      have hsame := sameHistory_accept b signal
      have hfresh := signals_fresh hchecked
      have hrecord := (h.of_same hsame).applySignalRecord header (by
        rw [OrdMap.contains_eq_isSome, hsame.signals, ← OrdMap.contains_eq_isSome]
        exact hfresh)
      have hsnapshot := hrecord.snapshotTime (by
        simpa [History.append, eventHistory] using hlt)
      rw [History.append_assoc] at hsnapshot
      exact hsnapshot.of_same (sameHistory_finalizeBlock _)
  | intent intent =>
      obtain rfl := Option.some_inj.mp hevent
      exact h.still ⟨rfl, fun _ => rfl, fun _ => rfl⟩
  | localCredit neuron token amount focus =>
      obtain ⟨balance, -, hevent⟩ := Option.bind_eq_some_iff.mp hevent
      obtain ⟨nextFocus, -, hevent⟩ := Option.bind_eq_some_iff.mp hevent
      obtain rfl := Option.some_inj.mp hevent
      exact h.still ⟨rfl, fun _ => rfl, fun _ => rfl⟩

theorem roots_append_le (h h' : History) : h.roots.length ≤ (h.append h').roots.length := by
  rw [History.append, List.length_append]
  omega

/-- The events of an accepted batch append their histories in order. -/
theorem Records.events (h : Records hist b) {events : List NativeChange} {snapshots : List Snapshot}
    (hchecked : Refine.RunAlong plainStep Checked b events) (hrun : Refine.run plainStep b events = some (snapshots, b₁))
    (hlt : (hist.append (eventsHistory b events)).roots.length < 2 ^ 64) :
    Records (hist.append (eventsHistory b events)) b₁ := by
  induction events generalizing b hist snapshots with
  | nil =>
      obtain ⟨-, rfl⟩ := Prod.mk.inj (Option.some_inj.mp hrun)
      rw [eventsHistory, History.append_none]
      exact h
  | cons change events ih =>
      rw [Refine.run, Option.bind_eq_some_iff] at hrun
      obtain ⟨next, hnext, hrest⟩ := hrun
      obtain ⟨b₂, hevent, rfl⟩ := Option.map_eq_some_iff.mp hnext
      obtain ⟨⟨rest, b₃⟩, hrun, heq⟩ := Option.map_eq_some_iff.mp hrest
      obtain ⟨-, rfl⟩ := Prod.mk.inj heq
      rw [eventsHistory, hevent, Option.elim_some, ← History.append_assoc] at hlt ⊢
      have hfirst := h.event hchecked.1 hevent (Nat.lt_of_le_of_lt (roots_append_le _ _) hlt)
      exact ih hfirst (hchecked.2 _ hnext) hrun hlt

variable [NebuRoundTrip F]

theorem Records.act (h : Records hist b) {a : Act} (hnative : a.Native) {next : List Signal × Bbg F}
    (hact : b.act a = some next) (hlt : (hist.append (b.actHistory a)).roots.length < 2 ^ 64) :
    Records (hist.append (b.actHistory a)) next.2 := by
  cases a with
  | configure config =>
      obtain rfl := Option.some_inj.mp hact
      exact h.still ⟨rfl, fun _ => rfl, fun _ => rfl⟩
  | op op =>
      change b.step op = some next at hact
      cases op with
      | insert signal =>
          rw [step_insert] at hact
          split_ifs at hact
          · obtain rfl := Option.some_inj.mp hact
            exact h.still SameHistory.refl
          · obtain rfl := Option.some_inj.mp hact
            exact h.still (sameHistory_accept b signal)
      | finalizeBlock =>
          obtain rfl := Option.some_inj.mp hact
          have hsnapshot := h.snapshotTime (by simpa [History.append, actHistory] using hlt)
          exact hsnapshot.of_same (sameHistory_finalizeBlock b)
      | prune config epoch =>
          obtain rfl := Option.some_inj.mp hact
          have hprune := sameHistory_prune { b with pruneConfig := config } epoch
          exact h.still ⟨hprune.height, hprune.time, hprune.signals⟩
      | applyIntent intent =>
          obtain rfl := Option.some_inj.mp hact
          exact h.still ⟨rfl, fun _ => rfl, fun _ => rfl⟩
      | applySignalRecord record => exact absurd hnative id
      | publish events =>
          rw [actHistory] at hlt ⊢
          cases hprepare : b.prepareNativeBatch events with
          | error failed =>
              have hfails : (b.prepareNativeBatch events).isOk = false := by
                rw [hprepare]
                rfl
              rcases step_publish b events with hsame | ⟨p, hp, -⟩
              · obtain rfl := Option.some_inj.mp (hsame.symm.trans hact)
                rw [← hprepare, if_neg (by simp [hfails])]
                exact h.still SameHistory.refl
              · rw [hprepare] at hp
                cases hp
          | ok p =>
              have hok : (b.prepareNativeBatch events).isOk = true := by
                rw [hprepare]
                rfl
              have hpublish : b.step (.publish events) = some (signalsOf events, p.publish) := by
                rw [step, hprepare]
              obtain rfl := Option.some_inj.mp (hpublish.symm.trans hact)
              rw [if_pos hok] at hlt
              rw [← hprepare, if_pos hok]
              exact h.events (prepare_checked hprepare) (prepare_refines hprepare) hlt
      | drop events =>
          obtain rfl := Option.some_inj.mp ((step_drop b events).symm.trans hact)
          exact h.still SameHistory.refl

theorem Records.run (h : Records hist b) {acts : List Act} (hnative : ∀ a ∈ acts, a.Native)
    {answers : List (List Signal)} (hrun : Refine.run Bbg.act b acts = some (answers, b₁))
    (hlt : (hist.append (history b acts)).roots.length < 2 ^ 64) : Records (hist.append (history b acts)) b₁ := by
  induction acts generalizing b hist answers with
  | nil =>
      obtain ⟨-, rfl⟩ := Prod.mk.inj (Option.some_inj.mp hrun)
      rw [history, History.append_none]
      exact h
  | cons a acts ih =>
      obtain ⟨hhead, hnative⟩ := List.forall_mem_cons.mp hnative
      rw [Refine.run, Option.bind_eq_some_iff] at hrun
      obtain ⟨next, hnext, hrest⟩ := hrun
      obtain ⟨⟨rest, b₃⟩, hrun, heq⟩ := Option.map_eq_some_iff.mp hrest
      obtain ⟨-, rfl⟩ := Prod.mk.inj heq
      rw [history, hnext, Option.elim_some, ← History.append_assoc] at hlt ⊢
      have hfirst := h.act hhead hnext (Nat.lt_of_le_of_lt (roots_append_le _ _) hlt)
      exact ih hfirst hnative hrun hlt

theorem records_new : Records .none (new : Bbg F) :=
  ⟨rfl, by simp [new, State.new, History.none], List.nodup_nil, by simp [new, State.new, History.none]⟩

/-- A run of fewer than 2^64 blocks holds exactly its history, and a run that goes on keeps every time row and
every signal record. -/
theorem run_history (acts acts' : List Act) (hnative : ∀ a ∈ acts ++ acts', a.Native) :
    ∃ answers b answers' b', Refine.run act (new : Bbg F) acts = some (answers, b) ∧
      Refine.run act b acts' = some (answers', b') ∧
      (((history (new : Bbg F) acts).append (history b acts')).roots.length < 2 ^ 64 →
        Records (history (new : Bbg F) acts) b ∧
        Records ((history (new : Bbg F) acts).append (history b acts')) b' ∧
        (∀ (h : UInt64) (root : Particle), b.state.time[h]? = some root → b'.state.time[h]? = some root) ∧
        ∀ (k : Particle) (r : SignalRecord), b.state.signals[k]? = some r → b'.state.signals[k]? = some r) := by
  obtain ⟨answers, b, hrun⟩ := Refine.exists_run exists_act (new : Bbg F) acts
  obtain ⟨answers', b', hrun'⟩ := Refine.exists_run exists_act b acts'
  refine ⟨answers, b, answers', b', hrun, hrun', fun hlt => ?_⟩
  have hfirst : Records (history (new : Bbg F) acts) b := by
    have hempty : History.none.append (history (new : Bbg F) acts) = history (new : Bbg F) acts := rfl
    have := records_new.run (fun a ha => hnative a (List.mem_append_left _ ha)) hrun (by
      rw [hempty]
      exact Nat.lt_of_le_of_lt (roots_append_le _ _) hlt)
    rwa [hempty] at this
  have hsecond := hfirst.run (fun a ha => hnative a (List.mem_append_right _ ha)) hrun' hlt
  refine ⟨hfirst, hsecond, fun h root hroot => ?_, fun k r hr => ?_⟩
  · rw [hfirst.time] at hroot
    obtain ⟨hlt, -⟩ := List.getElem?_eq_some_iff.mp hroot
    rw [hsecond.time, History.append, List.getElem?_append_left hlt, hroot]
  · obtain ⟨hmem, hkey⟩ := (hfirst.signals k r).mp hr
    exact (hsecond.signals k r).mpr ⟨List.mem_append_left _ hmem, hkey⟩

/-- A published signal, and then the end of an empty block. -/
def signalAndBlock : List Act := [.op (.publish spendAndDeclare), .op .finalizeBlock]

theorem run_history_signalAndBlock : ∃ answers b, Refine.run act (new : Bbg Rolling) signalAndBlock = some (answers, b) ∧
    b.state.height.toNat = 2 ∧ Records (history (new : Bbg Rolling) signalAndBlock) b := by
  have htwo : (history (new : Bbg Rolling) signalAndBlock).roots.length = 2 := by decide +kernel
  have hnative : ∀ a ∈ signalAndBlock ++ [], a.Native := by
    intro a ha
    simp only [signalAndBlock, List.append_nil, List.mem_cons, List.not_mem_nil, or_false] at ha
    rcases ha with rfl | rfl <;> trivial
  obtain ⟨answers, b, -, b', hrun, -, hrecords⟩ := run_history (F := Rolling) signalAndBlock [] hnative
  have h := (hrecords (by
    change ((history (new : Bbg Rolling) signalAndBlock).append .none).roots.length < 2 ^ 64
    rw [History.append_none, htwo]
    decide)).1
  exact ⟨answers, b, hrun, h.height.trans htwo, h⟩

end Bbg

end LeanBbg
