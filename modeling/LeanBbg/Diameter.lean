import LeanBbg.LibWalk
import LeanBbg.NativeRuns
import LeanBbg.RollingHash
import LeanBbg.Topology

/-! The committed diameter bound counts particle records, and the graph is in the edge map. A link with
conviction makes records for its axon and its target, and staleness removes an axon from both; then the
records outnumber the edges of every shortest path. A link without conviction makes an edge and no record,
and pruning over the size limit removes records of particles that are no axons. -/

set_option linter.unusedSectionVars false

namespace LeanBbg

variable {F : Type} [Hemera F] [DecidableEq F] [Brakedown F]

/-- The axon ids of a set of links, by their endpoints. -/
def axonIds (F : Type) [Hemera F] (T : Set (Particle × Particle)) : Set Particle :=
  {a | ∃ e ∈ T, a = axonId F e.1 e.2}

theorem axonIds_mono {T T' : Set (Particle × Particle)} (h : T ⊆ T') : axonIds F T ⊆ axonIds F T' :=
  fun _ ⟨e, he, ha⟩ => ⟨e, h he, ha⟩

namespace State

/-- Every link has conviction, or repeats an axon of the edge map. -/
def Convinced (neuron : NeuronId) : State F → List Cyberlink → Prop
  | _, [] => True
  | s, link :: links =>
      (link.amount ≠ 0 ∨ s.axonEdges.contains (axonId F link.source link.target)) ∧
        Convinced neuron (s.applyLink neuron link) links

/-- The length of a shortest path over the edges of the edge map. -/
noncomputable def distance (s : State F) (u v : Particle) : Nat := Walk.distance (fun a : Particle => s.axonEdges[a]?) u v

/-- There is a path of `n` edges. -/
def Path (s : State F) (n : Nat) (u v : Particle) : Prop := Walk.Path (fun a : Particle => s.axonEdges[a]?) n u v

/-- The committed bound is not less than the length of a shortest path. -/
def DiameterBounded (s : State F) : Prop :=
  ∀ u v n, s.Path n u v → s.distance u v ≤ s.statistics.diameterBound.toNat

/-! ### Records of axons and targets -/

/-- Every axon of the edge map has a record and is the axon of a link of `T`; the targets of `T` that are no
axons of `T` have records. -/
structure Counted (T : Set (Particle × Particle)) (s : State F) : Prop where
  edge : ∀ (a : Particle) (e : Particle × Particle), s.axonEdges[a]? = some e →
    s.particles.contains a ∧ a ∈ axonIds F T
  target : ∀ e ∈ T, e.2 ∉ axonIds F T → s.particles.contains e.2
  free : s.diameterOverride = none

variable {T : Set (Particle × Particle)} {s : State F}

theorem contains_insert {K V : Type} [Ord K] [Std.TransOrd K] [Std.LawfulEqOrd K] {m : OrdMap K V} {k k' : K} {v : V} :
    (m.insert k' v).contains k ↔ k' = k ∨ m.contains k := by
  rw [Std.ExtTreeMap.contains_insert, Bool.or_eq_true, beq_iff_eq, Std.compare_eq_iff_eq]

theorem linkTopology_edge {link : Cyberlink} {a : Particle} {e : Particle × Particle}
    (h : (s.linkTopology link).axonEdges[a]? = some e) :
    s.axonEdges[a]? = some e ∨ a = axonId F link.source link.target := by
  change (if s.axonEdges.contains (axonId F link.source link.target) then s.axonEdges
    else s.axonEdges.insert (axonId F link.source link.target) (link.source, link.target))[a]? = some e at h
  split_ifs at h
  · exact .inl h
  · rw [OrdMap.getElem?_insert] at h
    split_ifs at h with ha
    · exact .inr ha.symm
    · exact .inl h

theorem spendFocus_particles (s : State F) (neuron : NeuronId) (amount : UInt64) :
    (s.spendFocus neuron amount).particles = s.particles ∧
      (s.spendFocus neuron amount).diameterOverride = s.diameterOverride := by
  rw [spendFocus]
  cases s.neurons[neuron]? <;> exact ⟨rfl, rfl⟩

/-- A link with conviction has a record for its axon and for its target. -/
theorem moveConviction_particles (s : State F) (neuron : NeuronId) (link : Cyberlink) (p : Particle) :
    (s.moveConviction neuron link).particles.contains p ↔
      p = link.target ∨ p = axonId F link.source link.target ∨ s.particles.contains p := by
  have hparticles : (s.moveConviction neuron link).particles =
      ((s.addWeight (axonId F link.source link.target) link.amount).addEnergy link.target link.amount).particles :=
    (spendFocus_particles _ neuron link.amount).1
  rw [hparticles]
  refine contains_insert.trans ?_
  rw [eq_comm]
  refine or_congr_right (contains_insert.trans ?_)
  rw [eq_comm]

theorem moveConviction_override (s : State F) (neuron : NeuronId) (link : Cyberlink) :
    (s.moveConviction neuron link).diameterOverride = s.diameterOverride :=
  (spendFocus_particles _ neuron link.amount).2

theorem Counted.applyLink (h : Counted T s) {neuron : NeuronId} {link : Cyberlink}
    (hlink : link.amount ≠ 0 ∨ s.axonEdges.contains (axonId F link.source link.target)) :
    Counted (if link.amount = 0 then T else Insert.insert link.ends T) (s.applyLink neuron link) := by
  rw [State.applyLink]
  split_ifs with hamount
  · -- the axon is there, so nothing but the adjacency lists is written
    have hthere := hlink.resolve_left fun hne => hne hamount
    have hedges : (s.linkTopology link).axonEdges = s.axonEdges := if_pos hthere
    exact ⟨by rw [hedges]; exact h.edge, h.target, h.free⟩
  · have hsub : T ⊆ Insert.insert link.ends T := Set.subset_insert _ _
    have hid : axonId F link.source link.target ∈ axonIds F (Insert.insert link.ends T) :=
      ⟨link.ends, Set.mem_insert _ _, rfl⟩
    refine ⟨fun a e he => ?_, fun e he hnot => ?_, ?_⟩
    · have hmoved := (Bbg.applyLink_indexes neuron s link).1
      rw [State.applyLink, if_neg hamount] at hmoved
      rw [hmoved] at he
      rw [moveConviction_particles]
      rcases linkTopology_edge he with hold | rfl
      · obtain ⟨hrecord, hmem⟩ := h.edge a e hold
        exact ⟨.inr (.inr hrecord), axonIds_mono hsub hmem⟩
      · exact ⟨.inr (.inl rfl), hid⟩
    · rw [moveConviction_particles]
      rcases he with rfl | he
      · exact .inl rfl
      · exact .inr (.inr (h.target e he fun hmem => hnot (axonIds_mono hsub hmem)))
    · rw [moveConviction_override]
      exact h.free

/-- The links of a signal: the new set has the endpoints of those with conviction. -/
theorem Counted.applyLinks (h : Counted T s) {neuron : NeuronId} {links : List Cyberlink}
    (hlinks : Convinced neuron s links) :
    ∃ T', T ⊆ T' ∧ (∀ e ∈ T', e ∈ T ∨ ∃ link ∈ links, link.amount ≠ 0 ∧ e = link.ends) ∧
      (∀ link ∈ links, axonId F link.source link.target ∈ axonIds F T') ∧
      Counted T' (links.foldl (State.applyLink neuron) s) := by
  induction links generalizing s T with
  | nil => exact ⟨T, subset_rfl, fun e he => .inl he, by simp, h⟩
  | cons link links ih =>
      obtain ⟨T', hsub, hends, hids, hcounted⟩ := ih (h.applyLink hlinks.1) hlinks.2
      have hstep : T ⊆ if link.amount = 0 then T else Insert.insert link.ends T := by
        split_ifs
        · exact subset_rfl
        · exact Set.subset_insert _ _
      refine ⟨T', hstep.trans hsub, fun e he => ?_, ?_, hcounted⟩
      · rcases hends e he with he | ⟨other, hother, hamount, rfl⟩
        · split_ifs at he with hamount
          · exact .inl he
          · rcases he with rfl | he
            · exact .inr ⟨link, List.mem_cons_self, hamount, rfl⟩
            · exact .inl he
        · exact .inr ⟨other, List.mem_cons_of_mem _ hother, hamount, rfl⟩
      · refine List.forall_mem_cons.mpr ⟨?_, hids⟩
        rcases hlinks.1 with hamount | hthere
        · rw [if_neg hamount] at hsub
          exact ⟨link.ends, hsub (Set.mem_insert _ _), rfl⟩
        · rw [OrdMap.contains_eq_isSome, Option.isSome_iff_exists] at hthere
          obtain ⟨e, he⟩ := hthere
          exact axonIds_mono (hstep.trans hsub) (h.edge _ e he).2

/-- Where no id of an axon is the target of a chain of links back to itself, some target is no axon. -/
theorem exists_target {rank : Particle → ℕ} (hrank : ∀ e ∈ T, rank e.2 < rank (axonId F e.1 e.2)) (hT : T.Nonempty) :
    ∃ e ∈ T, e.2 ∉ axonIds F T := by
  obtain ⟨e, he, hmin⟩ := exists_minimalFor_of_wellFoundedLT (fun e => e ∈ T) (fun e => rank e.2) hT
  refine ⟨e, he, ?_⟩
  rintro ⟨e', he', heq⟩
  have hlt := hrank e' he'
  rw [← heq] at hlt
  exact absurd (hmin he' hlt.le) (not_le.mpr hlt)

/-- The records outnumber the edges of a path. -/
theorem Counted.bounded (h : Counted T s) {rank : Particle → ℕ} (hrank : ∀ e ∈ T, rank e.2 < rank (axonId F e.1 e.2))
    (hsize : s.particles.size < 2 ^ 64) : s.DiameterBounded := by
  intro u v n hpath
  have hbound : s.statistics.diameterBound.toNat = s.particles.size - 1 := by
    rw [statistics, h.free, Option.getD_none, saturatingSub]
    split_ifs with hone
    · rw [UInt64.toNat_sub_of_le _ _ hone, UInt64.toNat_ofNat', Nat.mod_eq_of_lt hsize]
      rfl
    · have hlt := UInt64.lt_iff_toNat_lt.mp (UInt64.not_le.mp hone)
      rw [UInt64.toNat_ofNat', Nat.mod_eq_of_lt hsize] at hlt
      change s.particles.size < 1 at hlt
      change 0 = s.particles.size - 1
      omega
  refine Walk.distance_le hpath fun ks hnodup hedges => ?_
  rw [hbound]
  cases ks with
  | nil => exact Nat.zero_le _
  | cons k ks =>
      have hids : ∀ a ∈ k :: ks, s.particles.contains a ∧ a ∈ axonIds F T := by
        intro a ha
        obtain ⟨e, he⟩ := hedges a ha
        exact h.edge a e he
      obtain ⟨e₀, he₀, -⟩ := (hids k List.mem_cons_self).2
      obtain ⟨e, he, hnot⟩ := exists_target hrank ⟨e₀, he₀⟩
      have hrecord := h.target e he hnot
      have hfresh : e.2 ∉ k :: ks := fun hmem => hnot (hids _ hmem).2
      have hkeys : (e.2 :: k :: ks) ⊆ s.particles.keys := by
        intro a ha
        rw [Std.ExtTreeMap.mem_keys, ← Std.ExtTreeMap.contains_iff_mem]
        rcases List.mem_cons.mp ha with rfl | ha
        · exact hrecord
        · exact (hids a ha).1
      have hle := (List.subperm_of_subset (List.nodup_cons.mpr ⟨hfresh, hnodup⟩) hkeys).length_le
      rw [Std.ExtTreeMap.length_keys, List.length_cons] at hle
      omega

theorem Counted.of_same {s' : State F} (h : Counted T s) (hedges : s'.axonEdges = s.axonEdges)
    (hparticles : s'.particles = s.particles) (hfree : s'.diameterOverride = s.diameterOverride) : Counted T s' :=
  ⟨by rw [hedges, hparticles]; exact h.edge, by rw [hparticles]; exact h.target, hfree.trans h.free⟩

theorem Counted.applyMoves (h : Counted T s) (moves : List BoxMove) : Counted T (moves.foldl applyMove s) := by
  induction moves generalizing s with
  | nil => exact h
  | cons mv moves ih =>
      refine ih ?_
      rw [applyMove]
      cases mv.commitment with
      | none => exact h.of_same rfl rfl rfl
      | some output => exact h.of_same rfl rfl rfl

/-- An axon of `T` is removed from the edge map with its record. -/
theorem Counted.removeAxon (h : Counted T s) {axon : Particle} (haxon : axon ∈ axonIds F T) :
    Counted T (s.removeAxon axon) := by
  have hrecords : (s.removeAxon axon).particles = s.particles.erase axon := by
    rw [State.removeAxon]
    dsimp only
    cases s.axonEdges[axon]? <;> rfl
  have hedges : ∀ a, (s.removeAxon axon).axonEdges[a]? = if axon = a then none else s.axonEdges[a]? := by
    intro a
    rw [State.removeAxon]
    dsimp only
    cases hedge : s.axonEdges[axon]? with
    | none =>
        dsimp only
        split_ifs with ha
        · rw [← ha, hedge]
        · rfl
    | some e => exact OrdMap.getElem?_erase _ _ _
  have hkept : ∀ p, axon ≠ p → s.particles.contains p → (s.removeAxon axon).particles.contains p := by
    intro p hne hp
    rw [hrecords, OrdMap.contains_eq_isSome, OrdMap.getElem?_erase, if_neg hne, ← OrdMap.contains_eq_isSome]
    exact hp
  refine ⟨fun a e he => ?_, fun e he hnot => ?_, ?_⟩
  · rw [hedges] at he
    split_ifs at he with ha
    obtain ⟨hrecord, hmem⟩ := h.edge a e he
    exact ⟨hkept a ha hrecord, hmem⟩
  · refine hkept _ ?_ (h.target e he hnot)
    rintro rfl
    exact hnot haxon
  · rw [State.removeAxon]
    dsimp only
    cases s.axonEdges[axon]? <;> exact h.free

end State

/-! ### Runs -/

namespace Bbg

/-- Pruning finds no unprotected entry that is not a touched axon. The stale entries are touched axons; over the
size limit every particle below the rank floor is an entry. -/
def PrunesAxons (b : Bbg F) (epoch : UInt64) : Prop :=
  ∀ axon ∈ (b.state.unprotected b.lastTouched b.pruneConfig epoch).map Prod.fst, b.lastTouched.contains axon

/-- Within the size limit pruning is by staleness. -/
theorem prunesAxons_of_le {b : Bbg F} {epoch : UInt64} (h : b.state.estimateBytes ≤ b.pruneConfig.maxBytes) :
    b.PrunesAxons epoch := by
  intro axon haxon
  rw [State.unprotected, if_neg (UInt64.not_lt.mpr h)] at haxon
  obtain ⟨found, hfound, rfl⟩ := List.mem_map.mp haxon
  obtain ⟨e, he, rfl⟩ := List.mem_map.mp hfound
  rw [OrdMap.contains_eq_isSome, (OrdMap.mem_toList _).mp (List.mem_of_mem_filter he)]
  rfl

/-- The pruning at the end of the block, if there is one, finds touched axons only. -/
def EndsSound (b : Bbg F) : Prop :=
  b.snapshotTime.state.height % EPOCH_BLOCKS = 0 → b.snapshotTime.PrunesAxons (b.snapshotTime.state.height / EPOCH_BLOCKS)

/-- The links of the signal have conviction or repeat an axon. -/
def SignalSound (b : Bbg F) (signal : Signal) : Prop :=
  State.Convinced signal.neuron (signal.boxMoves.foldl State.applyMove b.state) signal.links

def EventSound (b : Bbg F) : NativeChange → Prop
  | .signal signal header => b.SignalSound signal ∧ ((b.accept signal).applySignalRecord header).EndsSound
  | _ => True

def ActSound (b : Bbg F) : Act → Prop
  | .op (.insert signal) => b.state.spent signal = false → b.SignalSound signal
  | .op .finalizeBlock => b.EndsSound
  | .op (.prune config epoch) => PrunesAxons { b with pruneConfig := config } epoch
  | .op (.publish events) => (b.prepareNativeBatch events).isOk → Refine.RunAlong plainStep EventSound b events
  | _ => True

/-- The links that an act brings. -/
def Act.links : Act → List Cyberlink
  | .op (.insert signal) => signal.links
  | .op (.publish events) => (signalsOf events).flatMap Signal.links
  | _ => []

variable (F) in
/-- The hash leads from the target of a link to its axon, and never back. -/
def Ranked (rank : Particle → ℕ) (links : List Cyberlink) : Prop :=
  ∀ link ∈ links, link.amount ≠ 0 → rank link.target < rank (axonId F link.source link.target)

/-- The records count the links of some set, whose axons have rank over their targets and are the touched ones. -/
def Counting (rank : Particle → ℕ) (T : Set (Particle × Particle)) (b : Bbg F) : Prop :=
  (∀ e ∈ T, rank e.2 < rank (axonId F e.1 e.2)) ∧ b.state.Counted T ∧ ∀ a, b.lastTouched.contains a → a ∈ axonIds F T

variable {b b₁ : Bbg F} {rank : Particle → ℕ} {T : Set (Particle × Particle)}

theorem Counting.of_same (h : Counting rank T b) (hedges : b₁.state.axonEdges = b.state.axonEdges)
    (hparticles : b₁.state.particles = b.state.particles)
    (hfree : b₁.state.diameterOverride = b.state.diameterOverride) (htouched : b₁.lastTouched = b.lastTouched) :
    Counting rank T b₁ :=
  ⟨h.1, h.2.1.of_same hedges hparticles hfree, by rw [htouched]; exact h.2.2⟩

theorem Counting.accept (h : Counting rank T b) {signal : Signal} (hsound : b.SignalSound signal)
    (hrank : Ranked F rank signal.links) : ∃ T', Counting rank T' (b.accept signal) := by
  obtain ⟨hranked, hcounted, htouched⟩ := h
  obtain ⟨T', hsub, hends, hids, hcounted'⟩ := (hcounted.applyMoves signal.boxMoves).applyLinks hsound
  refine ⟨T', fun e he => ?_, hcounted', fun a ha => ?_⟩
  · rcases hends e he with he | ⟨link, hlink, hamount, rfl⟩
    · exact hranked e he
    · exact hrank link hlink hamount
  · rcases (foldl_touch_contains signal.links _ b.lastTouched a).mp ha with ha | ha
    · exact axonIds_mono hsub (htouched a ha)
    · obtain ⟨link, hlink, rfl⟩ := List.mem_map.mp ha
      exact hids link hlink

theorem Counting.removeAxon (h : Counting rank T b) {axon : Particle} (haxon : axon ∈ axonIds F T) :
    Counting rank T (b.removeAxon axon) := by
  obtain ⟨hranked, hcounted, htouched⟩ := h
  refine ⟨hranked, hcounted.removeAxon haxon, fun a ha => htouched a ?_⟩
  change (b.lastTouched.erase axon).contains a at ha
  rw [Std.ExtTreeMap.contains_erase, Bool.and_eq_true] at ha
  exact ha.2

theorem Counting.prune (h : Counting rank T b) {epoch : UInt64} (hprunes : b.PrunesAxons epoch) :
    Counting rank T (b.prune epoch) :=
  prune_induction (fun axon haxon _ hI => hI.removeAxon (h.2.2 axon (hprunes axon haxon))) h

theorem Counting.finalizeBlock (h : Counting rank T b) (hends : b.EndsSound) : Counting rank T b.finalizeBlock :=
  finalizeBlock_induction (fun hepoch axon haxon _ hI => hI.removeAxon (h.2.2 axon (hends hepoch axon haxon)))
    (fun _ hI => hI.of_same rfl rfl rfl rfl) (h.of_same rfl rfl rfl rfl)

theorem Counting.event (h : Counting rank T b) {change : NativeChange} (hsound : b.EventSound change)
    (hrank : ∀ signal, NativeChange.signal? change = some signal → Ranked F rank signal.links)
    (hevent : b.plainEvent change = some b₁) : ∃ T', Counting rank T' b₁ := by
  cases change with
  | signal signal header =>
      rw [plainEvent, plainSignal, insert_eq] at hevent
      split_ifs at hevent
      obtain rfl := Option.some_inj.mp hevent
      obtain ⟨T', haccept⟩ := h.accept hsound.1 (hrank signal rfl)
      have hrecord : Counting rank T' ((b.accept signal).applySignalRecord header) :=
        haccept.of_same rfl rfl rfl rfl
      exact ⟨T', hrecord.finalizeBlock hsound.2⟩
  | intent intent =>
      obtain rfl := Option.some_inj.mp hevent
      exact ⟨T, h.of_same rfl rfl rfl rfl⟩
  | localCredit neuron token amount focus =>
      obtain ⟨balance, -, hevent⟩ := Option.bind_eq_some_iff.mp hevent
      obtain ⟨nextFocus, -, hevent⟩ := Option.bind_eq_some_iff.mp hevent
      obtain rfl := Option.some_inj.mp hevent
      exact ⟨T, h.of_same rfl rfl rfl rfl⟩

variable [NebuRoundTrip F]

theorem Counting.act (h : Counting rank T b) {a : Act} (hsound : b.ActSound a) (hrank : Ranked F rank a.links)
    {next : List Signal × Bbg F} (hact : b.act a = some next) : ∃ T', Counting rank T' next.2 := by
  cases a with
  | configure config =>
      obtain rfl := Option.some_inj.mp hact
      exact ⟨T, h⟩
  | op op =>
      change b.step op = some next at hact
      cases op with
      | insert signal =>
          rw [step_insert] at hact
          split_ifs at hact with hspent
          · obtain rfl := Option.some_inj.mp hact
            exact ⟨T, h⟩
          · obtain rfl := Option.some_inj.mp hact
            exact h.accept (hsound (by simpa using hspent)) hrank
      | finalizeBlock =>
          obtain rfl := Option.some_inj.mp hact
          exact ⟨T, h.finalizeBlock hsound⟩
      | prune config epoch =>
          obtain rfl := Option.some_inj.mp hact
          have hconfigured : Counting rank T { b with pruneConfig := config } := h
          exact ⟨T, hconfigured.prune hsound⟩
      | applyIntent intent =>
          obtain rfl := Option.some_inj.mp hact
          exact ⟨T, h.of_same rfl rfl rfl rfl⟩
      | applySignalRecord record =>
          obtain rfl := Option.some_inj.mp hact
          exact ⟨T, h.of_same rfl rfl rfl rfl⟩
      | publish events =>
          rcases step_publish b events with hsame | ⟨p, hprepare, hpublish⟩
          · obtain rfl := Option.some_inj.mp (hsame.symm.trans hact)
            exact ⟨T, h⟩
          · obtain rfl := Option.some_inj.mp (hpublish.symm.trans hact)
            have hranked : ∀ change ∈ events, ∀ _ : Bbg F, ∀ signal, NativeChange.signal? change = some signal →
                Ranked F rank signal.links := by
              intro change hchange _ signal hsignal link hlink
              have hmem : signal ∈ signalsOf events := List.mem_filterMap.mpr ⟨change, hchange, hsignal⟩
              exact hrank link (List.mem_flatMap.mpr ⟨signal, hmem, hlink⟩)
            have hgood := (hsound (by rw [hprepare]; rfl)).and (Refine.runAlong_of_forall hranked b)
            exact prepare_induction (I := fun _ b => ∃ T, Counting rank T b)
              (fun _ _ _ _ ⟨_, hI⟩ _ hgood hevent => hI.event hgood.1 hgood.2 hevent) ⟨T, h⟩ hprepare hgood
      | drop events =>
          obtain rfl := Option.some_inj.mp ((step_drop b events).symm.trans hact)
          exact ⟨T, h⟩

/-- In a run whose links have conviction or repeat an axon and whose pruning finds touched axons only, the
committed bound is not less than the length of any shortest path. The number of records is a `usize`. -/
theorem run_diameterBounded (acts : List Act) (rank : Particle → ℕ) (hrank : ∀ a ∈ acts, Ranked F rank a.links)
    (hsound : Refine.RunAlong act ActSound (new : Bbg F) acts) :
    ∃ answers b, Refine.run act (new : Bbg F) acts = some (answers, b) ∧
      (b.state.particles.size < 2 ^ 64 → b.state.DiameterBounded) := by
  obtain ⟨answers, b, hrun⟩ := Refine.exists_run exists_act (new : Bbg F) acts
  have hstart : ∃ T, Counting rank T (new : Bbg F) :=
    ⟨∅, fun e he => absurd he (Set.notMem_empty e), ⟨by simp [new, State.new], fun e he => absurd he (Set.notMem_empty e),
      rfl⟩, by simp [new]⟩
  have hranks : Refine.RunAlong act (fun _ a => Ranked F rank a.links) (new : Bbg F) acts :=
    Refine.runAlong_of_forall (fun a ha _ => hrank a ha) new
  obtain ⟨T, hranked, hcounted, -⟩ : ∃ T, Counting rank T b :=
    Refine.run_induction_along (I := fun _ b => ∃ T, Counting rank T b)
      (fun _ _ _ _ hI hgood hact => hI.elim fun _ hI => hI.act hgood.1 hgood.2 hact) [] hstart (hsound.and hranks) hrun
  exact ⟨answers, b, hrun, hcounted.bounded hranked⟩

/-- A signal with one link of conviction. -/
def oneConviction : Signal :=
  ⟨Vector.replicate 32 1, [⟨Vector.replicate 32 2, Vector.replicate 32 3, Vector.replicate 32 4, 9, 1⟩], [], 0⟩

theorem run_diameterBounded_oneConviction : ∃ answers b,
    Refine.run act (new : Bbg Rolling) [.op (.insert oneConviction)] = some (answers, b) ∧ b.state.DiameterBounded := by
  have hsize : (Refine.run act (new : Bbg Rolling) [.op (.insert oneConviction)]).map
      (fun r => r.2.state.particles.size) = some 2 := by
    decide +kernel
  have hrank : ∀ a ∈ [Act.op (.insert oneConviction)], Ranked Rolling
      (fun p => if p = axonId Rolling (Vector.replicate 32 2) (Vector.replicate 32 3) then 1 else 0) a.links := by
    intro a ha link hlink _
    obtain rfl := List.mem_singleton.mp ha
    obtain rfl := List.mem_singleton.mp hlink
    decide +kernel
  obtain ⟨answers, b, hrun, hbounded⟩ := run_diameterBounded [.op (.insert oneConviction)] _ hrank
    ⟨fun _ => ⟨.inl (by decide), trivial⟩, fun _ _ => trivial⟩
  rw [hrun, Option.map_some, Option.some_inj] at hsize
  exact ⟨answers, b, hrun, hbounded (by dsimp only at hsize; rw [hsize]; decide)⟩

/-- A link without conviction makes an edge, and no record to count it. -/
theorem oneLink_unbounded : ∃ answers b, Refine.run act (new : Bbg Rolling) [.op (.insert oneLink)] = some (answers, b) ∧
    b.state.diameterOverride = none ∧ b.state.Path 1 (Vector.replicate 32 2) (Vector.replicate 32 3) ∧
    b.state.statistics.diameterBound.toNat < b.state.distance (Vector.replicate 32 2) (Vector.replicate 32 3) := by
  have hfacts : (Refine.run act (new : Bbg Rolling) [.op (.insert oneLink)]).map (fun r =>
      (r.2.state.axonEdges[axonId Rolling (Vector.replicate 32 2) (Vector.replicate 32 3)]?,
        r.2.state.statistics.diameterBound, r.2.state.diameterOverride)) =
      some (some (Vector.replicate 32 2, Vector.replicate 32 3), 0, none) := by
    decide +kernel
  obtain ⟨⟨answers, b⟩, hrun, hb⟩ := Option.map_eq_some_iff.mp hfacts
  obtain ⟨hedge, hrest⟩ := Prod.mk.inj hb
  obtain ⟨hbound, hfree⟩ := Prod.mk.inj hrest
  have hpath : b.state.Path 1 (Vector.replicate 32 2) (Vector.replicate 32 3) := .cons _ hedge (.nil _)
  refine ⟨answers, b, hrun, hfree, hpath, ?_⟩
  dsimp only at hbound
  rw [hbound]
  refine Nat.pos_of_ne_zero fun hzero => ?_
  rcases Nat.sInf_eq_zero.mp hzero with hnil | hempty
  · have hne : (Vector.replicate 32 2 : Particle) ≠ Vector.replicate 32 3 := by decide
    generalize (Vector.replicate 32 2 : Particle) = u at hnil hne
    generalize (Vector.replicate 32 3 : Particle) = v at hnil hne
    cases hnil
    exact hne rfl
  · exact absurd hpath (Set.eq_empty_iff_forall_notMem.mp hempty 1)

end Bbg

end LeanBbg
