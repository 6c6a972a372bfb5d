import LeanBbg.GraphRuns
import LeanBbg.RollingHash

/-! The four topology indexes over whole runs. The edge map names the endpoints of every axon; the two
adjacency indexes list an axon under its endpoints and nowhere else; and the axons of the edge map are the
touched ones. Axon ids must not identify two links of the run. -/

set_option linter.unusedSectionVars false

namespace LeanBbg

variable {F : Type} [Hemera F] [DecidableEq F] [Brakedown F]

def Cyberlink.ends (link : Cyberlink) : Particle × Particle := (link.source, link.target)

/-- The endpoints of all links of a list of signals. -/
def linkEnds (signals : List Signal) : Set (Particle × Particle) :=
  {e | ∃ signal ∈ signals, ∃ link ∈ signal.links, link.ends = e}

namespace Adjacency

theorem mem_add {A : Adjacency} {p a q x : Particle} : x ∈ (A.add p a).axons q ↔ x ∈ A.axons q ∨ (q = p ∧ x = a) := by
  rw [add]
  split_ifs with hmem
  · constructor
    · exact .inl
    · rintro (h | ⟨rfl, rfl⟩)
      · exact h
      · exact hmem
  · rw [axons_put]
    split_ifs with hq
    · subst hq
      rw [List.mem_eraseDups, List.mem_append, List.mem_singleton]
      tauto
    · constructor
      · exact .inl
      · rintro (h | ⟨rfl, -⟩)
        · exact h
        · exact absurd rfl hq

theorem mem_removeAxon {A : Adjacency} {p a q x : Particle} :
    x ∈ (A.removeAxon p a).axons q ↔ x ∈ A.axons q ∧ ¬(q = p ∧ x = a) := by
  rw [removeAxon, axons_put]
  split_ifs with hq
  · subst hq
    rw [List.mem_eraseDups, List.mem_filter]
    simp
  · simp [Ne.symm hq]

end Adjacency

namespace Bbg

/-- The indexes describe one set of axons, with endpoints among `L`. -/
structure Consistent (L : Set (Particle × Particle)) (b : Bbg F) : Prop where
  edge : ∀ a e, b.state.axonEdges[a]? = some e → a = axonId F e.1 e.2 ∧ e ∈ L
  out : ∀ a f, a ∈ b.state.axonsOut.axons f ↔ ∃ t, b.state.axonEdges[a]? = some (f, t)
  inn : ∀ a t, a ∈ b.state.axonsIn.axons t ↔ ∃ f, b.state.axonEdges[a]? = some (f, t)
  touched : ∀ a, b.lastTouched.contains a = b.state.axonEdges.contains a

variable {L : Set (Particle × Particle)} {b : Bbg F}

/-! ### Links -/

/-- The indexes of the state alone, with the endpoints of the axons among `L`. -/
structure Linked (L : Set (Particle × Particle)) (s : State F) : Prop where
  edge : ∀ a e, s.axonEdges[a]? = some e → a = axonId F e.1 e.2 ∧ e ∈ L
  out : ∀ a f, a ∈ s.axonsOut.axons f ↔ ∃ t, s.axonEdges[a]? = some (f, t)
  inn : ∀ a t, a ∈ s.axonsIn.axons t ↔ ∃ f, s.axonEdges[a]? = some (f, t)

theorem linkTopology_edges {s : State F} (hs : Linked L s) (hinj : Set.InjOn (fun e => axonId F e.1 e.2) L)
    {link : Cyberlink} (hlink : link.ends ∈ L) (a : Particle) : (s.linkTopology link).axonEdges[a]? =
      if axonId F link.source link.target = a then some link.ends else s.axonEdges[a]? := by
  change (if s.axonEdges.contains (axonId F link.source link.target) then s.axonEdges
    else s.axonEdges.insert (axonId F link.source link.target) (link.source, link.target))[a]? = _
  split_ifs with hmem ha ha
  · subst ha
    rw [OrdMap.contains_eq_isSome, Option.isSome_iff_exists] at hmem
    obtain ⟨e, he⟩ := hmem
    obtain ⟨hid, heL⟩ := hs.edge _ e he
    rw [he, hinj hlink heL hid]
  · rfl
  · rw [OrdMap.getElem?_insert, if_pos ha]
    rfl
  · rw [OrdMap.getElem?_insert, if_neg ha]

theorem Linked.linkTopology {s : State F} (hs : Linked L s) (hinj : Set.InjOn (fun e => axonId F e.1 e.2) L)
    {link : Cyberlink} (hlink : link.ends ∈ L) : Linked L (s.linkTopology link) := by
  have hedges := linkTopology_edges hs hinj hlink
  refine ⟨fun a e he => ?_, fun a f => ?_, fun a t => ?_⟩
  · rw [hedges] at he
    split_ifs at he with ha
    · obtain rfl := Option.some_inj.mp he
      exact ⟨ha.symm, hlink⟩
    · exact hs.edge a e he
  · change a ∈ (s.axonsOut.add link.source (axonId F link.source link.target)).axons f ↔ _
    rw [Adjacency.mem_add, hs.out]
    simp only [hedges]
    split_ifs with ha
    · subst ha
      constructor
      · rintro (⟨t, ht⟩ | ⟨rfl, -⟩)
        · obtain ⟨hid, hL⟩ := hs.edge _ _ ht
          exact ⟨t, congrArg some (hinj hlink hL hid)⟩
        · exact ⟨link.target, rfl⟩
      · rintro ⟨t, ht⟩
        exact .inr ⟨(congrArg Prod.fst (Option.some_inj.mp ht)).symm, rfl⟩
    · constructor
      · rintro (h | ⟨-, rfl⟩)
        · exact h
        · exact absurd rfl ha
      · exact .inl
  · change a ∈ (s.axonsIn.add link.target (axonId F link.source link.target)).axons t ↔ _
    rw [Adjacency.mem_add, hs.inn]
    simp only [hedges]
    split_ifs with ha
    · subst ha
      constructor
      · rintro (⟨f, hf⟩ | ⟨rfl, -⟩)
        · obtain ⟨hid, hL⟩ := hs.edge _ _ hf
          exact ⟨f, congrArg some (hinj hlink hL hid)⟩
        · exact ⟨link.source, rfl⟩
      · rintro ⟨f, hf⟩
        exact .inr ⟨(congrArg Prod.snd (Option.some_inj.mp hf)).symm, rfl⟩
    · constructor
      · rintro (h | ⟨-, rfl⟩)
        · exact h
        · exact absurd rfl ha
      · exact .inl

/-- What a link moves is outside the indexes. -/
theorem applyLink_indexes (neuron : NeuronId) (s : State F) (link : Cyberlink) :
    (s.applyLink neuron link).axonEdges = (s.linkTopology link).axonEdges ∧
      (s.applyLink neuron link).axonsOut = (s.linkTopology link).axonsOut ∧
      (s.applyLink neuron link).axonsIn = (s.linkTopology link).axonsIn := by
  have hfocus : ∀ (s : State F) (amount : UInt64), (s.spendFocus neuron amount).axonEdges = s.axonEdges ∧
      (s.spendFocus neuron amount).axonsOut = s.axonsOut ∧ (s.spendFocus neuron amount).axonsIn = s.axonsIn := by
    intro s amount
    rw [State.spendFocus]
    cases s.neurons[neuron]? <;> exact ⟨rfl, rfl, rfl⟩
  rw [State.applyLink]
  split_ifs
  · exact ⟨rfl, rfl, rfl⟩
  · exact hfocus _ _

theorem Linked.applyLink {s : State F} (hs : Linked L s) (hinj : Set.InjOn (fun e => axonId F e.1 e.2) L)
    {link : Cyberlink} (hlink : link.ends ∈ L) (neuron : NeuronId) : Linked L (s.applyLink neuron link) := by
  obtain ⟨hedges, hout, hinn⟩ := applyLink_indexes neuron s link
  have htopology := hs.linkTopology hinj hlink
  exact ⟨by rw [hedges]; exact htopology.edge, by rw [hout, hedges]; exact htopology.out,
    by rw [hinn, hedges]; exact htopology.inn⟩

/-- The links of a signal: the indexes stay consistent, and the new axons are those of the links. -/
theorem Linked.foldl_applyLink {s : State F} (hs : Linked L s) (hinj : Set.InjOn (fun e => axonId F e.1 e.2) L)
    {links : List Cyberlink} (hlinks : ∀ link ∈ links, link.ends ∈ L) (neuron : NeuronId) :
    Linked L (links.foldl (State.applyLink neuron) s) ∧
      ∀ a, (links.foldl (State.applyLink neuron) s).axonEdges.contains a ↔
        s.axonEdges.contains a ∨ a ∈ links.map fun link => axonId F link.source link.target := by
  induction links generalizing s with
  | nil => exact ⟨hs, by simp⟩
  | cons link links ih =>
      obtain ⟨hlink, hlinks⟩ := List.forall_mem_cons.mp hlinks
      obtain ⟨hlinked, hedges⟩ := ih (hs.applyLink hinj hlink neuron) hlinks
      refine ⟨hlinked, fun a => ?_⟩
      rw [List.foldl_cons, hedges, List.map_cons, List.mem_cons, (applyLink_indexes neuron s link).1,
        OrdMap.contains_eq_isSome, linkTopology_edges hs hinj hlink, OrdMap.contains_eq_isSome]
      split_ifs with ha
      · simp [ha]
      · simp [Ne.symm ha]

theorem foldl_applyMove_indexes (moves : List BoxMove) (s : State F) :
    (moves.foldl State.applyMove s).axonEdges = s.axonEdges ∧ (moves.foldl State.applyMove s).axonsOut = s.axonsOut ∧
      (moves.foldl State.applyMove s).axonsIn = s.axonsIn := by
  induction moves generalizing s with
  | nil => exact ⟨rfl, rfl, rfl⟩
  | cons mv moves ih =>
      obtain ⟨hedges, hout, hinn⟩ := ih (s.applyMove mv)
      have hmove : (s.applyMove mv).axonEdges = s.axonEdges ∧ (s.applyMove mv).axonsOut = s.axonsOut ∧
          (s.applyMove mv).axonsIn = s.axonsIn := by
        rw [State.applyMove]
        cases mv.commitment <;> exact ⟨rfl, rfl, rfl⟩
      exact ⟨hedges.trans hmove.1, hout.trans hmove.2.1, hinn.trans hmove.2.2⟩

theorem foldl_touch_contains (links : List Cyberlink) (epoch : UInt64) (m : LastTouched) (a : Particle) :
    (links.foldl (fun m link => m.insert (axonId F link.source link.target) epoch) m).contains a ↔
      m.contains a ∨ a ∈ links.map fun link => axonId F link.source link.target := by
  induction links generalizing m with
  | nil => simp
  | cons link links ih =>
      rw [List.foldl_cons, ih, Std.ExtTreeMap.contains_insert, Bool.or_eq_true, beq_iff_eq, Std.compare_eq_iff_eq,
        List.map_cons, List.mem_cons]
      tauto

/-! ### Steps -/

theorem Consistent.accept (h : Consistent L b) (hinj : Set.InjOn (fun e => axonId F e.1 e.2) L) {signal : Signal}
    (hlinks : ∀ link ∈ signal.links, link.ends ∈ L) : Consistent L (b.accept signal) := by
  obtain ⟨hedges, hout, hinn⟩ := foldl_applyMove_indexes signal.boxMoves b.state
  have hmoved : Linked L (signal.boxMoves.foldl State.applyMove b.state) :=
    ⟨by rw [hedges]; exact h.edge, by rw [hout, hedges]; exact h.out, by rw [hinn, hedges]; exact h.inn⟩
  obtain ⟨hlinked, haxons⟩ := hmoved.foldl_applyLink hinj hlinks signal.neuron
  refine ⟨hlinked.edge, hlinked.out, hlinked.inn, fun a => ?_⟩
  rw [Bool.eq_iff_iff]
  refine (foldl_touch_contains signal.links _ b.lastTouched a).trans ?_
  refine Iff.trans ?_ (haxons a).symm
  rw [hedges, h.touched a]

theorem Consistent.removeAxon (h : Consistent L b) (axon : Particle) : Consistent L (b.removeAxon axon) := by
  have htouched : ∀ a, (b.lastTouched.erase axon).contains a = (b.state.axonEdges.erase axon).contains a := by
    intro a
    rw [Std.ExtTreeMap.contains_erase, Std.ExtTreeMap.contains_erase, h.touched a]
  rw [Bbg.removeAxon, State.removeAxon]
  dsimp only
  cases hedge : b.state.axonEdges[axon]? with
  | none =>
      refine ⟨h.edge, h.out, h.inn, fun a => ?_⟩
      have := htouched a
      rwa [OrdMap.erase_of_getElem? hedge] at this
  | some e =>
      obtain ⟨source, target⟩ := e
      have herase : ∀ a, (b.state.axonEdges.erase axon)[a]? = if axon = a then none else b.state.axonEdges[a]? :=
        OrdMap.getElem?_erase _ _
      refine ⟨fun a e he => ?_, fun a f => ?_, fun a t => ?_, htouched⟩
      · change (b.state.axonEdges.erase axon)[a]? = some e at he
        rw [herase] at he
        split_ifs at he
        exact h.edge a e he
      · change a ∈ (b.state.axonsOut.removeAxon source axon).axons f ↔
          ∃ t, (b.state.axonEdges.erase axon)[a]? = some (f, t)
        rw [Adjacency.mem_removeAxon, h.out]
        simp only [herase]
        split_ifs with ha
        · subst ha
          constructor
          · rintro ⟨⟨t, ht⟩, hne⟩
            rw [hedge] at ht
            exact absurd ⟨(congrArg Prod.fst (Option.some_inj.mp ht)).symm, rfl⟩ hne
          · rintro ⟨t, ht⟩
            cases ht
        · exact and_iff_left fun hsame => ha hsame.2.symm
      · change a ∈ (b.state.axonsIn.removeAxon target axon).axons t ↔
          ∃ f, (b.state.axonEdges.erase axon)[a]? = some (f, t)
        rw [Adjacency.mem_removeAxon, h.inn]
        simp only [herase]
        split_ifs with ha
        · subst ha
          constructor
          · rintro ⟨⟨f, hf⟩, hne⟩
            rw [hedge] at hf
            exact absurd ⟨(congrArg Prod.snd (Option.some_inj.mp hf)).symm, rfl⟩ hne
          · rintro ⟨f, hf⟩
            cases hf
        · exact and_iff_left fun hsame => ha hsame.2.symm

theorem keeps_consistent (hinj : Set.InjOn (fun e => axonId F e.1 e.2) L) :
    Keeps (F := F) (fun _ b => Consistent L b) fun signal => ∀ link ∈ signal.links, link.ends ∈ L where
  accept _ _ _ hlinks hI _ := hI.accept hinj hlinks
  removeAxon _ _ axon hI := hI.removeAxon axon
  snapshotTime _ _ hI := ⟨hI.edge, hI.out, hI.inn, hI.touched⟩
  advanceCheckpoint _ _ hI := ⟨hI.edge, hI.out, hI.inn, hI.touched⟩
  pruneConfig _ _ _ hI := ⟨hI.edge, hI.out, hI.inn, hI.touched⟩
  applyIntent _ _ _ hI := ⟨hI.edge, hI.out, hI.inn, hI.touched⟩
  applySignalRecord _ _ _ hI := ⟨hI.edge, hI.out, hI.inn, hI.touched⟩
  credit _ _ _ _ _ _ hI := ⟨hI.edge, hI.out, hI.inn, hI.touched⟩

theorem consistent_new (L : Set (Particle × Particle)) : Consistent L (new : Bbg F) :=
  ⟨by simp [new, State.new], by simp [new, State.new], by simp [new, State.new], by simp [new, State.new]⟩

variable [NebuRoundTrip F]

/-- Every run exists; and when the axon ids do not identify two of its accepted links, the edge map, the two
adjacency indexes and the touched axons describe the same axons after it. -/
theorem run_topology (ops : List Op) :
    ∃ answers b, Refine.run step (new : Bbg F) ops = some (answers, b) ∧
      (Set.InjOn (fun e => axonId F e.1 e.2) (linkEnds answers.flatten) →
        (∀ a f t, b.state.axonEdges[a]? = some (f, t) ↔
          a = axonId F f t ∧ a ∈ b.state.axonsOut.axons f ∧ a ∈ b.state.axonsIn.axons t) ∧
        (∀ a, ((∃ p, a ∈ b.state.axonsOut.axons p) ∨ ∃ p, a ∈ b.state.axonsIn.axons p) →
          (∃! f, a ∈ b.state.axonsOut.axons f) ∧ (∃! t, a ∈ b.state.axonsIn.axons t) ∧
            b.state.axonEdges.contains a) ∧
        ∀ a, b.lastTouched.contains a = b.state.axonEdges.contains a) := by
  obtain ⟨answers, b, hrun⟩ := Refine.exists_run exists_step (new : Bbg F) ops
  refine ⟨answers, b, hrun, fun hinj => ?_⟩
  have h : Consistent (linkEnds answers.flatten) b :=
    (keeps_consistent hinj).run [] (consistent_new _) hrun fun signal hsignal link hlink =>
      ⟨signal, hsignal, link, hlink, rfl⟩
  refine ⟨fun a f t => ⟨fun he => ?_, ?_⟩, fun a hlisted => ?_, h.touched⟩
  · exact ⟨(h.edge a _ he).1, (h.out a f).mpr ⟨t, he⟩, (h.inn a t).mpr ⟨f, he⟩⟩
  · rintro ⟨-, hout, hinn⟩
    obtain ⟨t', ht⟩ := (h.out a f).mp hout
    obtain ⟨f', hf⟩ := (h.inn a t).mp hinn
    obtain ⟨rfl, rfl⟩ := Prod.mk.inj (Option.some_inj.mp (ht.symm.trans hf))
    exact ht
  · have hedge : ∃ f t, b.state.axonEdges[a]? = some (f, t) := by
      rcases hlisted with ⟨f, hf⟩ | ⟨t, ht⟩
      · exact ⟨f, (h.out a f).mp hf⟩
      · obtain ⟨f, hf⟩ := (h.inn a t).mp ht
        exact ⟨f, t, hf⟩
    obtain ⟨f, t, he⟩ := hedge
    refine ⟨⟨f, (h.out a f).mpr ⟨t, he⟩, fun f' hf' => ?_⟩, ⟨t, (h.inn a t).mpr ⟨f, he⟩, fun t' ht' => ?_⟩, ?_⟩
    · obtain ⟨t', ht'⟩ := (h.out a f').mp hf'
      exact congrArg Prod.fst (Option.some_inj.mp (ht'.symm.trans he))
    · obtain ⟨f', hf'⟩ := (h.inn a t').mp ht'
      exact congrArg Prod.snd (Option.some_inj.mp (hf'.symm.trans he))
    · rw [OrdMap.contains_eq_isSome, he]
      rfl

/-- A signal with one link without conviction. -/
def oneLink : Signal :=
  ⟨Vector.replicate 32 1, [⟨Vector.replicate 32 2, Vector.replicate 32 3, Vector.replicate 32 4, 0, 0⟩], [], 0⟩

theorem linkEnds_oneLink : ∀ e ∈ linkEnds [oneLink], e = (Vector.replicate 32 2, Vector.replicate 32 3) := by
  rintro e ⟨signal, hsignal, link, hlink, rfl⟩
  obtain rfl := List.mem_singleton.mp hsignal
  obtain rfl := List.mem_singleton.mp hlink
  rfl

/-- One link without conviction, and one with it. -/
def twoLinks : Signal :=
  ⟨Vector.replicate 32 1, [⟨Vector.replicate 32 2, Vector.replicate 32 3, Vector.replicate 32 4, 0, 0⟩,
    ⟨Vector.replicate 32 2, Vector.replicate 32 5, Vector.replicate 32 4, 9, 1⟩], [], 0⟩

theorem linkEnds_twoLinks : ∀ e ∈ linkEnds [twoLinks], e = (Vector.replicate 32 2, Vector.replicate 32 3) ∨
    e = (Vector.replicate 32 2, Vector.replicate 32 5) := by
  rintro e ⟨signal, hsignal, link, hlink, rfl⟩
  obtain rfl := List.mem_singleton.mp hsignal
  obtain rfl | hlink := List.mem_cons.mp hlink
  · exact .inl rfl
  · obtain rfl := List.mem_singleton.mp hlink
    exact .inr rfl

theorem injOn_twoLinks : Set.InjOn (fun e => axonId Rolling e.1 e.2) (linkEnds [twoLinks]) := by
  have hne : axonId Rolling (Vector.replicate 32 2) (Vector.replicate 32 3) ≠
      axonId Rolling (Vector.replicate 32 2) (Vector.replicate 32 5) := by
    decide +kernel
  intro e he e' he' heq
  obtain rfl | rfl := linkEnds_twoLinks e he <;> obtain rfl | rfl := linkEnds_twoLinks e' he'
  · rfl
  · exact absurd heq hne
  · exact absurd heq.symm hne
  · rfl

/-- Over 300 bytes, the link without a record stays and the other one goes. -/
theorem pruneWith_twoLinks :
    (((new : Bbg Rolling).accept twoLinks).pruneWith ⟨300, 0, 10⟩ 0).state.axonEdges[axonId Rolling
      (Vector.replicate 32 2) (Vector.replicate 32 3)]? = some (Vector.replicate 32 2, Vector.replicate 32 3) ∧
    (((new : Bbg Rolling).accept twoLinks).pruneWith ⟨300, 0, 10⟩ 0).state.axonEdges[axonId Rolling
      (Vector.replicate 32 2) (Vector.replicate 32 5)]? = none := by
  have hunprotected : ((new : Bbg Rolling).accept twoLinks).state.unprotected
      ((new : Bbg Rolling).accept twoLinks).lastTouched ⟨300, 0, 10⟩ 0 =
        [(Vector.replicate 32 5, 0), (axonId Rolling (Vector.replicate 32 2) (Vector.replicate 32 5), 9)] := by
    decide +kernel
  have hsorted : [((Vector.replicate 32 5 : Particle), (0 : UInt64)),
      (axonId Rolling (Vector.replicate 32 2) (Vector.replicate 32 5), 9)].mergeSort (fun a b => decide (a.2 ≤ b.2)) =
        [(Vector.replicate 32 5, 0), (axonId Rolling (Vector.replicate 32 2) (Vector.replicate 32 5), 9)] :=
    List.mergeSort_of_pairwise (by simp)
  have hcandidates : ((new : Bbg Rolling).accept twoLinks).state.candidates
      ((new : Bbg Rolling).accept twoLinks).lastTouched ⟨300, 0, 10⟩ 0 none =
        some (true, [Vector.replicate 32 5, axonId Rolling (Vector.replicate 32 2) (Vector.replicate 32 5)]) := by
    rw [State.candidates, hunprotected, hsorted]
    decide +kernel
  rw [pruneWith, prune]
  dsimp only
  rw [hcandidates]
  decide +kernel

/-- Two links from one particle, and a cycle over the size limit that leaves one of them. -/
theorem run_topology_twoLinks : ∃ b, Refine.run step (new : Bbg Rolling) [.insert twoLinks, .prune ⟨300, 0, 10⟩ 0] =
      some ([[twoLinks], []], b) ∧
    b.state.axonEdges[axonId Rolling (Vector.replicate 32 2) (Vector.replicate 32 3)]? =
      some (Vector.replicate 32 2, Vector.replicate 32 3) ∧
    b.state.axonEdges[axonId Rolling (Vector.replicate 32 2) (Vector.replicate 32 5)]? = none ∧
    (∀ a f t, b.state.axonEdges[a]? = some (f, t) ↔
      a = axonId Rolling f t ∧ a ∈ b.state.axonsOut.axons f ∧ a ∈ b.state.axonsIn.axons t) ∧
    (∀ a, ((∃ p, a ∈ b.state.axonsOut.axons p) ∨ ∃ p, a ∈ b.state.axonsIn.axons p) →
      (∃! f, a ∈ b.state.axonsOut.axons f) ∧ (∃! t, a ∈ b.state.axonsIn.axons t) ∧ b.state.axonEdges.contains a) ∧
    ∀ a, b.lastTouched.contains a = b.state.axonEdges.contains a := by
  obtain ⟨answers, b, hrun, htopology⟩ := run_topology (F := Rolling) [.insert twoLinks, .prune ⟨300, 0, 10⟩ 0]
  have hspent : (new : Bbg Rolling).state.spent twoLinks = false := rfl
  have hstep := hrun
  rw [Refine.run, step_insert, hspent] at hstep
  obtain ⟨hanswers, hb⟩ := Prod.mk.inj (Option.some_inj.mp hstep)
  obtain rfl : answers = [[twoLinks], []] := hanswers.symm
  replace hb : b = ((new : Bbg Rolling).accept twoLinks).pruneWith ⟨300, 0, 10⟩ 0 := hb.symm
  refine ⟨b, hrun, ?_, ?_, htopology injOn_twoLinks⟩
  · rw [hb]
    exact pruneWith_twoLinks.1
  · rw [hb]
    exact pruneWith_twoLinks.2

end Bbg

end LeanBbg
