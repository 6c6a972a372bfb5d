import LeanBbg.QueryProofs

/-! Looks of the machine at single cells. The fast provider reads the plain table, the recording provider
opens the cell and keeps the opening, and `collect_look_openings` opens the cells that a finished trace looked
at. The three agree: a recorded opening is the state's own proof of the cell that the fast provider reads. -/

set_option linter.unusedSectionVars false

namespace LeanBbg

open Bytes

section Looks

variable {F : Type} [Hemera F] [DecidableEq F] [Brakedown F] [BrakedownOpening F] [Lens]

/-- The registers of a row of the machine's trace; the replay reads the first, the sixth and the seventh. -/
abbrev TraceRow (extra : Nat) := Vector UInt64 (7 + extra)

/-- The tag of a look row. -/
def LOOK_TAG : UInt64 := 17

/-- `b"bbg-dim-open"`. -/
def DIM_OPEN : List UInt8 := [0x62, 0x62, 0x67, 0x2d, 0x64, 0x69, 0x6d, 0x2d, 0x6f, 0x70, 0x65, 0x6e]

/-- What the machine asks a provider; neither provider reads the commitment. -/
structure Look (F : Type) where
  commitment : F
  ns : F
  key : F

/-- An opening of one cell that a look records. -/
structure LookOpening (F : Type) [Hemera F] [Brakedown F] [BrakedownOpening F] where
  commitment : Bytes32
  point : List F
  value : F
  opening : BrakedownOpening.Opening F
  transcriptSeed : List UInt8
  leaves : RootLeaves F
  ns : F

/-- The value of a cell, no proof. -/
def cellValue (s : State F) (d : Dim) (index : Nat) : Option F := (dimSerialize (s.dimEntries d))[index]?

def queryValue (proof : QueryProof F) : F :=
  if proof.valueBytes.length < 8 then zero else new (u64FromLe (proof.valueBytes.take 8))

/-- The record of an opened cell. -/
def lookOpening (leaves : RootLeaves F) (ns : F) (proof : QueryProof F) : LookOpening F where
  commitment := proof.commitment
  point := proof.point
  value := queryValue proof
  opening := proof.opening
  transcriptSeed := DIM_OPEN
  leaves := leaves
  ns := ns

structure BbgLookProvider (F : Type) [Hemera F] [DecidableEq F] where
  state : State F

def BbgLookProvider.look (p : BbgLookProvider F) (_commitment ns key : F) : Option F :=
  if Nebu.asU64 ns > 9 then none
  else do
    let d ← Dim.fromU64 (Nebu.asU64 ns)
    cellValue p.state d (Nebu.asU64 key).toNat

structure ProofLookProvider (F : Type) [Hemera F] [DecidableEq F] [Brakedown F] [BrakedownOpening F] where
  state : State F
  leaves : RootLeaves F
  openings : List (LookOpening F)

namespace ProofLookProvider

def new (s : State F) : ProofLookProvider F := ⟨s, s.rootLeaves, []⟩

/-- Drain the openings recorded so far, in order. -/
def takeLookOpenings (p : ProofLookProvider F) : List (LookOpening F) × ProofLookProvider F :=
  (p.openings, { p with openings := [] })

def look (p : ProofLookProvider F) (_commitment ns key : F) : Option F × ProofLookProvider F :=
  if Nebu.asU64 ns > 9 then (none, p)
  else
    match Dim.fromU64 (Nebu.asU64 ns) with
    | none => (none, p)
    | some d =>
        match openCell p.state d (Nebu.asU64 key).toNat with
        | none => (none, p)
        | some proof => (some (queryValue proof), { p with openings := p.openings ++ [lookOpening p.leaves ns proof] })

/-- The machine looks one cell after another. -/
def run (p : ProofLookProvider F) : List (Look F) → List (Option F) × ProofLookProvider F
  | [] => ([], p)
  | l :: rest =>
      let (value, p) := p.look l.commitment l.ns l.key
      let (values, p) := p.run rest
      (value :: values, p)

end ProofLookProvider

/-- The loop of `collect_look_openings`, with the openings so far. -/
def collectRows (s : State F) (leaves : RootLeaves F) {extra : Nat} :
    List (LookOpening F) → List (TraceRow extra) → List (LookOpening F)
  | result, [] => result
  | result, row :: rest =>
      if row[0] ≠ LOOK_TAG then collectRows s leaves result rest
      else
        let ns : F := new row[5]
        let key : F := new row[6]
        if Nebu.asU64 ns > 9 then collectRows s leaves result rest
        else
          match Dim.fromU64 (Nebu.asU64 ns) with
          | none => collectRows s leaves result rest
          | some d =>
              match openCell s d (Nebu.asU64 key).toNat with
              | none => collectRows s leaves result rest
              | some proof => collectRows s leaves (result ++ [lookOpening leaves ns proof]) rest

/-- Open the cells of every look row of a trace, without executing it again. -/
def collectLookOpenings (s : State F) {extra : Nat} (trace : List (TraceRow extra)) : List (LookOpening F) :=
  collectRows s s.rootLeaves [] trace

/-- Authenticate a cell that a caller selects. -/
def verifyQueryAt (proof : QueryProof F) (root : Bytes32) (ns index : UInt64) : Bool :=
  (proof.context.any fun context => context.ns = ns ∧ context.index = index) &&
    (authenticated proof (some root)).isSome

/-- Compare an opening with the complete query of its cell. -/
def verifyOpeningWithContext [DecidableEq (BrakedownOpening.Opening F)] (lo : LookOpening F) (proof : QueryProof F)
    (root : Bytes32) (index : UInt64) : Bool :=
  if verifyQueryAt proof root (Nebu.asU64 lo.ns) index = false then false
  else
    proof.context.any fun context =>
      decide (lo.leaves.words = context.certificate.leaves ∧ lo.commitment = proof.commitment ∧
        lo.point = proof.point ∧ u64LeBytes (Nebu.asU64 lo.value) = proof.valueBytes ∧ lo.opening = proof.opening ∧
        lo.transcriptSeed = DIM_OPEN)

/-! ### The cell behind a look -/

/-- The proof that a look at a public namespace opens. -/
def openLook (s : State F) (ns key : F) : Option (QueryProof F) :=
  if Nebu.asU64 ns > 9 then none
  else do
    let d ← Dim.fromU64 (Nebu.asU64 ns)
    openCell s d (Nebu.asU64 key).toNat

theorem ProofLookProvider.look_eq (p : ProofLookProvider F) (commitment ns key : F) :
    p.look commitment ns key =
      match openLook p.state ns key with
      | none => (none, p)
      | some proof => (some (queryValue proof), { p with openings := p.openings ++ [lookOpening p.leaves ns proof] }) := by
  rw [look, openLook]
  split_ifs with hns
  · rfl
  · cases Dim.fromU64 (Nebu.asU64 ns) with
    | none => rfl
    | some d => rfl

theorem Dim.toU64_of_fromU64 {v : UInt64} {d : Dim} (h : fromU64 v = some d) : d.toU64 = v := by
  apply UInt64.toNat_inj.mp
  rw [fromU64] at h
  split at h
  all_goals cases h
  all_goals exact (‹v.toNat = _›).symm

/-- An opened cell is the state's own proof of the cell that the fast provider reads. -/
theorem honest_of_openCell {s : State F} {d : Dim} {index : Nat} {proof : QueryProof F} (hd : d.Disclosed)
    (h : openCell s d index = some proof) :
    (dimSerialize (s.dimEntries d)).length ≤ MAX_QUERY_FIELDS ∧
      (StateCertificate.honest s [d.toU64]).root F = .ok (rootLimbs s.root) ∧
      ∃ cell, cellValue s d index = some cell ∧ proof = QueryProof.honest s d index cell := by
  rw [openCell, ← dimSerialize_length] at h
  obtain ⟨hcount, h⟩ := Option.ite_none_left_eq_some.mp h
  obtain ⟨opened, hopened, h⟩ := Option.bind_eq_some_iff.mp h
  rw [if_pos hd] at h
  obtain ⟨context, hcontext, h⟩ := Option.bind_eq_some_iff.mp h
  obtain rfl := Option.some.inj h
  have hmax : (dimSerialize (s.dimEntries d)).length ≤ MAX_QUERY_FIELDS :=
    Nat.not_lt.mp fun hlt => hcount ⟨hd, hlt⟩
  obtain ⟨cell, hcell, -⟩ := Option.bind_eq_some_iff.mp hopened
  rw [openCellFromEntries_eq hcell] at hopened
  obtain rfl := Option.some.inj hopened
  obtain ⟨rfl, hcertifies⟩ := certified_of_context hmax hcontext
  exact ⟨hmax, hcertifies, cell, hcell, rfl⟩

theorem queryValue_honest (hr : NebuReduced F) {s : State F} {d : Dim} {index : Nat} {cell : F} (hword : IsWord cell) :
    queryValue (QueryProof.honest s d index cell) = cell := by
  have hlength : (u64LeBytes (Nebu.asU64 cell)).length = 8 := u64LeBytes_length _
  change (if (u64LeBytes (Nebu.asU64 cell)).length < 8 then zero
    else new (u64FromLe ((u64LeBytes (Nebu.asU64 cell)).take 8))) = cell
  rw [if_neg hlength.not_lt, List.take_of_length_le hlength.le, Storage.u64FromLe_u64LeBytes]
  exact hword.new_asU64 hr

/-- What a look opens: the state's own proof of the cell that the fast provider reads. -/
theorem openLook_some (hr : NebuReduced F) {s : State F} {ns key : F} {proof : QueryProof F}
    (h : openLook s ns key = some proof) (commitment : F) :
    ∃ d cell, Dim.fromU64 (Nebu.asU64 ns) = some d ∧ openCell s d (Nebu.asU64 key).toNat = some proof ∧
      BbgLookProvider.look ⟨s⟩ commitment ns key = some cell ∧ queryValue proof = cell := by
  rw [openLook] at h
  obtain ⟨hns, h⟩ := Option.ite_none_left_eq_some.mp h
  obtain ⟨d, hd, h⟩ := Option.bind_eq_some_iff.mp h
  have hdisclosed : d.Disclosed := by
    rw [Dim.Disclosed, Dim.toU64_of_fromU64 hd]
    exact UInt64.not_lt.mp hns
  obtain ⟨hmax, -, cell, hcell, rfl⟩ := honest_of_openCell hdisclosed h
  refine ⟨d, cell, hd, h, ?_, queryValue_honest hr (isWord_cell hmax hcell)⟩
  rw [BbgLookProvider.look, if_neg hns, hd]
  exact hcell

/-- Under the V1 root every cell of a table within the query limit is opened. -/
theorem openLook_of_look (hr : NebuReduced F) {s : State F} (hv : s.rootVersion = .v1) {commitment ns key cell : F}
    (hmax : ∀ d, Dim.fromU64 (Nebu.asU64 ns) = some d → s.fieldCount d.toU64 ≤ MAX_QUERY_FIELDS)
    (h : BbgLookProvider.look ⟨s⟩ commitment ns key = some cell) : ∃ proof, openLook s ns key = some proof := by
  rw [BbgLookProvider.look] at h
  obtain ⟨hns, h⟩ := Option.ite_none_left_eq_some.mp h
  obtain ⟨d, hd, hcell⟩ := Option.bind_eq_some_iff.mp h
  have hdisclosed : d.Disclosed := by
    rw [Dim.Disclosed, Dim.toU64_of_fromU64 hd]
    exact UInt64.not_lt.mp hns
  have hcount := hmax d hd
  rw [s.fieldCount_toU64] at hcount
  refine ⟨QueryProof.honest s d (Nebu.asU64 key).toNat cell, ?_⟩
  rw [openLook, if_neg hns, hd]
  exact openCell_disclosed hr hv hdisclosed hcount hcell

/-! ### The openings of a run and of a trace -/

/-- What a look at a state records. -/
def recorded (s : State F) (ns key : F) : Option (LookOpening F) :=
  (openLook s ns key).map (lookOpening s.rootLeaves ns)

theorem ProofLookProvider.run_eq {p : ProofLookProvider F} (hleaves : p.leaves = p.state.rootLeaves)
    (looks : List (Look F)) :
    p.run looks = (looks.map fun l => (openLook p.state l.ns l.key).map queryValue,
      { p with openings := p.openings ++ looks.filterMap fun l => recorded p.state l.ns l.key }) := by
  induction looks generalizing p with
  | nil => rw [run, List.map_nil, List.filterMap_nil, List.append_nil]
  | cons l rest ih =>
      rw [run, look_eq, List.map_cons, List.filterMap_cons, recorded]
      cases openLook p.state l.ns l.key with
      | none =>
          simp only [ih hleaves]
          rfl
      | some proof =>
          simp only [ih (p := { p with openings := p.openings ++ [lookOpening p.leaves l.ns proof] }) hleaves]
          rw [List.append_assoc, hleaves]
          rfl

theorem collectRows_look {s : State F} {leaves : RootLeaves F} {extra : Nat} {row : TraceRow extra}
    (htag : row[0] = LOOK_TAG) (result : List (LookOpening F)) (rest : List (TraceRow extra)) :
    collectRows s leaves result (row :: rest) =
      match openLook s (new row[5]) (new row[6]) with
      | none => collectRows s leaves result rest
      | some proof => collectRows s leaves (result ++ [lookOpening leaves (new row[5]) proof]) rest := by
  rw [collectRows, if_neg (not_not.mpr htag), openLook]
  dsimp only
  split_ifs with hns
  · rfl
  · cases Dim.fromU64 (Nebu.asU64 (new row[5] : F)) with
    | none => rfl
    | some d => rfl

theorem collectRows_eq (s : State F) {extra : Nat} (result : List (LookOpening F)) (rows : List (TraceRow extra)) :
    collectRows s s.rootLeaves result rows =
      result ++ (rows.filter fun row => row[0] = LOOK_TAG).filterMap fun row =>
        recorded s (new row[5]) (new row[6]) := by
  induction rows generalizing result with
  | nil => exact (List.append_nil result).symm
  | cons row rest ih =>
      by_cases htag : row[0] = LOOK_TAG
      · rw [collectRows_look htag, List.filter_cons, if_pos (decide_eq_true htag), List.filterMap_cons, recorded]
        cases openLook s (new row[5] : F) (new row[6]) with
        | none => exact ih result
        | some proof =>
            simp only [ih, Option.map_some, List.append_assoc, List.singleton_append]
      · rw [collectRows, if_pos htag, List.filter_cons, if_neg (by simpa using htag)]
        exact ih result

/-- The row of the trace is that of a look. -/
def LookRow {extra : Nat} (row : TraceRow extra) (l : Look F) : Prop := new row[5] = l.ns ∧ new row[6] = l.key

/-- The openings recorded along a list of looks. -/
theorem takeLookOpenings_run (s : State F) (looks : List (Look F)) :
    ((ProofLookProvider.new s).run looks).2.takeLookOpenings.1 = looks.filterMap fun l => recorded s l.ns l.key := by
  rw [ProofLookProvider.run_eq rfl]
  exact List.nil_append _

/-- A trace whose look rows are those of the looks gives the openings of the looks. -/
theorem collect_eq_recorded (s : State F) {extra : Nat} {trace : List (TraceRow extra)} {looks : List (Look F)}
    (h : List.Forall₂ LookRow (trace.filter fun row => row[0] = LOOK_TAG) looks) :
    collectLookOpenings s trace = looks.filterMap fun l => recorded s l.ns l.key := by
  rw [collectLookOpenings, collectRows_eq, List.nil_append]
  generalize trace.filter (fun row => row[0] = LOOK_TAG) = rows at h
  induction h with
  | nil => rfl
  | cons hrow _ ih => rw [List.filterMap_cons, List.filterMap_cons, hrow.1, hrow.2, ih]

/-- The opening that an answered look records: it has the answer, and it verifies against the proof that
`open_cell` gives of the same cell. -/
structure RecordsLook [DecidableEq (BrakedownOpening.Opening F)] (s : State F) (answered : Look F × Option F)
    (lo : LookOpening F) : Prop where
  value : answered.2 = some lo.value
  verifies : ∃ d proof, Dim.fromU64 (Nebu.asU64 answered.1.ns) = some d ∧
    openCell s d (Nebu.asU64 answered.1.key).toNat = some proof ∧
    verifyOpeningWithContext lo proof s.root (Nebu.asU64 answered.1.key) = true

theorem verifies_recorded [DecidableEq (BrakedownOpening.Opening F)] (hr : NebuReduced F) (ho : OpensHonestly F)
    {s : State F} {ns key : F} {proof : QueryProof F} (h : openLook s ns key = some proof) :
    verifyOpeningWithContext (lookOpening s.rootLeaves ns proof) proof s.root (Nebu.asU64 key) = true := by
  rw [openLook] at h
  obtain ⟨hns, h⟩ := Option.ite_none_left_eq_some.mp h
  obtain ⟨d, hd, h⟩ := Option.bind_eq_some_iff.mp h
  have hspace := Dim.toU64_of_fromU64 hd
  have hdisclosed : d.Disclosed := by
    rw [Dim.Disclosed, hspace]
    exact UInt64.not_lt.mp hns
  obtain ⟨hmax, hcertifies, cell, hcell, rfl⟩ := honest_of_openCell hdisclosed h
  have hauthentic := (authentic_of_certified hr ho hcertifies hmax hcell).authenticated
  have hword := isWord_cell hmax hcell
  have hquery : verifyQueryAt (QueryProof.honest s d (Nebu.asU64 key).toNat cell) s.root (Nebu.asU64 ns)
      (Nebu.asU64 key) = true := by
    rw [verifyQueryAt, hauthentic]
    simp [QueryProof.honest, QueryContext.honest, hspace]
  rw [verifyOpeningWithContext, lookOpening, queryValue_honest hr hword, if_neg (by simpa using hquery)]
  exact decide_eq_true ⟨rfl, rfl, rfl, rfl, rfl, rfl⟩

theorem records_looks [DecidableEq (BrakedownOpening.Opening F)] (hr : NebuReduced F) (ho : OpensHonestly F)
    (s : State F) (looks : List (Look F)) :
    List.Forall₂ (RecordsLook s)
      ((looks.zip (looks.map fun l => (openLook s l.ns l.key).map queryValue)).filter fun answered => answered.2.isSome)
      (looks.filterMap fun l => recorded s l.ns l.key) := by
  induction looks with
  | nil => exact .nil
  | cons l rest ih =>
      rw [List.map_cons, List.zip_cons_cons, List.filter_cons, List.filterMap_cons, recorded]
      cases hopen : openLook s l.ns l.key with
      | none => exact ih
      | some proof =>
          obtain ⟨d, cell, hd, hcell, -, -⟩ := openLook_some hr hopen l.commitment
          exact .cons ⟨rfl, d, proof, hd, hcell, verifies_recorded hr ho hopen⟩ ih

/-- The providers agree. A value from the recording provider is the one the fast provider reads, and under the
V1 root, for tables within the query limit, so is an absent one. The answered looks of a run have their openings
in order, each verifies against the proof of its cell under the root of the state, and the replay of a trace with
these look rows gives the same openings. -/
theorem looks_agree [DecidableEq (BrakedownOpening.Opening F)] (hr : NebuReduced F) (ho : OpensHonestly F) :
    (∀ (p : ProofLookProvider F) (commitment ns key v : F), (p.look commitment ns key).1 = some v →
      BbgLookProvider.look ⟨p.state⟩ commitment ns key = some v) ∧
    (∀ (p : ProofLookProvider F) (commitment ns key : F), p.state.rootVersion = .v1 →
      (∀ d, Dim.fromU64 (Nebu.asU64 ns) = some d → p.state.fieldCount d.toU64 ≤ MAX_QUERY_FIELDS) →
      (p.look commitment ns key).1 = BbgLookProvider.look ⟨p.state⟩ commitment ns key) ∧
    ∀ (s : State F) (looks : List (Look F)),
      List.Forall₂ (RecordsLook s)
        ((looks.zip ((ProofLookProvider.new s).run looks).1).filter fun answered => answered.2.isSome)
        ((ProofLookProvider.new s).run looks).2.takeLookOpenings.1 ∧
      ∀ (extra : Nat) (trace : List (TraceRow extra)),
        List.Forall₂ LookRow (trace.filter fun row => row[0] = LOOK_TAG) looks →
        collectLookOpenings s trace = ((ProofLookProvider.new s).run looks).2.takeLookOpenings.1 := by
  have hagree : ∀ (p : ProofLookProvider F) (commitment ns key v : F), (p.look commitment ns key).1 = some v →
      BbgLookProvider.look ⟨p.state⟩ commitment ns key = some v := by
    intro p commitment ns key v h
    rw [p.look_eq] at h
    cases hopen : openLook p.state ns key with
    | none =>
        rw [hopen] at h
        cases h
    | some proof =>
        rw [hopen] at h
        obtain ⟨d, cell, -, -, hlook, hvalue⟩ := openLook_some hr hopen commitment
        rw [hlook, ← hvalue]
        exact h
  refine ⟨hagree, fun p commitment ns key hv hmax => ?_, fun s looks => ?_⟩
  · cases hlook : BbgLookProvider.look ⟨p.state⟩ commitment ns key with
    | none =>
        by_contra hne
        obtain ⟨v, hvalue⟩ := Option.ne_none_iff_exists'.mp hne
        rw [hagree p commitment ns key v hvalue] at hlook
        cases hlook
    | some cell =>
        obtain ⟨proof, hopen⟩ := openLook_of_look hr hv hmax hlook
        obtain ⟨d, cell', -, -, hlook', hvalue⟩ := openLook_some hr hopen commitment
        rw [p.look_eq, hopen, ← hlook, hlook', ← hvalue]
  · have hrun := ProofLookProvider.run_eq (p := ProofLookProvider.new s) rfl looks
    refine ⟨?_, fun extra trace htrace => ?_⟩
    · rw [takeLookOpenings_run, hrun]
      exact records_looks hr ho s looks
    · rw [takeLookOpenings_run]
      exact collect_eq_recorded s htrace

end Looks

namespace Committed

instance : DecidableEq (BrakedownOpening.Opening Committed) := inferInstanceAs (DecidableEq (List Committed))

/-- The eleventh cell of the particles and a cell past the table. -/
def twoLooks : List (Look Committed) := [⟨zero, new 0, new 11⟩, ⟨zero, new 0, new 99⟩]

/-- A trace with the two look rows, around a row of another tag. -/
def twoLooksTrace : List (TraceRow 0) := [#v[17, 0, 0, 0, 0, 0, 11], #v[3, 0, 0, 0, 0, 0, 11], #v[17, 0, 0, 0, 0, 0, 99]]

theorem oneParticle_look : BbgLookProvider.look ⟨oneParticle⟩ zero (new 0) (new 11) = some (new 77) := by
  decide +kernel

/-- Both providers read the energy of the one particle, and the replay gives the openings of the run. -/
theorem looks_agree_oneParticle :
    ((ProofLookProvider.new oneParticle).look zero (new 0) (new 11)).1 = some (new 77) ∧
    collectLookOpenings oneParticle twoLooksTrace =
      ((ProofLookProvider.new oneParticle).run twoLooks).2.takeLookOpenings.1 := by
  have hcount : oneParticle.fieldCount 0 ≤ MAX_QUERY_FIELDS := by
    have hcounts := oneParticle_fieldCount
    simp only [List.map_cons, List.map_nil, List.cons.injEq, and_true] at hcounts
    rw [hcounts.2]
    decide
  obtain ⟨-, hsame, hruns⟩ := looks_agree (F := Committed) reduced opensHonestly
  refine ⟨(hsame (ProofLookProvider.new oneParticle) zero (new 0) (new 11) rfl fun d hd => ?_).trans oneParticle_look,
    (hruns oneParticle twoLooks).2 0 twoLooksTrace ?_⟩
  · rw [Dim.toU64_of_fromU64 hd]
    exact hcount
  · exact .cons ⟨rfl, rfl⟩ (.cons ⟨rfl, rfl⟩ .nil)

end Committed

end LeanBbg
