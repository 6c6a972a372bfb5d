import LeanBbg.PrimaryCells

/-! Query proofs. A proof that verifies against the root of a state shows the primary cell of the state's own
record, since the certificate binds the table; and the proofs that the state gives for its entities verify. -/

set_option linter.unusedSectionVars false

namespace LeanBbg

open Bytes

section Queries

variable {F : Type} [Hemera F] [DecidableEq F] [Brakedown F] [BrakedownOpening F] [Lens]

/-- What a proof that passes `authenticated` under a trusted root satisfies. -/
structure Authentic (proof : QueryProof F) (root : Bytes32) (context : QueryContext) (table : DimensionTable)
    (value : UInt64) : Prop where
  carries : proof.context = some context
  version : context.version = QUERY_VERSION
  range : context.ns ≤ 10
  dimensions : context.certificate.dimensions = [table]
  ns : table.ns = context.ns
  size : table.fields.length ≤ MAX_QUERY_FIELDS
  canonical : ∀ v ∈ (rootLimbs root).toList, ¬Noncanonical v
  certifies : context.certificate.root F = .ok (rootLimbs root)
  cell : table.fields[context.index.toNat]? = some value
  valueBytes : proof.valueBytes = u64LeBytes value
  point : AtCorner proof.point table.fields.length context.index.toNat
  commitment : proof.commitment.toList =
    (context.certificate.leaves.toList.getD context.ns.toNat (Vector.replicate 4 0)).toList.flatMap u64LeBytes
  verifies : BrakedownOpening.verify proof.commitment proof.point (new value) proof.opening = true

theorem rootFields_eq_some {root : Bytes32} {actual : Vector UInt64 4} (h : rootFields root = some actual) :
    (∀ v ∈ (rootLimbs root).toList, ¬Noncanonical v) ∧ actual = rootLimbs root := by
  rw [rootFields] at h
  split_ifs at h with hcanonical
  exact ⟨hcanonical, (Option.some.inj h).symm⟩

theorem authentic_of_authenticated {proof : QueryProof F} {root : Bytes32}
    (h : authenticated proof (some root) = some ()) : ∃ context table value, Authentic proof root context table value := by
  rw [authenticated] at h
  obtain ⟨context, hcontext, h⟩ := Option.bind_eq_some_iff.mp h
  obtain ⟨hshape, h⟩ := Option.ite_none_left_eq_some.mp h
  obtain ⟨table, htable, h⟩ := Option.bind_eq_some_iff.mp h
  obtain ⟨hsize, h⟩ := Option.ite_none_left_eq_some.mp h
  obtain ⟨actual, hactual, h⟩ := Option.bind_eq_some_iff.mp h
  obtain ⟨hroot, h⟩ := Option.ite_none_left_eq_some.mp h
  obtain ⟨value, hvalue, h⟩ := Option.bind_eq_some_iff.mp h
  obtain ⟨hbytes, h⟩ := Option.ite_none_left_eq_some.mp h
  obtain ⟨hpoint, h⟩ := Option.ite_none_left_eq_some.mp h
  obtain ⟨hcommitment, h⟩ := Option.ite_none_left_eq_some.mp h
  obtain ⟨hverify, -⟩ := Option.ite_none_right_eq_some.mp h
  simp only [not_or, not_not] at hshape hsize
  obtain ⟨hversion, hrange, hone⟩ := hshape
  obtain ⟨first, hdimensions⟩ := List.length_eq_one_iff.mp hone
  rw [hdimensions, List.head?_cons] at htable
  obtain rfl := Option.some.inj htable
  rw [Option.any_some, decide_eq_true_eq, not_not] at hroot
  obtain ⟨hcanonical, rfl⟩ := rootFields_eq_some hroot
  have hcertifies : context.certificate.root F = .ok (rootLimbs root) := by
    cases hcertificate : context.certificate.root F with
    | error e =>
        rw [hcertificate] at hactual
        cases hactual
    | ok actual =>
        rw [hcertificate] at hactual
        rw [Option.some.inj hactual]
  exact ⟨context, first, value, {
    carries := hcontext
    version := hversion
    range := UInt64.not_lt.mp hrange
    dimensions := hdimensions
    ns := hsize.1
    size := Nat.not_lt.mp hsize.2
    canonical := hcanonical
    certifies := hcertifies
    cell := hvalue
    valueBytes := not_not.mp hbytes
    point := not_not.mp hpoint
    commitment := not_not.mp hcommitment
    verifies := hverify }⟩

theorem Authentic.authenticated {proof : QueryProof F} {root : Bytes32} {context : QueryContext}
    {table : DimensionTable} {value : UInt64} (h : Authentic proof root context table value) :
    authenticated proof (some root) = some () := by
  have hshape : ¬(context.version ≠ QUERY_VERSION ∨ context.ns > 10 ∨ context.certificate.dimensions.length ≠ 1) := by
    rw [h.dimensions]
    simp only [not_or, not_not]
    exact ⟨h.version, UInt64.not_lt.mpr h.range, rfl⟩
  have hsize : ¬(table.ns ≠ context.ns ∨ table.fields.length > MAX_QUERY_FIELDS) := by
    simp only [not_or, not_not]
    exact ⟨h.ns, Nat.not_lt.mpr h.size⟩
  have hroot : ¬(some root).any (fun trusted => rootFields trusted ≠ some (rootLimbs root)) = true := by
    rw [Option.any_some, decide_eq_true_eq, not_not]
    exact if_pos h.canonical
  have hactual : (context.certificate.root F).toOption = some (rootLimbs root) := by
    rw [h.certifies]
    rfl
  rw [LeanBbg.authenticated, h.carries, Option.bind_eq_bind, Option.bind_some, if_neg hshape, h.dimensions,
    List.head?_cons, Option.bind_eq_bind, Option.bind_some, if_neg hsize, hactual, Option.bind_eq_bind,
    Option.bind_some, if_neg hroot, h.cell, Option.bind_eq_bind, Option.bind_some,
    if_neg (not_not.mpr h.valueBytes), if_neg (not_not.mpr h.point), if_neg (not_not.mpr h.commitment),
    if_pos h.verifies]

/-! ### Soundness -/

theorem State.entries_toU64 (s : State F) (d : Dim) : s.entries d.toU64 = s.dimEntries d := by
  rw [entries, Dim.fromU64_toU64]
  rfl

/-- Every record has a primary cell. -/
theorem State.primaryColumn_lt (s : State F) {d : Dim} : ∀ e ∈ s.dimEntries d, d.primaryColumn < e.2.length := by
  have hkeyed : ∀ {K V : Type} [Ord K] [TrieKey K] [LawfulTrieKey K] [LeafValue F V] (map : OrdMap K V) (width : Nat),
      (∀ v : V, (leafVals v : List F).length = width) → ∀ column < width,
        ∀ e ∈ (keyedEntries map : List (Bytes32 × List F)), column < e.2.length := by
    intro K V _ _ _ _ map width hwidth column hlt e he
    obtain ⟨k, v, -, rfl⟩ := mem_keyedEntries.mp he
    rwa [hwidth]
  have hadjacent : ∀ A : Adjacency, ∀ e ∈ (adjacencyEntries A : List (Bytes32 × List F)), 0 < e.2.length := by
    intro A e he
    obtain ⟨particle, l, -, rfl⟩ := mem_adjacencyEntries.mp he
    exact Nat.zero_lt_succ _
  cases d with
  | particles => exact hkeyed s.particles 12 (fun _ => rfl) 0 (by decide)
  | axonsOut => exact hadjacent s.axonsOut
  | axonsIn => exact hadjacent s.axonsIn
  | neurons => exact hkeyed s.neurons 8 (fun _ => rfl) 0 (by decide)
  | locations => exact hkeyed s.locations 4 (fun _ => rfl) 0 (by decide)
  | coins => exact hkeyed s.coins 2 (fun _ => rfl) 0 (by decide)
  | cards => exact hkeyed s.cards 28 (fun _ => rfl) 0 (by decide)
  | files => exact hkeyed s.files 4 (fun _ => rfl) 0 (by decide)
  | time => exact hkeyed s.time 8 (fun _ => rfl) 0 (by decide)
  | signals => exact hkeyed s.signals 30 (fun _ => rfl) 16 (by decide)
  | balances => exact hkeyed s.balances 2 (fun _ => rfl) 0 (by decide)

variable {s : State F} {proof : QueryProof F} {context : QueryContext} {table : DimensionTable} {value : UInt64}

/-- The table of an authentic proof is the state's table. -/
theorem Authentic.fields_eq (hs : Symbolic F) (hr : NebuReduced F) (hv : s.rootVersion = .v1)
    (h : Authentic proof s.root context table value) (hb : context.certificate.Binds s) :
    table.fields = (dimSerialize (s.entries context.ns)).map Nebu.asU64 := by
  have hverify : context.certificate.verify F (rootLimbs s.root) = .ok () := by
    have hcanonical : ¬∃ v ∈ (rootLimbs s.root).toList, Noncanonical v := by
      rintro ⟨v, hmem, hnon⟩
      exact h.canonical v hmem hnon
    rw [StateCertificate.verify, if_neg hcanonical, h.certifies]
    exact if_neg (not_not.mpr rfl)
  have hmem : table ∈ context.certificate.dimensions := by
    rw [h.dimensions]
    exact List.mem_singleton_self table
  rw [← h.ns]
  exact (StateCertificate.fields_of_verify hs hr hv hb hverify table hmem).2

theorem authentic_of_verifyEntity {root : Bytes32} {d : Dim} {key : Bytes32}
    (h : verifyEntity proof root d key = true) : ∃ context table value index, Authentic proof root context table value ∧
      context.ns = d.toU64 ∧ primaryIndex table.fields d key = some index ∧ UInt64.ofNat index = context.index := by
  rw [verifyEntity] at h
  cases hauth : authenticated proof (some root) with
  | none =>
      rw [hauth] at h
      cases h
  | some u =>
      obtain ⟨context, table, value, hauthentic⟩ := authentic_of_authenticated hauth
      rw [hauth, Option.isNone_some, if_neg Bool.false_ne_true, hauthentic.carries, Option.any_some] at h
      split_ifs at h with hns
      rw [hauthentic.dimensions, List.head?_cons, Option.any_some] at h
      obtain ⟨index, hindex, heq⟩ := (Option.any_eq_true _ _).mp h
      exact ⟨context, table, value, index, hauthentic, not_not.mp hns, hindex, of_decide_eq_true heq⟩

theorem Authentic.verifyEntity {root : Bytes32} {d : Dim} {key : Bytes32} {index : Nat}
    (h : Authentic proof root context table value) (hns : context.ns = d.toU64)
    (hindex : primaryIndex table.fields d key = some index) (heq : UInt64.ofNat index = context.index) :
    verifyEntity proof root d key = true := by
  rw [LeanBbg.verifyEntity, h.authenticated, Option.isNone_some, if_neg Bool.false_ne_true, h.carries, Option.any_some,
    if_neg (not_not.mpr hns), h.dimensions, List.head?_cons, Option.any_some, hindex, Option.any_some, heq]
  exact decide_eq_true rfl

/-- A proof that verifies for a key opens the primary cell of the key's row. -/
theorem row_of_verifyEntity (hs : Symbolic F) (hr : NebuReduced F) (hv : s.rootVersion = .v1) {d : Dim} {key : Bytes32}
    (hb : ∀ context, proof.context = some context → context.certificate.Binds s)
    (h : verifyEntity proof s.root d key = true) :
    ∃ context table value values start, Authentic proof s.root context table value ∧
      (key, values) ∈ s.dimEntries d ∧ context.index.toNat = start + d.primaryColumn ∧
      ∀ j < values.length, table.fields[start + j]? = (values[j]?).map Nebu.asU64 := by
  obtain ⟨context, table, value, index, hauthentic, hns, hindex, heq⟩ := authentic_of_verifyEntity h
  have hfields := hauthentic.fields_eq hs hr hv (hb context hauthentic.carries)
  rw [hns, s.entries_toU64] at hfields
  have hmax : (dimSerialize (s.dimEntries d)).length ≤ MAX_QUERY_FIELDS := by
    have hsize := hauthentic.size
    rwa [hfields, List.length_map] at hsize
  rw [hfields, primaryIndex_table hr key hmax (s.readable_dimEntries hr hmax) (s.sorted_dimEntries d)] at hindex
  obtain ⟨values, start, hmem, hi, hcells⟩ := locate_spec (hfields.trans (map_asU64_dimSerialize hr _)) hindex
  refine ⟨context, table, value, values, start, hauthentic, hmem, ?_, hcells⟩
  have hcolumn := s.primaryColumn_lt _ hmem
  have hlt : index < table.fields.length := by
    have hcell := hcells _ hcolumn
    rw [← hi, List.getElem?_eq_getElem hcolumn] at hcell
    exact (List.getElem?_eq_some_iff.mp hcell).1
  rw [← heq, UInt64.toNat_ofNat', Nat.mod_eq_of_lt ((hlt.trans_le hauthentic.size).trans (by decide)), hi]

theorem entity_sound (hs : Symbolic F) (hr : NebuReduced F) (hv : s.rootVersion = .v1) {d : Dim} {key : Bytes32}
    (hb : ∀ context, proof.context = some context → context.certificate.Binds s)
    (h : verifyEntity proof s.root d key = true) :
    ∃ v, s.primaryCell key d = some v ∧ proof.valueBytes = u64LeBytes v := by
  obtain ⟨context, table, value, values, start, hauthentic, hmem, hindex, hcells⟩ := row_of_verifyEntity hs hr hv hb h
  have hcolumn := s.primaryColumn_lt _ hmem
  have hvalue := hauthentic.cell
  rw [hindex, hcells _ hcolumn, List.getElem?_eq_getElem hcolumn] at hvalue
  have hprimary : s.primaryCell key d = some value := by
    refine (State.primaryCell_iff hr).mpr ⟨values, _, hmem, List.getElem?_eq_getElem hcolumn, ?_⟩
    exact Option.some.inj hvalue
  exact ⟨value, hprimary, hauthentic.valueBytes⟩

/-- Both limbs of a verified balance are those of the state's balance. -/
theorem balance_of_verifyEntity (hs : Symbolic F) (hr : NebuReduced F) (hv : s.rootVersion = .v1) {owner token : Bytes32}
    (hb : ∀ context, proof.context = some context → context.certificate.Binds s)
    (h : verifyEntity proof s.root .balances (balanceKey (F := F) owner token) = true) :
    ∃ b, s.balances[balanceKey (F := F) owner token]? = some b ∧
      verifyPublicBalance proof s.root owner token = some b := by
  obtain ⟨context, table, value, values, start, hauthentic, hmem, hindex, hcells⟩ := row_of_verifyEntity hs hr hv hb h
  obtain ⟨k, b, hbalance, hentry⟩ := mem_keyedEntries.mp hmem
  obtain ⟨rfl, rfl⟩ := Prod.mk.inj hentry
  obtain ⟨hlow, hhigh⟩ := limbs_read hr hcells
  refine ⟨b, hbalance, ?_⟩
  rw [verifyPublicBalance, h, if_neg (by decide), hauthentic.carries, Option.bind_eq_bind, Option.bind_some,
    hauthentic.dimensions, List.head?_cons, Option.bind_eq_bind, Option.bind_some, hindex]
  simp only [Dim.primaryColumn, Nat.add_zero, hlow, hhigh]
  exact congrArg some (limbs_join b)

/-! ### Completeness -/

variable (F) in
/-- `Brakedown::verify` accepts the opening of an evaluation vector at the corner of a cell. -/
def OpensHonestly : Prop :=
  ∀ (evals : List F) (index : Nat) (cell : F), evals.length.isPowerOfTwo → evals[index]? = some cell →
    BrakedownOpening.verify (Brakedown.commit evals) (cornerPoint index evals.length.log2) cell
      (BrakedownOpening.openPoly evals (cornerPoint index evals.length.log2)) = true

theorem atCorner_cornerPoint (hr : NebuReduced F) (length index : Nat) :
    AtCorner (cornerPoint index (numVars length) : List F) length index := by
  have hlength : (cornerPoint index (numVars length) : List F).length = numVars length := by
    rw [cornerPoint, List.length_map, List.length_range]
  refine ⟨hlength, fun i hi => ?_⟩
  rw [hlength] at hi
  have hbit : (index >>> i) &&& 1 = 0 ∨ (index >>> i) &&& 1 = 1 := by
    rw [Nat.and_one_is_mod]
    exact Nat.mod_two_eq_zero_or_one _
  rw [cornerPoint, List.getElem?_map, List.getElem?_range hi, Option.map_some, Option.map_some]
  rcases hbit with hbit | hbit
  · rw [hbit, if_neg (by decide), zero, hr.asU64_new 0 (by decide)]
    rfl
  · rw [hbit, if_pos rfl, hr.asU64_new 1 (by decide)]
    rfl

/-- The context of a state's own proof. -/
def QueryContext.honest (s : State F) (d : Dim) (index : Nat) : QueryContext :=
  ⟨QUERY_VERSION, StateCertificate.honest s [d.toU64], d.toU64, UInt64.ofNat index⟩

/-- The proof of a cell of a state, with its context. -/
def QueryProof.honest (s : State F) (d : Dim) (index : Nat) (cell : F) : QueryProof F :=
  let evals := padded (dimSerialize (s.dimEntries d))
  let point := cornerPoint index evals.length.log2
  ⟨Brakedown.commit evals, BrakedownOpening.openPoly evals point, u64LeBytes (Nebu.asU64 cell),
    some (QueryContext.honest s d index), point⟩

section Honest

variable {d : Dim} {index : Nat} {cell : F}

theorem State.fieldCount_toU64 (s : State F) (d : Dim) : s.fieldCount d.toU64 = (dimSerialize (s.dimEntries d)).length := by
  rw [fieldCount, s.entries_toU64, dimSerialize_length]

theorem certificate_ok (hr : NebuReduced F) (hv : s.rootVersion = .v1)
    (hmax : (dimSerialize (s.dimEntries d)).length ≤ MAX_QUERY_FIELDS) :
    StateCertificate.fromState s [d.toU64] = .ok (StateCertificate.honest s [d.toU64]) ∧
      (StateCertificate.honest s [d.toU64]).verify F (rootLimbs s.root) = .ok () := by
  have hsum : ([d.toU64].map s.fieldCount).sum ≤ MAX_FIELDS := by
    rw [List.map_singleton, List.sum_singleton, s.fieldCount_toU64]
    exact hmax.trans (by decide)
  have hok := StateCertificate.fromState_ok hr hv (List.nodup_singleton d.toU64)
    (fun ns hns => List.mem_singleton.mp hns ▸ d.toU64_le) hsum
  rwa [List.mergeSort_singleton] at hok

theorem context_ok (hr : NebuReduced F) (hv : s.rootVersion = .v1)
    (hmax : (dimSerialize (s.dimEntries d)).length ≤ MAX_QUERY_FIELDS) :
    QueryContext.fromState s d index = some (QueryContext.honest s d index) := by
  rw [QueryContext.fromState, (certificate_ok hr hv hmax).1]
  rfl

/-- A context that a state gives is the honest one, and its certificate recomputes the root of the state. -/
theorem certified_of_context {context : QueryContext}
    (hmax : (dimSerialize (s.dimEntries d)).length ≤ MAX_QUERY_FIELDS)
    (h : QueryContext.fromState s d index = some context) :
    context = QueryContext.honest s d index ∧
      (StateCertificate.honest s [d.toU64]).root F = .ok (rootLimbs s.root) := by
  have hfits : ¬([d.toU64].length > 11 ∨ ∃ ns ∈ [d.toU64], ns > 10) := by
    rintro (hlen | ⟨ns, hns, hgt⟩)
    · exact absurd hlen (Nat.not_lt.mpr (by simp))
    · rw [List.mem_singleton.mp hns] at hgt
      exact absurd d.toU64_le (UInt64.not_le.mpr hgt)
  have htables : s.dimensionTables 0 [d.toU64] = .ok [s.dimensionTable d.toU64] := by
    refine State.dimensionTables_ok ?_
    rw [List.map_singleton, List.sum_singleton, Nat.zero_add, s.fieldCount_toU64]
    exact hmax.trans (by decide)
  rw [QueryContext.fromState, StateCertificate.fromState, if_neg hfits] at h
  simp only [List.mergeSort_singleton] at h
  rw [if_neg (by simp), htables] at h
  change ((do
    let root ← (StateCertificate.honest s [d.toU64]).root F
    if root.toList.flatMap u64LeBytes ≠ s.root.toList then _
    else return StateCertificate.honest s [d.toU64] : Except String StateCertificate).toOption >>= _) = _ at h
  cases hroot : (StateCertificate.honest s [d.toU64]).root F with
  | error e =>
      rw [hroot] at h
      cases h
  | ok root =>
      rw [hroot] at h
      change (Except.toOption (if root.toList.flatMap u64LeBytes ≠ s.root.toList then _ else _) >>= _) = _ at h
      split_ifs at h with hbytes
      · cases h
      · refine ⟨(Option.some.inj h).symm, congrArg Except.ok (Vector.toList_inj.mp ?_)⟩
        apply flatMap_u64LeBytes_injective
        rw [rootLimbs_flatMap, not_not.mp hbytes]

/-- The root of a state has canonical limbs. -/
theorem State.canonical_root (hr : NebuReduced F) (s : State F) : ∀ v ∈ (rootLimbs s.root).toList, ¬Noncanonical v := by
  intro v hv hnon
  rw [State.root, rootLimbs_rootToBytes, Vector.toList_map] at hv
  obtain ⟨x, hx, rfl⟩ := List.mem_map.mp hv
  obtain ⟨front, hlast⟩ : ∃ front, rootFromLeaves s.rootLeaves = compress4 front s.rootLeaves.stats := by
    rw [rootFromLeaves, RootLeaves.ordered, List.foldl_append]
    exact ⟨_, rfl⟩
  rw [hlast] at hx
  exact absurd (hr.asU64_compress4 _ _ x hx) (Nat.not_lt.mpr hnon)

theorem isWord_cell (hmax : (dimSerialize (s.dimEntries d)).length ≤ MAX_QUERY_FIELDS)
    (hcell : (dimSerialize (s.dimEntries d))[index]? = some cell) : IsWord cell := by
  have hcount : s.fieldCount d.toU64 ≤ MAX_FIELDS := by
    rw [s.fieldCount_toU64]
    exact hmax.trans (by decide)
  have hwords := s.isWord_table hcount
  rw [s.entries_toU64] at hwords
  exact hwords cell (List.mem_of_getElem? hcell)

/-- The proof of a state's own cell is authentic when its certificate recomputes the root. -/
theorem authentic_of_certified (hr : NebuReduced F) (ho : OpensHonestly F)
    (hcertifies : (StateCertificate.honest s [d.toU64]).root F = .ok (rootLimbs s.root))
    (hmax : (dimSerialize (s.dimEntries d)).length ≤ MAX_QUERY_FIELDS)
    (hcell : (dimSerialize (s.dimEntries d))[index]? = some cell) :
    Authentic (QueryProof.honest s d index cell) s.root (QueryContext.honest s d index) (s.dimensionTable d.toU64)
      (Nebu.asU64 cell) := by
  obtain ⟨hlt, hget⟩ := List.getElem?_eq_some_iff.mp hcell
  have hindex : (UInt64.ofNat index).toNat = index := by
    rw [UInt64.toNat_ofNat', Nat.mod_eq_of_lt ((hlt.trans_le hmax).trans (by decide))]
  have hfields : (s.dimensionTable d.toU64).fields = (dimSerialize (s.dimEntries d)).map Nebu.asU64 := by
    rw [State.dimensionTable, s.entries_toU64]
  have hlength : (s.dimensionTable d.toU64).fields.length = (dimSerialize (s.dimEntries d)).length := by
    rw [hfields, List.length_map]
  have hpoint : (padded (dimSerialize (s.dimEntries d))).length.log2 = numVars (dimSerialize (s.dimEntries d)).length := by
    rw [padded_length, numVars]
  have htable : (s.dimensionTable d.toU64).fields.map (new : UInt64 → F) = dimSerialize (s.dimEntries d) := by
    rw [hfields, map_new_asU64 hr fun v hv => ?_]
    obtain ⟨i, hi⟩ := List.mem_iff_getElem?.mp hv
    exact isWord_cell hmax hi
  have hleaf : (commitFields (dimSerialize (s.dimEntries d))).toList =
      ((StateCertificate.honest s [d.toU64]).leaves.toList.getD d.toU64.toNat
        (Vector.replicate 4 0)).toList.flatMap u64LeBytes := by
    have hverify : (StateCertificate.honest s [d.toU64]).verify F (rootLimbs s.root) = .ok () := by
      rw [StateCertificate.verify, if_neg fun h => h.elim fun v hv => s.canonical_root hr v hv.1 hv.2, hcertifies]
      exact if_neg (not_not.mpr rfl)
    rw [← htable]
    exact StateCertificate.checkTables_ok.mp (StateCertificate.verify_ok hverify).2.2.1 _ (List.mem_singleton_self _)
  refine {
    carries := rfl
    version := rfl
    range := d.toU64_le
    dimensions := rfl
    ns := rfl
    size := hlength.trans_le hmax
    canonical := s.canonical_root hr
    certifies := hcertifies
    cell := ?_
    valueBytes := rfl
    point := ?_
    commitment := hleaf
    verifies := ?_ }
  · rw [QueryContext.honest, hindex, hfields, List.getElem?_map, hcell]
    rfl
  · rw [hlength, QueryContext.honest, hindex, QueryProof.honest, hpoint]
    exact atCorner_cornerPoint hr _ _
  · rw [(isWord_cell hmax hcell).new_asU64 hr]
    refine ho _ _ _ ?_ ?_
    · rw [padded_length]
      exact ⟨_, rfl⟩
    · rw [padded_getElem? hlt, hcell]

/-- Under the V1 root the proof of a state's own cell is authentic. -/
theorem authentic_honest (hr : NebuReduced F) (ho : OpensHonestly F) (hv : s.rootVersion = .v1)
    (hmax : (dimSerialize (s.dimEntries d)).length ≤ MAX_QUERY_FIELDS)
    (hcell : (dimSerialize (s.dimEntries d))[index]? = some cell) :
    Authentic (QueryProof.honest s d index cell) s.root (QueryContext.honest s d index) (s.dimensionTable d.toU64)
      (Nebu.asU64 cell) :=
  have hcontext : QueryContext.fromState s d index = some (QueryContext.honest s d index) := context_ok hr hv hmax
  authentic_of_certified hr ho (certified_of_context hmax hcontext).2 hmax hcell

/-- A record's cell, located by the walk, has a proof that verifies. -/
theorem verifyEntity_honest (hr : NebuReduced F) (ho : OpensHonestly F) (hv : s.rootVersion = .v1) {key : Bytes32}
    (hmax : (dimSerialize (s.dimEntries d)).length ≤ MAX_QUERY_FIELDS)
    (hlocate : locate key d.primaryColumn HEADER_FIELDS (s.dimEntries d) = some index)
    (hcell : (dimSerialize (s.dimEntries d))[index]? = some cell) :
    verifyEntity (QueryProof.honest s d index cell) s.root d key = true := by
  refine (authentic_honest hr ho hv hmax hcell).verifyEntity rfl ?_ rfl
  rw [State.dimensionTable, s.entries_toU64,
    primaryIndex_table hr key hmax (s.readable_dimEntries hr hmax) (s.sorted_dimEntries d), hlocate]

theorem binds_honest (hr : NebuReduced F) (hv : s.rootVersion = .v1)
    (hmax : (dimSerialize (s.dimEntries d)).length ≤ MAX_QUERY_FIELDS) :
    (StateCertificate.honest s [d.toU64]).Binds s := by
  refine StateCertificate.honest_binds hr hv fun ns hns => ?_
  rw [List.mem_singleton.mp hns, s.fieldCount_toU64]
  exact hmax.trans (by decide)

/-- A key with a record is located at a cell of the table. -/
theorem cell_of_mem (hr : NebuReduced F) {key : Bytes32} {values : List F} (hmem : (key, values) ∈ s.dimEntries d) :
    ∃ index cell, locate key d.primaryColumn HEADER_FIELDS (s.dimEntries d) = some index ∧
      (dimSerialize (s.dimEntries d))[index]? = some cell := by
  obtain ⟨index, hindex⟩ := exists_locate hmem d.primaryColumn HEADER_FIELDS
  obtain ⟨values', start, hmem', rfl, hcells⟩ := locate_spec (map_asU64_dimSerialize hr (s.dimEntries d)) hindex
  have hcolumn := s.primaryColumn_lt _ hmem'
  have hcell := hcells _ hcolumn
  rw [List.getElem?_map, List.getElem?_eq_getElem hcolumn] at hcell
  obtain ⟨cell, hcell, -⟩ := Option.map_eq_some_iff.mp hcell
  exact ⟨_, cell, hindex, hcell⟩

theorem openCellFromEntries_eq {entries : List (Bytes32 × List F)} (hcell : (dimSerialize entries)[index]? = some cell) :
    openCellFromEntries entries index = some
      { commitment := Brakedown.commit (padded (dimSerialize entries))
        opening := BrakedownOpening.openPoly (padded (dimSerialize entries))
          (cornerPoint index (padded (dimSerialize entries)).length.log2)
        valueBytes := u64LeBytes (Nebu.asU64 cell)
        context := none
        point := cornerPoint index (padded (dimSerialize entries)).length.log2 } := by
  rw [openCellFromEntries, hcell]
  rfl

theorem openCell_disclosed (hr : NebuReduced F) (hv : s.rootVersion = .v1) (hd : d.Disclosed)
    (hmax : (dimSerialize (s.dimEntries d)).length ≤ MAX_QUERY_FIELDS)
    (hcell : (dimSerialize (s.dimEntries d))[index]? = some cell) :
    openCell s d index = some (QueryProof.honest s d index cell) := by
  have hcount : ¬(d.Disclosed ∧
      HEADER_FIELDS + ((s.dimEntries d).map fun e => KEY_FIELDS + e.2.length).sum > MAX_QUERY_FIELDS) := by
    rw [← dimSerialize_length, not_and]
    exact fun _ => Nat.not_lt.mpr hmax
  rw [openCell]
  simp only [if_neg hcount, openCellFromEntries_eq hcell, Option.bind_eq_bind, Option.bind_some, if_pos hd,
    context_ok hr hv hmax]
  rfl

theorem openCell_balances (hcell : (dimSerialize (s.dimEntries .balances))[index]? = some cell) :
    openCell s .balances index = some { QueryProof.honest s .balances index cell with context := none } := by
  have hd : ¬Dim.balances.Disclosed := by decide
  rw [openCell]
  simp only [if_neg fun h : _ ∧ _ => hd h.1, openCellFromEntries_eq hcell, Option.bind_eq_bind, Option.bind_some,
    if_neg hd]
  rfl

/-- `open_entity` opens the located cell. -/
theorem openEntityFrom_eq {key : Bytes32} {column offset : Nat} {entries : List (Bytes32 × List F)}
    (hcolumn : ∀ e ∈ entries, column < e.2.length) (h : locate key column offset entries = some index) :
    openEntityFrom s d key column offset entries = openCell s d index := by
  induction entries generalizing offset with
  | nil => cases h
  | cons e rest ih =>
      obtain ⟨hfirst, hrest⟩ := List.forall_mem_cons.mp hcolumn
      rw [locate] at h
      rw [openEntityFrom]
      split_ifs at h ⊢ with hkey
      · rw [Option.some.inj h]
      · exact ih hrest h

theorem bbgQuery_eq {key : Bytes32} {v : UInt64} (hd : d.Disclosed) (h : s.primaryCell key d = some v) :
    bbgQuery s d key = openEntity s d key d.primaryColumn := by
  cases d with
  | time =>
      rw [State.primaryCell] at h
      split_ifs at h with htail
      have hkey : keyBytes (u64FromLe (key.toList.take 8)) = key := keyBytes_eq_iff.mpr ⟨htail, rfl⟩
      rw [bbgQuery, if_neg fun h => htail h.2]
      simp only [proveTime, hkey]
      rfl
  | balances => exact absurd hd (by decide)
  | _ => exact if_neg fun h => absurd h.1 (by decide)

/-- The position of a balance gives the index of its cell. -/
theorem locate_position (key : Bytes32) (offset : Nat) (rows : List (Bytes32 × UInt64)) :
    locate key 0 offset (rows.map fun e => (e.1, (u64Limbs e.2 : List F))) =
      ((rows.map Prod.fst).findIdx? (· = key)).map fun position => offset + position * (KEY_FIELDS + 2) + KEY_FIELDS := by
  induction rows generalizing offset with
  | nil => rfl
  | cons e rest ih =>
      rw [List.map_cons, List.map_cons, locate, List.findIdx?_cons]
      by_cases hkey : e.1 = key
      · rw [if_pos hkey, if_pos (decide_eq_true hkey)]
        simp
      · rw [if_neg hkey, if_neg (by simpa using hkey), ih, Option.map_map]
        refine congrArg (fun f => Option.map f _) (funext fun position => ?_)
        change offset + (KEY_FIELDS + 2) + position * (KEY_FIELDS + 2) + KEY_FIELDS = _
        rw [Function.comp_apply, Nat.add_one_mul]
        omega

theorem balances_length (s : State F) :
    (dimSerialize (s.dimEntries .balances)).length = HEADER_FIELDS + s.balances.size * (KEY_FIELDS + 2) := by
  have hwidth : ∀ rows : List (Bytes32 × UInt64),
      ((rows.map fun e => (e.1, (u64Limbs e.2 : List F))).map fun e => KEY_FIELDS + e.2.length).sum =
        rows.length * (KEY_FIELDS + 2) := by
    intro rows
    rw [List.map_map]
    change (rows.map fun _ => KEY_FIELDS + 2).sum = _
    rw [List.map_const', List.sum_replicate, smul_eq_mul]
  rw [dimSerialize_length, ← Std.ExtTreeMap.length_toList]
  exact congrArg (HEADER_FIELDS + ·) (hwidth s.balances.toList)

theorem provePublicBalance_eq (hr : NebuReduced F) (hv : s.rootVersion = .v1) {owner token : Bytes32}
    (hmax : (dimSerialize (s.dimEntries .balances)).length ≤ MAX_QUERY_FIELDS)
    (hlocate : locate (balanceKey (F := F) owner token) 0 HEADER_FIELDS (s.dimEntries .balances) = some index)
    (hcell : (dimSerialize (s.dimEntries .balances))[index]? = some cell) :
    provePublicBalance s owner token = some (QueryProof.honest s .balances index cell) := by
  have hfields : ¬(HEADER_FIELDS + s.balances.size * (KEY_FIELDS + 2) ≥ 2 ^ 64 ∨
      HEADER_FIELDS + s.balances.size * (KEY_FIELDS + 2) > MAX_QUERY_FIELDS) := by
    rw [← balances_length, MAX_QUERY_FIELDS]
    rw [MAX_QUERY_FIELDS] at hmax
    omega
  have hposition : (s.balances.keys.findIdx? (· = balanceKey (F := F) owner token)).map
      (fun position => HEADER_FIELDS + position * (KEY_FIELDS + 2) + KEY_FIELDS) = some index := by
    rw [← Std.ExtTreeMap.map_fst_toList_eq_keys, ← locate_position (F := F)]
    exact hlocate
  obtain ⟨position, hfound, rfl⟩ := Option.map_eq_some_iff.mp hposition
  have hcolumn : ∀ e ∈ s.dimEntries .balances, 0 < e.2.length := s.primaryColumn_lt
  have hproof := (openEntityFrom_eq hcolumn hlocate).trans (openCell_balances hcell)
  change proveBalances s owner token = _ at hproof
  rw [provePublicBalance]
  simp only [if_neg hfields, hfound, hproof, Option.bind_eq_bind, Option.bind_some, context_ok hr hv hmax]
  rfl

end Honest

/-- Under the V1 root of a state, a proof that verifies for a key shows the primary cell of the state's record
under that key, and a verified balance is the state's balance; the proofs the state gives for its entities and
its balances verify when the table is within the query limit. -/
theorem queries_exact (hs : Symbolic F) (hr : NebuReduced F) (ho : OpensHonestly F) (s : State F)
    (hv : s.rootVersion = .v1) :
    (∀ proof : QueryProof F, (∀ context, proof.context = some context → context.certificate.Binds s) →
      (∀ d key, verifyEntity proof s.root d key = true →
        ∃ v, s.primaryCell key d = some v ∧ proof.valueBytes = u64LeBytes v) ∧
      ∀ owner token b, verifyPublicBalance proof s.root owner token = some b →
        s.balances[balanceKey (F := F) owner token]? = some b) ∧
    (∀ d key v, d.toU64 ≤ 9 → s.fieldCount d.toU64 ≤ MAX_QUERY_FIELDS → s.primaryCell key d = some v →
      ∃ proof, bbgQuery s d key = some proof ∧ verifyEntity proof s.root d key = true) ∧
    ∀ owner token b, s.fieldCount Dim.balances.toU64 ≤ MAX_QUERY_FIELDS →
      s.balances[balanceKey (F := F) owner token]? = some b →
      ∃ proof, provePublicBalance s owner token = some proof ∧
        verifyPublicBalance proof s.root owner token = some b := by
  refine ⟨fun proof hb => ⟨fun d key h => entity_sound hs hr hv hb h, fun owner token b h => ?_⟩,
    fun d key v hd hmax h => ?_, fun owner token b hmax h => ?_⟩
  · have hentity : verifyEntity proof s.root .balances (balanceKey (F := F) owner token) = true := by
      by_contra hfalse
      rw [verifyPublicBalance, if_pos (by simpa using hfalse)] at h
      cases h
    obtain ⟨b', hbalance, hverified⟩ := balance_of_verifyEntity hs hr hv hb hentity
    rw [hbalance, ← h, hverified]
  · rw [s.fieldCount_toU64] at hmax
    obtain ⟨values, cell, hmem, -, -⟩ := (State.primaryCell_iff hr).mp h
    obtain ⟨index, cell, hlocate, hcell⟩ := cell_of_mem hr hmem
    refine ⟨_, ?_, verifyEntity_honest hr ho hv hmax hlocate hcell⟩
    rw [bbgQuery_eq hd h, openEntity, openEntityFrom_eq s.primaryColumn_lt hlocate, openCell_disclosed hr hv hd hmax hcell]
  · rw [s.fieldCount_toU64] at hmax
    have hmem : (balanceKey (F := F) owner token, (u64Limbs b : List F)) ∈ s.dimEntries .balances :=
      mem_keyedEntries.mpr ⟨_, b, h, rfl⟩
    obtain ⟨index, cell, hlocate, hcell⟩ := cell_of_mem hr hmem
    refine ⟨_, provePublicBalance_eq hr hv hmax hlocate hcell, ?_⟩
    have hentity := verifyEntity_honest hr ho hv hmax hlocate hcell
    have hbinds : ∀ context, (QueryProof.honest s .balances index cell).context = some context →
        context.certificate.Binds s := by
      intro context hcontext
      obtain rfl := Option.some.inj hcontext
      exact binds_honest hr hv hmax
    obtain ⟨b', hbalance, hverified⟩ := balance_of_verifyEntity hs hr hv hbinds hentity
    rw [hverified, ← hbalance, h]

end Queries

namespace Committed

/-- The index of a corner. -/
def cornerIndex (point : List Committed) : Nat := point.foldr (fun v n => (Nebu.asU64 v).toNat + 2 * n) 0

/-- An opening discloses the evaluations; the verifier commits to them and reads the cell. -/
instance : BrakedownOpening Committed where
  Opening := List Committed
  openPoly evals _ := evals
  verify commitment point value opening :=
    decide (Brakedown.commit opening = commitment ∧ opening[cornerIndex point]? = some value)

theorem cornerPoint_succ (index vars : Nat) : (cornerPoint index (vars + 1) : List Committed) =
    (if index &&& 1 = 1 then new 1 else zero) :: cornerPoint (index >>> 1) vars := by
  rw [cornerPoint, List.range_succ_eq_map, List.map_cons, List.map_map, cornerPoint]
  refine congrArg (_ :: ·) (List.map_congr_left fun j _ => ?_)
  rw [Function.comp_apply, ← Nat.shiftRight_add, Nat.add_comm 1 j]

theorem cornerIndex_cornerPoint (index vars : Nat) : cornerIndex (cornerPoint index vars) = index % 2 ^ vars := by
  induction vars generalizing index with
  | zero => exact (Nat.mod_one index).symm
  | succ vars ih =>
      have hbit : (Nebu.asU64 (if index &&& 1 = 1 then new 1 else zero : Committed)).toNat = index % 2 := by
        rw [Nat.and_one_is_mod]
        rcases Nat.mod_two_eq_zero_or_one index with hzero | hone
        · rw [hzero, if_neg (by decide), zero, reduced.asU64_new 0 (by decide)]
          rfl
        · rw [hone, if_pos rfl, reduced.asU64_new 1 (by decide)]
          rfl
      rw [cornerPoint_succ, cornerIndex, List.foldr_cons, hbit]
      change index % 2 + 2 * cornerIndex (cornerPoint (index >>> 1) vars) = _
      rw [ih, Nat.shiftRight_one, Nat.pow_succ', Nat.mod_mul]

theorem opensHonestly : OpensHonestly Committed := by
  intro evals index cell hpow hcell
  obtain ⟨vars, hvars⟩ := hpow
  have hlt : index < 2 ^ vars := by
    rw [← hvars]
    exact (List.getElem?_eq_some_iff.mp hcell).1
  refine decide_eq_true ⟨rfl, ?_⟩
  rw [hvars, Nat.log2_two_pow, cornerIndex_cornerPoint, Nat.mod_eq_of_lt hlt]
  exact hcell

theorem oneParticle_primaryCell : oneParticle.primaryCell (Vector.replicate 32 1) .particles = some 77 := by
  decide +kernel

/-- The energy of the one particle, proved and verified. -/
theorem queries_exact_oneParticle : ∃ proof,
    bbgQuery oneParticle .particles (Vector.replicate 32 1) = some proof ∧
    verifyEntity proof oneParticle.root .particles (Vector.replicate 32 1) = true ∧
    proof.valueBytes = u64LeBytes 77 := by
  have hcount : oneParticle.fieldCount Dim.particles.toU64 ≤ MAX_QUERY_FIELDS := by
    have hcounts := oneParticle_fieldCount
    simp only [List.map_cons, List.map_nil, List.cons.injEq, and_true] at hcounts
    rw [Dim.toU64, hcounts.2]
    decide
  obtain ⟨sound, complete, -⟩ := queries_exact symbolic reduced opensHonestly oneParticle rfl
  obtain ⟨proof, hquery, hverify⟩ := complete .particles _ _ (by decide) hcount oneParticle_primaryCell
  have hbinds : ∀ context, proof.context = some context → context.certificate.Binds oneParticle := by
    rw [oneParticle.fieldCount_toU64] at hcount
    obtain ⟨values, cell, hmem, -, -⟩ := (State.primaryCell_iff reduced).mp oneParticle_primaryCell
    obtain ⟨index, cell, hlocate, hcell⟩ := cell_of_mem reduced hmem
    have hhonest : proof = QueryProof.honest oneParticle .particles index cell := by
      rw [bbgQuery_eq (by decide) oneParticle_primaryCell, openEntity,
        openEntityFrom_eq oneParticle.primaryColumn_lt hlocate,
        openCell_disclosed reduced rfl (by decide) hcount hcell] at hquery
      exact (Option.some.inj hquery).symm
    intro context hcontext
    rw [hhonest] at hcontext
    obtain rfl := Option.some.inj hcontext
    exact binds_honest reduced rfl hcount
  obtain ⟨v, hcell, hbytes⟩ := (sound proof hbinds).1 _ _ hverify
  rw [oneParticle_primaryCell] at hcell
  obtain rfl := Option.some.inj hcell
  exact ⟨proof, hquery, hverify, hbytes⟩

end Committed

end LeanBbg
