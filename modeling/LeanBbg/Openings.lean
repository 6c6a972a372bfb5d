import LeanBbg.Looks

/-! Openings that anyone may have made. An opening that verifies with a complete query under the V1 root of a state
shows a cell of that state, so that no two of them can disagree. -/

namespace LeanBbg

open Nebu Bytes

section Openings

variable {F : Type} [Hemera F] [DecidableEq F] [Brakedown F] [BrakedownOpening F] [Lens]
  {s : State F} {proof : QueryProof F}

theorem authentic_of_verifyQueryAt {root : Bytes32} {ns index : UInt64} (h : verifyQueryAt proof root ns index = true) :
    ∃ context table value, Authentic proof root context table value ∧ context.ns = ns ∧ context.index = index := by
  obtain ⟨hcontext, hauthenticated⟩ := Bool.and_eq_true_iff.mp h
  obtain ⟨u, hauthenticated⟩ := Option.isSome_iff_exists.mp hauthenticated
  obtain ⟨context, table, value, hauthentic⟩ := authentic_of_authenticated hauthenticated
  rw [hauthentic.carries, Option.any_some, decide_eq_true_eq] at hcontext
  exact ⟨context, table, value, hauthentic, hcontext⟩

/-- The leaves of an authentic proof are those of the state. -/
theorem Authentic.leaves_eq (hs : Symbolic F) (hr : NebuReduced F) {context : QueryContext} {table : DimensionTable}
    {value : UInt64} (h : Authentic proof s.root context table value) (hb : context.certificate.Binds s) :
    context.certificate.leaves = s.rootLeaves.words := by
  refine StateCertificate.leaves_of_verify hs hr hb ?_
  rw [StateCertificate.verify, if_neg, h.certifies]
  · exact if_neg (not_not.mpr rfl)
  · rintro ⟨v, hmem, hnon⟩
    exact h.canonical v hmem hnon

/-- The state has the cell, with this value in a table with this commitment, and the point is the cell's corner. -/
def ShowsCell (s : State F) (ns index value : UInt64) (commitment : Bytes32) (point : List F) : Prop :=
  ∃ d cell, Dim.fromU64 ns = some d ∧ cellValue s d index.toNat = some cell ∧ value = Nebu.asU64 cell ∧
    commitment = commitDim (s.dimEntries d) ∧ AtCorner point (dimSerialize (s.dimEntries d)).length index.toNat

theorem showsCell_of_verifyQueryAt (hs : Symbolic F) (hr : NebuReduced F) (hv : s.rootVersion = .v1)
    (hb : ∀ context, proof.context = some context → context.certificate.Binds s) {ns index : UInt64}
    (h : verifyQueryAt proof s.root ns index = true) :
    ∃ value, proof.valueBytes = u64LeBytes value ∧ ShowsCell s ns index value proof.commitment proof.point := by
  obtain ⟨context, table, value, hauthentic, rfl, rfl⟩ := authentic_of_verifyQueryAt h
  have hbinds := hb context hauthentic.carries
  have hfields := hauthentic.fields_eq hs hr hv hbinds
  obtain ⟨d, hd⟩ := Dim.fromU64_of_le hauthentic.range
  have hentries : s.entries context.ns = s.dimEntries d := by
    rw [← Dim.toU64_of_fromU64 hd, s.entries_toU64]
  rw [hentries] at hfields
  have hvalue := hauthentic.cell
  rw [hfields, List.getElem?_map] at hvalue
  obtain ⟨cell, hcell, rfl⟩ := Option.map_eq_some_iff.mp hvalue
  have hcommitment := hauthentic.commitment
  rw [hauthentic.leaves_eq hs hr hbinds, State.words_getD hr hv hauthentic.range, rootLimbs_flatMap, hentries]
    at hcommitment
  have hpoint := hauthentic.point
  rw [hfields, List.length_map] at hpoint
  exact ⟨_, hauthentic.valueBytes, d, cell, hd, hcell, rfl, Vector.toList_inj.mp hcommitment, hpoint⟩

/-- An opening that verifies is of the state's leaves and shows one of its cells. -/
theorem showsCell_of_verifyOpeningWithContext [DecidableEq (BrakedownOpening.Opening F)] (hs : Symbolic F)
    (hr : NebuReduced F) (hv : s.rootVersion = .v1)
    (hb : ∀ context, proof.context = some context → context.certificate.Binds s) {lo : LookOpening F} {index : UInt64}
    (h : verifyOpeningWithContext lo proof s.root index = true) :
    lo.leaves.words = s.rootLeaves.words ∧ lo.transcriptSeed = DIM_OPEN ∧
      ShowsCell s (Nebu.asU64 lo.ns) index (Nebu.asU64 lo.value) lo.commitment lo.point := by
  rw [verifyOpeningWithContext] at h
  split_ifs at h with hquery
  have hquery := Bool.eq_true_of_not_eq_false hquery
  obtain ⟨context, table, value, hauthentic, -, -⟩ := authentic_of_verifyQueryAt hquery
  rw [hauthentic.carries, Option.any_some, decide_eq_true_eq] at h
  obtain ⟨hleaves, hcommitment, hpoint, hbytes, -, hseed⟩ := h
  obtain ⟨value', hbytes', hshows⟩ := showsCell_of_verifyQueryAt hs hr hv hb hquery
  rw [hauthentic.leaves_eq hs hr (hb context hauthentic.carries)] at hleaves
  rw [← hcommitment, ← hpoint, ← u64LeBytes_injective (hbytes.trans hbytes')] at hshows
  exact ⟨hleaves, hseed, hshows⟩

/-- Under the V1 root of a state, a query that verifies for a namespace and an index, forged or not, carries the value
of that cell of the state; an opening that verifies with it shows the cell, its table and the leaves of the root; and
two openings that verify for one cell agree on the value and the commitment. -/
theorem openings_sound [DecidableEq (BrakedownOpening.Opening F)] (hs : Symbolic F) (hr : NebuReduced F) (s : State F)
    (hv : s.rootVersion = .v1) :
    ∀ proof : QueryProof F, (∀ context, proof.context = some context → context.certificate.Binds s) →
      (∀ ns index, verifyQueryAt proof s.root ns index = true →
        ∃ value, proof.valueBytes = u64LeBytes value ∧ ShowsCell s ns index value proof.commitment proof.point) ∧
      ∀ lo index, verifyOpeningWithContext lo proof s.root index = true →
        (lo.leaves.words = s.rootLeaves.words ∧ lo.transcriptSeed = DIM_OPEN ∧
          ShowsCell s (Nebu.asU64 lo.ns) index (Nebu.asU64 lo.value) lo.commitment lo.point) ∧
        ∀ (proof' : QueryProof F) (lo' : LookOpening F),
          (∀ context, proof'.context = some context → context.certificate.Binds s) →
          verifyOpeningWithContext lo' proof' s.root index = true → Nebu.asU64 lo'.ns = Nebu.asU64 lo.ns →
          Nebu.asU64 lo'.value = Nebu.asU64 lo.value ∧ lo'.commitment = lo.commitment := by
  refine fun proof hb => ⟨fun ns index h => showsCell_of_verifyQueryAt hs hr hv hb h, fun lo index h => ?_⟩
  have hshows := showsCell_of_verifyOpeningWithContext hs hr hv hb h
  refine ⟨hshows, fun proof' lo' hb' h' hns => ?_⟩
  obtain ⟨-, -, d, cell, hd, hcell, hvalue, hcommitment, -⟩ := hshows
  obtain ⟨-, -, d', cell', hd', hcell', hvalue', hcommitment', -⟩ :=
    showsCell_of_verifyOpeningWithContext hs hr hv hb' h'
  rw [hns, hd] at hd'
  obtain rfl := Option.some.inj hd'
  rw [hcell] at hcell'
  obtain rfl := Option.some.inj hcell'
  exact ⟨hvalue'.trans hvalue.symm, hcommitment'.trans hcommitment.symm⟩

end Openings

namespace Committed

/-- The recorded opening of the energy of the one particle. -/
theorem openings_sound_oneParticle : ∃ (lo : LookOpening Committed) (proof : QueryProof Committed),
    verifyOpeningWithContext lo proof oneParticle.root 11 = true ∧
    ShowsCell oneParticle 0 11 (Nebu.asU64 lo.value) lo.commitment lo.point := by
  have hcount : oneParticle.fieldCount Dim.particles.toU64 ≤ MAX_QUERY_FIELDS := by
    have hcounts := oneParticle_fieldCount
    simp only [List.map_cons, List.map_nil, List.cons.injEq, and_true] at hcounts
    rw [Dim.toU64, hcounts.2]
    decide
  have hns : Nebu.asU64 (new 0 : Committed) = 0 := reduced.asU64_new 0 (by decide)
  have hkey : Nebu.asU64 (new 11 : Committed) = 11 := reduced.asU64_new 11 (by decide)
  obtain ⟨proof, hopen⟩ := openLook_of_look reduced rfl (fun d hd => by
    rw [hns] at hd
    rwa [← Option.some.inj (hd.symm.trans (Dim.fromU64_toU64 .particles))] at hcount) oneParticle_look
  have hverify := verifies_recorded reduced opensHonestly hopen
  rw [hkey] at hverify
  have hbinds : ∀ context, proof.context = some context → context.certificate.Binds oneParticle := by
    obtain ⟨d, -, hd, hcell, -, -⟩ := openLook_some reduced hopen zero
    have hdisclosed : d.Disclosed := by
      rw [Dim.Disclosed, Dim.toU64_of_fromU64 hd, hns]
      decide
    obtain ⟨hmax, -, cell, -, rfl⟩ := honest_of_openCell hdisclosed hcell
    intro context hcontext
    obtain rfl := Option.some.inj hcontext
    exact binds_honest reduced rfl hmax
  obtain ⟨⟨-, -, hshows⟩, -⟩ := (openings_sound symbolic reduced oneParticle rfl proof hbinds).2 _ _ hverify
  exact ⟨_, proof, hverify, hshows⟩

end Committed

end LeanBbg
