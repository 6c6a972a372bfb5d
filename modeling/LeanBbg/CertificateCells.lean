import LeanBbg.Looks

/-! Reading cells off a certificate that came from anywhere. Once it verifies against the V1 root of a state, it
answers every read of a table it discloses as the state does, and a look of the machine reads the same. -/

set_option linter.unusedSectionVars false

namespace LeanBbg

section CertificateCells

variable {F : Type} [Hemera F] [DecidableEq F] [Brakedown F] [Lens]

namespace StateCertificate

/-- Read an unpadded cell. -/
def cell (c : StateCertificate) (ns key : UInt64) : Option UInt64 :=
  if c.version ≠ CERTIFICATE_VERSION ∨ c.lensVersion ≠ Lens.COMMITMENT_VERSION ∨ ns > 10 ∨ c.dimensions.length > 11 then
    none
  else do
    let table ← c.dimensions.find? fun table => table.ns == ns
    if table.fields.length < HEADER_FIELDS ∨ table.fields.length > MAX_FIELDS ∨ table.fields.getD 0 0 ≠ TABLE_VERSION ∨
        table.fields.getD 1 0 ≠ UInt64.ofNat table.fields.length then
      none
    else do
      let value ← table.fields[key.toNat]?
      if value.toNat < P then some value else none

/-- The namespaces whose tables the certificate discloses. -/
def disclosed (c : StateCertificate) : List UInt64 := c.dimensions.map DimensionTable.ns

/-- What `validate_shape` has checked before it looks at the tables. -/
theorem versions_of_verify {c : StateCertificate} {expectedRoot : Vector UInt64 4}
    (h : c.verify F expectedRoot = .ok ()) :
    c.version = CERTIFICATE_VERSION ∧ c.lensVersion = Lens.COMMITMENT_VERSION ∧ c.dimensions.length ≤ 11 := by
  rw [verify, root] at h
  split_ifs at h
  cases hshape : c.validateShape with
  | error e =>
      rw [hshape] at h
      cases h
  | ok u =>
      rw [validateShape] at hshape
      split_ifs at hshape with hversions hleaves hcount
      rw [not_or, not_not, not_not] at hversions
      exact ⟨hversions.1, hversions.2, Nat.not_lt.mp hcount⟩

/-- The table that a read finds is one of the certificate's, with a header that fits. -/
theorem cell_of_find {c : StateCertificate} {expectedRoot : Vector UInt64 4} (h : c.verify F expectedRoot = .ok ())
    {ns : UInt64} {table : DimensionTable} (hfind : c.dimensions.find? (fun table => table.ns == ns) = some table)
    (key : UInt64) : c.cell ns key = table.fields[key.toNat]? := by
  obtain ⟨hversion, hlens, hcount⟩ := versions_of_verify h
  obtain ⟨-, hvalid, -, -⟩ := verify_ok h
  obtain ⟨hns, hmax, hfits⟩ := validate_ok hvalid table (List.mem_of_find?_eq_some hfind)
  have heq : table.ns = ns := by simpa using List.find?_some hfind
  subst heq
  have hguard : ¬(c.version ≠ CERTIFICATE_VERSION ∨ c.lensVersion ≠ Lens.COMMITMENT_VERSION ∨ table.ns > 10 ∨
      c.dimensions.length > 11) := by
    rintro (h | h | h | h)
    · exact h hversion
    · exact h hlens
    · exact UInt64.not_lt.mpr hns h
    · omega
  have hheader : ¬(table.fields.length < HEADER_FIELDS ∨ table.fields.length > MAX_FIELDS ∨
      table.fields.getD 0 0 ≠ TABLE_VERSION ∨ table.fields.getD 1 0 ≠ UInt64.ofNat table.fields.length) := by
    rintro (h | h | h | h)
    · exact hfits (.inl h)
    · omega
    · exact hfits (.inr (.inl h))
    · exact hfits (.inr (.inr (.inl h)))
  rw [cell, if_neg hguard, hfind, Option.bind_eq_bind, Option.bind_some, if_neg hheader]
  cases hvalue : table.fields[key.toNat]? with
  | none => rfl
  | some value =>
      have hcanonical : ¬Noncanonical value := fun hnon =>
        hfits (.inr (.inr (.inr (.inr (.inr ⟨value, List.mem_of_getElem? hvalue, hnon⟩)))))
      exact if_pos (Nat.not_le.mp hcanonical)

/-- A read finds nothing in a table that is not disclosed. -/
theorem cell_of_not_disclosed {c : StateCertificate} {ns : UInt64} (h : ns ∉ c.disclosed) (key : UInt64) :
    c.cell ns key = none := by
  have hfind : c.dimensions.find? (fun table => table.ns == ns) = none := by
    refine List.find?_eq_none.mpr fun table htable heq => h ?_
    exact List.mem_map.mpr ⟨table, htable, by simpa using heq⟩
  rw [cell, hfind]
  split_ifs <;> rfl

/-- A read of a disclosed table finds a table of the namespace. -/
theorem exists_find_of_disclosed {c : StateCertificate} {ns : UInt64} (h : ns ∈ c.disclosed) :
    ∃ table, c.dimensions.find? (fun table => table.ns == ns) = some table := by
  obtain ⟨table, htable, rfl⟩ := List.mem_map.mp h
  refine Option.isSome_iff_exists.mp (List.find?_isSome.mpr ⟨table, htable, ?_⟩)
  exact beq_self_eq_true _

/-- The certificate reads the cells of the state. -/
theorem cell_of_verify (hs : Symbolic F) (hr : NebuReduced F) {s : State F} (hv : s.rootVersion = .v1)
    {c : StateCertificate} (hb : Binds c s) (h : c.verify F (rootLimbs s.root) = .ok ()) {ns : UInt64}
    (hns : ns ∈ c.disclosed) (key : UInt64) :
    ns ≤ 10 ∧ s.fieldCount ns ≤ MAX_FIELDS ∧
      c.cell ns key = (dimSerialize (s.entries ns))[key.toNat]?.map Nebu.asU64 := by
  obtain ⟨table, hfind⟩ := exists_find_of_disclosed hns
  have heq : table.ns = ns := by simpa using List.find?_some hfind
  have hmem := List.mem_of_find?_eq_some hfind
  obtain ⟨hrange, hfields⟩ := fields_of_verify hs hr hv hb h table hmem
  obtain ⟨-, hvalid, -, -⟩ := verify_ok h
  obtain ⟨-, hmax, -⟩ := validate_ok hvalid table hmem
  rw [heq] at hrange hfields
  refine ⟨hrange, ?_, ?_⟩
  · rwa [hfields, List.length_map, dimSerialize_length] at hmax
  · rw [cell_of_find h hfind, hfields, List.getElem?_map]

end StateCertificate

/-- A look reads what the certificate does. -/
theorem BbgLookProvider.look_eq_cell (hs : Symbolic F) (hr : NebuReduced F) {s : State F} (hv : s.rootVersion = .v1)
    {c : StateCertificate} (hb : c.Binds s) (h : c.verify F (rootLimbs s.root) = .ok ()) (commitment key : F) {ns : F}
    (hns : Nebu.asU64 ns ∈ c.disclosed) (hlook : Nebu.asU64 ns ≤ 9) :
    (BbgLookProvider.mk s).look commitment ns key = (c.cell (Nebu.asU64 ns) (Nebu.asU64 key)).map new := by
  obtain ⟨hrange, hmax, hcell⟩ := StateCertificate.cell_of_verify hs hr hv hb h hns (Nebu.asU64 key)
  obtain ⟨d, hd⟩ := Dim.fromU64_of_le hrange
  have hentries : s.entries (Nebu.asU64 ns) = s.dimEntries d := by rw [State.entries, hd, Option.getD_some]
  rw [look, if_neg (UInt64.not_lt.mpr hlook), hd, Option.bind_eq_bind, Option.bind_some, hcell, hentries, cellValue]
  have hwords := s.isWord_table hmax
  rw [hentries] at hwords
  cases hvalue : (dimSerialize (s.dimEntries d))[(Nebu.asU64 key).toNat]? with
  | none => rfl
  | some v =>
      rw [Option.map_some, Option.map_some, (hwords v (List.mem_of_getElem? hvalue)).new_asU64 hr]

/-- A certificate that verifies against the V1 root of a state, whoever made it, answers a read of a table it
discloses with the state's own cell and a read of any other table with nothing; a look of the machine reads the same;
and the state gives a certificate that reads so for every set of namespaces whose tables are within the field limit. -/
theorem certificate_cells (hs : Symbolic F) (hr : NebuReduced F) (s : State F) (hv : s.rootVersion = .v1) :
    (∀ c : StateCertificate, c.Binds s → c.verify F (rootLimbs s.root) = .ok () →
      (∀ ns key, c.cell ns key =
        if ns ∈ c.disclosed then (dimSerialize (s.entries ns))[key.toNat]?.map Nebu.asU64 else none) ∧
      ∀ commitment ns key : F, Nebu.asU64 ns ∈ c.disclosed → Nebu.asU64 ns ≤ 9 →
        (BbgLookProvider.mk s).look commitment ns key = (c.cell (Nebu.asU64 ns) (Nebu.asU64 key)).map new) ∧
    ∀ namespaces : List UInt64, namespaces.Nodup → (∀ ns ∈ namespaces, ns ≤ 10) →
      (namespaces.map s.fieldCount).sum ≤ MAX_FIELDS →
      ∃ c, StateCertificate.fromState s namespaces = .ok c ∧ c.verify F (rootLimbs s.root) = .ok () ∧
        ∀ ns ∈ namespaces, ∀ key, c.cell ns key = (dimSerialize (s.entries ns))[key.toNat]?.map Nebu.asU64 := by
  constructor
  · intro c hb h
    refine ⟨fun ns key => ?_, fun commitment ns key hns hlook =>
      BbgLookProvider.look_eq_cell hs hr hv hb h commitment key hns hlook⟩
    split_ifs with hns
    · exact (StateCertificate.cell_of_verify hs hr hv hb h hns key).2.2
    · exact StateCertificate.cell_of_not_disclosed hns key
  · intro namespaces hnodup hrange hmax
    have hperm := List.mergeSort_perm namespaces fun a b => decide (a ≤ b)
    obtain ⟨hok, hverify⟩ := StateCertificate.fromState_ok hr hv hnodup hrange hmax
    have hcount : ∀ ns ∈ namespaces.mergeSort, s.fieldCount ns ≤ MAX_FIELDS := fun ns hns =>
      (List.le_sum_of_mem (List.mem_map_of_mem (hperm.mem_iff.mp hns))).trans hmax
    refine ⟨_, hok, hverify, fun ns hns key => ?_⟩
    have hdisclosed : ns ∈ (StateCertificate.honest s namespaces.mergeSort).disclosed := by
      refine List.mem_map.mpr ⟨s.dimensionTable ns, ?_, rfl⟩
      exact List.mem_map_of_mem (hperm.mem_iff.mpr hns)
    exact (StateCertificate.cell_of_verify hs hr hv (StateCertificate.honest_binds hr hv hcount) hverify hdisclosed
      key).2.2

end CertificateCells

namespace Committed

theorem oneParticle_cells : (dimSerialize (oneParticle.entries 0))[11]?.map Nebu.asU64 = some 77 ∧
    (dimSerialize (oneParticle.entries 0))[23]?.map Nebu.asU64 = none := by decide +kernel

/-- The certificate of the particles reads the energy of the particle, nothing behind the table and nothing of another
dimension; the look reads the energy. -/
theorem certificate_cells_oneParticle : ∃ c, StateCertificate.fromState oneParticle [0] = .ok c ∧
    c.verify Committed (rootLimbs oneParticle.root) = .ok () ∧ c.cell 0 11 = some 77 ∧ c.cell 0 23 = none ∧
    c.cell 3 11 = none ∧
    (BbgLookProvider.mk oneParticle).look zero (new 0 : Committed) (new 11) = some (new 77) := by
  have hmax : ([0].map oneParticle.fieldCount).sum ≤ MAX_FIELDS := by
    have h : [0].map oneParticle.fieldCount = [23] := by decide +kernel
    rw [h]
    decide
  have hcount : ∀ ns ∈ [(0 : UInt64)].mergeSort, oneParticle.fieldCount ns ≤ MAX_FIELDS := by
    intro ns hns
    exact (List.le_sum_of_mem (List.mem_map_of_mem ((List.mergeSort_perm _ _).mem_iff.mp hns))).trans hmax
  have hnodup : [(0 : UInt64)].Nodup := by decide
  have hrange : ∀ ns ∈ [(0 : UInt64)], ns ≤ 10 := by simp
  obtain ⟨sound, complete⟩ := certificate_cells symbolic reduced oneParticle rfl
  obtain ⟨c, hok, hverify, hcells⟩ := complete [0] hnodup hrange hmax
  have hhonest := (StateCertificate.fromState_ok reduced rfl hnodup hrange hmax).1
  obtain rfl := Except.ok.inj (hok.symm.trans hhonest)
  obtain ⟨hreads, hlooks⟩ := sound _ (StateCertificate.honest_binds reduced rfl hcount) hverify
  have henergy := (hcells 0 List.mem_cons_self 11).trans oneParticle_cells.1
  have hdisclosed : (StateCertificate.honest oneParticle [(0 : UInt64)].mergeSort).disclosed = [0] := by
    rw [List.mergeSort_singleton]
    rfl
  have hlook := hlooks zero (new 0) (new 11) (by rw [hdisclosed]; exact List.mem_singleton.mpr rfl) (by decide)
  have hzero : Nebu.asU64 (new 0 : Committed) = 0 := rfl
  have heleven : Nebu.asU64 (new 11 : Committed) = 11 := rfl
  rw [hzero, heleven, henergy] at hlook
  refine ⟨_, hok, hverify, henergy, (hcells 0 List.mem_cons_self 23).trans oneParticle_cells.2, ?_, hlook⟩
  rw [hreads 3 11, hdisclosed, if_neg (by decide)]

end Committed

end LeanBbg
