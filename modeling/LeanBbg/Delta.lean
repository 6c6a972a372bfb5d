import LeanBbg.NativeRefinement

/-! The changes of a preparation are exact: applied to the records of the graph before, they give the
records of the graph after, each key once and none without effect. -/

set_option linter.unusedSectionVars false

namespace LeanBbg

open Attempt

variable {F : Type} [Hemera F] [DecidableEq F] [Brakedown F]

/-! ### Records and addresses -/

section Streams

variable {K V : Type} [Ord K] [Std.TransOrd K] [Std.LawfulEqOrd K]

theorem mem_recordStream {domain : UInt8} {entity : K → List UInt8} {value : V → List UInt8} {map : OrdMap K V}
    {r : List UInt8 × List UInt8} :
    r ∈ recordStream domain entity value map ↔
      ∃ k v, map[k]? = some v ∧ r = (recordKey domain (entity k), value v) := by
  rw [recordStream, List.mem_map]
  constructor
  · rintro ⟨⟨k, v⟩, hmem, rfl⟩
    exact ⟨k, v, map.mem_toList.mp hmem, rfl⟩
  · rintro ⟨k, v, hget, rfl⟩
    exact ⟨(k, v), map.mem_toList.mpr hget, rfl⟩

/-- A key has one record in its domain. -/
theorem recordStream_functional {domain : UInt8} {entity : K → List UInt8} (hentity : Function.Injective entity)
    {value : V → List UInt8} {map : OrdMap K V} {k v v' : List UInt8}
    (h : (k, v) ∈ recordStream domain entity value map) (h' : (k, v') ∈ recordStream domain entity value map) :
    v = v' := by
  obtain ⟨key, r, hget, heq⟩ := mem_recordStream.mp h
  obtain ⟨key', r', hget', heq'⟩ := mem_recordStream.mp h'
  obtain ⟨hk, rfl⟩ := Prod.mk.inj heq
  obtain ⟨hk', rfl⟩ := Prod.mk.inj heq'
  obtain rfl : key = key' := hentity (List.cons.inj (hk.symm.trans hk')).2
  rw [hget] at hget'
  rw [Option.some_inj.mp hget']

end Streams

theorem read_of_get {b : Bbg F} {c : Cell} {v : c.Val F} (h : Cells.get c b = some v) :
    read b (.cell c) = some (c.encode v) := by
  rw [read, h]
  rfl

/-- The stream of a domain is at the index of the domain. -/
theorem mem_recordList_of_stream {b : Bbg F} {r : List UInt8 × List UInt8} (i : Nat)
    {stream : List (List UInt8 × List UInt8)} (hstream : (recordStreams b)[i]? = some stream) (hr : r ∈ stream) :
    r ∈ recordList b :=
  List.mem_flatten.mpr ⟨stream, List.mem_of_getElem? hstream, hr⟩

theorem mem_recordList_of_read {b : Bbg F} {a : Addr} {v : List UInt8} (h : read b a = some v) :
    (a.key, v) ∈ recordList b := by
  cases a with
  | metadata =>
      obtain rfl := Option.some_inj.mp h
      exact mem_recordList_of_stream 0 rfl (List.mem_singleton.mpr rfl)
  | cell c =>
      obtain ⟨r, hget, rfl⟩ := Option.map_eq_some_iff.mp h
      cases c with
      | particle k => exact mem_recordList_of_stream 1 rfl (mem_recordStream.mpr ⟨k, r, hget, rfl⟩)
      | axonsOut k => exact mem_recordList_of_stream 2 rfl (mem_recordStream.mpr ⟨k, r, hget, rfl⟩)
      | axonsIn k => exact mem_recordList_of_stream 3 rfl (mem_recordStream.mpr ⟨k, r, hget, rfl⟩)
      | neuron k => exact mem_recordList_of_stream 4 rfl (mem_recordStream.mpr ⟨k, r, hget, rfl⟩)
      | time k => exact mem_recordList_of_stream 9 rfl (mem_recordStream.mpr ⟨k, r, hget, rfl⟩)
      | signal k => exact mem_recordList_of_stream 10 rfl (mem_recordStream.mpr ⟨k, r, hget, rfl⟩)
      | commitment k => exact mem_recordList_of_stream 11 rfl (mem_recordStream.mpr ⟨k, r, hget, rfl⟩)
      | nullifier k => exact mem_recordList_of_stream 12 rfl (mem_recordStream.mpr ⟨k, r, hget, rfl⟩)
      | balance k => exact mem_recordList_of_stream 13 rfl (mem_recordStream.mpr ⟨k, r, hget, rfl⟩)
      | intent k => exact mem_recordList_of_stream 14 rfl (mem_recordStream.mpr ⟨k, r, hget, rfl⟩)
      | axonEdge k => exact mem_recordList_of_stream 15 rfl (mem_recordStream.mpr ⟨k, r, hget, rfl⟩)
      | lastTouched k => exact mem_recordList_of_stream 16 rfl (mem_recordStream.mpr ⟨k, r, hget, rfl⟩)

/-- The records are those at the addresses, and those of the fixed domains. -/
theorem mem_recordList {b : Bbg F} {k v : List UInt8} :
    (k, v) ∈ recordList b ↔
      (∃ a : Addr, a.key = k ∧ read b a = some v) ∨ (k, v) ∈ (fixedStreams b.state).flatten := by
  constructor
  · intro h
    obtain ⟨stream, hstream, hr⟩ := List.mem_flatten.mp h
    rcases List.mem_append.mp hstream with hstream | hlast
    · rcases List.mem_append.mp hstream with hfirst | hfixed
      · simp only [List.mem_cons, List.not_mem_nil, or_false] at hfirst
        rcases hfirst with rfl | rfl | rfl | rfl | rfl
        · obtain ⟨rfl, rfl⟩ := Prod.mk.inj (List.mem_singleton.mp hr)
          exact .inl ⟨.metadata, rfl, rfl⟩
        · obtain ⟨e, r, hget, heq⟩ := mem_recordStream.mp hr
          obtain ⟨rfl, rfl⟩ := Prod.mk.inj heq
          exact .inl ⟨.cell (.particle e), rfl, read_of_get (c := .particle e) hget⟩
        · obtain ⟨e, r, hget, heq⟩ := mem_recordStream.mp hr
          obtain ⟨rfl, rfl⟩ := Prod.mk.inj heq
          exact .inl ⟨.cell (.axonsOut e), rfl, read_of_get (c := .axonsOut e) hget⟩
        · obtain ⟨e, r, hget, heq⟩ := mem_recordStream.mp hr
          obtain ⟨rfl, rfl⟩ := Prod.mk.inj heq
          exact .inl ⟨.cell (.axonsIn e), rfl, read_of_get (c := .axonsIn e) hget⟩
        · obtain ⟨e, r, hget, heq⟩ := mem_recordStream.mp hr
          obtain ⟨rfl, rfl⟩ := Prod.mk.inj heq
          exact .inl ⟨.cell (.neuron e), rfl, read_of_get (c := .neuron e) hget⟩
      · exact .inr (List.mem_flatten.mpr ⟨stream, hfixed, hr⟩)
    · simp only [List.mem_cons, List.not_mem_nil, or_false] at hlast
      rcases hlast with rfl | rfl | rfl | rfl | rfl | rfl | rfl | rfl
      all_goals
        obtain ⟨e, r, hget, heq⟩ := mem_recordStream.mp hr
        obtain ⟨rfl, rfl⟩ := Prod.mk.inj heq
      · exact .inl ⟨.cell (.time e), rfl, read_of_get (c := .time e) hget⟩
      · exact .inl ⟨.cell (.signal e), rfl, read_of_get (c := .signal e) hget⟩
      · exact .inl ⟨.cell (.commitment e), rfl, read_of_get (c := .commitment e) hget⟩
      · exact .inl ⟨.cell (.nullifier e), rfl, read_of_get (c := .nullifier e) hget⟩
      · exact .inl ⟨.cell (.balance e), rfl, read_of_get (c := .balance e) hget⟩
      · exact .inl ⟨.cell (.intent e), rfl, read_of_get (c := .intent e) hget⟩
      · exact .inl ⟨.cell (.axonEdge e), rfl, read_of_get (c := .axonEdge e) hget⟩
      · exact .inl ⟨.cell (.lastTouched e), rfl, read_of_get (c := .lastTouched e) hget⟩
  · rintro (⟨a, rfl, hread⟩ | hfixed)
    · exact mem_recordList_of_read hread
    · obtain ⟨stream, hstream, hr⟩ := List.mem_flatten.mp hfixed
      exact List.mem_flatten.mpr ⟨stream, List.mem_append_left _ (List.mem_append_right _ hstream), hr⟩

/-- The first byte of the key of a fixed record. -/
theorem fixedStreams_domain {s : State F} {stream : List (List UInt8 × List UInt8)} {k v : List UInt8}
    (hstream : stream ∈ fixedStreams s) (h : (k, v) ∈ stream) :
    (stream = recordStream 5 Vector.toList locationBytes s.locations ∧ k.head? = some 5) ∨
      (stream = recordStream 6 Vector.toList (fun c : CoinRecord => integers [c.totalSupply]) s.coins ∧
        k.head? = some 6) ∨
      (stream = recordStream 7 Vector.toList cardBytes s.cards ∧ k.head? = some 7) ∨
      (stream = recordStream 8 Vector.toList fileBytes s.files ∧ k.head? = some 8) := by
  simp only [fixedStreams, List.mem_cons, List.not_mem_nil, or_false] at hstream
  rcases hstream with rfl | rfl | rfl | rfl
  all_goals
    obtain ⟨e, r, -, heq⟩ := mem_recordStream.mp h
    obtain ⟨rfl, -⟩ := Prod.mk.inj heq
  · exact .inl ⟨rfl, rfl⟩
  · exact .inr (.inl ⟨rfl, rfl⟩)
  · exact .inr (.inr (.inl ⟨rfl, rfl⟩))
  · exact .inr (.inr (.inr ⟨rfl, rfl⟩))

theorem key_head_not_fixed (a : Addr) {d : UInt8} (h : a.key.head? = some d) : d ∉ [(5 : UInt8), 6, 7, 8] := by
  cases a with
  | metadata =>
      obtain rfl : 0 = d := Option.some_inj.mp h
      decide
  | cell c =>
      obtain rfl : c.domain = d := Option.some_inj.mp h
      cases c <;> simp [Cell.domain]

/-- A key has one record. -/
theorem recordList_functional (b : Bbg F) (k v v' : List UInt8) (h : (k, v) ∈ recordList b)
    (h' : (k, v') ∈ recordList b) : v = v' := by
  rw [mem_recordList] at h h'
  have hhead : ∀ {w}, (k, w) ∈ (fixedStreams b.state).flatten → ∃ d ∈ [(5 : UInt8), 6, 7, 8], k.head? = some d := by
    intro w hw
    obtain ⟨stream, hstream, hr⟩ := List.mem_flatten.mp hw
    rcases fixedStreams_domain hstream hr with ⟨-, hd⟩ | ⟨-, hd⟩ | ⟨-, hd⟩ | ⟨-, hd⟩
    all_goals exact ⟨_, by decide, hd⟩
  rcases h with ⟨a, rfl, hread⟩ | hfixed
  · rcases h' with ⟨a', hkey, hread'⟩ | hfixed'
    · obtain rfl := Addr.key_injective hkey
      rw [hread] at hread'
      exact Option.some_inj.mp hread'
    · obtain ⟨d, hd, hk⟩ := hhead hfixed'
      exact absurd hd (key_head_not_fixed a hk)
  · rcases h' with ⟨a', rfl, -⟩ | hfixed'
    · obtain ⟨d, hd, hk⟩ := hhead hfixed
      exact absurd hd (key_head_not_fixed a' hk)
    · obtain ⟨stream, hstream, hr⟩ := List.mem_flatten.mp hfixed
      obtain ⟨stream', hstream', hr'⟩ := List.mem_flatten.mp hfixed'
      have hinj : Function.Injective (Vector.toList : Bytes32 → List UInt8) := fun _ _ => Vector.toList_inj.mp
      rcases fixedStreams_domain hstream hr with ⟨rfl, hd⟩ | ⟨rfl, hd⟩ | ⟨rfl, hd⟩ | ⟨rfl, hd⟩ <;>
        rcases fixedStreams_domain hstream' hr' with ⟨rfl, hd'⟩ | ⟨rfl, hd'⟩ | ⟨rfl, hd'⟩ | ⟨rfl, hd'⟩ <;>
        first
          | exact recordStream_functional hinj hr hr'
          | exact absurd (Option.some_inj.mp (hd.symm.trans hd')) (by decide)

/-! ### Changes -/

/-- The persisted records as a map. -/
def recordMap (b : Bbg F) : OrdMap (List UInt8) (List UInt8) := OrdMap.ofEntries (recordList b)

/-- `Some(value)` puts, `None` deletes. -/
def applyChanges (map : OrdMap (List UInt8) (List UInt8)) (changes : List RecordChange) :
    OrdMap (List UInt8) (List UInt8) := map.putAll (changes.map fun c => (c.key, c.value))

theorem recordMap_getElem? {b : Bbg F} {k v : List UInt8} : (recordMap b)[k]? = some v ↔ (k, v) ∈ recordList b :=
  OrdMap.getElem?_ofEntries (recordList_functional b)

/-- At an address, the record map is what a read gives. -/
theorem recordMap_key (b : Bbg F) (a : Addr) : (recordMap b)[a.key]? = read b a := by
  refine Option.ext fun v => ?_
  rw [recordMap_getElem?, mem_recordList]
  constructor
  · rintro (⟨a', hkey, hread⟩ | hfixed)
    · rwa [← Addr.key_injective hkey]
    · obtain ⟨stream, hstream, hr⟩ := List.mem_flatten.mp hfixed
      rcases fixedStreams_domain hstream hr with ⟨-, hd⟩ | ⟨-, hd⟩ | ⟨-, hd⟩ | ⟨-, hd⟩
      all_goals exact absurd (by decide) (key_head_not_fixed a hd)
  · exact fun hread => .inl ⟨a, rfl, hread⟩

theorem read_of_boundedRead {b : Bbg F} {a : Addr} {v : Option (List UInt8)} (h : boundedRead b a = .ok v) :
    v = read b a := by
  cases a with
  | metadata => exact (Except.ok.inj h).symm
  | cell c => exact (boundedRead_eq_ok h).1

/-- What `collect` lists: for each captured address the new record, where it is not the captured one. -/
structure Collected (b : Bbg F) (l : List (Addr × Option (List UInt8))) (changes : List RecordChange) : Prop where
  listed : ∀ c ∈ changes, ∃ a old, (a, old) ∈ l ∧ c.key = a.key ∧ c.value = read b a ∧ c.value ≠ old
  complete : ∀ a old, (a, old) ∈ l → read b a = old ∨ ⟨a.key, read b a⟩ ∈ changes
  sublist : (changes.map RecordChange.key).Sublist (l.map fun e => e.1.key)

theorem collect_spec {b : Bbg F} {bytes : Nat} {l : List (Addr × Option (List UInt8))} {changes : List RecordChange}
    (h : Prepared.collect b bytes l = .ok changes) : Collected b l changes := by
  induction l generalizing bytes changes with
  | nil =>
      obtain rfl := Except.ok.inj h
      exact ⟨by simp, by simp, List.Sublist.refl _⟩
  | cons e l ih =>
      obtain ⟨a, old⟩ := e
      rw [Prepared.collect] at h
      obtain ⟨v, hread, h⟩ := exists_of_bind_ok h
      obtain rfl := read_of_boundedRead hread
      split_ifs at h with hsame
      · obtain ⟨hlisted, hcomplete, hsub⟩ := ih h
        refine ⟨fun c hc => ?_, fun a' old' hmem => ?_, hsub.cons _⟩
        · obtain ⟨a', old', hmem, hrest⟩ := hlisted c hc
          exact ⟨a', old', List.mem_cons_of_mem _ hmem, hrest⟩
        · rcases List.mem_cons.mp hmem with heq | hmem
          · obtain ⟨rfl, rfl⟩ := Prod.mk.inj heq
            exact .inl hsame
          · exact hcomplete a' old' hmem
      · dsimp only at h
        split_ifs at h
        obtain ⟨rest, hrest, h⟩ := exists_of_bind_ok h
        obtain rfl := Except.ok.inj h
        obtain ⟨hlisted, hcomplete, hsub⟩ := ih hrest
        refine ⟨fun c hc => ?_, fun a' old' hmem => ?_, hsub.cons_cons _⟩
        · rcases List.mem_cons.mp hc with rfl | hc
          · exact ⟨a, old, List.mem_cons_self .., rfl, rfl, hsame⟩
          · obtain ⟨a', old', hmem, hrest⟩ := hlisted c hc
            exact ⟨a', old', List.mem_cons_of_mem _ hmem, hrest⟩
        · rcases List.mem_cons.mp hmem with heq | hmem
          · obtain ⟨rfl, rfl⟩ := Prod.mk.inj heq
            exact .inr (List.mem_cons_self ..)
          · exact (hcomplete a' old' hmem).imp_right (List.mem_cons_of_mem _)

namespace Bbg

open Prepared

/-- An accepted preparation has no proof, can be undone, and its changes are those collected at the end. -/
theorem collected_of_prepare {b : Bbg F} {events : List NativeChange} {p : Prepared F}
    (h : b.prepareNativeBatch events = .ok p) :
    b.checkpoint.acc = none ∧ Tracks b {.metadata} p ∧ Collected p.bbg p.undo.values.toList p.changes := by
  have hrun := runBatch_of_prepare h
  have hacc : b.checkpoint.acc = none := by
    rw [prepareNativeBatch] at h
    split_ifs at h with hcount hacc
    simpa using hacc
  refine ⟨hacc, tracks_runBatch hacc hrun, ?_⟩
  rw [runBatch] at hrun
  obtain ⟨p₁, -, hrun⟩ := exists_of_bind_ok hrun
  obtain ⟨p₂, -, hcollect⟩ := exists_of_bind_ok hrun
  rw [collectChanges] at hcollect
  cases hchanges : collect p₂.bbg 0 p₂.undo.values.toList with
  | error e =>
      rw [hchanges] at hcollect
      cases hcollect
  | ok changes =>
      rw [hchanges] at hcollect
      obtain rfl := Except.ok.inj hcollect
      exact collect_spec hchanges

/-- The changes of an accepted batch take the records before to the records after; each key is listed once
and with a value that is not the old one. -/
theorem delta_exact {b : Bbg F} {events : List NativeChange} {p : Prepared F}
    (h : b.prepareNativeBatch events = .ok p) :
    records b = .ok (recordList b) ∧ records p.publish = .ok (recordList p.publish) ∧
      applyChanges (recordMap b) p.changes = recordMap p.publish ∧
      (p.changes.map RecordChange.key).Nodup ∧ ∀ c ∈ p.changes, (recordMap b)[c.key]? ≠ c.value := by
  obtain ⟨hacc, htracks, hcollected⟩ := collected_of_prepare h
  have hnodup : (p.changes.map RecordChange.key).Nodup := by
    refine hcollected.sublist.nodup ?_
    have hkeys := p.undo.values.nodup_keys.map Addr.key_injective
    rwa [List.map_map] at hkeys
  have hsaved : ∀ a old, (a, old) ∈ p.undo.values.toList → old = read b a := fun a old hmem =>
    read_of_boundedRead (htracks.saved a old (p.undo.values.mem_toList.mp hmem))
  have hchange : ∀ c ∈ p.changes, ∃ a, c.key = a.key ∧ c.value = read p.bbg a ∧ c.value ≠ read b a := by
    intro c hc
    obtain ⟨a, old, hmem, hkey, hvalue, hne⟩ := hcollected.listed c hc
    exact ⟨a, hkey, hvalue, hsaved a old hmem ▸ hne⟩
  refine ⟨?_, ?_, ?_, hnodup, ?_⟩
  · rw [records, if_neg (by simp [hacc])]
  · rw [records, if_neg (by rw [publish, htracks.acc]; simp)]
  · refine Std.ExtTreeMap.ext_getElem? fun k => ?_
    by_cases hlisted : k ∈ p.changes.map RecordChange.key
    · obtain ⟨c, hc, rfl⟩ := List.mem_map.mp hlisted
      obtain ⟨a, hkey, hvalue, -⟩ := hchange c hc
      have hput : (applyChanges (recordMap b) p.changes)[c.key]? = c.value := by
        refine OrdMap.getElem?_putAll_of_mem ?_ (List.mem_map.mpr ⟨c, hc, rfl⟩)
        rw [List.map_map]
        exact hnodup
      rw [hput, hvalue, hkey, recordMap_key]
      rfl
    · have hkeep : (applyChanges (recordMap b) p.changes)[k]? = (recordMap b)[k]? := by
        refine OrdMap.getElem?_putAll_of_not_mem ?_
        rwa [List.map_map]
      -- An address that is not listed was not captured, or was captured and holds its old record.
      have hsame : ∀ a : Addr, a.key = k → read b a = read p.publish a := by
        rintro a rfl
        by_cases hmem : p.undo.values.contains a
        · rw [OrdMap.contains_eq_isSome, Option.isSome_iff_exists] at hmem
          obtain ⟨old, hold⟩ := hmem
          have hentry := p.undo.values.mem_toList.mpr hold
          rcases hcollected.complete a old hentry with hread | hchanged
          · rw [← hsaved a old hentry, publish, hread]
          · exact absurd (List.mem_map.mpr ⟨_, hchanged, rfl⟩) hlisted
        · cases a with
          | metadata => exact absurd (htracks.begun .metadata rfl) hmem
          | cell c => rw [read, read, publish, htracks.writes.cells c hmem]
      have hfixed : fixedStreams b.state = fixedStreams p.publish.state := by
        have := htracks.writes.fixed
        simp only [fixed, Fixed.mk.injEq] at this
        obtain ⟨hl, hco, hca, hf, -⟩ := this
        simp only [fixedStreams, publish, hl, hco, hca, hf]
      rw [hkeep]
      refine Option.ext fun v => ?_
      rw [recordMap_getElem?, recordMap_getElem?, mem_recordList, mem_recordList, hfixed]
      refine or_congr (exists_congr fun a => and_congr_right fun hkey => ?_) Iff.rfl
      rw [hsame a hkey]
  · intro c hc
    obtain ⟨a, hkey, -, hne⟩ := hchange c hc
    rw [hkey, recordMap_key]
    exact hne.symm

theorem delta_exact_spendAndDeclare : ∃ p, (new : Bbg Goldilocks).prepareNativeBatch spendAndDeclare = .ok p ∧
    applyChanges (recordMap (new : Bbg Goldilocks)) p.changes = recordMap p.publish := by
  obtain ⟨p, hp⟩ := exists_of_isOk
    (show ((new : Bbg Goldilocks).prepareNativeBatch spendAndDeclare).isOk = true by decide +kernel)
  exact ⟨p, hp, (delta_exact hp).2.2.1⟩

end Bbg

end LeanBbg
