import LeanBbg.RecordStream

/-! The records of a graph as the rows of a table: all of them for a graph that is written first, and those that a
preparation changes. Put into the rows before, the changed rows give the rows of the graph after. -/

set_option linter.unusedSectionVars false

namespace LeanBbg

variable {F : Type} [Hemera F] [DecidableEq F] [Brakedown F]

namespace Bbg

open Prepared Attempt

/-! ### Preparations -/

variable {b b' : Bbg F} {events : List NativeChange} {p : Prepared F}

theorem left_of_prepare [NebuRoundTrip F] {e : Error} {left : Option (Bbg F)}
    (h : b.prepareNativeBatch events = .error (e, left)) : left = some b := by
  rw [prepareNativeBatch] at h
  split_ifs at h with hcount hacc hfloor
  · exact (Prod.mk.inj (Except.error.inj h)).2.symm
  · exact (Prod.mk.inj (Except.error.inj h)).2.symm
  · exact (Prod.mk.inj (Except.error.inj h)).2.symm
  · have hnone : b.checkpoint.acc = none := by simpa using hacc
    cases hrun : b.runBatch events with
    | ok p =>
        rw [hrun] at h
        cases h
    | error failed =>
        obtain ⟨e', p⟩ := failed
        have htracks := tracks_runBatch hnone hrun
        rw [hrun] at h
        rw [← (Prod.mk.inj (Except.error.inj h)).2]
        exact Tracks.drop_eq htracks hnone

theorem drop_of_prepare [NebuRoundTrip F] (h : b.prepareNativeBatch events = .ok p) : p.drop = some b := by
  obtain ⟨hacc, htracks, -⟩ := collected_of_prepare h
  exact htracks.drop_eq hacc

/-- A record that the changes do not list is as before: its address was not captured, or holds its old record. -/
theorem read_of_not_listed (h : b.prepareNativeBatch events = .ok p) {a : Addr}
    (hlisted : a.key ∉ p.changes.map RecordChange.key) : read b a = read p.publish a := by
  obtain ⟨-, htracks, hcollected⟩ := collected_of_prepare h
  by_cases hmem : p.undo.values.contains a
  · rw [OrdMap.contains_eq_isSome, Option.isSome_iff_exists] at hmem
    obtain ⟨old, hold⟩ := hmem
    obtain rfl := read_of_boundedRead (htracks.saved a old hold)
    rcases hcollected.complete a _ (p.undo.values.mem_toList.mpr hold) with hread | hchanged
    · exact hread.symm
    · exact absurd (List.mem_map.mpr ⟨_, hchanged, rfl⟩) hlisted
  · cases a with
    | metadata => exact absurd (htracks.begun .metadata rfl) hmem
    | cell c => rw [read, read, publish, htracks.writes.cells c hmem]

theorem fixedStreams_of_prepare (h : b.prepareNativeBatch events = .ok p) :
    fixedStreams b.state = fixedStreams p.publish.state := by
  obtain ⟨-, htracks, -⟩ := collected_of_prepare h
  have hfixed := htracks.writes.fixed
  simp only [fixed, Fixed.mk.injEq] at hfixed
  obtain ⟨hlocations, hcoins, hcards, hfiles, -⟩ := hfixed
  simp only [fixedStreams, publish, hlocations, hcoins, hcards, hfiles]

/-- Two graphs have the same record under a key when they read the same at its address. -/
theorem recordMap_congr (hfixed : fixedStreams b.state = fixedStreams b'.state) {k : List UInt8}
    (hread : ∀ a : Addr, a.key = k → read b a = read b' a) : (recordMap b)[k]? = (recordMap b')[k]? := by
  refine Option.ext fun v => ?_
  rw [recordMap_getElem?, recordMap_getElem?, mem_recordList, mem_recordList, hfixed]
  refine or_congr (exists_congr fun a => and_congr_right fun hkey => ?_) Iff.rfl
  rw [hread a hkey]

/-- The rows of the changes: keys with what is under them after. -/
def changedRows (p : Prepared F) : List (List UInt8 × Option (List UInt8)) := p.changes.map fun c => (c.key, c.value)

theorem changedRows_keys (p : Prepared F) : (changedRows p).map Prod.fst = p.changes.map RecordChange.key := by
  rw [changedRows, List.map_map]
  rfl

theorem exists_addr_of_change (h : b.prepareNativeBatch events = .ok p) {c : RecordChange} (hc : c ∈ p.changes) :
    ∃ a : Addr, c.key = a.key ∧ c.value = read p.publish a := by
  obtain ⟨-, -, hcollected⟩ := collected_of_prepare h
  obtain ⟨a, old, -, hkey, hvalue, -⟩ := hcollected.listed c hc
  exact ⟨a, hkey, hvalue⟩

/-- Put into the rows of the graph before, the changes give the rows of the graph after. -/
theorem putAll_changedRows (h : b.prepareNativeBatch events = .ok p) :
    (recordMap b).putAll (changedRows p) = recordMap p.publish := by
  have hnodup : ((changedRows p).map Prod.fst).Nodup := by
    obtain ⟨-, -, hcollected⟩ := collected_of_prepare h
    have hkeys := p.undo.values.nodup_keys.map Addr.key_injective
    rw [List.map_map] at hkeys
    rw [changedRows_keys]
    exact hcollected.sublist.nodup hkeys
  refine Std.ExtTreeMap.ext_getElem? fun k => ?_
  by_cases hlisted : k ∈ p.changes.map RecordChange.key
  · obtain ⟨c, hc, rfl⟩ := List.mem_map.mp hlisted
    obtain ⟨a, hkey, hvalue⟩ := exists_addr_of_change h hc
    have hput : ((recordMap b).putAll (changedRows p))[c.key]? = c.value :=
      OrdMap.getElem?_putAll_of_mem hnodup (List.mem_map.mpr ⟨c, hc, rfl⟩)
    rw [hput, hvalue, hkey, recordMap_key]
  · have hkeep : ((recordMap b).putAll (changedRows p))[k]? = (recordMap b)[k]? :=
      OrdMap.getElem?_putAll_of_not_mem (changedRows_keys p ▸ hlisted)
    rw [hkeep]
    refine recordMap_congr (fixedStreams_of_prepare h) fun a hkey => read_of_not_listed h ?_
    rwa [hkey]

/-! ### The rows of a graph -/

theorem recordList_keys_nodup (b : Bbg F) : ((recordList b).map Prod.fst).Nodup := by
  refine List.pairwise_map.mpr ((recordList_pairwise b).imp fun {r r'} hlt heq => ?_)
  rw [heq, Std.ReflOrd.compare_self] at hlt
  cases hlt

theorem toList_recordMap (b : Bbg F) : (recordMap b).toList = recordList b := by
  have hperm := OrdMap.perm_toList (recordMap b) (recordList_keys_nodup b) fun _ _ => recordMap_getElem?.symm
  refine hperm.symm.eq_of_pairwise (fun r r' _ _ hlt hlt' => ?_) Std.ExtTreeMap.ordered_keys_toList
    (recordList_pairwise b)
  rw [Std.OrientedOrd.eq_swap, hlt'] at hlt
  cases hlt

theorem recordList_key_ne_nil (b : Bbg F) {r : List UInt8 × List UInt8} (h : r ∈ recordList b) : r.1 ≠ [] := by
  obtain ⟨stream, hstream, hr⟩ := List.mem_flatten.mp h
  obtain ⟨i, hi⟩ := List.getElem?_of_mem hstream
  obtain ⟨d, -, hhead⟩ := recordStreams_head hi hr
  intro hnil
  rw [hnil] at hhead
  cases hhead

/-- The metadata is always there. -/
theorem recordMap_ne_empty (b : Bbg F) : recordMap b ≠ ∅ := by
  intro hempty
  have hmetadata := recordMap_key b .metadata
  rw [hempty, Std.ExtTreeMap.getElem?_empty] at hmetadata
  cases hmetadata

/-- The whole of a graph as rows to put. -/
def allRows (b : Bbg F) : List (List UInt8 × Option (List UInt8)) := (recordList b).map fun r => (r.1, some r.2)

theorem putAll_allRows (b : Bbg F) : (∅ : OrdMap (List UInt8) (List UInt8)).putAll (allRows b) = recordMap b := by
  have hkeys : (allRows b).map Prod.fst = (recordList b).map Prod.fst := by
    rw [allRows, List.map_map]
    rfl
  refine Std.ExtTreeMap.ext_getElem? fun k => ?_
  by_cases hmem : k ∈ (recordList b).map Prod.fst
  · obtain ⟨r, hr, rfl⟩ := List.mem_map.mp hmem
    have hput : ((∅ : OrdMap (List UInt8) (List UInt8)).putAll (allRows b))[r.1]? = some r.2 :=
      OrdMap.getElem?_putAll_of_mem (hkeys ▸ recordList_keys_nodup b) (List.mem_map.mpr ⟨r, hr, rfl⟩)
    rw [hput]
    exact (recordMap_getElem?.mpr hr).symm
  · have hkeep : ((∅ : OrdMap (List UInt8) (List UInt8)).putAll (allRows b))[k]? = none :=
      (OrdMap.getElem?_putAll_of_not_mem (hkeys ▸ hmem)).trans Std.ExtTreeMap.getElem?_empty
    rw [hkeep]
    refine (Option.eq_none_iff_forall_ne_some.mpr fun v hv => ?_).symm
    exact hmem (List.mem_map.mpr ⟨(k, v), recordMap_getElem?.mp hv, rfl⟩)

theorem changedRows_key_ne_nil (h : b.prepareNativeBatch events = .ok p)
    {row : List UInt8 × Option (List UInt8)} (hrow : row ∈ changedRows p) : row.1 ≠ [] := by
  obtain ⟨c, hc, rfl⟩ := List.mem_map.mp hrow
  obtain ⟨a, hkey, -⟩ := exists_addr_of_change h hc
  rw [hkey]
  cases a <;> exact List.cons_ne_nil _ _

end Bbg

end LeanBbg
