import LeanBbg.TieredRuns

/-! Which rejected calls leave a store of two tiers usable. The pending sets of the tiers have budgets of their
own; while the shard view has a change pending, the cache has one of the same length, so that no call fails
between the tiers without having changed one of them. -/

namespace LeanBbg.Storage

open Std Bytes Attempt

variable {F : Type}

namespace WriteBuffer

variable {b b' : WriteBuffer F} {dimension : UInt8} {key : Bytes32}

theorem Inv.put_ok (h : b.Inv) (hunknown : b.unknown = none) {value : List F}
    (hput : b.put dimension key value = .ok b') : b'.Inv ∧ b'.unknown = none ∧
      b'.cache = b.cache.insert ⟨dimension, key⟩ value ∧ (∀ q, q ≠ ⟨dimension, key⟩ → b'.pending q = b.pending q) ∧
      (dimension < EPHEMERAL → b'.pending ⟨dimension, key⟩ = some (some value)) ∧ dimension ≤ EPHEMERAL ∧
      value.length ≤ MAX_VALUE_ELEMENTS := by
  by_cases hd : dimension ≤ EPHEMERAL
  · by_cases heq : dimension = EPHEMERAL
    · subst heq
      rw [put_ephemeral hunknown] at hput
      split_ifs at hput with hlong
      obtain rfl := Except.ok.inj hput
      exact ⟨h.of_same rfl rfl rfl rfl, hunknown, rfl, fun _ _ => rfl, fun hlt => absurd hlt (UInt8.lt_irrefl _), hd,
        Nat.not_lt.mp hlong⟩
    · have hlt := UInt8.lt_of_le_of_ne hd heq
      rw [put_eq hunknown hlt] at hput
      split_ifs at hput with hlong helements hroom
      obtain rfl := Except.ok.inj hput
      refine ⟨h.stageValue hlt (Nat.not_lt.mp hlong) ⟨Nat.not_lt.mp helements, hroom⟩,
        (stageValue_unknown ..).trans hunknown, stageValue_cache .., fun q hq => ?_, fun _ => ?_, hd,
        Nat.not_lt.mp hlong⟩
      · rw [h.pending_stageValue, if_neg hq]
      · rw [h.pending_stageValue, if_pos rfl]
  · rw [put_dimension hunknown hd] at hput
    cases hput

theorem Inv.delete_ok (h : b.Inv) (hunknown : b.unknown = none) (hdelete : b.delete dimension key = .ok b') :
    b'.Inv ∧ b'.unknown = none ∧ b'.cache = b.cache.erase ⟨dimension, key⟩ ∧
      (∀ q, q ≠ ⟨dimension, key⟩ → b'.pending q = b.pending q) ∧
      (dimension < EPHEMERAL → b'.pending ⟨dimension, key⟩ = some none) ∧ dimension ≤ EPHEMERAL := by
  by_cases hd : dimension ≤ EPHEMERAL
  · by_cases heq : dimension = EPHEMERAL
    · subst heq
      rw [delete_ephemeral hunknown] at hdelete
      obtain rfl := Except.ok.inj hdelete
      exact ⟨h.of_same rfl rfl rfl rfl, hunknown, rfl, fun _ _ => rfl, fun hlt => absurd hlt (UInt8.lt_irrefl _), hd⟩
    · have hlt := UInt8.lt_of_le_of_ne hd heq
      rw [delete_eq hunknown hlt] at hdelete
      split_ifs at hdelete with hroom
      obtain rfl := Except.ok.inj hdelete
      refine ⟨h.stageDeletion hlt hroom, (stageDeletion_unknown ..).trans hunknown, stageDeletion_cache ..,
        fun q hq => ?_, fun _ => ?_, hd⟩
      · rw [h.pending_stageDeletion, if_neg hq]
      · rw [h.pending_stageDeletion, if_pos rfl]
  · rw [delete_dimension hunknown hd] at hdelete
    cases hdelete

/-- A value as long as the one that is pending is accepted. -/
theorem Inv.put_again (h : b.Inv) (hunknown : b.unknown = none) (hd : dimension < EPHEMERAL) {old value : List F}
    (hpending : b.pending ⟨dimension, key⟩ = some (some old)) (hlength : value.length = old.length) :
    ∃ b', b.put dimension key value = .ok b' := by
  have hmem := h.pending_eq_some.mp hpending
  have hshort := h.short _ hmem
  obtain ⟨i, hi⟩ := List.getElem?_of_mem hmem
  have hposition := (h.indexed ⟨dimension, key⟩ i).mpr ⟨old, hi⟩
  obtain ⟨old', hold', hweight, hcounted⟩ := h.weight_of_position hposition
  rw [hi] at hold'
  obtain ⟨-, rfl⟩ := Prod.mk.inj (Option.some_inj.mp hold')
  have helements := h.elements_le
  have hroom : b.HasRoom ⟨dimension, key⟩ := by
    left
    rw [OrdMap.contains_eq_isSome b.positions, hposition]
    simp
  refine ⟨b.stageValue ⟨dimension, key⟩ value, ?_⟩
  dsimp only at hshort
  rw [put_eq hunknown hd, if_neg (by omega), if_neg (by omega), if_pos hroom]

theorem delete_again (hunknown : b.unknown = none) (hd : dimension < EPHEMERAL)
    (hpending : b.pending ⟨dimension, key⟩ = some none) : ∃ b', b.delete dimension key = .ok b' := by
  have hroom : b.HasRoom ⟨dimension, key⟩ := by
    left
    rw [pending_eq_deleted.mp hpending]
    rfl
  exact ⟨_, by rw [delete_eq hunknown hd, if_pos hroom]⟩

end WriteBuffer

/-! ### The pending sets of the tiers -/

variable [Nebu F] {t : TieredStore F}

/-- The tiers of a store that has not failed. -/
structure Coupled (t : TieredStore F) : Prop where
  hot : t.hot.state.Inv
  unknown : t.hot.state.unknown = none
  warm : ∃ A, Shows t.warm A ∧ A.failure = none
  cached : ∀ (k : EntryKey) value, t.hot.state.cache[k]? = some value →
    value.length ≤ MAX_VALUE_ELEMENTS ∧ k.dimension ≤ EPHEMERAL
  paired : ∀ k c, t.warm.pending.pending k = some c →
    (t.hot.state.pending k).map (Option.map List.length) = some (c.map List.length) ∧
      t.hot.state.cache[k]?.map List.length = c.map List.length

theorem Coupled.update (h : Coupled t) {t' : TieredStore F} {k : EntryKey} (hhot : t'.hot.state.Inv)
    (hunknown : t'.hot.state.unknown = none) (hwarm : ∃ A, Shows t'.warm A ∧ A.failure = none)
    (hcache : ∀ q, q ≠ k → t'.hot.state.cache[q]? = t.hot.state.cache[q]?)
    (hpending : ∀ q, q ≠ k → t'.hot.state.pending q = t.hot.state.pending q)
    (hwarmPending : ∀ q, q ≠ k → t'.warm.pending.pending q = t.warm.pending.pending q)
    (hcached : ∀ value, t'.hot.state.cache[k]? = some value →
      value.length ≤ MAX_VALUE_ELEMENTS ∧ k.dimension ≤ EPHEMERAL)
    (hpaired : ∀ c, t'.warm.pending.pending k = some c →
      (t'.hot.state.pending k).map (Option.map List.length) = some (c.map List.length) ∧
        t'.hot.state.cache[k]?.map List.length = c.map List.length) : Coupled t' where
  hot := hhot
  unknown := hunknown
  warm := hwarm
  cached q value hq := by
    by_cases hqk : q = k
    · subst hqk
      exact hcached value hq
    · rw [hcache q hqk] at hq
      exact h.cached q value hq
  paired q c hq := by
    by_cases hqk : q = k
    · subst hqk
      exact hpaired c hq
    · rw [hwarmPending q hqk] at hq
      rw [hpending q hqk, hcache q hqk]
      exact h.paired q c hq

/-- The failure that a store retains is no part of its tiers. -/
theorem Coupled.congr (h : Coupled t) {t' : TieredStore F} (hhot : t'.hot = t.hot) (hwarm : t'.warm = t.warm) :
    Coupled t' := by
  refine ⟨?_, ?_, ?_, ?_, ?_⟩
  · rw [hhot]
    exact h.hot
  · rw [hhot]
    exact h.unknown
  · rw [hwarm]
    exact h.warm
  · rw [hhot]
    exact h.cached
  · rw [hhot, hwarm]
    exact h.paired

/-- A put of the shard view is a put of its pending set. -/
theorem warm_put_ok {s s' : DiskStore F} {A : Shelf F} (hshows : Shows s A) (hready : A.failure = none)
    {dimension : UInt8} {key : Bytes32} {value : List F} (hput : s.put dimension key value = .ok s') :
    s.pending.put dimension key value = .ok s'.pending ∧ ∃ A', Shows s' A' ∧ A'.failure = none := by
  obtain ⟨-, -, hshows'⟩ := hshows.put hput
  refine ⟨?_, _, hshows', (A.failure_put ..).trans hready⟩
  obtain ⟨_, hput⟩ := hshows.ready_of_ok hput
  obtain ⟨pending, hpending, hput⟩ := exists_of_bind_ok hput
  obtain rfl := Except.ok.inj hput
  exact hpending

theorem warm_remove_ok [NebuCanonical F] {s s' : DiskStore F} {A : Shelf F} (hshows : Shows s A)
    (hready : A.failure = none) {dimension : UInt8} {key : Bytes32} {value : Option (List F)}
    (hremove : s.remove dimension key = .ok (value, s')) :
    s.pending.delete dimension key = .ok s'.pending ∧ ∃ A', Shows s' A' ∧ A'.failure = none := by
  obtain ⟨-, -, -, hshows'⟩ := hshows.remove hremove
  refine ⟨?_, _, hshows', (A.failure_remove ..).trans hready⟩
  obtain ⟨_, -, hremove⟩ := exists_of_bind_ok hremove
  obtain ⟨pending, hpending, hremove⟩ := exists_of_bind_ok hremove
  obtain ⟨-, rfl⟩ := Prod.mk.inj (Except.ok.inj hremove)
  exact hpending

theorem MemStore.put_state {m m' : MemStore F} {dimension : UInt8} {key : Bytes32} {value : List F}
    (h : m.put dimension key value = .ok m') : m.state.put dimension key value = .ok m'.state := by
  rw [MemStore.put] at h
  cases hstate : m.state.put dimension key value with
  | error e =>
      rw [hstate] at h
      cases h
  | ok state =>
      rw [hstate] at h
      obtain rfl := Except.ok.inj h
      rfl

theorem MemStore.remove_state {m m' : MemStore F} {dimension : UInt8} {key : Bytes32} {value : Option (List F)}
    (h : m.remove dimension key = .ok (value, m')) : m.state.delete dimension key = .ok m'.state := by
  obtain ⟨state, hstate, h⟩ := exists_of_bind_ok h
  obtain ⟨-, rfl⟩ := Prod.mk.inj (Except.ok.inj h)
  exact hstate

/-- A value is written to both tiers. -/
theorem Coupled.putBoth (h : Coupled t) {dimension : UInt8} {key : Bytes32} {value : List F} (hne : dimension ≠ EPHEMERAL)
    {warm : DiskStore F} {hot : MemStore F} (hwarm : t.warm.put dimension key value = .ok warm)
    (hhot : t.hot.put dimension key value = .ok hot) : Coupled { t with warm := warm, hot := hot } := by
  obtain ⟨A, hshows, hready⟩ := h.warm
  obtain ⟨hbuffer, hshows'⟩ := warm_put_ok hshows hready hwarm
  obtain ⟨-, -, -, hother, hself, hd, hlength⟩ := hshows.inv.put_ok (hshows.unknown_none hready) hbuffer
  obtain ⟨hinv, hunknown, hcache, hhotOther, hhotSelf, -, -⟩ := h.hot.put_ok h.unknown (MemStore.put_state hhot)
  have hlt := UInt8.lt_of_le_of_ne hd hne
  refine h.update (k := ⟨dimension, key⟩) hinv hunknown hshows' (fun q hq => ?_) hhotOther hother (fun v hv => ?_)
    fun c hc => ?_
  · dsimp only
    rw [hcache, OrdMap.getElem?_insert, if_neg (Ne.symm hq)]
  · dsimp only at hv
    rw [hcache, OrdMap.getElem?_insert, if_pos rfl] at hv
    exact ⟨Option.some_inj.mp hv ▸ hlength, hd⟩
  · dsimp only at hc ⊢
    rw [hself hlt] at hc
    obtain rfl := Option.some_inj.mp hc
    rw [hhotSelf hlt, hcache, OrdMap.getElem?_insert, if_pos rfl]
    exact ⟨rfl, rfl⟩

theorem Coupled.removeBoth [NebuCanonical F] (h : Coupled t) {dimension : UInt8} {key : Bytes32}
    (hne : dimension ≠ EPHEMERAL) {value value' : Option (List F)} {warm : DiskStore F} {hot : MemStore F}
    (hwarm : t.warm.remove dimension key = .ok (value, warm)) (hhot : t.hot.remove dimension key = .ok (value', hot)) :
    Coupled { t with warm := warm, hot := hot } := by
  obtain ⟨A, hshows, hready⟩ := h.warm
  obtain ⟨hbuffer, hshows'⟩ := warm_remove_ok hshows hready hwarm
  obtain ⟨-, -, -, hother, hself, hd⟩ := hshows.inv.delete_ok (hshows.unknown_none hready) hbuffer
  obtain ⟨hinv, hunknown, hcache, hhotOther, hhotSelf, -⟩ := h.hot.delete_ok h.unknown (MemStore.remove_state hhot)
  have hlt := UInt8.lt_of_le_of_ne hd hne
  refine h.update (k := ⟨dimension, key⟩) hinv hunknown hshows' (fun q hq => ?_) hhotOther hother (fun v hv => ?_)
    fun c hc => ?_
  · dsimp only
    rw [hcache, OrdMap.getElem?_erase, if_neg (Ne.symm hq)]
  · dsimp only at hv
    rw [hcache, OrdMap.getElem?_erase, if_pos rfl] at hv
    cases hv
  · dsimp only at hc ⊢
    rw [hself hlt] at hc
    obtain rfl := Option.some_inj.mp hc
    rw [hhotSelf hlt, hcache, OrdMap.getElem?_erase, if_pos rfl]
    exact ⟨rfl, rfl⟩

/-- A value is written to the cache alone: the shard view has nothing pending there, or a value as long. -/
theorem Coupled.putHot (h : Coupled t) {dimension : UInt8} {key : Bytes32} {value : List F} {hot : MemStore F}
    (hhot : t.hot.put dimension key value = .ok hot)
    (hwarm : ∀ c, t.warm.pending.pending ⟨dimension, key⟩ = some c → c.map List.length = some value.length) :
    Coupled { t with hot := hot } := by
  obtain ⟨A, hshows, hready⟩ := h.warm
  obtain ⟨hinv, hunknown, hcache, hhotOther, hhotSelf, hd, hlength⟩ :=
    h.hot.put_ok h.unknown (MemStore.put_state hhot)
  refine h.update (k := ⟨dimension, key⟩) hinv hunknown h.warm (fun q hq => ?_) hhotOther (fun _ _ => rfl)
    (fun v hv => ?_) fun c hc => ?_
  · dsimp only
    rw [hcache, OrdMap.getElem?_insert, if_neg (Ne.symm hq)]
  · dsimp only at hv
    rw [hcache, OrdMap.getElem?_insert, if_pos rfl] at hv
    exact ⟨Option.some_inj.mp hv ▸ hlength, hd⟩
  · -- the shard view stages persistent dimensions only
    have hlt : dimension < EPHEMERAL := by
      by_contra hnot
      have hnone := hshows.inv.pending_ephemeral (q := ⟨dimension, key⟩) hnot
      rw [hnone] at hc
      cases hc
    dsimp only at hc ⊢
    rw [hhotSelf hlt, hcache, OrdMap.getElem?_insert, if_pos rfl, hwarm c hc]
    exact ⟨rfl, rfl⟩

/-- An entry is dropped from the cache alone: the shard view has nothing pending there. -/
theorem Coupled.removeHot (h : Coupled t) {dimension : UInt8} {key : Bytes32} {value : Option (List F)}
    {hot : MemStore F} (hhot : t.hot.remove dimension key = .ok (value, hot))
    (hwarm : t.warm.pending.pending ⟨dimension, key⟩ = none) : Coupled { t with hot := hot } := by
  obtain ⟨hinv, hunknown, hcache, hhotOther, -, -⟩ := h.hot.delete_ok h.unknown (MemStore.remove_state hhot)
  refine h.update (k := ⟨dimension, key⟩) hinv hunknown h.warm (fun q hq => ?_) hhotOther (fun _ _ => rfl)
    (fun v hv => ?_) fun c hc => ?_
  · dsimp only
    rw [hcache, OrdMap.getElem?_erase, if_neg (Ne.symm hq)]
  · dsimp only at hv
    rw [hcache, OrdMap.getElem?_erase, if_pos rfl] at hv
    cases hv
  · dsimp only at hc
    rw [hwarm] at hc
    cases hc

omit [Nebu F] in
theorem copyValue_ok {value copy : List F} {maxElements : Nat} (h : copyValue value maxElements = .ok copy) :
    copy = value := by
  obtain ⟨_, -, h⟩ := exists_of_bind_ok h
  split_ifs at h
  exact (Except.ok.inj h).symm

/-- What a persistent read of the tiers finds: the cached value, or what the shard view reads. -/
theorem Coupled.read_cases (h : Coupled t) (hfailure : t.failure = none) {dimension : UInt8} {key : Bytes32}
    (hne : dimension ≠ EPHEMERAL) {maxElements : Nat} {value : Option (List F)}
    (hread : t.read dimension key maxElements = .ok value) :
    (∃ v, t.hot.get dimension key = some v ∧ value = some v) ∨
      (t.hot.get dimension key = none ∧ t.warm.read dimension key maxElements = .ok value) := by
  obtain ⟨A, hshows, hready⟩ := h.warm
  rw [TieredStore.read, hfailure] at hread
  dsimp only at hread
  rw [if_pos hne, hshows.not_poisoned hready, if_neg Bool.false_ne_true] at hread
  cases hget : t.hot.get dimension key with
  | none =>
      rw [hget] at hread
      exact .inr ⟨rfl, hread⟩
  | some v =>
      rw [hget] at hread
      dsimp only at hread
      cases hcopy : copyValue v maxElements with
      | error e =>
          rw [hcopy] at hread
          cases hread
      | ok copy =>
          rw [hcopy] at hread
          obtain rfl := Except.ok.inj hread
          exact .inl ⟨v, rfl, by rw [copyValue_ok hcopy]⟩

theorem Coupled.promote [NebuCanonical F] (h : Coupled t) (hfailure : t.failure = none) {dimension : UInt8}
    {key : Bytes32} {value : List F} (hread : t.read dimension key MAX_VALUE_ELEMENTS = .ok (some value))
    {hot : MemStore F} (hhot : t.hot.put dimension key value = .ok hot) : Coupled { t with hot := hot } := by
  refine h.putHot hhot fun c hc => ?_
  obtain ⟨A, hshows, hready⟩ := h.warm
  have hlt : dimension < EPHEMERAL := by
    by_contra hnot
    rw [hshows.inv.pending_ephemeral (q := ⟨dimension, key⟩) hnot] at hc
    cases hc
  obtain ⟨-, hlength⟩ := h.paired _ c hc
  rcases h.read_cases hfailure (UInt8.ne_of_lt hlt) hread with ⟨v, hget, heq⟩ | ⟨hget, hwarm⟩
  · obtain rfl := Option.some_inj.mp heq
    rw [← hlength]
    change (t.hot.get dimension key).map List.length = _
    rw [hget]
    rfl
  · -- nothing is cached, so a deletion is pending, and the shard view reads nothing
    exfalso
    change (t.hot.get dimension key).map List.length = _ at hlength
    rw [hget] at hlength
    cases c with
    | some w => cases hlength
    | none =>
        have hanswer := hshows.read hready (UInt8.le_of_lt hlt) key (Nat.le_refl MAX_VALUE_ELEMENTS)
        rw [hwarm, Shelf.read, if_neg (UInt8.ne_of_lt hlt), ← hshows.staged, hc] at hanswer
        cases hanswer

theorem Coupled.write (h : Coupled t) {dimension : UInt8} {key : Bytes32} {elements : List F} {t' : TieredStore F}
    (hwrite : t.write dimension key elements = some t') : Coupled t' ∧ t'.failure = t.failure := by
  rw [TieredStore.write] at hwrite
  split_ifs at hwrite
  obtain ⟨hot, hhot, rfl⟩ := Option.map_eq_some_iff.mp hwrite
  obtain ⟨value, hget, hcache, hunknown, hdirty, hdeleted, hpositions, helements⟩ := MemStore.write_ok hhot
  have hpending : ∀ q, hot.state.pending q = t.hot.state.pending q := by
    intro q
    rw [WriteBuffer.pending, WriteBuffer.pending, hdeleted, hpositions, hdirty]
  obtain ⟨hlength, hd⟩ := h.cached _ value hget
  refine ⟨h.update (k := ⟨dimension, key⟩) (h.hot.of_same hdirty hdeleted hpositions helements)
    (hunknown.trans h.unknown) h.warm (fun q hq => ?_) (fun q _ => hpending q) (fun _ _ => rfl) (fun v hv => ?_)
    fun c hc => ?_, rfl⟩
  · dsimp only
    rw [hcache, OrdMap.getElem?_insert, if_neg (Ne.symm hq)]
  · dsimp only at hv
    rw [hcache, OrdMap.getElem?_insert, if_pos rfl] at hv
    obtain rfl := Option.some_inj.mp hv
    rw [overwrite_length]
    exact ⟨hlength, hd⟩
  · obtain ⟨hpaired, hcached⟩ := h.paired _ c hc
    refine ⟨(congrArg _ (hpending _)).trans hpaired, ?_⟩
    dsimp only
    rw [hcache, OrdMap.getElem?_insert, if_pos rfl, Option.map_some, overwrite_length, ← hcached]
    change _ = (t.hot.get dimension key).map List.length
    rw [hget]
    rfl

/-- A commit that is written empties both pending sets; it does not fail. -/
theorem Coupled.commit (h : Coupled t) (hfailure : t.failure = none) (hemera : List UInt8 → Bytes32) :
    ∃ id t', t.commit hemera .done = (.ok id, t') ∧ t'.failure = none ∧ Coupled t' := by
  obtain ⟨A, hshows, hready⟩ := h.warm
  obtain ⟨hshows', -, hok, hdone⟩ := hshows.step_commit hemera .done
  obtain ⟨id, hid⟩ := hdone hready rfl
  obtain ⟨hclean, -⟩ := hok id hid
  rw [hid] at hshows'
  rw [TieredStore.commit, hfailure]
  cases hwarm : t.warm.commit hemera .done with
  | mk answer warm =>
      rw [hwarm] at hid hshows' hclean
      dsimp only at hid hshows' hclean
      subst hid
      refine ⟨id, _, rfl, rfl, ?_⟩
      have hnone := hshows'.inv.hasPending_eq_false.mp hclean
      refine ⟨WriteBuffer.inv_clearPending _, h.unknown, ⟨_, hshows', hready⟩, h.cached, fun k c hc => ?_⟩
      dsimp only at hc
      rw [hnone k] at hc
      cases hc

/-! ### Calls -/

variable [DecidableEq F] (hemera : List UInt8 → Bytes32)

inductive TierCall (F : Type) where
  | put (dimension : UInt8) (key : Bytes32) (value : List F)
  | remove (dimension : UInt8) (key : Bytes32)
  | markDirty (dimension : UInt8) (key : Bytes32)
  | promote (dimension : UInt8) (key : Bytes32)
  | evict (dimension : UInt8) (key : Bytes32)
  | commit
  /-- `get_mut` and a write, not marked yet. -/
  | write (dimension : UInt8) (key : Bytes32) (elements : List F)

/-- A call with whether it is accepted, on an engine that writes every batch. -/
def TieredStore.call (t : TieredStore F) : TierCall F → Except StorageError Unit × TieredStore F
  | .put dimension key value => t.put dimension key value
  | .remove dimension key => ((t.remove dimension key).1.map fun _ => (), (t.remove dimension key).2)
  | .markDirty dimension key => t.markDirty dimension key
  | .promote dimension key => ((t.promote dimension key).1.map fun _ => (), (t.promote dimension key).2)
  | .evict dimension key => t.evict dimension key
  | .commit => ((t.commit hemera .done).1.map fun _ => (), (t.commit hemera .done).2)
  | .write dimension key elements => (.ok (), (t.write dimension key elements).getD t)

def TieredStore.calls (t : TieredStore F) (calls : List (TierCall F)) : TieredStore F :=
  calls.foldl (fun t call => (t.call hemera call).2) t

/-- What a call does to tiers that are coupled. It is accepted and leaves them coupled; or it is refused and nothing has
changed; or the shard view has refused a marked value, which freezes the store; or the shard view has changed and the
cache has refused, which freezes it too. -/
inductive Outcome (t : TieredStore F) : TierCall F → Except StorageError Unit → TieredStore F → Prop where
  | accepted {call : TierCall F} {t' : TieredStore F} (failure : t'.failure = none) (coupled : Coupled t') :
      Outcome t call (.ok ()) t'
  | refused {call : TierCall F} (e : StorageError) : Outcome t call (.error e) t
  | marked {dimension : UInt8} {key : Bytes32} {value : List F} {e : StorageError} (hd : dimension < EPHEMERAL)
      (cached : t.hot.get dimension key = some value) (refused : t.warm.put dimension key value = .error e) :
      Outcome t (.markDirty dimension key) (.error e) { t with failure := some e }
  | torn {call : TierCall F} {warm : DiskStore F} (e : StorageError)
      (changed : ∃ k, warm.pending.pending k ≠ t.warm.pending.pending k) :
      Outcome t call (.error e) { t with warm := warm, failure := some e }

omit [DecidableEq F] in
/-- The cache refuses a value that the shard view has accepted only if that was a change there. -/
theorem Coupled.torn_put (h : Coupled t) {dimension : UInt8} {key : Bytes32} {value : List F}
    (hne : dimension ≠ EPHEMERAL) {warm : DiskStore F} {e : StorageError}
    (hwarm : t.warm.put dimension key value = .ok warm) (hhot : t.hot.put dimension key value = .error e) :
    ∃ k, warm.pending.pending k ≠ t.warm.pending.pending k := by
  obtain ⟨A, hshows, hready⟩ := h.warm
  obtain ⟨hbuffer, -⟩ := warm_put_ok hshows hready hwarm
  obtain ⟨-, -, -, -, hself, hd, -⟩ := hshows.inv.put_ok (hshows.unknown_none hready) hbuffer
  have hlt := UInt8.lt_of_le_of_ne hd hne
  refine ⟨⟨dimension, key⟩, fun hsame => ?_⟩
  rw [hself hlt] at hsame
  obtain ⟨hpaired, -⟩ := h.paired _ _ hsame.symm
  obtain ⟨c, hc, hlength⟩ := Option.map_eq_some_iff.mp hpaired
  obtain ⟨old, rfl, hold⟩ := Option.map_eq_some_iff.mp hlength
  obtain ⟨state, hput⟩ := h.hot.put_again h.unknown hlt hc hold.symm
  rw [MemStore.put, hput] at hhot
  cases hhot

omit [DecidableEq F] in
theorem Coupled.torn_remove [NebuCanonical F] (h : Coupled t) {dimension : UInt8} {key : Bytes32}
    (hne : dimension ≠ EPHEMERAL) {value : Option (List F)} {warm : DiskStore F} {e : StorageError}
    (hwarm : t.warm.remove dimension key = .ok (value, warm)) (hhot : t.hot.remove dimension key = .error e) :
    ∃ k, warm.pending.pending k ≠ t.warm.pending.pending k := by
  obtain ⟨A, hshows, hready⟩ := h.warm
  obtain ⟨hbuffer, -⟩ := warm_remove_ok hshows hready hwarm
  obtain ⟨-, -, -, -, hself, hd⟩ := hshows.inv.delete_ok (hshows.unknown_none hready) hbuffer
  have hlt := UInt8.lt_of_le_of_ne hd hne
  refine ⟨⟨dimension, key⟩, fun hsame => ?_⟩
  rw [hself hlt] at hsame
  obtain ⟨hpaired, -⟩ := h.paired _ _ hsame.symm
  obtain ⟨c, hc, hlength⟩ := Option.map_eq_some_iff.mp hpaired
  obtain rfl := Option.map_eq_none_iff.mp hlength
  obtain ⟨state, hdelete⟩ := WriteBuffer.delete_again h.unknown hlt hc
  rw [MemStore.remove, hdelete] at hhot
  cases hhot

theorem Coupled.call_put (h : Coupled t) (hfailure : t.failure = none) (dimension : UInt8) (key : Bytes32)
    (value : List F) :
    Outcome t (.put dimension key value) (t.put dimension key value).1 (t.put dimension key value).2 := by
  rw [TieredStore.put]
  simp only [hfailure]
  by_cases hne : dimension ≠ EPHEMERAL
  · rw [if_pos hne]
    cases hwarm : t.warm.put dimension key value with
    | error e => exact .refused e
    | ok warm =>
        dsimp only
        cases hhot : t.hot.put dimension key value with
        | error e => exact .torn e (h.torn_put hne hwarm hhot)
        | ok hot => exact .accepted rfl ((h.putBoth hne hwarm hhot).congr rfl rfl)
  · rw [if_neg hne]
    have heq := not_not.mp hne
    obtain ⟨A, hshows, hready⟩ := h.warm
    cases hhot : t.hot.put dimension key value with
    | error e => exact .refused e
    | ok hot =>
        have hput : Coupled { t with hot := hot } := h.putHot hhot fun c hc => by
          rw [hshows.inv.pending_ephemeral (q := ⟨dimension, key⟩) (by rw [heq]; exact UInt8.lt_irrefl _)] at hc
          cases hc
        exact .accepted rfl (hput.congr rfl rfl)

theorem Coupled.call_remove [NebuCanonical F] (h : Coupled t) (hfailure : t.failure = none) (dimension : UInt8)
    (key : Bytes32) :
    Outcome t (.remove dimension key) ((t.remove dimension key).1.map fun _ => ()) (t.remove dimension key).2 := by
  rw [TieredStore.remove]
  simp only [hfailure]
  cases t.read dimension key MAX_VALUE_ELEMENTS with
  | error e => exact .refused e
  | ok value =>
      dsimp only
      by_cases hne : dimension ≠ EPHEMERAL
      · rw [if_pos hne]
        cases hwarm : t.warm.remove dimension key with
        | error e => exact .refused e
        | ok pair =>
            obtain ⟨old, warm⟩ := pair
            dsimp only
            cases hhot : t.hot.remove dimension key with
            | error e => exact .torn e (h.torn_remove hne hwarm hhot)
            | ok pair =>
                obtain ⟨old', hot⟩ := pair
                exact .accepted rfl ((h.removeBoth hne hwarm hhot).congr rfl rfl)
      · rw [if_neg hne]
        have heq := not_not.mp hne
        obtain ⟨A, hshows, hready⟩ := h.warm
        cases hhot : t.hot.remove dimension key with
        | error e => exact .refused e
        | ok pair =>
            obtain ⟨old, hot⟩ := pair
            have hnone := hshows.inv.pending_ephemeral (q := ⟨dimension, key⟩) (by rw [heq]; exact UInt8.lt_irrefl _)
            exact .accepted rfl ((h.removeHot hhot hnone).congr rfl rfl)

theorem Coupled.call_markDirty (h : Coupled t) (hfailure : t.failure = none) (dimension : UInt8) (key : Bytes32) :
    Outcome t (.markDirty dimension key) (t.markDirty dimension key).1 (t.markDirty dimension key).2 := by
  by_cases hd : dimension ≤ EPHEMERAL
  · rw [TieredStore.markDirty_eq hfailure hd]
    by_cases heq : dimension = EPHEMERAL
    · rw [if_pos heq]
      exact .accepted hfailure h
    · rw [if_neg heq]
      cases hget : t.hot.get dimension key with
      | none => exact .accepted hfailure h
      | some value =>
          dsimp only
          cases hwarm : t.warm.put dimension key value with
          | error e => exact .marked (UInt8.lt_of_le_of_ne hd heq) hget hwarm
          | ok warm =>
              dsimp only
              cases hhot : t.hot.put dimension key value with
              | error e => exact .torn e (h.torn_put heq hwarm hhot)
              | ok hot => exact .accepted hfailure (h.putBoth heq hwarm hhot)
  · rw [TieredStore.markDirty]
    simp only [hfailure]
    rw [checkDimension, if_pos (UInt8.not_le.mp hd)]
    exact .refused _

theorem Coupled.call_promote [NebuCanonical F] (h : Coupled t) (hfailure : t.failure = none) (dimension : UInt8)
    (key : Bytes32) :
    Outcome t (.promote dimension key) ((t.promote dimension key).1.map fun _ => ()) (t.promote dimension key).2 := by
  rw [TieredStore.promote]
  simp only [hfailure]
  cases hread : t.read dimension key MAX_VALUE_ELEMENTS with
  | error e => exact .refused e
  | ok value =>
      cases value with
      | none => exact .accepted hfailure h
      | some value =>
          dsimp only
          cases hhot : t.hot.put dimension key value with
          | error e => exact .refused e
          | ok hot => exact .accepted rfl ((h.promote hfailure hread hhot).congr rfl rfl)

theorem Coupled.call_evict (h : Coupled t) (hfailure : t.failure = none) (dimension : UInt8) (key : Bytes32) :
    Outcome t (.evict dimension key) (t.evict dimension key).1 (t.evict dimension key).2 := by
  rw [TieredStore.evict]
  simp only [hfailure]
  cases checkDimension dimension with
  | error e => exact .refused e
  | ok _ =>
      dsimp only
      by_cases heq : dimension = EPHEMERAL
      · rw [if_pos heq]
        exact .accepted hfailure h
      · rw [if_neg heq]
        cases hpending : t.warm.pending.hasPending with
        | true => exact .accepted hfailure h
        | false =>
            obtain ⟨A, hshows, hready⟩ := h.warm
            have hnone := hshows.inv.hasPending_eq_false.mp hpending ⟨dimension, key⟩
            rw [if_pos (show (!false) = true from rfl)]
            cases t.warm.read dimension key MAX_VALUE_ELEMENTS with
            | error e => exact .refused e
            | ok value =>
                cases value with
                | none => exact .accepted hfailure h
                | some value =>
                    dsimp only
                    by_cases hsame : t.hot.get dimension key = some value
                    · rw [if_pos hsame]
                      cases hhot : t.hot.remove dimension key with
                      | error e => exact .refused e
                      | ok pair =>
                          obtain ⟨old, hot⟩ := pair
                          exact .accepted rfl ((h.removeHot hhot hnone).congr rfl rfl)
                    · rw [if_neg hsame]
                      exact .accepted hfailure h

/-- What a call does, whichever it is. -/
theorem Coupled.call [NebuCanonical F] (h : Coupled t) (hfailure : t.failure = none) (call : TierCall F) :
    Outcome t call (t.call hemera call).1 (t.call hemera call).2 := by
  cases call with
  | put dimension key value => exact h.call_put hfailure dimension key value
  | remove dimension key => exact h.call_remove hfailure dimension key
  | markDirty dimension key => exact h.call_markDirty hfailure dimension key
  | promote dimension key => exact h.call_promote hfailure dimension key
  | evict dimension key => exact h.call_evict hfailure dimension key
  | commit =>
      obtain ⟨id, t', hcommit, hfailure', hcoupled⟩ := h.commit hfailure hemera
      rw [TieredStore.call, hcommit]
      exact .accepted hfailure' hcoupled
  | write dimension key elements =>
      rw [TieredStore.call]
      cases hwrite : t.write dimension key elements with
      | none => exact .accepted hfailure h
      | some t' =>
          obtain ⟨hcoupled, hsame⟩ := h.write hwrite
          exact .accepted (hsame.trans hfailure) hcoupled

/-! ### Rejections -/

/-- A store that has failed answers every call with its failure and does not change. -/
theorem call_of_failure {e : StorageError} (hfailure : t.failure = some e) (call : TierCall F) :
    (t.call hemera call).2 = t := by
  have hpoisoned : t.isPoisoned = true := by
    rw [TieredStore.isPoisoned, hfailure]
    rfl
  cases call with
  | put dimension key value => simp only [TieredStore.call, TieredStore.put, hfailure]
  | remove dimension key => simp only [TieredStore.call, TieredStore.remove, hfailure]
  | markDirty dimension key => simp only [TieredStore.call, TieredStore.markDirty, hfailure]
  | promote dimension key => simp only [TieredStore.call, TieredStore.promote, hfailure]
  | evict dimension key => simp only [TieredStore.call, TieredStore.evict, hfailure]
  | commit => simp only [TieredStore.call, TieredStore.commit, hfailure]
  | write dimension key elements =>
      rw [TieredStore.call, TieredStore.write, if_pos hpoisoned]
      rfl

/-- A store that has not failed has coupled tiers, after any calls. -/
theorem coupled_of_calls [NebuCanonical F] {t : TieredStore F} (h : t.failure = none → Coupled t)
    (calls : List (TierCall F)) (hhealthy : (t.calls hemera calls).failure = none) : Coupled (t.calls hemera calls) := by
  induction calls generalizing t with
  | nil => exact h hhealthy
  | cons call calls ih =>
      refine ih (fun hnext => ?_) hhealthy
      dsimp only at hnext ⊢
      cases hfailure : t.failure with
      | some e =>
          rw [call_of_failure hemera hfailure, hfailure] at hnext
          cases hnext
      | none =>
          have hcoupled := h hfailure
          have houtcome := hcoupled.call hemera hfailure call
          cases hanswer : (t.call hemera call).1 with
          | ok _ =>
              rw [hanswer] at houtcome
              cases houtcome with
              | accepted _ hcoupled' => exact hcoupled'
          | error e =>
              rw [hanswer] at houtcome
              generalize (t.call hemera call).2 = t' at houtcome hnext ⊢
              cases houtcome with
              | refused _ => exact hcoupled
              | marked _ _ _ => cases hnext
              | torn _ _ => cases hnext

omit [DecidableEq F] in
theorem Holds.coupled {M : PlainMap F} {db : Database} (h : Holds M db) (hready : db.failure = none) :
    Coupled (TieredStore.new db : TieredStore F) where
  hot := WriteBuffer.inv_empty
  unknown := rfl
  warm := ⟨_, h.shows, hready⟩
  cached k value hvalue := by simp [TieredStore.new, WriteBuffer.empty] at hvalue
  paired k c hc := by
    have hnone : (DiskStore.new db : DiskStore F).pending.pending k = none :=
      WriteBuffer.pending_clearPending .empty k
    rw [TieredStore.new, hnone] at hc
    cases hc

/-- The caches and the pending sets of the tiers are as before. -/
structure SameTiers (t t' : TieredStore F) : Prop where
  hotCache : t'.hot.state.cache = t.hot.state.cache
  hotPending : ∀ k, t'.hot.state.pending k = t.hot.state.pending k
  warmCache : t'.warm.pending.cache = t.warm.pending.cache
  warmPending : ∀ k, t'.warm.pending.pending k = t.warm.pending.pending k

/-- The errors of the checks of a dimension, of a size and of a budget. -/
def StorageError.IsRejection (e : StorageError) : Prop := (∃ d, e = .invalidDimension d) ∨ ∃ message, e = .limit message

/-- A call that is rejected with both tiers unchanged leaves the store as it was: without a failure, so that it answers
as before. -/
def LeavesUsable (t : TieredStore F) (call : TierCall F) : Prop :=
  ∀ e, (t.call hemera call).1 = .error e → e.IsRejection → SameTiers t (t.call hemera call).2 →
    (t.call hemera call).2.failure = none ∧ (t.call hemera call).2 = t

/-- The call does not mark a cached value for which the shard view has no room. -/
def HasWarmRoom (t : TieredStore F) (call : TierCall F) : Prop :=
  ∀ dimension key value, call = .markDirty dimension key → dimension < EPHEMERAL →
    t.hot.get dimension key = some value → t.warm.pending.Fits ⟨dimension, key⟩ value.length

omit [DecidableEq F] in
/-- The shard view accepts a cached value exactly when it has room. -/
theorem Coupled.warm_put_fits (h : Coupled t) {dimension : UInt8} {key : Bytes32} {value : List F}
    (hd : dimension < EPHEMERAL) (hget : t.hot.get dimension key = some value) :
    (t.warm.pending.Fits ⟨dimension, key⟩ value.length ∧ ∃ warm, t.warm.put dimension key value = .ok warm) ∨
      (¬t.warm.pending.Fits ⟨dimension, key⟩ value.length ∧
        ∃ message, t.warm.put dimension key value = .error (.limit message)) := by
  obtain ⟨A, hshows, hready⟩ := h.warm
  obtain ⟨hlength, -⟩ := h.cached _ value hget
  rw [DiskStore.put, hshows.ready hready]
  dsimp only [bind, Except.bind]
  rw [WriteBuffer.put_eq (hshows.unknown_none hready) hd, if_neg (Nat.not_lt.mpr hlength)]
  by_cases helements :
      t.warm.pending.elements - t.warm.pending.weight ⟨dimension, key⟩ + value.length > MAX_PENDING_ELEMENTS
  · rw [if_pos helements]
    exact .inr ⟨fun hfits => absurd helements (Nat.not_lt.mpr hfits.1), _, rfl⟩
  · rw [if_neg helements]
    by_cases hroom : t.warm.pending.HasRoom ⟨dimension, key⟩
    · rw [if_pos hroom]
      exact .inl ⟨⟨Nat.not_lt.mp helements, hroom⟩, _, rfl⟩
    · rw [if_neg hroom]
      exact .inr ⟨fun hfits => hroom hfits.2, _, rfl⟩

theorem Coupled.leavesUsable_iff [NebuCanonical F] (h : Coupled t) (hfailure : t.failure = none) (call : TierCall F) :
    LeavesUsable hemera t call ↔ HasWarmRoom t call := by
  constructor
  · rintro husable dimension key value rfl hd hget
    rcases h.warm_put_fits hd hget with ⟨hfits, -⟩ | ⟨-, message, hput⟩
    · exact hfits
    · exfalso
      have hmark : t.markDirty dimension key = (.error (.limit message), { t with failure := some (.limit message) }) := by
        rw [TieredStore.markDirty_eq hfailure (UInt8.le_of_lt hd), if_neg (UInt8.ne_of_lt hd), hget]
        dsimp only
        rw [hput]
      have hcall : t.call hemera (.markDirty dimension key) =
          (.error (.limit message), { t with failure := some (.limit message) }) := hmark
      rw [LeavesUsable, hcall] at husable
      obtain ⟨hnone, -⟩ := husable _ rfl (.inr ⟨message, rfl⟩) ⟨rfl, fun _ => rfl, rfl, fun _ => rfl⟩
      cases hnone
  · intro hroom e hanswer _ hsame
    have houtcome := h.call hemera hfailure call
    rw [hanswer] at houtcome
    generalize (t.call hemera call).2 = t' at houtcome hsame
    cases houtcome with
    | refused _ => exact ⟨hfailure, rfl⟩
    | marked hd hget hput =>
        exfalso
        rcases h.warm_put_fits hd hget with ⟨-, warm, hok⟩ | ⟨hnot, -⟩
        · rw [hok] at hput
          cases hput
        · exact hnot (hroom _ _ _ rfl hd hget)
    | torn _ hchanged =>
        obtain ⟨k, hk⟩ := hchanged
        exact absurd (hsame.warmPending k) hk

/-- After any calls, in a store that has not failed, the next call leaves the store usable when it is rejected with
both tiers unchanged, exactly when it does not mark a cached value for which the shard view has no room. -/
theorem calls_leavesUsable_iff [NebuCanonical F] {M : PlainMap F} {db : Database} (hdb : Holds M db)
    (hready : db.failure = none) (calls : List (TierCall F))
    (hhealthy : ((TieredStore.new db : TieredStore F).calls hemera calls).failure = none) (call : TierCall F) :
    LeavesUsable hemera ((TieredStore.new db).calls hemera calls) call ↔
      HasWarmRoom ((TieredStore.new db).calls hemera calls) call :=
  (coupled_of_calls hemera (fun _ => hdb.coupled hready) calls hhealthy).leavesUsable_iff hemera hhealthy call

/-! ### A store that a rejected mark freezes -/

namespace Frozen

/-- The keys that fill the budget, and the key of the entry that is marked. -/
def key (i : Nat) : Bytes32 := Vector.replicate 32 (UInt8.ofNat (i + 1))

def markedKey : Bytes32 := Vector.replicate 32 0

theorem key_ne {i j : Nat} (hi : i < 16) (hj : j < 16) (hne : i ≠ j) : key i ≠ key j := by
  intro heq
  have hhead : UInt8.ofNat (i + 1) = UInt8.ofNat (j + 1) := by
    have := congrArg (fun v : Bytes32 => v[0]) heq
    simpa [key] using this
  have hnat := congrArg UInt8.toNat hhead
  rw [UInt8.toNat_ofNat', UInt8.toNat_ofNat', Nat.mod_eq_of_lt (by omega), Nat.mod_eq_of_lt (by omega)] at hnat
  omega

theorem key_ne_markedKey {i : Nat} (hi : i < 16) : key i ≠ markedKey := by
  intro heq
  have hhead : UInt8.ofNat (i + 1) = 0 := by
    have := congrArg (fun v : Bytes32 => v[0]) heq
    simpa [key, markedKey] using this
  have hnat := congrArg UInt8.toNat hhead
  rw [UInt8.toNat_ofNat', Nat.mod_eq_of_lt (by omega)] at hnat
  cases hnat

/-- A value as long as a value can be. -/
def longest : List Goldilocks := List.replicate MAX_VALUE_ELEMENTS (Nebu.new 1)

/-- A pending set with so many of the longest values. -/
structure Filled (n : Nat) (b : WriteBuffer Goldilocks) : Prop where
  unknown : b.unknown = none
  elements : b.elements = n * MAX_VALUE_ELEMENTS
  dirty : b.dirty.length = n
  deleted : b.deleted.size = 0
  free : ∀ j, n ≤ j → j < 16 → b.positions[(⟨0, key j⟩ : EntryKey)]? = none
  unmarked : b.positions[(⟨0, markedKey⟩ : EntryKey)]? = none

theorem Filled.put {n : Nat} (hn : n < 16) {b : WriteBuffer Goldilocks} (h : Filled n b) :
    ∃ b', b.put 0 (key n) longest = .ok b' ∧ Filled (n + 1) b' ∧
      b'.cache = b.cache.insert ⟨0, key n⟩ longest := by
  have hposition := h.free n (Nat.le_refl n) hn
  have hweight : b.weight ⟨0, key n⟩ = 0 := by
    rw [WriteBuffer.weight, hposition]
    rfl
  have hlength : longest.length = MAX_VALUE_ELEMENTS := List.length_replicate
  have hbudget : MAX_PENDING_ELEMENTS = 16 * MAX_VALUE_ELEMENTS := by decide
  have hkeys : 16 < MAX_PENDING_KEYS := by decide
  have helements := h.elements
  have hdirty := h.dirty
  have hdeleted := h.deleted
  have hsum : n * MAX_VALUE_ELEMENTS + MAX_VALUE_ELEMENTS = (n + 1) * MAX_VALUE_ELEMENTS := by rw [Nat.succ_mul]
  have hle : (n + 1) * MAX_VALUE_ELEMENTS ≤ 16 * MAX_VALUE_ELEMENTS := Nat.mul_le_mul_right _ hn
  have hroom : b.HasRoom ⟨0, key n⟩ := .inr (by omega)
  refine ⟨b.stageValue ⟨0, key n⟩ longest, ?_, ?_, WriteBuffer.stageValue_cache ..⟩
  · rw [WriteBuffer.put_eq h.unknown (by decide), if_neg (by omega), if_neg (by omega), if_pos hroom]
  · rw [WriteBuffer.stageValue, hposition]
    refine ⟨h.unknown, ?_, ?_, ?_, fun j hj hlt => ?_, ?_⟩
    · dsimp only
      omega
    · dsimp only
      rw [List.length_append, h.dirty]
      rfl
    · have hsize : (b.deleted.erase ⟨0, key n⟩).size ≤ b.deleted.size := ExtTreeMap.size_erase_le
      dsimp only
      omega
    · dsimp only
      rw [OrdMap.getElem?_insert, if_neg, h.free j (by omega) hlt]
      rintro heq
      exact key_ne hn hlt (by omega) (EntryKey.mk.inj heq).2
    · dsimp only
      rw [OrdMap.getElem?_insert, if_neg, h.unmarked]
      rintro heq
      exact key_ne_markedKey hn (EntryKey.mk.inj heq).2

/-- A store whose tiers have so many of the longest values pending, and the marked entry in the cache. -/
structure Loaded (n : Nat) (t : TieredStore Goldilocks) : Prop where
  failure : t.failure = none
  ready : t.warm.db.failure = none
  hot : Filled n t.hot.state
  warm : Filled n t.warm.pending
  cached : t.hot.get 0 markedKey = some [Nebu.new 1]

variable (hemera : List UInt8 → Bytes32)

theorem Loaded.put {n : Nat} (hn : n < 16) {t : TieredStore Goldilocks} (h : Loaded n t) :
    Loaded (n + 1) (t.call hemera (.put 0 (key n) longest)).2 := by
  obtain ⟨hot, hhot, hfilled, hcache⟩ := h.hot.put hn
  obtain ⟨warm, hwarm, hfilled', -⟩ := h.warm.put hn
  have hput : t.warm.put 0 (key n) longest = .ok { t.warm with pending := warm } := by
    rw [DiskStore.put, DiskStore.ready_eq h.warm.unknown h.ready]
    dsimp only [bind, Except.bind]
    rw [hwarm]
  have hmem : t.hot.put 0 (key n) longest = .ok ⟨hot⟩ := by
    rw [MemStore.put, hhot]
    rfl
  have hcall : t.call hemera (.put 0 (key n) longest) =
      (.ok (), ⟨⟨hot⟩, { t.warm with pending := warm }, none⟩) := by
    rw [TieredStore.call, TieredStore.put]
    simp only [h.failure]
    rw [if_pos (show (0 : UInt8) ≠ EPHEMERAL by decide), hput]
    dsimp only
    rw [hmem]
    rfl
  rw [hcall]
  refine ⟨rfl, h.ready, hfilled, hfilled', ?_⟩
  rw [MemStore.get]
  dsimp only
  rw [hcache, OrdMap.getElem?_insert, if_neg]
  · exact h.cached
  · rintro heq
    exact key_ne_markedKey hn (EntryKey.mk.inj heq).2

/-- The calls: one entry is committed, and then the budget of the pending set is used up. -/
def filling (n : Nat) : List (TierCall Goldilocks) :=
  [.put 0 markedKey [Nebu.new 1], .commit] ++ (List.range n).map fun i => .put 0 (key i) longest

def start : TieredStore Goldilocks := .new ⟨fun _ => ∅, none⟩

def zeroHash : List UInt8 → Bytes32 := fun _ => Vector.replicate 32 0

theorem loaded_filling {n : Nat} (hn : n ≤ 16) : Loaded n (start.calls zeroHash (filling n)) := by
  induction n with
  | zero =>
      refine ⟨by decide +kernel, by decide +kernel, ⟨by decide +kernel, by decide +kernel, by decide +kernel,
        by decide +kernel, fun j _ hj => ?_, by decide +kernel⟩, ⟨by decide +kernel, by decide +kernel,
        by decide +kernel, by decide +kernel, fun j _ hj => ?_, by decide +kernel⟩, by decide +kernel⟩
      · exact (by decide +kernel : ∀ j < 16,
          (start.calls zeroHash (filling 0)).hot.state.positions[(⟨0, key j⟩ : EntryKey)]? = none) j hj
      · exact (by decide +kernel : ∀ j < 16,
          (start.calls zeroHash (filling 0)).warm.pending.positions[(⟨0, key j⟩ : EntryKey)]? = none) j hj
  | succ n ih =>
      have hcalls : start.calls zeroHash (filling (n + 1)) =
          ((start.calls zeroHash (filling n)).call zeroHash (.put 0 (key n) longest)).2 := by
        rw [filling, List.range_succ, List.map_append, ← List.append_assoc, TieredStore.calls, List.foldl_append]
        rfl
      rw [hcalls]
      exact (ih (by omega)).put zeroHash (by omega)

/-- The store has not failed and its tiers do not change, but the rejected mark freezes it. -/
theorem mark_freezes :
    (start.calls zeroHash (filling 16)).failure = none ∧
      ¬LeavesUsable zeroHash (start.calls zeroHash (filling 16)) (.markDirty 0 markedKey) := by
  have hloaded := loaded_filling (Nat.le_refl 16)
  have hcoupled : Coupled (start.calls zeroHash (filling 16)) :=
    coupled_of_calls zeroHash (fun _ => holds_empty.coupled rfl) _ hloaded.failure
  refine ⟨hloaded.failure, fun husable => ?_⟩
  have hroom := (hcoupled.leavesUsable_iff zeroHash hloaded.failure _).mp husable
  obtain ⟨helements, -⟩ := hroom 0 markedKey _ rfl (by decide) hloaded.cached
  rw [WriteBuffer.weight, hloaded.warm.unmarked, hloaded.warm.elements] at helements
  have hbudget : MAX_PENDING_ELEMENTS = 16 * MAX_VALUE_ELEMENTS := by decide
  simp only [Option.elim_none, List.length_singleton] at helements
  omega

end Frozen

/-- A dimension that does not exist is rejected, and the store stays usable. -/
theorem calls_leavesUsable_iff_badDimension :
    (Frozen.start.calls Frozen.zeroHash []).failure = none ∧
      LeavesUsable Frozen.zeroHash (Frozen.start.calls Frozen.zeroHash []) (.put 255 Frozen.markedKey []) :=
  ⟨rfl, (calls_leavesUsable_iff Frozen.zeroHash holds_empty rfl [] rfl _).mpr nofun⟩

end LeanBbg.Storage
