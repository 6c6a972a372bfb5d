import LeanBbg.Tiered

/-! Tiering is invisible: whatever is promoted and evicted, a store of two tiers reads as the plain map of its
puts, edits and removals, and its commits leave that map on disk. -/

namespace LeanBbg.Storage

open Std Bytes Attempt

variable {F : Type} [Nebu F] {t : TieredStore F}

/-- A plain map from dimension and key to a value. -/
abbrev PlainMap (F : Type) := EntryKey → Option (List F)

/-- No shard table has a row of another kind: its keys are of 32 bytes and its dimension is persistent. -/
def Tidy (tables : Tables) : Prop :=
  ∀ d bytes row, (tables (.shard d))[bytes]? = some row → ∃ k : EntryKey, k.dimension < EPHEMERAL ∧ k.row = (.shard d, bytes)

/-- The tiers hold a plain map: the shard view has its persistent part, and what is cached is of the map. -/
structure Tiers (N : PlainMap F) (t : TieredStore F) : Prop where
  failure : t.failure = none
  unknown : t.hot.state.unknown = none
  warm : ∃ A, Shows t.warm A ∧ A.failure = none ∧ ∀ k : EntryKey, k.dimension < EPHEMERAL → A.read k = N k
  cached : ∀ (k : EntryKey) value, t.hot.state.cache[k]? = some value → N k = some value
  scratch : ∀ k : EntryKey, k.dimension = EPHEMERAL → t.hot.state.cache[k]? = N k
  short : ∀ k value, N k = some value → value.length ≤ MAX_VALUE_ELEMENTS
  known : ∀ k, N k ≠ none → k.dimension ≤ EPHEMERAL
  tidy : Tidy t.warm.db.tables

variable {N : PlainMap F}

theorem Shows.not_poisoned {s : DiskStore F} {A : Shelf F} (h : Shows s A) (hready : A.failure = none) :
    s.isPoisoned = false := by
  have hunknown : s.pending.unknown = none := h.unknown.elim id fun heq => heq.trans hready
  rw [DiskStore.isPoisoned, hunknown, h.failure, hready]
  rfl

/-- Reads see the plain map, whichever tier answers. -/
theorem Tiers.read [NebuCanonical F] (h : Tiers N t) {dimension : UInt8} (hd : dimension ≤ EPHEMERAL) (key : Bytes32)
    {maxElements : Nat} (hmax : maxElements ≤ MAX_VALUE_ELEMENTS) :
    Answered maxElements (N ⟨dimension, key⟩) (t.read dimension key maxElements) := by
  obtain ⟨A, hshows, hready, hA⟩ := h.warm
  rw [TieredStore.read, h.failure]
  dsimp only
  by_cases heq : dimension = EPHEMERAL
  · have hcache := h.scratch ⟨dimension, key⟩ heq
    rw [if_neg (not_not.mpr heq), MemStore.read, checkDimension_eq_ok.mpr hd, checkReadLimit_of_le hmax, MemStore.get,
      hcache]
    cases N ⟨dimension, key⟩ with
    | none => rfl
    | some value => exact answered_copyValue value hmax
  · have hlt : dimension < EPHEMERAL := UInt8.lt_of_le_of_ne hd heq
    rw [if_pos heq, hshows.not_poisoned hready, MemStore.get, if_neg Bool.false_ne_true]
    cases hcache : t.hot.state.cache[(⟨dimension, key⟩ : EntryKey)]? with
    | some value =>
        rw [h.cached _ value hcache]
        exact answered_copyValue value hmax
    | none =>
        rw [← hA ⟨dimension, key⟩ hlt]
        exact hshows.read hready hd key hmax

theorem Tiers.read_eq [NebuCanonical F] (h : Tiers N t) {dimension : UInt8} (hd : dimension ≤ EPHEMERAL)
    (key : Bytes32) : t.read dimension key MAX_VALUE_ELEMENTS = .ok (N ⟨dimension, key⟩) := by
  have hread := h.read hd key (Nat.le_refl MAX_VALUE_ELEMENTS)
  cases hvalue : N ⟨dimension, key⟩ with
  | none =>
      rw [hvalue] at hread
      exact hread
  | some value =>
      rw [hvalue, Answered, if_pos (h.short _ value hvalue)] at hread
      exact hread

/-- A dimension that does not exist is refused by every read. -/
theorem Tiers.dimension_of_read (h : Tiers N t) {dimension : UInt8} {key : Bytes32} {maxElements : Nat}
    {value : Option (List F)} (hread : t.read dimension key maxElements = .ok value) : dimension ≤ EPHEMERAL := by
  by_contra hd
  obtain ⟨A, hshows, hready, -⟩ := h.warm
  have hne : dimension ≠ EPHEMERAL := fun heq => hd (heq ▸ UInt8.le_refl _)
  have hnone : t.hot.get dimension key = none := by
    cases hcache : t.hot.get dimension key with
    | none => rfl
    | some v => exact absurd (h.known ⟨dimension, key⟩ (by rw [h.cached _ v hcache]; nofun)) hd
  rw [TieredStore.read, h.failure] at hread
  dsimp only at hread
  rw [if_pos hne, hnone, ite_self, DiskStore.read, hshows.ready hready, checkDimension,
    if_pos (UInt8.not_le.mp hd)] at hread
  cases hread

/-! ### The shelf of the shard view -/

omit [Nebu F] in
theorem Shelf.read_put (A : Shelf F) (k : EntryKey) (value : List F) (q : EntryKey) :
    (A.put k value).read q = if q = k then some value else A.read q := by
  rw [Shelf.put, Shelf.read, Shelf.read]
  by_cases hq : q = k
  · subst hq
    rw [if_pos rfl]
    split_ifs with hdim
    · exact Function.update_self ..
    · dsimp only
      rw [Function.update_self]
      rfl
  · rw [if_neg hq]
    split_ifs
    · exact Function.update_of_ne hq ..
    · rfl
    · rfl
    · dsimp only
      rw [Function.update_of_ne hq]

omit [Nebu F] in
theorem Shelf.read_remove (A : Shelf F) (k q : EntryKey) :
    (A.remove k).read q = if q = k then none else A.read q := by
  rw [Shelf.remove, Shelf.read, Shelf.read]
  by_cases hq : q = k
  · subst hq
    rw [if_pos rfl]
    split_ifs with hdim
    · exact Function.update_self ..
    · dsimp only
      rw [Function.update_self]
      rfl
  · rw [if_neg hq]
    split_ifs
    · exact Function.update_of_ne hq ..
    · rfl
    · rfl
    · dsimp only
      rw [Function.update_of_ne hq]

omit [Nebu F] in
theorem Shelf.read_commit (A : Shelf F) (q : EntryKey) : A.commit.read q = A.read q := by
  rw [Shelf.commit, Shelf.read, Shelf.read]
  rfl

omit [Nebu F] in
theorem Shelf.failure_put (A : Shelf F) (k : EntryKey) (value : List F) : (A.put k value).failure = A.failure := by
  rw [Shelf.put]
  split_ifs <;> rfl

omit [Nebu F] in
theorem Shelf.failure_remove (A : Shelf F) (k : EntryKey) : (A.remove k).failure = A.failure := by
  rw [Shelf.remove]
  split_ifs <;> rfl

/-! ### The memory tier -/

omit [Nebu F] in
theorem MemStore.put_ok {m m' : MemStore F} {dimension : UInt8} {key : Bytes32} {value : List F}
    (hunknown : m.state.unknown = none) (h : m.put dimension key value = .ok m') :
    m'.state.cache = m.state.cache.insert ⟨dimension, key⟩ value ∧ m'.state.unknown = none ∧
      dimension ≤ EPHEMERAL ∧ value.length ≤ MAX_VALUE_ELEMENTS := by
  rw [MemStore.put] at h
  by_cases hd : dimension ≤ EPHEMERAL
  · by_cases heq : dimension = EPHEMERAL
    · subst heq
      rw [WriteBuffer.put_ephemeral hunknown] at h
      split_ifs at h with hlong
      · cases h
      · obtain rfl := Except.ok.inj h
        exact ⟨rfl, hunknown, hd, Nat.not_lt.mp hlong⟩
    · rw [WriteBuffer.put_eq hunknown (UInt8.lt_of_le_of_ne hd heq)] at h
      split_ifs at h with hlong helements hroom
      · cases h
      · cases h
      · obtain rfl := Except.ok.inj h
        exact ⟨WriteBuffer.stageValue_cache .., (WriteBuffer.stageValue_unknown ..).trans hunknown, hd,
          Nat.not_lt.mp hlong⟩
      · cases h
  · rw [WriteBuffer.put_dimension hunknown hd] at h
    cases h

omit [Nebu F] in
theorem MemStore.remove_ok {m m' : MemStore F} {dimension : UInt8} {key : Bytes32} {value : Option (List F)}
    (hunknown : m.state.unknown = none) (h : m.remove dimension key = .ok (value, m')) :
    m'.state.cache = m.state.cache.erase ⟨dimension, key⟩ ∧ m'.state.unknown = none ∧ dimension ≤ EPHEMERAL := by
  obtain ⟨state, hstate, h⟩ := exists_of_bind_ok h
  obtain ⟨-, rfl⟩ := Prod.mk.inj (Except.ok.inj h)
  by_cases hd : dimension ≤ EPHEMERAL
  · by_cases heq : dimension = EPHEMERAL
    · subst heq
      rw [WriteBuffer.delete_ephemeral hunknown] at hstate
      obtain rfl := Except.ok.inj hstate
      exact ⟨rfl, hunknown, hd⟩
    · rw [WriteBuffer.delete_eq hunknown (UInt8.lt_of_le_of_ne hd heq)] at hstate
      split_ifs at hstate
      obtain rfl := Except.ok.inj hstate
      exact ⟨WriteBuffer.stageDeletion_cache .., (WriteBuffer.stageDeletion_unknown ..).trans hunknown, hd⟩
  · rw [WriteBuffer.delete_dimension hunknown hd] at hstate
    cases hstate

/-! ### Steps -/

/-- A cache that agrees with the old map away from a key, and with the new map at it. -/
theorem Tiers.update (h : Tiers N t) {N' : PlainMap F} {t' : TieredStore F} {k : EntryKey}
    (hother : ∀ q, q ≠ k → N' q = N q) (hfailure : t'.failure = none) (hunknown : t'.hot.state.unknown = none)
    (hwarm : ∃ A, Shows t'.warm A ∧ A.failure = none ∧ ∀ q : EntryKey, q.dimension < EPHEMERAL → A.read q = N' q)
    (hcache : ∀ q, q ≠ k → t'.hot.state.cache[q]? = t.hot.state.cache[q]?)
    (hcached : ∀ value, t'.hot.state.cache[k]? = some value → N' k = some value)
    (hscratch : k.dimension = EPHEMERAL → t'.hot.state.cache[k]? = N' k)
    (hshort : ∀ value, N' k = some value → value.length ≤ MAX_VALUE_ELEMENTS) (hknown : k.dimension ≤ EPHEMERAL)
    (htidy : Tidy t'.warm.db.tables) : Tiers N' t' where
  failure := hfailure
  unknown := hunknown
  warm := hwarm
  cached q value hq := by
    by_cases hqk : q = k
    · subst hqk
      exact hcached value hq
    · rw [hcache q hqk] at hq
      exact (hother q hqk).trans (h.cached q value hq)
  scratch q hq := by
    by_cases hqk : q = k
    · subst hqk
      exact hscratch hq
    · rw [hcache q hqk, hother q hqk]
      exact h.scratch q hq
  short q value hq := by
    by_cases hqk : q = k
    · subst hqk
      exact hshort value hq
    · rw [hother q hqk] at hq
      exact h.short q value hq
  known q hq := by
    by_cases hqk : q = k
    · subst hqk
      exact hknown
    · rw [hother q hqk] at hq
      exact h.known q hq
  tidy := htidy

/-- The shard view after a put of the map. -/
theorem Tiers.warm_put (h : Tiers N t) {dimension : UInt8} {key : Bytes32} {value : List F} {warm : DiskStore F}
    (hput : t.warm.put dimension key value = .ok warm) :
    (∃ A, Shows warm A ∧ A.failure = none ∧ ∀ q : EntryKey, q.dimension < EPHEMERAL →
      A.read q = Function.update N ⟨dimension, key⟩ (some value) q) ∧ warm.db = t.warm.db := by
  obtain ⟨A, hshows, hready, hA⟩ := h.warm
  obtain ⟨-, -, hshows'⟩ := hshows.put hput
  refine ⟨⟨_, hshows', (A.failure_put ..).trans hready, fun q hq => ?_⟩, ?_⟩
  · rw [A.read_put, Function.update_apply, hA q hq]
  · obtain ⟨_, hput⟩ := hshows.ready_of_ok hput
    obtain ⟨pending, -, hput⟩ := exists_of_bind_ok hput
    obtain rfl := Except.ok.inj hput
    rfl

theorem Tiers.warm_remove [NebuCanonical F] (h : Tiers N t) {dimension : UInt8} {key : Bytes32}
    {value : Option (List F)} {warm : DiskStore F} (hremove : t.warm.remove dimension key = .ok (value, warm)) :
    (∃ A, Shows warm A ∧ A.failure = none ∧ ∀ q : EntryKey, q.dimension < EPHEMERAL →
      A.read q = Function.update N ⟨dimension, key⟩ none q) ∧ warm.db = t.warm.db := by
  obtain ⟨A, hshows, hready, hA⟩ := h.warm
  obtain ⟨-, -, -, hshows'⟩ := hshows.remove hremove
  refine ⟨⟨_, hshows', (A.failure_remove ..).trans hready, fun q hq => ?_⟩, ?_⟩
  · rw [A.read_remove, Function.update_apply, hA q hq]
  · obtain ⟨_, -, hremove⟩ := exists_of_bind_ok hremove
    obtain ⟨pending, -, hremove⟩ := exists_of_bind_ok hremove
    obtain ⟨-, rfl⟩ := Prod.mk.inj (Except.ok.inj hremove)
    rfl

theorem Tiers.put (h : Tiers N t) {dimension : UInt8} {key : Bytes32} {value : List F} {t' : TieredStore F}
    (hput : t.put dimension key value = (.ok (), t')) : Tiers (Function.update N ⟨dimension, key⟩ (some value)) t' := by
  rw [TieredStore.put, h.failure] at hput
  dsimp only at hput
  have hself : Function.update N ⟨dimension, key⟩ (some value) ⟨dimension, key⟩ = some value := Function.update_self ..
  by_cases heq : dimension = EPHEMERAL
  · rw [if_neg (not_not.mpr heq)] at hput
    cases hhot : t.hot.put dimension key value with
    | error e =>
        rw [hhot] at hput
        cases (Prod.mk.inj hput).1
    | ok hot =>
        rw [hhot] at hput
        obtain ⟨-, rfl⟩ := Prod.mk.inj hput
        obtain ⟨hcache, hunknown, hd, hlength⟩ := MemStore.put_ok h.unknown hhot
        obtain ⟨A, hshows, hready, hA⟩ := h.warm
        refine h.update (fun q hq => Function.update_of_ne hq ..) rfl hunknown
          ⟨A, hshows, hready, fun q hq => ?_⟩ (fun q hq => ?_) (fun v hv => ?_) (fun _ => ?_) (fun v hv => ?_) hd h.tidy
        · rw [Function.update_of_ne, hA q hq]
          rintro rfl
          exact absurd heq (UInt8.ne_of_lt hq)
        · dsimp only
          rw [hcache, OrdMap.getElem?_insert, if_neg (Ne.symm hq)]
        · dsimp only at hv
          rw [hcache, OrdMap.getElem?_insert, if_pos rfl] at hv
          rw [hself, hv]
        · dsimp only
          rw [hcache, OrdMap.getElem?_insert, if_pos rfl, hself]
        · rw [hself] at hv
          exact Option.some_inj.mp hv ▸ hlength
  · rw [if_pos heq] at hput
    cases hwarm : t.warm.put dimension key value with
    | error e =>
        rw [hwarm] at hput
        cases (Prod.mk.inj hput).1
    | ok warm =>
        rw [hwarm] at hput
        dsimp only at hput
        cases hhot : t.hot.put dimension key value with
        | error e =>
            rw [hhot] at hput
            cases (Prod.mk.inj hput).1
        | ok hot =>
            rw [hhot] at hput
            obtain ⟨-, rfl⟩ := Prod.mk.inj hput
            obtain ⟨hcache, hunknown, hd, hlength⟩ := MemStore.put_ok h.unknown hhot
            obtain ⟨hA, hdb⟩ := h.warm_put hwarm
            refine h.update (fun q hq => Function.update_of_ne hq ..) rfl hunknown hA (fun q hq => ?_)
              (fun v hv => ?_) (fun hdim => absurd hdim heq) (fun v hv => ?_) hd (hdb ▸ h.tidy)
            · dsimp only
              rw [hcache, OrdMap.getElem?_insert, if_neg (Ne.symm hq)]
            · dsimp only at hv
              rw [hcache, OrdMap.getElem?_insert, if_pos rfl] at hv
              rw [hself, hv]
            · rw [hself] at hv
              exact Option.some_inj.mp hv ▸ hlength

theorem Tiers.remove [NebuCanonical F] (h : Tiers N t) {dimension : UInt8} {key : Bytes32} {value : Option (List F)}
    {t' : TieredStore F} (hremove : t.remove dimension key = (.ok value, t')) :
    Tiers (Function.update N ⟨dimension, key⟩ none) t' := by
  rw [TieredStore.remove, h.failure] at hremove
  dsimp only at hremove
  have hself : Function.update N ⟨dimension, key⟩ none ⟨dimension, key⟩ = none := Function.update_self ..
  cases hread : t.read dimension key MAX_VALUE_ELEMENTS with
  | error e =>
      rw [hread] at hremove
      cases (Prod.mk.inj hremove).1
  | ok old =>
      rw [hread] at hremove
      dsimp only at hremove
      by_cases heq : dimension = EPHEMERAL
      · rw [if_neg (not_not.mpr heq)] at hremove
        cases hhot : t.hot.remove dimension key with
        | error e =>
            rw [hhot] at hremove
            cases (Prod.mk.inj hremove).1
        | ok pair =>
            obtain ⟨v, hot⟩ := pair
            rw [hhot] at hremove
            obtain ⟨-, rfl⟩ := Prod.mk.inj hremove
            obtain ⟨hcache, hunknown, hd⟩ := MemStore.remove_ok h.unknown hhot
            obtain ⟨A, hshows, hready, hA⟩ := h.warm
            refine h.update (fun q hq => Function.update_of_ne hq ..) rfl hunknown
              ⟨A, hshows, hready, fun q hq => ?_⟩ (fun q hq => ?_) (fun v hv => ?_) (fun _ => ?_) (fun v hv => ?_) hd
              h.tidy
            · rw [Function.update_of_ne, hA q hq]
              rintro rfl
              exact absurd heq (UInt8.ne_of_lt hq)
            · dsimp only
              rw [hcache, OrdMap.getElem?_erase, if_neg (Ne.symm hq)]
            · dsimp only at hv
              rw [hcache, OrdMap.getElem?_erase, if_pos rfl] at hv
              cases hv
            · dsimp only
              rw [hcache, OrdMap.getElem?_erase, if_pos rfl, hself]
            · rw [hself] at hv
              cases hv
      · rw [if_pos heq] at hremove
        cases hwarm : t.warm.remove dimension key with
        | error e =>
            rw [hwarm] at hremove
            cases (Prod.mk.inj hremove).1
        | ok pair =>
            obtain ⟨v, warm⟩ := pair
            rw [hwarm] at hremove
            dsimp only at hremove
            cases hhot : t.hot.remove dimension key with
            | error e =>
                rw [hhot] at hremove
                cases (Prod.mk.inj hremove).1
            | ok pair =>
                obtain ⟨w, hot⟩ := pair
                rw [hhot] at hremove
                obtain ⟨-, rfl⟩ := Prod.mk.inj hremove
                obtain ⟨hcache, hunknown, hd⟩ := MemStore.remove_ok h.unknown hhot
                obtain ⟨hA, hdb⟩ := h.warm_remove hwarm
                refine h.update (fun q hq => Function.update_of_ne hq ..) rfl hunknown hA (fun q hq => ?_)
                  (fun v hv => ?_) (fun hdim => absurd hdim heq) (fun v hv => ?_) hd (hdb ▸ h.tidy)
                · dsimp only
                  rw [hcache, OrdMap.getElem?_erase, if_neg (Ne.symm hq)]
                · dsimp only at hv
                  rw [hcache, OrdMap.getElem?_erase, if_pos rfl] at hv
                  cases hv
                · rw [hself] at hv
                  cases hv

/-- A promotion copies what is read. -/
theorem Tiers.promote [NebuCanonical F] (h : Tiers N t) {dimension : UInt8} {key : Bytes32} {promoted : Bool}
    {t' : TieredStore F} (hpromote : t.promote dimension key = (.ok promoted, t')) : Tiers N t' := by
  rw [TieredStore.promote, h.failure] at hpromote
  dsimp only at hpromote
  cases hread : t.read dimension key MAX_VALUE_ELEMENTS with
  | error e =>
      rw [hread] at hpromote
      cases (Prod.mk.inj hpromote).1
  | ok value =>
      have hd := h.dimension_of_read hread
      have hvalue : N ⟨dimension, key⟩ = value := Except.ok.inj ((h.read_eq hd key).symm.trans hread)
      rw [hread] at hpromote
      cases value with
      | none =>
          obtain ⟨-, rfl⟩ := Prod.mk.inj hpromote
          exact h
      | some value =>
          dsimp only at hpromote
          cases hhot : t.hot.put dimension key value with
          | error e =>
              rw [hhot] at hpromote
              cases (Prod.mk.inj hpromote).1
          | ok hot =>
              rw [hhot] at hpromote
              obtain ⟨-, rfl⟩ := Prod.mk.inj hpromote
              obtain ⟨hcache, hunknown, -, -⟩ := MemStore.put_ok h.unknown hhot
              refine h.update (k := ⟨dimension, key⟩) (fun _ _ => rfl) rfl hunknown h.warm (fun q hq => ?_)
                (fun v hv => ?_) (fun _ => ?_) (fun v hv => h.short _ v hv) hd h.tidy
              · dsimp only
                rw [hcache, OrdMap.getElem?_insert, if_neg (Ne.symm hq)]
              · dsimp only at hv
                rw [hcache, OrdMap.getElem?_insert, if_pos rfl] at hv
                rw [hvalue, hv]
              · dsimp only
                rw [hcache, OrdMap.getElem?_insert, if_pos rfl, hvalue]

/-- An eviction drops a cached value that the shard view has. -/
theorem Tiers.evict [DecidableEq F] (h : Tiers N t) {dimension : UInt8} {key : Bytes32} {t' : TieredStore F}
    (hevict : t.evict dimension key = (.ok (), t')) : Tiers N t' := by
  rw [TieredStore.evict, h.failure] at hevict
  dsimp only at hevict
  cases hcheck : checkDimension dimension with
  | error e =>
      rw [hcheck] at hevict
      cases (Prod.mk.inj hevict).1
  | ok _ =>
      rw [hcheck] at hevict
      dsimp only at hevict
      have hsame : ((.ok (), t) : Except StorageError Unit × TieredStore F) = (.ok (), t') → Tiers N t' := by
        intro heq
        obtain ⟨-, rfl⟩ := Prod.mk.inj heq
        exact h
      split_ifs at hevict with heq hpending
      · exact hsame hevict
      · cases hread : t.warm.read dimension key MAX_VALUE_ELEMENTS with
        | error e =>
            rw [hread] at hevict
            cases (Prod.mk.inj hevict).1
        | ok value =>
            rw [hread] at hevict
            cases value with
            | none => exact hsame hevict
            | some value =>
                dsimp only at hevict
                split_ifs at hevict
                · cases hhot : t.hot.remove dimension key with
                  | error e =>
                      rw [hhot] at hevict
                      cases (Prod.mk.inj hevict).1
                  | ok pair =>
                      obtain ⟨w, hot⟩ := pair
                      rw [hhot] at hevict
                      obtain ⟨-, rfl⟩ := Prod.mk.inj hevict
                      obtain ⟨hcache, hunknown, hd⟩ := MemStore.remove_ok h.unknown hhot
                      refine h.update (k := ⟨dimension, key⟩) (fun _ _ => rfl) rfl hunknown h.warm (fun q hq => ?_)
                        (fun v hv => ?_) (fun hdim => absurd hdim heq) (fun v hv => h.short _ v hv) hd h.tidy
                      · dsimp only
                        rw [hcache, OrdMap.getElem?_erase, if_neg (Ne.symm hq)]
                      · dsimp only at hv
                        rw [hcache, OrdMap.getElem?_erase, if_pos rfl] at hv
                        cases hv
                · exact hsame hevict
      · exact hsame hevict

/-- The shard tables hold exactly the persistent part of a map. -/
def OnDisk (N : PlainMap F) (tables : Tables) : Prop :=
  ∀ d bytes row, (tables (.shard d))[bytes]? = some row ↔ ∃ k value, k.dimension < EPHEMERAL ∧
    k.row = (.shard d, bytes) ∧ N k = some value ∧ row = serialize value

theorem Tiers.commit (h : Tiers N t) (hemera : List UInt8 → Bytes32) {id : Bytes32} {t' : TieredStore F}
    (hcommit : t.commit hemera .done = (.ok id, t')) : Tiers N t' ∧ OnDisk N t'.warm.db.tables := by
  obtain ⟨A, hshows, hready, hA⟩ := h.warm
  obtain ⟨hshows', hright⟩ := hshows.step_commit hemera .done
  rw [TieredStore.commit, h.failure] at hcommit
  dsimp only at hcommit
  cases hwarm : t.warm.commit hemera .done with
  | mk answer warm =>
      rw [hwarm] at hcommit hshows' hright
      cases answer with
      | error e => cases (Prod.mk.inj hcommit).1
      | ok id' =>
          obtain ⟨-, rfl⟩ := Prod.mk.inj hcommit
          obtain ⟨-, hok, -⟩ := hright
          obtain ⟨-, hother⟩ := hok id' rfl
          have hdisk : ∀ k : EntryKey, k.dimension < EPHEMERAL → A.commit.committed k = N k := by
            intro k hk
            rw [← hA k hk, Shelf.read, if_neg (UInt8.ne_of_lt hk)]
            rfl
          have htidy : Tidy warm.db.tables := by
            intro d bytes row hrow
            by_contra hnone
            push Not at hnone
            have hsame := hother (.shard d) bytes Table.noConfusion fun k hk => hnone k hk
            obtain ⟨k, hk, hkrow⟩ := h.tidy d bytes row (hsame.symm.trans hrow)
            exact hnone k hk hkrow
          refine ⟨⟨rfl, h.unknown, ⟨A.commit, hshows', hready, fun q hq => ?_⟩, h.cached, h.scratch, h.short, h.known,
            htidy⟩, fun d bytes row => ⟨fun hrow => ?_, ?_⟩⟩
          · rw [A.read_commit]
            exact hA q hq
          · obtain ⟨k, hk, hkrow⟩ := htidy d bytes row hrow
            have hshown := hshows'.rows k hk
            obtain ⟨hdim, rfl⟩ := Prod.mk.inj hkrow
            rw [hdim] at hshown
            change (warm.db.tables (.shard d))[k.key.toList]? = (A.commit.committed k).map serialize at hshown
            rw [hdisk k hk] at hshown
            obtain ⟨value, hvalue, rfl⟩ := Option.map_eq_some_iff.mp (hshown.symm.trans hrow)
            exact ⟨k, value, hk, by rw [EntryKey.row, hdim], hvalue, rfl⟩
          · rintro ⟨k, value, hk, hkrow, hvalue, rfl⟩
            have hshown := hshows'.rows k hk
            obtain ⟨hdim, rfl⟩ := Prod.mk.inj hkrow
            rw [hdim] at hshown
            change (warm.db.tables (.shard d))[k.key.toList]? = (A.commit.committed k).map serialize at hshown
            rw [hdisk k hk, hvalue] at hshown
            exact hshown

/-- An edit in place: `get_mut` lends a slice, it is written, and the entry is marked. -/
def TieredStore.edit (t : TieredStore F) (dimension : UInt8) (key : Bytes32) (elements : List F) :
    Option (Except StorageError Unit × TieredStore F) :=
  (t.write dimension key elements).map fun t => t.markDirty dimension key

theorem Tiers.edit (h : Tiers N t) {dimension : UInt8} {key : Bytes32} {elements : List F} {t' : TieredStore F}
    (hedit : t.edit dimension key elements = some (.ok (), t')) :
    Tiers (Function.update N ⟨dimension, key⟩ ((N ⟨dimension, key⟩).map (overwrite elements))) t' := by
  obtain ⟨t₁, hwrite, hmark⟩ := Option.map_eq_some_iff.mp hedit
  rw [TieredStore.write] at hwrite
  split_ifs at hwrite
  obtain ⟨hot₁, hhot₁, rfl⟩ := Option.map_eq_some_iff.mp hwrite
  obtain ⟨value, hget, hcache₁, hunknown₁, -⟩ := MemStore.write_ok hhot₁
  have hN : N ⟨dimension, key⟩ = some value := h.cached _ value hget
  have hd : dimension ≤ EPHEMERAL := h.known ⟨dimension, key⟩ (by rw [hN]; nofun)
  have hlength : (overwrite elements value).length ≤ MAX_VALUE_ELEMENTS := by
    rw [overwrite_length]
    exact h.short _ value hN
  have hself : Function.update N ⟨dimension, key⟩ (some (overwrite elements value)) ⟨dimension, key⟩ =
      some (overwrite elements value) := Function.update_self ..
  have hget₁ : hot₁.get dimension key = some (overwrite elements value) := by
    rw [MemStore.get, hcache₁, OrdMap.getElem?_insert, if_pos rfl]
  rw [hN, Option.map_some]
  rw [TieredStore.markDirty_eq (t := { t with hot := hot₁ }) h.failure hd] at hmark
  dsimp only at hmark
  by_cases heq : dimension = EPHEMERAL
  · rw [if_pos heq] at hmark
    obtain ⟨-, rfl⟩ := Prod.mk.inj hmark
    obtain ⟨A, hshows, hready, hA⟩ := h.warm
    refine h.update (fun q hq => Function.update_of_ne hq ..) h.failure (hunknown₁.trans h.unknown)
      ⟨A, hshows, hready, fun q hq => ?_⟩ (fun q hq => ?_) (fun v hv => ?_) (fun _ => ?_) (fun v hv => ?_) hd h.tidy
    · rw [Function.update_of_ne, hA q hq]
      rintro rfl
      exact absurd heq (UInt8.ne_of_lt hq)
    · dsimp only
      rw [hcache₁, OrdMap.getElem?_insert, if_neg (Ne.symm hq)]
    · rw [hself, ← hget₁]
      exact hv
    · rw [hself]
      exact hget₁
    · rw [hself] at hv
      exact Option.some_inj.mp hv ▸ hlength
  · rw [if_neg heq, hget₁] at hmark
    dsimp only at hmark
    cases hwarm : t.warm.put dimension key (overwrite elements value) with
    | error e =>
        rw [hwarm] at hmark
        cases (Prod.mk.inj hmark).1
    | ok warm =>
        rw [hwarm] at hmark
        dsimp only at hmark
        cases hhot : hot₁.put dimension key (overwrite elements value) with
        | error e =>
            rw [hhot] at hmark
            cases (Prod.mk.inj hmark).1
        | ok hot =>
            rw [hhot] at hmark
            obtain ⟨-, rfl⟩ := Prod.mk.inj hmark
            obtain ⟨hcache, hunknown, -, -⟩ := MemStore.put_ok (hunknown₁.trans h.unknown) hhot
            obtain ⟨hA, hdb⟩ := h.warm_put hwarm
            refine h.update (fun q hq => Function.update_of_ne hq ..) h.failure hunknown hA (fun q hq => ?_)
              (fun v hv => ?_) (fun hdim => absurd hdim heq) (fun v hv => ?_) hd (hdb ▸ h.tidy)
            · dsimp only
              rw [hcache, OrdMap.getElem?_insert, if_neg (Ne.symm hq), hcache₁, OrdMap.getElem?_insert,
                if_neg (Ne.symm hq)]
            · dsimp only at hv
              rw [hcache, OrdMap.getElem?_insert, if_pos rfl] at hv
              rw [hself, hv]
            · rw [hself] at hv
              exact Option.some_inj.mp hv ▸ hlength

/-! ### Runs -/

inductive TieredOp (F : Type) where
  | put (dimension : UInt8) (key : Bytes32) (value : List F)
  | remove (dimension : UInt8) (key : Bytes32)
  | edit (dimension : UInt8) (key : Bytes32) (elements : List F)
  | promote (dimension : UInt8) (key : Bytes32)
  | evict (dimension : UInt8) (key : Bytes32)
  | commit

/-- The store after an operation that returns `Ok`. -/
def TieredStore.after {α : Type} : Except StorageError α × TieredStore F → Option (TieredStore F)
  | (.ok _, t) => some t
  | (.error _, _) => none

variable [DecidableEq F] (hemera : List UInt8 → Bytes32)

/-- One operation, when it returns `Ok`, on an engine that writes every batch. -/
def TieredStore.step (t : TieredStore F) : TieredOp F → Option (TieredStore F)
  | .put dimension key value => after (t.put dimension key value)
  | .remove dimension key => after (t.remove dimension key)
  | .edit dimension key elements => (t.edit dimension key elements).bind after
  | .promote dimension key => after (t.promote dimension key)
  | .evict dimension key => after (t.evict dimension key)
  | .commit => after (t.commit hemera .done)

def TieredStore.runOk (t : TieredStore F) : List (TieredOp F) → Option (TieredStore F)
  | [] => some t
  | op :: ops => (t.step hemera op).bind fun t => t.runOk ops

/-- The plain map after an operation: only puts, removals and edits move it. -/
def PlainMap.apply (N : PlainMap F) : TieredOp F → PlainMap F
  | .put dimension key value => Function.update N ⟨dimension, key⟩ (some value)
  | .remove dimension key => Function.update N ⟨dimension, key⟩ none
  | .edit dimension key elements =>
      Function.update N ⟨dimension, key⟩ ((N ⟨dimension, key⟩).map (overwrite elements))
  | .promote _ _ => N
  | .evict _ _ => N
  | .commit => N

omit [Nebu F] [DecidableEq F] in
theorem TieredStore.after_eq {α : Type} {result : Except StorageError α × TieredStore F} {t' : TieredStore F}
    (h : after result = some t') : ∃ a, result = (.ok a, t') := by
  obtain ⟨answer, t⟩ := result
  cases answer with
  | error e => cases h
  | ok a => exact ⟨a, by rw [← Option.some_inj.mp h]⟩

/-- One step keeps the map in the tiers. -/
theorem Tiers.step [NebuCanonical F] (h : Tiers N t) {op : TieredOp F} {t' : TieredStore F}
    (hstep : t.step hemera op = some t') : Tiers (PlainMap.apply N op) t' := by
  cases op with
  | put dimension key value =>
      obtain ⟨_, hput⟩ := TieredStore.after_eq hstep
      exact h.put hput
  | remove dimension key =>
      obtain ⟨_, hremove⟩ := TieredStore.after_eq hstep
      exact h.remove hremove
  | edit dimension key elements =>
      obtain ⟨result, hedit, hafter⟩ := Option.bind_eq_some_iff.mp hstep
      obtain ⟨_, rfl⟩ := TieredStore.after_eq hafter
      exact h.edit hedit
  | promote dimension key =>
      obtain ⟨_, hpromote⟩ := TieredStore.after_eq hstep
      exact h.promote hpromote
  | evict dimension key =>
      obtain ⟨_, hevict⟩ := TieredStore.after_eq hstep
      exact h.evict hevict
  | commit =>
      obtain ⟨_, hcommit⟩ := TieredStore.after_eq hstep
      exact (h.commit hemera hcommit).1

theorem Tiers.run [NebuCanonical F] (h : Tiers N t) {ops : List (TieredOp F)} {t' : TieredStore F}
    (hrun : t.runOk hemera ops = some t') : Tiers (ops.foldl PlainMap.apply N) t' := by
  induction ops generalizing N t with
  | nil =>
      obtain rfl := Option.some_inj.mp hrun
      exact h
  | cons op ops ih =>
      obtain ⟨t₁, hstep, hrest⟩ := Option.bind_eq_some_iff.mp hrun
      exact ih (h.step hemera hstep) hrest

omit [Nebu F] in
theorem TieredStore.runOk_append [Nebu F] {ops ops' : List (TieredOp F)} {t t' : TieredStore F}
    (h : t.runOk hemera (ops ++ ops') = some t') :
    ∃ t₁, t.runOk hemera ops = some t₁ ∧ t₁.runOk hemera ops' = some t' := by
  induction ops generalizing t with
  | nil => exact ⟨t, rfl, h⟩
  | cons op ops ih =>
      obtain ⟨t₁, hstep, hrest⟩ := Option.bind_eq_some_iff.mp h
      obtain ⟨t₂, hfirst, hsecond⟩ := ih hrest
      exact ⟨t₂, Option.bind_eq_some_iff.mpr ⟨t₁, hstep, hfirst⟩, hsecond⟩

/-- The operation puts the key. -/
def TieredOp.Puts (dimension : UInt8) (key : Bytes32) : TieredOp F → Prop
  | .put d k _ => d = dimension ∧ k = key
  | _ => False

omit [Nebu F] [DecidableEq F] in
/-- A key without a value keeps none until it is put. -/
theorem PlainMap.foldl_none {dimension : UInt8} {key : Bytes32} {ops : List (TieredOp F)}
    (hops : ∀ op ∈ ops, ¬op.Puts dimension key) {N : PlainMap F} (hnone : N ⟨dimension, key⟩ = none) :
    ops.foldl PlainMap.apply N ⟨dimension, key⟩ = none := by
  induction ops generalizing N with
  | nil => exact hnone
  | cons op ops ih =>
      refine ih (fun op hop => hops op (List.mem_cons_of_mem _ hop)) ?_
      have hput := hops op List.mem_cons_self
      cases op with
      | put d k value =>
          rw [PlainMap.apply, Function.update_of_ne]
          · exact hnone
          · rintro heq
            obtain ⟨rfl, rfl⟩ := EntryKey.mk.inj heq
            exact hput ⟨rfl, rfl⟩
      | remove d k =>
          rw [PlainMap.apply, Function.update_apply]
          split_ifs
          · rfl
          · exact hnone
      | edit d k elements =>
          rw [PlainMap.apply, Function.update_apply]
          split_ifs with heq
          · rw [← heq, hnone]
            rfl
          · exact hnone
      | _ => exact hnone

/-- The map that a fresh store starts from: the persistent part of what is on disk. -/
def PlainMap.persistent (M : PlainMap F) : PlainMap F := fun k => if k.dimension < EPHEMERAL then M k else none

omit [DecidableEq F] in
theorem Holds.tiers {M : PlainMap F} {db : Database} (h : Holds M db) (hready : db.failure = none)
    (htidy : Tidy db.tables) : Tiers (PlainMap.persistent M) (TieredStore.new db) where
  failure := rfl
  unknown := rfl
  warm := by
    refine ⟨_, h.shows, hready, fun k hk => ?_⟩
    rw [PlainMap.persistent, if_pos hk, Shelf.read, if_neg (UInt8.ne_of_lt hk)]
    rfl
  cached k value hvalue := by simp [TieredStore.new, WriteBuffer.empty] at hvalue
  scratch k hk := by
    rw [PlainMap.persistent, if_neg (by rw [hk]; exact UInt8.lt_irrefl _)]
    simp [TieredStore.new, WriteBuffer.empty]
  short k value hvalue := by
    rw [PlainMap.persistent] at hvalue
    split_ifs at hvalue
    exact h.short k value hvalue
  known k hk := by
    rw [PlainMap.persistent] at hk
    split_ifs at hk with hlt
    · exact UInt8.le_of_lt hlt
    · exact absurd rfl hk
  tidy := htidy

omit [Nebu F] [DecidableEq F] in
theorem Answered.toOption_eq {maxElements : Nat} {value : Option (List F)}
    {answer answer' : Except StorageError (Option (List F))} (h : Answered maxElements value answer)
    (h' : Answered maxElements value answer') : answer'.toOption = answer.toOption := by
  cases value with
  | none => rw [h, h']
  | some v =>
      rw [Answered] at h h'
      split_ifs at h h'
      · rw [h, h']
      · obtain ⟨_, rfl⟩ := h
        obtain ⟨_, rfl⟩ := h'
        rfl

omit [DecidableEq F] in
/-- A limit past that of a value is refused by every read. -/
theorem Tiers.limit_of_read (h : Tiers N t) {dimension : UInt8} {key : Bytes32} {maxElements : Nat}
    {value : Option (List F)} (hread : t.read dimension key maxElements = .ok value) :
    maxElements ≤ MAX_VALUE_ELEMENTS := by
  by_contra hmax
  have hd := h.dimension_of_read hread
  obtain ⟨A, hshows, hready, -⟩ := h.warm
  have hlimit : checkReadLimit maxElements = .error (.limit "read element count") := if_pos (Nat.not_le.mp hmax)
  have hcopy : ∀ v : List F, copyValue v maxElements = .error (.limit "read element count") := by
    intro v
    rw [copyValue, hlimit]
    rfl
  rw [TieredStore.read, h.failure] at hread
  dsimp only at hread
  split_ifs at hread with hne hpoisoned
  · rw [DiskStore.read, hshows.ready hready, checkDimension_eq_ok.mpr hd, hlimit] at hread
    cases hread
  · cases hget : t.hot.get dimension key with
    | none =>
        rw [hget, DiskStore.read, hshows.ready hready, checkDimension_eq_ok.mpr hd, hlimit] at hread
        cases hread
    | some v =>
        rw [hget] at hread
        dsimp only at hread
        rw [hcopy] at hread
        cases hread
  · rw [MemStore.read, checkDimension_eq_ok.mpr hd, hlimit] at hread
    cases hread

omit [DecidableEq F] in
/-- Two stores that hold one map answer every read with the same value. -/
theorem Tiers.read_same [NebuCanonical F] (h : Tiers N t) {t' : TieredStore F} (h' : Tiers N t') (dimension : UInt8)
    (key : Bytes32) (maxElements : Nat) :
    (t'.read dimension key maxElements).toOption = (t.read dimension key maxElements).toOption := by
  by_cases hd : dimension ≤ EPHEMERAL ∧ maxElements ≤ MAX_VALUE_ELEMENTS
  · exact (h.read hd.1 key hd.2).toOption_eq (h'.read hd.1 key hd.2)
  · have hrefused : ∀ {s : TieredStore F}, Tiers N s → (s.read dimension key maxElements).toOption = none := by
      intro s hs
      cases hread : s.read dimension key maxElements with
      | error e => rfl
      | ok value => exact absurd ⟨hs.dimension_of_read hread, hs.limit_of_read hread⟩ hd
    rw [hrefused h, hrefused h']

/-- The operations that move values between the tiers. -/
def TieredOp.Moves : TieredOp F → Prop
  | .promote _ _ => True
  | .evict _ _ => True
  | _ => False

/-- Tiering is invisible. After any operations that all return `Ok`, reads give the plain map; moving a value between
the tiers changes no read; what is removed stays away until it is put again; and a commit leaves exactly the
persistent part of the map on disk. -/
theorem run_tiers [NebuCanonical F] {M : PlainMap F} {db : Database} (hdb : Holds M db) (hready : db.failure = none)
    (htidy : Tidy db.tables) {ops : List (TieredOp F)} {t : TieredStore F}
    (hrun : (TieredStore.new db).runOk hemera ops = some t) :
    (∀ dimension key, dimension ≤ EPHEMERAL → t.read dimension key MAX_VALUE_ELEMENTS =
      .ok (ops.foldl PlainMap.apply (PlainMap.persistent M) ⟨dimension, key⟩)) ∧
    (∀ op t', op.Moves → t.step hemera op = some t' → ∀ dimension key maxElements,
      (t'.read dimension key maxElements).toOption = (t.read dimension key maxElements).toOption) ∧
    (∀ before dimension key later, ops = before ++ .remove dimension key :: later →
      (∀ op ∈ later, ¬op.Puts dimension key) → t.read dimension key MAX_VALUE_ELEMENTS = .ok none) ∧
    ∀ before, ops = before ++ [.commit] →
      OnDisk (ops.foldl PlainMap.apply (PlainMap.persistent M)) t.warm.db.tables := by
  have hstart := hdb.tiers hready htidy
  have htiers := hstart.run hemera hrun
  refine ⟨fun dimension key hd => htiers.read_eq hd key, fun op t' hmoves hstep dimension key maxElements => ?_,
    fun before dimension key later hops hlater => ?_, fun before hops => ?_⟩
  · have hsame : PlainMap.apply (ops.foldl PlainMap.apply (PlainMap.persistent M)) op =
        ops.foldl PlainMap.apply (PlainMap.persistent M) := by
      cases op with
      | promote d k => rfl
      | evict d k => rfl
      | _ => exact hmoves.elim
    exact htiers.read_same (hsame ▸ htiers.step hemera hstep) dimension key maxElements
  · subst hops
    obtain ⟨t₁, hbefore, hrest⟩ := TieredStore.runOk_append hemera hrun
    obtain ⟨t₂, hremove, -⟩ := Option.bind_eq_some_iff.mp hrest
    have h₁ := hstart.run hemera hbefore
    -- the removal has read the key, so that its dimension exists
    have hd : dimension ≤ EPHEMERAL := by
      obtain ⟨old, hremove⟩ := TieredStore.after_eq hremove
      rw [TieredStore.remove, h₁.failure] at hremove
      dsimp only at hremove
      cases hread : t₁.read dimension key MAX_VALUE_ELEMENTS with
      | error e =>
          rw [hread] at hremove
          cases (Prod.mk.inj hremove).1
      | ok value => exact h₁.dimension_of_read hread
    rw [htiers.read_eq hd key, List.foldl_append, List.foldl_cons]
    congr 1
    exact PlainMap.foldl_none hlater (Function.update_self ..)
  · subst hops
    obtain ⟨t₁, hbefore, hrest⟩ := TieredStore.runOk_append hemera hrun
    obtain ⟨t₂, hstep, hnil⟩ := Option.bind_eq_some_iff.mp hrest
    obtain rfl := Option.some_inj.mp hnil
    obtain ⟨id, hcommit⟩ := TieredStore.after_eq hstep
    rw [List.foldl_append]
    exact ((hstart.run hemera hbefore).commit hemera hcommit).2

omit [Nebu F] [DecidableEq F] in
theorem tidy_empty : Tidy fun _ => ∅ := by
  intro d bytes row hrow
  simp at hrow

/-- A value is put, edited in place, committed, evicted and promoted again. -/
theorem run_tiers_editAndEvict :
    let db : Database := ⟨fun _ => ∅, none⟩
    let hemera : List UInt8 → Bytes32 := fun bytes => Vector.replicate 32 (UInt8.ofNat bytes.length)
    let key : Bytes32 := Vector.replicate 32 1
    let ops : List (TieredOp Goldilocks) := [.put 0 key [Nebu.new 7], .edit 0 key [Nebu.new 8], .commit, .evict 0 key,
      .promote 0 key, .put 13 key [Nebu.new 9], .remove 13 key]
    ∃ t, (TieredStore.new db).runOk hemera ops = some t ∧
      t.read 0 key MAX_VALUE_ELEMENTS = .ok (some [Nebu.new 8]) ∧ t.read 13 key MAX_VALUE_ELEMENTS = .ok none := by
  intro db hemera key ops
  have hsome : ((TieredStore.new db).runOk hemera ops).isSome = true := by decide +kernel
  obtain ⟨t, ht⟩ := Option.isSome_iff_exists.mp hsome
  obtain ⟨hread, -, hremoved, -⟩ := run_tiers hemera holds_empty rfl tidy_empty ht
  refine ⟨t, ht, ?_, hremoved [.put 0 key [Nebu.new 7], .edit 0 key [Nebu.new 8], .commit, .evict 0 key, .promote 0 key,
    .put 13 key [Nebu.new 9]] 13 key [] rfl nofun⟩
  rw [hread 0 key (by decide)]
  rfl

end LeanBbg.Storage
