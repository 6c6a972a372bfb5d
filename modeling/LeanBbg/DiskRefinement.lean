import LeanBbg.Disk
import LeanBbg.Goldilocks

/-! The shard view as a map with a commit log. A read sees the pending set over the committed map; a commit
moves the whole pending set into the map, and every pending set fits in one transaction. -/

namespace LeanBbg.Storage

open Std Bytes Attempt

/-! ### A batch of entries in a transaction -/

/-- A change that the transaction does not hold yet is staged when the budgets allow it. -/
theorem Transaction.stage_fresh {tx : Transaction} {table : Table} {key : List UInt8} {value : Option (List UInt8)}
    (hkey : key.length ≤ 64) (hvalue : ∀ v, value = some v → v.length ≤ MAX_BYTES_VALUE)
    (hfresh : tx.changes.lookup (table, key) = none) (hcount : tx.changes.entries.length < MAX_TRANSACTION_KEYS - 2)
    (hbytes : tx.bytes + key.length + value.elim 0 List.length ≤ MAX_TRANSACTION_BYTES - 91) :
    tx.stage table key value = .ok { tx with
      changes := tx.changes.insert (table, key) value
      bytes := tx.bytes + key.length + value.elim 0 List.length } := by
  have hrecord : ¬(key.length > 64 ∨ value.any (fun v => v.length > MAX_BYTES_VALUE) = true) := by
    rintro (hlong | hany)
    · omega
    · cases value with
      | none => cases hany
      | some v =>
          have := hvalue v rfl
          rw [Option.any_some, decide_eq_true_iff] at hany
          omega
  rw [Transaction.stage, if_neg hrecord, hfresh]
  dsimp only [Option.elim_none]
  rw [if_neg (by rintro ⟨-, hfull⟩; omega)]
  exact if_neg (show ¬tx.bytes - 0 + key.length + value.elim 0 List.length > MAX_TRANSACTION_BYTES - 91 by omega)

variable {F : Type} [Nebu F]

/-- A staged entry: a value, or a deletion. -/
abbrev Change (F : Type) := EntryKey × Option (List F)

/-- The row that a change addresses. -/
def EntryKey.row (k : EntryKey) : Table × List UInt8 := (.shard k.dimension, k.key.toList)

theorem EntryKey.row_injective {k k' : EntryKey} (h : k.row = k'.row) : k = k' := by
  obtain ⟨hdim, hkey⟩ := Prod.mk.inj h
  cases k
  cases k'
  rw [EntryKey.mk.injEq]
  exact ⟨Table.shard.inj hdim, Vector.toList_inj.mp hkey⟩

/-- The bytes that a change takes of a transaction. -/
def changeBytes (change : Change F) : Nat := 32 + change.2.elim 0 fun value => 8 * value.length

def stageChange (tx : Transaction) (change : Change F) : Except StorageError Transaction :=
  match change.2 with
  | some value => tx.putShard change.1.dimension change.1.key (value.map Nebu.asU64)
  | none => tx.remove (.shard change.1.dimension) change.1.key.toList

/-- A transaction that holds exactly a list of changes. -/
structure Batched (tables : Tables) (done : List (Change F)) (tx : Transaction) : Prop where
  engine : tx.engine = tables
  staged : ∀ change ∈ done, tx.changes.lookup change.1.row = some (change.2.map serialize)
  other : ∀ address, (∀ change ∈ done, change.1.row ≠ address) → tx.changes.lookup address = none
  count : tx.changes.entries.length = done.length
  bytes : tx.bytes = (done.map changeBytes).sum

theorem batched_begin (tables : Tables) : Batched tables ([] : List (Change F)) (.begin tables) :=
  ⟨rfl, nofun, fun _ _ => rfl, rfl, rfl⟩

/-- A change that can be staged: of a persistent dimension and not too long. -/
structure Change.Sound (change : Change F) : Prop where
  persistent : change.1.dimension < EPHEMERAL
  short : ∀ value, change.2 = some value → value.length ≤ MAX_VALUE_ELEMENTS

theorem diskDimension_of_lt {dimension : UInt8} (h : dimension < EPHEMERAL) : diskDimension dimension = .ok () := by
  have hle : ¬dimension > 13 := UInt8.not_lt.mpr (UInt8.le_of_lt h)
  have hne : dimension ≠ 13 := UInt8.ne_of_lt h
  rw [diskDimension, if_neg hle, if_neg hne]

theorem checkReadLimit_of_le {n : Nat} (h : n ≤ MAX_VALUE_ELEMENTS) : checkReadLimit n = .ok () := by
  rw [checkReadLimit, if_neg (Nat.not_lt.mpr h)]

/-- A sound change is one staged record. -/
theorem stageChange_eq {tx : Transaction} {change : Change F} (hsound : change.Sound) :
    stageChange tx change = tx.stage (.shard change.1.dimension) change.1.key.toList (change.2.map serialize) := by
  rw [stageChange]
  cases hvalue : change.2 with
  | none => rfl
  | some value =>
      have hshort := hsound.short value hvalue
      dsimp only
      rw [Transaction.putShard, diskDimension_of_lt hsound.persistent, List.length_map, checkReadLimit_of_le hshort]
      rfl

theorem Batched.stage {tables : Tables} {done : List (Change F)} {tx : Transaction} (h : Batched tables done tx)
    {change : Change F} (hsound : change.Sound) (hnew : change.1 ∉ done.map Prod.fst)
    (hcount : done.length + 1 ≤ MAX_PENDING_KEYS)
    (hbytes : ((done ++ [change]).map changeBytes).sum ≤ MAX_TRANSACTION_BYTES - 91) :
    ∃ tx', stageChange tx change = .ok tx' ∧ Batched tables (done ++ [change]) tx' := by
  have hne : ∀ c ∈ done, c.1.row ≠ change.1.row := by
    intro c hc heq
    refine hnew ?_
    rw [← EntryKey.row_injective heq]
    exact List.mem_map_of_mem hc
  have hfresh : tx.changes.lookup change.1.row = none := h.other change.1.row hne
  have hlength : (change.2.map serialize).elim 0 List.length = change.2.elim 0 fun value => 8 * value.length := by
    cases change.2 with
    | none => rfl
    | some value => exact serialize_length value
  have hvalue : ∀ v, change.2.map serialize = some v → v.length ≤ MAX_BYTES_VALUE := by
    intro v hv
    obtain ⟨value, hsome, rfl⟩ := Option.map_eq_some_iff.mp hv
    have hshort := hsound.short value hsome
    have hmax : 8 * MAX_VALUE_ELEMENTS ≤ MAX_BYTES_VALUE := by decide
    rw [serialize_length]
    omega
  have hkey : change.1.key.toList.length = 32 := by simp
  have hmax : MAX_PENDING_KEYS < MAX_TRANSACTION_KEYS - 2 := by decide
  have hentries := h.count
  have hsum : ((done ++ [change]).map changeBytes).sum = tx.bytes + changeBytes change := by
    rw [h.bytes, List.map_append, List.sum_append]
    simp
  have hbytes' : tx.bytes + change.1.key.toList.length + (change.2.map serialize).elim 0 List.length =
      tx.bytes + changeBytes change := by
    rw [hlength, hkey, changeBytes]
    omega
  rw [hsum] at hbytes
  have hstage := Transaction.stage_fresh (by omega) hvalue hfresh (by omega) (hbytes' ▸ hbytes)
  refine ⟨_, (stageChange_eq hsound).trans hstage, h.engine, fun c hc => ?_, fun address haddress => ?_, ?_, ?_⟩
  · rcases List.mem_append.mp hc with hold | hlast
    · exact (AList.lookup_insert_ne (hne c hold)).trans (h.staged c hold)
    · obtain rfl := List.mem_singleton.mp hlast
      exact AList.lookup_insert ..
  · have hnot := haddress change (List.mem_append_right _ (List.mem_singleton.mpr rfl))
    refine (AList.lookup_insert_ne (Ne.symm hnot)).trans (h.other address fun c hc => ?_)
    exact haddress c (List.mem_append_left _ hc)
  · have hnotin : change.1.row ∉ tx.changes := by
      rw [← AList.lookup_eq_none]
      exact hfresh
    change (tx.changes.insert change.1.row (change.2.map serialize)).entries.length = _
    rw [AList.entries_insert_of_notMem hnotin, List.length_cons, hentries, List.length_append]
    rfl
  · rw [hsum]
    exact hbytes'

/-- The staging loop of a commit goes through. -/
theorem Batched.stageAll {tables : Tables} {done : List (Change F)} {tx : Transaction} (h : Batched tables done tx)
    (changes : List (Change F)) (hsound : ∀ change ∈ changes, change.Sound)
    (hnodup : ((done ++ changes).map Prod.fst).Nodup) (hcount : (done ++ changes).length ≤ MAX_PENDING_KEYS)
    (hbytes : ((done ++ changes).map changeBytes).sum ≤ MAX_TRANSACTION_BYTES - 91) :
    ∃ tx', changes.foldlM stageChange tx = .ok tx' ∧ Batched tables (done ++ changes) tx' := by
  induction changes generalizing done tx with
  | nil => exact ⟨tx, rfl, by rw [List.append_nil]; exact h⟩
  | cons change changes ih =>
      have hsplit : done ++ change :: changes = (done ++ [change]) ++ changes := by simp
      rw [hsplit] at hnodup hcount hbytes ⊢
      have hnew : change.1 ∉ done.map Prod.fst := by
        rw [List.map_append, List.map_append] at hnodup
        have hdisjoint := (List.nodup_append.mp (List.nodup_append.mp hnodup).1).2.2
        exact fun hmem => hdisjoint _ hmem _ (List.mem_singleton.mpr rfl) rfl
      have hcount' : done.length + 1 ≤ MAX_PENDING_KEYS := by
        simp only [List.length_append, List.length_singleton] at hcount
        omega
      have hbytes' : ((done ++ [change]).map changeBytes).sum ≤ MAX_TRANSACTION_BYTES - 91 := by
        rw [List.map_append, List.sum_append] at hbytes
        omega
      obtain ⟨tx₁, hstage, h₁⟩ := h.stage (hsound change List.mem_cons_self) hnew hcount' hbytes'
      obtain ⟨tx', hrest, h'⟩ := ih h₁ (fun c hc => hsound c (List.mem_cons_of_mem _ hc)) hnodup hcount hbytes
      refine ⟨tx', ?_, h'⟩
      rw [List.foldlM_cons, hstage]
      exact hrest

/-! ### The batch of a commit -/

namespace WriteBuffer

variable {b : WriteBuffer F}

/-- The pending set as the loops of a commit go through it. -/
def changes (b : WriteBuffer F) : List (Change F) :=
  b.dirty.map (fun e => (e.1, some e.2)) ++ b.deleted.keys.map fun k => (k, none)

omit [Nebu F] in
theorem Inv.mem_changes (h : b.Inv) {k : EntryKey} {c : Option (List F)} :
    (k, c) ∈ b.changes ↔ b.pending k = some c := by
  rw [changes, List.mem_append]
  cases c with
  | none =>
      rw [pending_eq_deleted]
      simp
  | some value =>
      rw [h.pending_eq_some]
      simp

omit [Nebu F] in
theorem Inv.changes_nodup (h : b.Inv) : (b.changes.map Prod.fst).Nodup := by
  have hdirty : (b.dirty.map fun e => (e.1, some e.2)).map Prod.fst = b.dirty.map Prod.fst := by
    rw [List.map_map]
    rfl
  have hdeleted : (b.deleted.keys.map fun k => (k, (none : Option (List F)))).map Prod.fst = b.deleted.keys := by
    rw [List.map_map]
    exact List.map_id _
  rw [changes, List.map_append, hdirty, hdeleted, List.nodup_append]
  refine ⟨h.indexed.nodup, ExtTreeMap.nodup_keys, fun k hk k' hk' heq => ?_⟩
  subst heq
  obtain ⟨e, he, rfl⟩ := List.mem_map.mp hk
  have hcontains : b.deleted.contains e.1 = true := ExtTreeMap.mem_iff_contains.mp (ExtTreeMap.mem_keys.mp hk')
  exact h.indexed.not_mem (h.disjoint e.1 hcontains) e.2 he

omit [Nebu F] in
theorem changes_length (b : WriteBuffer F) : b.changes.length = b.dirty.length + b.deleted.size := by
  rw [changes, List.length_append, List.length_map, List.length_map, ExtTreeMap.length_keys]

omit [Nebu F] in
theorem changes_bytes (b : WriteBuffer F) :
    (b.changes.map changeBytes).sum = 32 * b.changes.length + 8 * (b.dirty.map fun e => e.2.length).sum := by
  have hdirty : ∀ l : List (EntryKey × List F), ((l.map fun e => (e.1, some e.2)).map changeBytes).sum =
      32 * l.length + 8 * (l.map fun e => e.2.length).sum := by
    intro l
    induction l with
    | nil => rfl
    | cons e l ih =>
        simp only [List.map_cons, List.sum_cons, List.length_cons, changeBytes, Option.elim_some] at ih ⊢
        omega
  have hdeleted : ∀ l : List EntryKey, ((l.map fun k => (k, (none : Option (List F)))).map changeBytes).sum =
      32 * l.length := by
    intro l
    induction l with
    | nil => rfl
    | cons k l ih =>
        simp only [List.map_cons, List.sum_cons, List.length_cons, changeBytes, Option.elim_none] at ih ⊢
        omega
  rw [changes, List.map_append, List.sum_append, hdirty, hdeleted, List.length_append, List.length_map,
    List.length_map]
  omega

omit [Nebu F] in
theorem Inv.changes_sound (h : b.Inv) {change : Change F} (hchange : change ∈ b.changes) : change.Sound := by
  obtain ⟨k, c⟩ := change
  have hpending := h.mem_changes.mp hchange
  refine ⟨?_, fun value hvalue => ?_⟩
  · by_contra hnot
    rw [h.pending_ephemeral hnot] at hpending
    cases hpending
  · dsimp only at hvalue
    rw [hvalue] at hpending
    exact h.short _ (h.pending_eq_some.mp hpending)

end WriteBuffer

theorem publish_eq (b : WriteBuffer F) (tx : Transaction) :
    DiskStore.publish b tx = (b.changes.foldlM stageChange tx).map fun tx => ((), tx) := by
  rw [DiskStore.publish, WriteBuffer.changes, List.foldlM_append]
  simp only [List.foldlM_map]
  change (do
    let tx ← b.dirty.foldlM (fun tx (e : EntryKey × List F) => stageChange tx (e.1, some e.2)) tx
    let tx ← b.deleted.keys.foldlM (fun tx k => stageChange tx (k, (none : Option (List F)))) tx
    Except.ok ((), tx)) = _
  cases b.dirty.foldlM (fun tx (e : EntryKey × List F) => stageChange tx (e.1, some e.2)) tx with
  | error e => rfl
  | ok tx₁ =>
      change (do
        let tx ← b.deleted.keys.foldlM (fun tx k => stageChange tx (k, (none : Option (List F)))) tx₁
        Except.ok ((), tx)) = Except.map _ (b.deleted.keys.foldlM _ tx₁)
      cases b.deleted.keys.foldlM (fun tx k => stageChange tx (k, (none : Option (List F)))) tx₁ with
      | error e => rfl
      | ok tx₂ => rfl

/-- Every pending set fits in one transaction. -/
theorem publish_begin {b : WriteBuffer F} (h : b.Inv) (tables : Tables) :
    ∃ tx, DiskStore.publish b (.begin tables) = .ok ((), tx) ∧ Batched tables b.changes tx := by
  have hlength := b.changes_length
  have hbytes := b.changes_bytes
  have hkeys := h.keys_le
  have helements := h.elements_le
  rw [h.counted] at helements
  have hbudget : 32 * MAX_PENDING_KEYS + 8 * MAX_PENDING_ELEMENTS ≤ MAX_TRANSACTION_BYTES - 91 := by decide
  obtain ⟨tx, hfold, hbatched⟩ := (batched_begin tables).stageAll b.changes (fun _ hc => h.changes_sound hc)
    h.changes_nodup (by rw [List.nil_append]; omega) (by rw [List.nil_append]; omega)
  refine ⟨tx, ?_, hbatched⟩
  rw [publish_eq, hfold]
  rfl

/-- The tables after a batch of pending changes. -/
structure Written (b : WriteBuffer F) (id : Bytes32) (tables written : Tables) : Prop where
  rows : ∀ k : EntryKey, k.dimension < EPHEMERAL → (written (.shard k.dimension))[k.key.toList]? =
    (b.pending k).elim ((tables (.shard k.dimension))[k.key.toList]?) fun c => c.map serialize
  other : ∀ t key, t ≠ .metadata → (∀ k : EntryKey, k.dimension < EPHEMERAL → k.row ≠ (t, key)) →
    (written t)[key]? = (tables t)[key]?
  marker : (written .metadata)[ascii "last_commit"]? = some id.toList

theorem Batched.written {b : WriteBuffer F} (h : b.Inv) {tables : Tables} {tx : Transaction}
    (hbatched : Batched tables b.changes tx) (hpending : b.hasPending = true) (id : Bytes32) :
    Written b id tables (applyChanges tables (withMarkers tx.changes id)) := by
  have hview : ∀ t key, t ≠ .metadata → (applyChanges tables (withMarkers tx.changes id) t)[key]? =
      (tx.changes.lookup (t, key)).getD ((tables t)[key]?) := by
    intro t key ht
    rw [← hbatched.engine, applyChanges_withMarkers tx id key ht, Transaction.view]
  refine ⟨fun k hk => ?_, fun t key ht hnot => ?_, ?_⟩
  · rw [hview _ _ (by simp)]
    cases hstaged : b.pending k with
    | some c =>
        have hlookup := hbatched.staged (k, c) (h.mem_changes.mpr hstaged)
        dsimp only [EntryKey.row] at hlookup
        rw [hlookup]
        rfl
    | none =>
        have hlookup := hbatched.other k.row fun change hchange heq => by
          have hsome := h.mem_changes.mp hchange
          rw [EntryKey.row_injective heq, hstaged] at hsome
          cases hsome
        dsimp only [EntryKey.row] at hlookup
        rw [hlookup]
        rfl
  · rw [hview t key ht, hbatched.other (t, key) fun change hchange heq =>
      hnot change.1 (h.changes_sound hchange).persistent heq]
    rfl
  · -- a pending change is a shard row, so that the marker is in the batch
    have hshards : ∃ change, change ∈ b.changes := by
      by_contra hnone
      push Not at hnone
      have hfalse := h.hasPending_eq_false.mpr fun q => by
        cases hq : b.pending q with
        | none => rfl
        | some c => exact absurd (h.mem_changes.mpr hq) (hnone _)
      rw [hpending] at hfalse
      cases hfalse
    obtain ⟨change, hchange⟩ := hshards
    have hmem : change.1.row ∈ tx.changes.keys := by
      have hsome : (tx.changes.lookup change.1.row).isSome = true := by
        rw [hbatched.staged change hchange]
        rfl
      exact AList.mem_keys.mp (AList.lookup_isSome.mp hsome)
    rw [applyChanges_get, withMarkers, AList.lookup_insert_ne fun heq => absurd (Prod.mk.inj heq).2 (by decide)]
    split_ifs with hif
    · rw [AList.lookup_insert]
      rfl
    · exact absurd (List.any_eq_true.mpr ⟨_, hmem, rfl⟩) hif

namespace DiskStore

variable (hemera : List UInt8 → Bytes32)

omit [Nebu F] in
theorem ready_eq {s : DiskStore F} (hunknown : s.pending.unknown = none) (hfailure : s.db.failure = none) :
    s.ready = .ok () := by
  rw [ready, WriteBuffer.ready_of_none hunknown, hfailure]
  rfl

omit [Nebu F] in
theorem ready_of_failure {s : DiskStore F} {e : StorageError} (hfailure : s.db.failure = some e)
    (hunknown : s.pending.unknown = none ∨ s.pending.unknown = some e) : s.ready = .error e := by
  rw [ready]
  rcases hunknown with hnone | hsome
  · rw [WriteBuffer.ready_of_none hnone, hfailure]
    rfl
  · rw [WriteBuffer.ready_of_some hsome]
    rfl

/-- A commit of a pending set, by what the engine does with the batch. -/
theorem commit_eq {s : DiskStore F} (outcome : CommitOutcome) (h : s.pending.Inv) (hunknown : s.pending.unknown = none)
    (hfailure : s.db.failure = none) (hpending : s.pending.hasPending = true) :
    ∃ id written, Written s.pending id s.db.tables written ∧
      s.commit hemera outcome =
        match outcome with
        | .done => (.ok id, ⟨{ s.db with tables := written }, s.pending.finish⟩)
        | .failed message => (.error (.io message), s)
        | .unknown message applied => (.error (.commitUnknown id message),
            ⟨{ tables := if applied then written else s.db.tables, failure := some (.commitUnknown id message) },
              { s.pending with unknown := some (.commitUnknown id message) }⟩) := by
  obtain ⟨tx, hpublish, hbatched⟩ := publish_begin h s.db.tables
  have hchanged : tx.changes ≠ ∅ := by
    intro hempty
    have hlength := hbatched.count
    have hempty' : tx.changes.entries.length = 0 := by
      rw [hempty]
      rfl
    rw [hempty', WriteBuffer.changes_length] at hlength
    rw [WriteBuffer.hasPending, ExtTreeMap.isEmpty_eq_size_beq_zero] at hpending
    have hdirty : s.pending.dirty = [] := List.eq_nil_of_length_eq_zero (by omega)
    have hsize : s.pending.deleted.size = 0 := by omega
    rw [hdirty, hsize] at hpending
    cases hpending
  refine ⟨changeId hemera tx.changes, _, hbatched.written h hpending _, ?_⟩
  rw [commit, ready_eq hunknown hfailure]
  dsimp only
  rw [hpending, transact_of_changed hemera id outcome hfailure hpublish hchanged]
  cases outcome with
  | done => rfl
  | failed message => rfl
  | unknown message applied => rfl

end DiskStore

/-! ### The map and its log -/

/-- What a shard view is for: a committed map, the changes staged over it, and the local values. -/
structure Shelf (F : Type) where
  committed : EntryKey → Option (List F)
  staged : EntryKey → Option (Option (List F))
  scratch : EntryKey → Option (List F)
  failure : Option StorageError

namespace Shelf

/-- The value that a reader sees. -/
def read (A : Shelf F) (k : EntryKey) : Option (List F) :=
  if k.dimension = EPHEMERAL then A.scratch k else (A.staged k).getD (A.committed k)

def put (A : Shelf F) (k : EntryKey) (value : List F) : Shelf F :=
  if k.dimension = EPHEMERAL then { A with scratch := Function.update A.scratch k (some value) }
  else { A with staged := Function.update A.staged k (some (some value)) }

def remove (A : Shelf F) (k : EntryKey) : Shelf F :=
  if k.dimension = EPHEMERAL then { A with scratch := Function.update A.scratch k none }
  else { A with staged := Function.update A.staged k (some none) }

/-- The committed map with the staged changes. -/
def published (A : Shelf F) : EntryKey → Option (List F) := fun k => (A.staged k).getD (A.committed k)

end Shelf

/-- The store shows the shelf. -/
structure Shows (s : DiskStore F) (A : Shelf F) : Prop where
  inv : s.pending.Inv
  staged : ∀ k, s.pending.pending k = A.staged k
  cached : ∀ k : EntryKey, k.dimension < EPHEMERAL → s.pending.cache[k]? = (A.staged k).join
  scratch : ∀ k : EntryKey, k.dimension = EPHEMERAL → s.pending.cache[k]? = A.scratch k
  rows : ∀ k : EntryKey, k.dimension < EPHEMERAL →
    (s.db.tables (.shard k.dimension))[k.key.toList]? = (A.committed k).map serialize
  short : ∀ k value, A.committed k = some value → value.length ≤ MAX_VALUE_ELEMENTS
  shortScratch : ∀ k value, A.scratch k = some value → value.length ≤ MAX_VALUE_ELEMENTS
  marker : ∀ row, (s.db.tables .metadata)[ascii "last_commit"]? = some row → row.length = 32
  failure : s.db.failure = A.failure
  unknown : s.pending.unknown = none ∨ s.pending.unknown = A.failure
  failed : ∀ e, A.failure = some e → ∃ id message, e = .commitUnknown id message

variable {s : DiskStore F} {A : Shelf F}

theorem Shows.ready (h : Shows s A) (hready : A.failure = none) : s.ready = .ok () :=
  DiskStore.ready_eq (h.unknown.elim id fun heq => heq.trans hready) (h.failure.trans hready)

theorem Shows.not_ready (h : Shows s A) {e : StorageError} (hfailure : A.failure = some e) : s.ready = .error e :=
  DiskStore.ready_of_failure (h.failure.trans hfailure) (hfailure ▸ h.unknown)

theorem Shows.unknown_none (h : Shows s A) (hready : A.failure = none) : s.pending.unknown = none :=
  h.unknown.elim id fun heq => heq.trans hready

/-- What a bounded read answers about a value. -/
def Answered (maxElements : Nat) (value : Option (List F)) (answer : Except StorageError (Option (List F))) : Prop :=
  match value with
  | none => answer = .ok none
  | some v =>
      if v.length ≤ maxElements then answer = .ok (some v) else ∃ message, answer = .error (.limit message)

omit [Nebu F] in
theorem answered_copyValue (value : List F) {maxElements : Nat} (hmax : maxElements ≤ MAX_VALUE_ELEMENTS) :
    Answered maxElements (some value) ((copyValue value maxElements).map some) := by
  rw [Answered, copyValue, checkReadLimit_of_le hmax]
  dsimp only [bind, Except.bind]
  by_cases hle : value.length ≤ maxElements
  · rw [if_pos hle, if_neg (Nat.not_lt.mpr hle)]
    rfl
  · rw [if_neg hle, if_pos (Nat.not_le.mp hle)]
    exact ⟨_, rfl⟩

/-- A read of the committed rows. -/
theorem Shows.load [NebuCanonical F] (h : Shows s A) (hready : A.failure = none) {dimension : UInt8}
    (hd : dimension < EPHEMERAL) (key : Bytes32) {maxElements : Nat} (hmax : maxElements ≤ MAX_VALUE_ELEMENTS) :
    Answered maxElements (A.committed ⟨dimension, key⟩) (s.load dimension key maxElements) := by
  have hne : dimension ≠ EPHEMERAL := UInt8.ne_of_lt hd
  have hrow := h.rows ⟨dimension, key⟩ hd
  have hbudget : ¬(key.toList.length > 64 ∨ maxElements * 8 > MAX_BYTES_VALUE) := by
    have hlimit : MAX_VALUE_ELEMENTS * 8 ≤ MAX_BYTES_VALUE := by decide
    have hlength : key.toList.length = 32 := by simp
    omega
  have hread : s.db.read (.shard dimension) key.toList (maxElements * 8) =
      engineGet s.db.tables (.shard dimension) key.toList (maxElements * 8) := by
    simp only [Database.read, h.failure, hready, Transaction.get, if_neg hbudget, Transaction.begin, AList.lookup_empty]
  rw [DiskStore.load, h.ready hready, checkDimension_eq_ok.mpr (UInt8.le_of_lt hd), checkReadLimit_of_le hmax, hread]
  dsimp only [bind, Except.bind]
  rw [if_neg hne, engineGet, hrow]
  cases hvalue : A.committed ⟨dimension, key⟩ with
  | none => rfl
  | some value =>
      rw [Answered, Option.map_some]
      dsimp only
      have hlength := serialize_length value
      by_cases hle : value.length ≤ maxElements
      · rw [if_pos hle, if_neg (by omega)]
        change (deserialize (serialize value) maxElements).map some = _
        rw [deserialize_serialize hle hmax]
        rfl
      · rw [if_neg hle, if_pos (by omega)]
        exact ⟨_, rfl⟩

/-- A read sees the staged change, or the committed value. -/
theorem Shows.read [NebuCanonical F] (h : Shows s A) (hready : A.failure = none) {dimension : UInt8}
    (hd : dimension ≤ EPHEMERAL) (key : Bytes32) {maxElements : Nat} (hmax : maxElements ≤ MAX_VALUE_ELEMENTS) :
    Answered maxElements (A.read ⟨dimension, key⟩) (s.read dimension key maxElements) := by
  rw [DiskStore.read, h.ready hready, checkDimension_eq_ok.mpr hd, checkReadLimit_of_le hmax]
  dsimp only [bind, Except.bind]
  by_cases heq : dimension = EPHEMERAL
  · have hcache := h.scratch ⟨dimension, key⟩ heq
    have hnone : s.pending.deleted.contains ⟨dimension, key⟩ = false := by
      rw [Bool.eq_false_iff]
      intro hdeleted
      have := h.inv.deletedPersistent _ hdeleted
      rw [heq] at this
      exact absurd this (UInt8.lt_irrefl _)
    rw [hnone, hcache, Shelf.read, if_pos heq, if_neg Bool.false_ne_true]
    cases A.scratch ⟨dimension, key⟩ with
    | none =>
        dsimp only
        rw [DiskStore.load, h.ready hready, checkDimension_eq_ok.mpr hd, checkReadLimit_of_le hmax]
        dsimp only [bind, Except.bind]
        rw [if_pos heq]
        rfl
    | some value => exact answered_copyValue value hmax
  · have hlt : dimension < EPHEMERAL := UInt8.lt_of_le_of_ne hd heq
    have hcache := h.cached ⟨dimension, key⟩ hlt
    have hstaged := h.staged ⟨dimension, key⟩
    rw [Shelf.read, if_neg heq]
    split_ifs with hdeleted
    · rw [← hstaged, WriteBuffer.pending_eq_deleted.mpr hdeleted]
      rfl
    · rw [hcache]
      cases hchange : A.staged ⟨dimension, key⟩ with
      | none => exact h.load hready hlt key hmax
      | some c =>
          cases c with
          | none =>
              rw [hchange] at hstaged
              exact absurd (WriteBuffer.pending_eq_deleted.mp hstaged) hdeleted
          | some value => exact answered_copyValue value hmax

omit [Nebu F] in
theorem Answered.eq_of_ok {maxElements : Nat} {value answer : Option (List F)} (h : Answered maxElements value (.ok answer)) :
    answer = value := by
  cases value with
  | none => exact Except.ok.inj h
  | some v =>
      rw [Answered] at h
      split_ifs at h
      · exact Except.ok.inj h
      · obtain ⟨_, hmessage⟩ := h
        cases hmessage

theorem Shows.ready_of_ok (h : Shows s A) {α : Type} {f : Unit → Except StorageError α} {a : α}
    (hok : (s.ready >>= f) = .ok a) : A.failure = none ∧ f () = .ok a := by
  cases hfailure : A.failure with
  | none =>
      rw [h.ready hfailure] at hok
      exact ⟨rfl, hok⟩
  | some e =>
      rw [h.not_ready hfailure] at hok
      cases hok

/-- What the cache of a key says, whatever its dimension. -/
theorem Shows.update {s' : DiskStore F} {A' : Shelf F} (h : Shows s A) (hdb : s'.db = s.db) (hinv : s'.pending.Inv)
    (hunknown : s'.pending.unknown = s.pending.unknown) (hcommitted : A'.committed = A.committed)
    (hfailure : A'.failure = A.failure) (hstaged : ∀ k, s'.pending.pending k = A'.staged k)
    (hcached : ∀ k : EntryKey, k.dimension < EPHEMERAL → s'.pending.cache[k]? = (A'.staged k).join)
    (hscratch : ∀ k : EntryKey, k.dimension = EPHEMERAL → s'.pending.cache[k]? = A'.scratch k)
    (hshort : ∀ k value, A'.scratch k = some value → value.length ≤ MAX_VALUE_ELEMENTS) : Shows s' A' where
  inv := hinv
  staged := hstaged
  cached := hcached
  scratch := hscratch
  rows := by
    rw [hdb, hcommitted]
    exact h.rows
  short := by
    rw [hcommitted]
    exact h.short
  shortScratch := hshort
  marker := by
    rw [hdb]
    exact h.marker
  failure := by
    rw [hdb, hfailure]
    exact h.failure
  unknown := by
    rw [hunknown, hfailure]
    exact h.unknown
  failed := by
    rw [hfailure]
    exact h.failed

theorem Shows.put (h : Shows s A) {dimension : UInt8} {key : Bytes32} {value : List F} {s' : DiskStore F}
    (hput : s.put dimension key value = .ok s') :
    A.failure = none ∧ dimension ≤ EPHEMERAL ∧ Shows s' (A.put ⟨dimension, key⟩ value) := by
  obtain ⟨hready, hput⟩ := h.ready_of_ok hput
  obtain ⟨pending, hbuffer, hput⟩ := exists_of_bind_ok hput
  obtain rfl := Except.ok.inj hput
  have hunknown : s.pending.unknown = none := h.unknown.elim id fun heq => heq.trans hready
  by_cases hd : dimension ≤ EPHEMERAL
  · refine ⟨hready, hd, ?_⟩
    by_cases heq : dimension = EPHEMERAL
    · subst heq
      rw [WriteBuffer.put_ephemeral hunknown] at hbuffer
      split_ifs at hbuffer with hlong
      obtain rfl := Except.ok.inj hbuffer
      rw [Shelf.put, if_pos rfl]
      refine h.update rfl (h.inv.of_same rfl rfl rfl rfl) rfl rfl rfl h.staged (fun k hk => ?_) (fun k hk => ?_) ?_
      · dsimp only
        rw [OrdMap.getElem?_insert, if_neg, h.cached k hk]
        rintro rfl
        exact absurd hk (UInt8.lt_irrefl _)
      · dsimp only
        rw [OrdMap.getElem?_insert, Function.update_apply]
        split_ifs with hkey hkey' hkey'
        · rfl
        · exact absurd hkey.symm hkey'
        · exact absurd hkey'.symm hkey
        · exact h.scratch k hk
      · intro k v hv
        dsimp only at hv
        rw [Function.update_apply] at hv
        split_ifs at hv
        · obtain rfl := Option.some_inj.mp hv
          exact Nat.not_lt.mp hlong
        · exact h.shortScratch k v hv
    · have hlt : dimension < EPHEMERAL := UInt8.lt_of_le_of_ne hd heq
      rw [WriteBuffer.put_eq hunknown hlt] at hbuffer
      split_ifs at hbuffer with hlong helements hroom
      obtain rfl := Except.ok.inj hbuffer
      rw [Shelf.put, if_neg heq]
      have hfits : s.pending.Fits ⟨dimension, key⟩ value.length := ⟨Nat.not_lt.mp helements, hroom⟩
      refine h.update rfl (h.inv.stageValue hlt (Nat.not_lt.mp hlong) hfits) (WriteBuffer.stageValue_unknown ..) rfl rfl
        (fun k => ?_) (fun k hk => ?_) (fun k hk => ?_) h.shortScratch
      · rw [h.inv.pending_stageValue, h.staged]
        dsimp only
        rw [Function.update_apply]
      · dsimp only
        rw [WriteBuffer.stageValue_cache, OrdMap.getElem?_insert, Function.update_apply]
        split_ifs with hkey hkey' hkey'
        · rfl
        · exact absurd hkey.symm hkey'
        · exact absurd hkey'.symm hkey
        · exact h.cached k hk
      · rw [WriteBuffer.stageValue_cache, OrdMap.getElem?_insert, if_neg]
        · exact h.scratch k hk
        · rintro rfl
          exact heq hk
  · rw [WriteBuffer.put_dimension hunknown hd] at hbuffer
    cases hbuffer

theorem Shows.remove [NebuCanonical F] (h : Shows s A) {dimension : UInt8} {key : Bytes32} {value : Option (List F)}
    {s' : DiskStore F} (hremove : s.remove dimension key = .ok (value, s')) :
    A.failure = none ∧ dimension ≤ EPHEMERAL ∧ value = A.read ⟨dimension, key⟩ ∧
      Shows s' (A.remove ⟨dimension, key⟩) := by
  obtain ⟨value', hread, hremove⟩ := exists_of_bind_ok hremove
  obtain ⟨pending, hbuffer, hremove⟩ := exists_of_bind_ok hremove
  obtain ⟨rfl, rfl⟩ := Prod.mk.inj (Except.ok.inj hremove)
  have hready : A.failure = none := by
    rw [DiskStore.read] at hread
    exact (h.ready_of_ok hread).1
  have hunknown : s.pending.unknown = none := h.unknown.elim id fun heq => heq.trans hready
  by_cases hd : dimension ≤ EPHEMERAL
  · have hvalue := h.read hready hd key (Nat.le_refl MAX_VALUE_ELEMENTS)
    rw [hread] at hvalue
    refine ⟨hready, hd, hvalue.eq_of_ok, ?_⟩
    by_cases heq : dimension = EPHEMERAL
    · subst heq
      rw [WriteBuffer.delete_ephemeral hunknown] at hbuffer
      obtain rfl := Except.ok.inj hbuffer
      rw [Shelf.remove, if_pos rfl]
      refine h.update rfl (h.inv.of_same rfl rfl rfl rfl) rfl rfl rfl h.staged (fun k hk => ?_) (fun k hk => ?_) ?_
      · dsimp only
        rw [OrdMap.getElem?_erase, if_neg, h.cached k hk]
        rintro rfl
        exact absurd hk (UInt8.lt_irrefl _)
      · dsimp only
        rw [OrdMap.getElem?_erase, Function.update_apply]
        split_ifs with hkey hkey' hkey'
        · rfl
        · exact absurd hkey.symm hkey'
        · exact absurd hkey'.symm hkey
        · exact h.scratch k hk
      · intro k v hv
        dsimp only at hv
        rw [Function.update_apply] at hv
        split_ifs at hv
        exact h.shortScratch k v hv
    · have hlt : dimension < EPHEMERAL := UInt8.lt_of_le_of_ne hd heq
      rw [WriteBuffer.delete_eq hunknown hlt] at hbuffer
      split_ifs at hbuffer with hroom
      obtain rfl := Except.ok.inj hbuffer
      rw [Shelf.remove, if_neg heq]
      refine h.update rfl (h.inv.stageDeletion hlt hroom) (WriteBuffer.stageDeletion_unknown ..) rfl rfl
        (fun k => ?_) (fun k hk => ?_) (fun k hk => ?_) h.shortScratch
      · rw [h.inv.pending_stageDeletion, h.staged]
        dsimp only
        rw [Function.update_apply]
      · dsimp only
        rw [WriteBuffer.stageDeletion_cache, OrdMap.getElem?_erase, Function.update_apply]
        split_ifs with hkey hkey' hkey'
        · rfl
        · exact absurd hkey.symm hkey'
        · exact absurd hkey'.symm hkey
        · exact h.cached k hk
      · rw [WriteBuffer.stageDeletion_cache, OrdMap.getElem?_erase, if_neg]
        · exact h.scratch k hk
        · rintro rfl
          exact heq hk
  · rw [WriteBuffer.delete_dimension hunknown hd] at hbuffer
    cases hbuffer

/-! ### Commits -/

/-- The shelf after a commit that is written. -/
def Shelf.commit (A : Shelf F) : Shelf F := { A with committed := A.published, staged := fun _ => none }

theorem Shows.rows_written (h : Shows s A) {id : Bytes32} {written : Tables}
    (hwritten : Written s.pending id s.db.tables written) {k : EntryKey} (hk : k.dimension < EPHEMERAL) :
    (written (.shard k.dimension))[k.key.toList]? = (A.published k).map serialize := by
  rw [hwritten.rows k hk, h.rows k hk, h.staged, Shelf.published]
  cases A.staged k with
  | none => rfl
  | some c => rfl

theorem Shows.short_published (h : Shows s A) {k : EntryKey} {value : List F} (hvalue : A.published k = some value) :
    value.length ≤ MAX_VALUE_ELEMENTS := by
  rw [Shelf.published] at hvalue
  cases hstaged : A.staged k with
  | none =>
      rw [hstaged] at hvalue
      exact h.short k value hvalue
  | some c =>
      rw [hstaged, Option.getD_some] at hvalue
      rw [hvalue, ← h.staged] at hstaged
      exact h.inv.short _ (h.inv.pending_eq_some.mp hstaged)

omit [Nebu F] in
theorem finish_cache (b : WriteBuffer F) (k : EntryKey) :
    b.finish.cache[k]? = if k.dimension = EPHEMERAL then b.cache[k]? else none := by
  rw [WriteBuffer.finish]
  dsimp only
  rw [ExtTreeMap.getElem?_filter']
  cases b.cache[k]? with
  | none => split_ifs <;> rfl
  | some value => split_ifs with hk <;> simp [Option.filter, hk]

/-- A commit without pending changes names the last batch. -/
theorem Shows.commit_clean (h : Shows s A) (hready : A.failure = none) (hemera : List UInt8 → Bytes32)
    (outcome : CommitOutcome) (hclean : s.pending.hasPending = false) :
    ∃ id, s.commit hemera outcome = (.ok id, s) := by
  have hmarker : ∃ last, s.db.commitMarker = .ok last := by
    have hfailure := h.failure.trans hready
    cases hrow : s.db.view .metadata (ascii "last_commit") with
    | none =>
        refine ⟨none, ?_⟩
        simp only [Database.commitMarker, Database.marker, Database.read, hfailure, Transaction.get, Transaction.begin,
          AList.lookup_empty, engineGet]
        rw [Database.view] at hrow
        rw [hrow]
        rfl
    | some row =>
        have hlength := h.marker row hrow
        refine ⟨some ⟨row.toArray, by simpa using hlength⟩, marker_of_row hfailure (by decide) ?_⟩
        rw [hrow]
        simp
  obtain ⟨last, hlast⟩ := hmarker
  refine ⟨last.getD (s.pending.changeId hemera), ?_⟩
  rw [DiskStore.commit, h.ready hready]
  dsimp only
  rw [hclean, DiskStore.lastCommit, h.ready hready]
  change (s.db.commitMarker.map _, s) = _
  rw [hlast]
  rfl

omit [Nebu F] in
theorem Shelf.commit_of_clean (A : Shelf F) (hclean : ∀ k, A.staged k = none) : A.commit = A := by
  rw [Shelf.commit]
  have hpublished : A.published = A.committed := by
    funext k
    rw [Shelf.published, hclean]
    rfl
  have hstaged : A.staged = fun _ => none := by
    funext k
    exact hclean k
  rw [hpublished, ← hstaged]

theorem Shows.commit_done (h : Shows s A) (hready : A.failure = none) {id : Bytes32} {written : Tables}
    (hwritten : Written s.pending id s.db.tables written) :
    Shows ⟨{ s.db with tables := written }, s.pending.finish⟩ A.commit where
  inv := (WriteBuffer.inv_clearPending s.pending).of_same rfl rfl rfl rfl
  staged k := WriteBuffer.pending_clearPending s.pending k
  cached k hk := by
    rw [finish_cache, if_neg (UInt8.ne_of_lt hk)]
    rfl
  scratch k hk := by
    rw [finish_cache, if_pos hk]
    exact h.scratch k hk
  rows k hk := h.rows_written hwritten hk
  short _ _ hvalue := h.short_published hvalue
  shortScratch := h.shortScratch
  marker row hrow := by
    dsimp only at hrow
    rw [hwritten.marker] at hrow
    obtain rfl := Option.some_inj.mp hrow
    simp
  failure := h.failure
  unknown := .inl (h.unknown.elim (fun hnone => hnone) fun heq => heq.trans hready)
  failed := h.failed

theorem Shows.commit_unknown (h : Shows s A) {id : Bytes32} {written : Tables}
    (hwritten : Written s.pending id s.db.tables written) (message : String) (applied : Bool) :
    Shows ⟨{ tables := if applied then written else s.db.tables, failure := some (.commitUnknown id message) },
        { s.pending with unknown := some (.commitUnknown id message) }⟩
      { A with
        committed := if applied then A.published else A.committed
        failure := some (.commitUnknown id message) } where
  inv := h.inv.of_same rfl rfl rfl rfl
  staged := h.staged
  cached := h.cached
  scratch := h.scratch
  rows k hk := by
    cases applied with
    | false => exact h.rows k hk
    | true => exact h.rows_written hwritten hk
  short k value hvalue := by
    cases applied with
    | false => exact h.short k value hvalue
    | true => exact h.short_published hvalue
  shortScratch := h.shortScratch
  marker row hrow := by
    cases applied with
    | false => exact h.marker row hrow
    | true =>
        dsimp only [if_true] at hrow
        rw [if_pos rfl, hwritten.marker] at hrow
        obtain rfl := Option.some_inj.mp hrow
        simp
  failure := rfl
  unknown := .inr rfl
  failed e he := ⟨id, message, (Option.some_inj.mp he).symm⟩

/-! ### Runs -/

inductive DiskOp (F : Type) where
  | put (dimension : UInt8) (key : Bytes32) (value : List F)
  | remove (dimension : UInt8) (key : Bytes32)
  | read (dimension : UInt8) (key : Bytes32) (maxElements : Nat)
  | scan (dimension : UInt8) (after : Option Bytes32) (limits : ScanLimits)
  | commit (outcome : CommitOutcome)
  /-- Other views of the owner write tables without shards, and may leave it without an answer. -/
  | elsewhere (tables : Tables) (unknown : Option (Bytes32 × String))

inductive DiskAnswer (F : Type) where
  | done (answer : Except StorageError Unit)
  | value (answer : Except StorageError (Option (List F)))
  | page (answer : Except StorageError (List (ShardEntry F)))
  | id (answer : Except StorageError Bytes32)
  | none

/-- The tables with those of other views replaced: not the shards, nor the marker of their commits. -/
def replaceOther (tables others : Tables) : Tables := fun t =>
  match t with
  | .shard d => tables (.shard d)
  | .metadata => (others .metadata).put (ascii "last_commit") ((tables .metadata)[ascii "last_commit"]?)
  | t => others t

variable (hemera : List UInt8 → Bytes32)

def DiskStore.step (s : DiskStore F) : DiskOp F → DiskAnswer F × DiskStore F
  | .put dimension key value =>
      match s.put dimension key value with
      | .ok s' => (.done (.ok ()), s')
      | .error e => (.done (.error e), s)
  | .remove dimension key =>
      match s.remove dimension key with
      | .ok (value, s') => (.value (.ok value), s')
      | .error e => (.value (.error e), s)
  | .read dimension key maxElements => (.value (s.read dimension key maxElements), s)
  | .scan dimension after limits => (.page (s.scan dimension after limits), s)
  | .commit outcome =>
      let next := s.commit hemera outcome
      (.id next.1, next.2)
  | .elsewhere tables unknown =>
      match s.db.failure with
      | some _ => (.none, s)
      | none =>
          (.none, { s with db := { tables := replaceOther s.db.tables tables
                                   failure := unknown.map fun e => .commitUnknown e.1 e.2 } })

/-- The shelf after an operation with its answer: what is refused changes nothing. -/
def Shelf.apply (A : Shelf F) : DiskOp F → DiskAnswer F → Shelf F
  | .put dimension key value, .done (.ok ()) => A.put ⟨dimension, key⟩ value
  | .remove dimension key, .value (.ok _) => A.remove ⟨dimension, key⟩
  | .commit _, .id (.ok _) => A.commit
  | .commit (.unknown _ applied), .id (.error (.commitUnknown id message)) =>
      match A.failure with
      | some _ => A
      | none => { A with
          committed := if applied then A.published else A.committed
          failure := some (.commitUnknown id message) }
  | .elsewhere _ unknown, _ => { A with failure := A.failure.or (unknown.map fun e => .commitUnknown e.1 e.2) }
  | _, _ => A

/-- What is right about one step from a store that shows the shelf. -/
def Right (A : Shelf F) (s : DiskStore F) : DiskOp F → DiskAnswer F → DiskStore F → Prop
  | .read dimension key maxElements, .value answer, _ =>
      (∀ e, A.failure = some e → answer = .error e) ∧
      (A.failure = none → dimension ≤ EPHEMERAL → maxElements ≤ MAX_VALUE_ELEMENTS →
        Answered maxElements (A.read ⟨dimension, key⟩) answer)
  | .remove dimension key, .value answer, _ => ∀ value, answer = .ok value → value = A.read ⟨dimension, key⟩
  | .commit outcome, .id answer, s' =>
      (∀ e, answer = .error e → s'.pending.dirty = s.pending.dirty ∧ s'.pending.deleted = s.pending.deleted ∧
        s'.pending.cache = s.pending.cache ∧ (∀ message, e ≠ .limit message) ∧
        ((∀ id message, e ≠ .commitUnknown id message) → s'.db = s.db)) ∧
      (∀ id, answer = .ok id → s'.pending.hasPending = false ∧
        ∀ t key, t ≠ .metadata → (∀ k : EntryKey, k.dimension < EPHEMERAL → k.row ≠ (t, key)) →
          s'.db.view t key = s.db.view t key) ∧
      (A.failure = none → outcome = .done → ∃ id, answer = .ok id)
  | _, _, _ => True

/-- A run with its answers. -/
def DiskStore.run (s : DiskStore F) : List (DiskOp F) → List (DiskAnswer F) × DiskStore F
  | [] => ([], s)
  | op :: ops =>
      let next := s.step hemera op
      let rest := next.2.run ops
      (next.1 :: rest.1, rest.2)

/-- The shelf after a run. -/
def Shelf.applyAll (A : Shelf F) : List (DiskOp F) → List (DiskAnswer F) → Shelf F
  | op :: ops, answer :: answers => (A.apply op answer).applyAll ops answers
  | _, _ => A

theorem Shows.elsewhere (h : Shows s A) (hready : A.failure = none) (tables : Tables)
    (unknown : Option (Bytes32 × String)) :
    Shows { s with db := { tables := replaceOther s.db.tables tables
                           failure := unknown.map fun e => .commitUnknown e.1 e.2 } }
      { A with failure := unknown.map fun e => .commitUnknown e.1 e.2 } where
  inv := h.inv
  staged := h.staged
  cached := h.cached
  scratch := h.scratch
  rows := h.rows
  short := h.short
  shortScratch := h.shortScratch
  marker row hrow := by
    dsimp only [replaceOther] at hrow
    rw [OrdMap.getElem?_put, if_pos rfl] at hrow
    exact h.marker row hrow
  failure := rfl
  unknown := .inl (h.unknown.elim (fun hnone => hnone) fun heq => heq.trans hready)
  failed e he := by
    obtain ⟨pair, -, rfl⟩ := Option.map_eq_some_iff.mp he
    exact ⟨pair.1, pair.2, rfl⟩

theorem Shows.commit_of_failure (h : Shows s A) {e : StorageError} (hfailure : A.failure = some e)
    (outcome : CommitOutcome) : s.commit hemera outcome = (.error e, s) := by
  rw [DiskStore.commit, h.not_ready hfailure]

theorem Shows.step_commit (h : Shows s A) (outcome : CommitOutcome) :
    Shows (s.commit hemera outcome).2 (A.apply (.commit outcome) (.id (s.commit hemera outcome).1)) ∧
      Right A s (.commit outcome) (.id (s.commit hemera outcome).1) (s.commit hemera outcome).2 := by
  cases hready : A.failure with
  | some e =>
      obtain ⟨id, message, rfl⟩ := h.failed e hready
      rw [h.commit_of_failure hemera hready]
      refine ⟨?_, fun e' he' => ?_, fun id' hid' => ?_, fun hnone => ?_⟩
      · have hsame : A.apply (.commit outcome) (.id (.error (.commitUnknown id message))) = A := by
          cases outcome with
          | unknown m applied => simp only [Shelf.apply, hready]
          | _ => rfl
        rw [hsame]
        exact h
      · obtain rfl := Except.error.inj he'
        exact ⟨rfl, rfl, rfl, nofun, fun _ => rfl⟩
      · cases hid'
      · cases hready.symm.trans hnone
  | none =>
      cases hpending : s.pending.hasPending with
      | false =>
          have hstaged : ∀ k, A.staged k = none := fun k =>
            (h.staged k).symm.trans (h.inv.hasPending_eq_false.mp hpending k)
          obtain ⟨id, hcommit⟩ := h.commit_clean hready hemera outcome hpending
          rw [hcommit]
          refine ⟨?_, fun e he => ?_, fun _ _ => ⟨hpending, fun _ _ _ _ => rfl⟩, fun _ _ => ⟨id, rfl⟩⟩
          · have hsame : A.apply (.commit outcome) (.id (.ok id)) = A.commit := by
              cases outcome <;> rfl
            rw [hsame, A.commit_of_clean hstaged]
            exact h
          · cases he
      | true =>
          have hunknown : s.pending.unknown = none := h.unknown.elim (fun hnone => hnone) fun heq => heq.trans hready
          obtain ⟨id, written, hwritten, hcommit⟩ :=
            DiskStore.commit_eq hemera outcome h.inv hunknown (h.failure.trans hready) hpending
          rw [hcommit]
          cases outcome with
          | done =>
              refine ⟨h.commit_done hready hwritten, fun e he => ?_, fun _ _ => ⟨rfl, fun t key ht hnot => ?_⟩,
                fun _ _ => ⟨id, rfl⟩⟩
              · cases he
              · exact hwritten.other t key ht hnot
          | failed message =>
              refine ⟨h, fun e he => ?_, fun id' hid' => ?_, fun _ hdone => ?_⟩
              · obtain rfl := Except.error.inj he
                exact ⟨rfl, rfl, rfl, nofun, fun _ => rfl⟩
              · cases hid'
              · cases hdone
          | unknown message applied =>
              refine ⟨?_, fun e he => ?_, fun id' hid' => ?_, fun _ hdone => ?_⟩
              · have happly : A.apply (.commit (.unknown message applied)) (.id (.error (.commitUnknown id message))) =
                    { A with
                      committed := if applied then A.published else A.committed
                      failure := some (.commitUnknown id message) } := by
                  simp only [Shelf.apply, hready]
                dsimp only
                rw [happly]
                exact h.commit_unknown hwritten message applied
              · obtain rfl := Except.error.inj he
                exact ⟨rfl, rfl, rfl, nofun, fun hnot => absurd rfl (hnot id message)⟩
              · cases hid'
              · cases hdone

/-- One step keeps the shelf and answers right. -/
theorem Shows.step [NebuCanonical F] (h : Shows s A) (op : DiskOp F) :
    Shows (s.step hemera op).2 (A.apply op (s.step hemera op).1) ∧
      Right A s op (s.step hemera op).1 (s.step hemera op).2 := by
  cases op with
  | put dimension key value =>
      rw [DiskStore.step]
      cases hput : s.put dimension key value with
      | error e => exact ⟨h, trivial⟩
      | ok s' => exact ⟨(h.put hput).2.2, trivial⟩
  | remove dimension key =>
      rw [DiskStore.step]
      cases hremove : s.remove dimension key with
      | error e => exact ⟨h, nofun⟩
      | ok pair =>
          obtain ⟨value, s'⟩ := pair
          obtain ⟨-, -, hvalue, hshows⟩ := h.remove hremove
          refine ⟨hshows, fun value' heq => ?_⟩
          rw [← Except.ok.inj heq]
          exact hvalue
  | read dimension key maxElements =>
      refine ⟨h, fun e he => ?_, fun hready hd hmax => h.read hready hd key hmax⟩
      rw [DiskStore.read, h.not_ready he]
      rfl
  | scan dimension after limits => exact ⟨h, trivial⟩
  | commit outcome => exact h.step_commit hemera outcome
  | elsewhere tables unknown =>
      rw [DiskStore.step]
      cases hfailure : s.db.failure with
      | some e =>
          have hA := h.failure.symm.trans hfailure
          refine ⟨?_, trivial⟩
          have hsame : A.apply (.elsewhere tables unknown) .none = A := by
            rw [Shelf.apply, hA, Option.some_or, ← hA]
          dsimp only
          rw [hsame]
          exact h
      | none =>
          have hA := h.failure.symm.trans hfailure
          refine ⟨?_, trivial⟩
          have happly : A.apply (.elsewhere tables unknown) .none =
              { A with failure := unknown.map fun e => .commitUnknown e.1 e.2 } := by
            rw [Shelf.apply, hA, Option.none_or]
          dsimp only
          rw [happly]
          exact h.elsewhere hA tables unknown

theorem Shows.run [NebuCanonical F] (h : Shows s A) (ops : List (DiskOp F)) :
    Shows (s.run hemera ops).2 (A.applyAll ops (s.run hemera ops).1) := by
  induction ops generalizing s A with
  | nil => exact h
  | cons op ops ih => exact ih (h.step hemera op).1

/-- The rows of a database hold a map of field vectors. -/
structure Holds (M : EntryKey → Option (List F)) (db : Database) : Prop where
  rows : ∀ k : EntryKey, k.dimension < EPHEMERAL →
    (db.tables (.shard k.dimension))[k.key.toList]? = (M k).map serialize
  short : ∀ k value, M k = some value → value.length ≤ MAX_VALUE_ELEMENTS
  marker : ∀ row, (db.tables .metadata)[ascii "last_commit"]? = some row → row.length = 32
  failed : ∀ e, db.failure = some e → ∃ id message, e = .commitUnknown id message

/-- The shelf of a fresh view. -/
def Shelf.ofMap (M : EntryKey → Option (List F)) (failure : Option StorageError) : Shelf F :=
  ⟨M, fun _ => none, fun _ => none, failure⟩

theorem Holds.shows {M : EntryKey → Option (List F)} {db : Database} (h : Holds M db) :
    Shows (DiskStore.new db) (Shelf.ofMap M db.failure) where
  inv := WriteBuffer.inv_empty
  staged k := WriteBuffer.pending_clearPending .empty k
  cached k _ := by simp [DiskStore.new, WriteBuffer.empty, Shelf.ofMap]
  scratch k _ := by simp [DiskStore.new, WriteBuffer.empty, Shelf.ofMap]
  rows := h.rows
  short := h.short
  shortScratch := nofun
  marker := h.marker
  failure := rfl
  unknown := .inl rfl
  failed := h.failed

/-- A shard view refines a map with a commit log, over every run beside views that write no shards. After any
operations the store shows the shelf that their answers leave; the next operation answers from it and moves it; and
rows are read as they were written. -/
theorem run_shelf [NebuCanonical F] {M : EntryKey → Option (List F)} {db : Database} (hdb : Holds M db)
    (ops : List (DiskOp F)) (op : DiskOp F) :
    (let run := (DiskStore.new db).run hemera ops
     let A := (Shelf.ofMap M db.failure).applyAll ops run.1
     Shows run.2 A ∧ Shows (run.2.step hemera op).2 (A.apply op (run.2.step hemera op).1) ∧
      Right A run.2 op (run.2.step hemera op).1 (run.2.step hemera op).2) ∧
    (∀ (value : List F) (n : Nat), value.length ≤ n → n ≤ MAX_VALUE_ELEMENTS →
      deserialize (serialize value) n = .ok value) ∧
    ∀ (bytes : List UInt8) (n : Nat) (value : List F), deserialize bytes n = .ok value → serialize value = bytes := by
  have hrun := hdb.shows.run hemera ops
  refine ⟨⟨hrun, hrun.step hemera op⟩, fun value n hvalue hn => ?_, fun bytes n value h => ?_⟩
  · exact deserialize_serialize hvalue hn
  · exact serialize_of_deserialize h

instance : NebuCanonical Goldilocks where
  asU64_lt v := by
    have hlt : Fin.val (n := P) v < P := Fin.isLt (n := P) v
    have hP : P < 2 ^ 64 := by decide
    change (UInt64.ofNat (Fin.val (n := P) v)).toNat < P
    rw [UInt64.toNat_ofNat', Nat.mod_eq_of_lt (hlt.trans hP)]
    exact hlt
  asU64_new x hx := by
    change UInt64.ofNat (x.toNat % P) = x
    rw [Nat.mod_eq_of_lt hx, UInt64.ofNat_toNat]

omit [Nebu F] in
theorem holds_empty [Nebu F] : Holds (fun _ => none : EntryKey → Option (List F)) ⟨fun _ => ∅, none⟩ where
  rows k _ := by simp
  short := nofun
  marker row hrow := by simp at hrow
  failed := nofun

/-- A value is put and committed, and read back with a new view's budget. -/
theorem run_shelf_putAndCommit :
    let db : Database := ⟨fun _ => ∅, none⟩
    let hemera : List UInt8 → Bytes32 := fun bytes => Vector.replicate 32 (UInt8.ofNat bytes.length)
    let key : Bytes32 := Vector.replicate 32 1
    let ops : List (DiskOp Goldilocks) := [.put 0 key [Nebu.new 7], .commit .done]
    Shows ((DiskStore.new db).run hemera ops).2
      ((Shelf.ofMap (fun _ => none) none).applyAll ops ((DiskStore.new db).run hemera ops).1) ∧
    ((DiskStore.new db).run hemera ops).2.pending.hasPending = false ∧
    (((DiskStore.new db).run hemera ops).2.read 0 key 1).toOption = some (some [(Nebu.new 7 : Goldilocks)]) :=
  ⟨(run_shelf (F := Goldilocks) _ holds_empty _ (.read 0 (Vector.replicate 32 1) 1)).1.1, by decide +kernel,
    by decide +kernel⟩

/-- A vector with fewer elements than the limit is refused when the limit itself is too large. -/
theorem deserialize_overLimit :
    ([] : List Goldilocks).length ≤ MAX_VALUE_ELEMENTS + 1 ∧
      deserialize (serialize ([] : List Goldilocks)) (MAX_VALUE_ELEMENTS + 1) ≠ .ok ([] : List Goldilocks) := by
  refine ⟨Nat.zero_le _, ?_⟩
  rw [deserialize, deserializeGoldilocks_eq, if_pos (Nat.lt_succ_self _)]
  intro h
  cases h

end LeanBbg.Storage
