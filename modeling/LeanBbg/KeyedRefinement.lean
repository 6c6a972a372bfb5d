import LeanBbg.Keyed

/-! A keyed map in step with its trie. `Keyed.Inv m S` says that the trie holds the digest map `S`, and that
`S` has the leaf digest of the current record of every key that is not pending. A flush then brings `S`
to the digests of the whole map, as long as the trie does not pass its limit on the way, and every
operation behaves as the plain map. -/

set_option linter.unusedSectionVars false

namespace LeanBbg

variable {F C K V : Type} [Hemera F] [DecidableEq F]

/-! ### Updates of a digest map -/

namespace DigestMap

/-- No update on the way takes the map past the limit. -/
def FitsAll : DigestMap F → List (Bytes32 × Option (Digest F)) → Prop
  | _, [] => True
  | S, u :: updates => (OrdMap.put S u.1 u.2).size ≤ Trie.maxKeys ∧ FitsAll (OrdMap.put S u.1 u.2) updates

/-- Updates fit when even all of them being new keys would. -/
theorem fitsAll_of_le {S : DigestMap F} {updates : List (Bytes32 × Option (Digest F))}
    (h : S.size + updates.length ≤ Trie.maxKeys) : FitsAll S updates := by
  induction updates generalizing S with
  | nil => trivial
  | cons u updates ih =>
      have hput := OrdMap.size_put_le S u.1 u.2
      rw [List.length_cons] at h
      exact ⟨by omega, ih (by omega)⟩

end DigestMap

namespace Trie

theorem Models.put_eq {T : Trie F} {S : DigestMap F} (h : Models T S) (key : Bytes32) (d : Option (Digest F))
    (hfit : (OrdMap.put S key d).size ≤ maxKeys) :
    ∃ T', T.put key d = some T' ∧ Models T' (OrdMap.put S key d) := by
  cases d with
  | none =>
      obtain ⟨T', hremove, h'⟩ := h.remove_eq key
      exact ⟨T', by rw [put, hremove]; rfl, h'⟩
  | some d =>
      obtain ⟨T', hset, h'⟩ := h.set_eq key d hfit
      exact ⟨T', by rw [put, hset]; rfl, h'⟩

theorem Models.putAll_eq {T : Trie F} {S : DigestMap F} (h : Models T S)
    {updates : List (Bytes32 × Option (Digest F))} (hfit : DigestMap.FitsAll S updates) :
    ∃ T', updates.foldlM (fun T u => T.put u.1 u.2) T = some T' ∧ Models T' (OrdMap.putAll S updates) := by
  induction updates generalizing T S with
  | nil => exact ⟨T, rfl, h⟩
  | cons u updates ih =>
      obtain ⟨T₁, hput, h₁⟩ := h.put_eq u.1 u.2 hfit.1
      obtain ⟨T', hall, h'⟩ := ih h₁ hfit.2
      refine ⟨T', ?_, h'⟩
      rw [List.foldlM_cons, hput]
      exact hall

/-- A fresh trie commits to its records, as many as it has room for. -/
theorem fromEntries_root {entries : List (Bytes32 × Digest F)} (hnodup : (entries.map Prod.fst).Nodup)
    (hlen : entries.length ≤ maxKeys) :
    ∃ T T', fromEntries entries = some T ∧ T.root = some (node entries, T') := by
  have hkeys : (entries.map fun e => (e.1, some e.2)).map Prod.fst = entries.map Prod.fst := by
    rw [List.map_map]
    rfl
  have hfits : DigestMap.FitsAll ∅ (entries.map fun e => (e.1, some e.2)) :=
    DigestMap.fitsAll_of_le (by simpa using hlen)
  obtain ⟨T, hall, h⟩ := (models_empty (F := F)).putAll_eq hfits
  have hperm : entries.Perm (OrdMap.putAll ∅ (entries.map fun e => (e.1, some e.2))).toList := by
    refine OrdMap.perm_toList _ hnodup fun k d => ?_
    by_cases hmem : k ∈ entries.map Prod.fst
    · obtain ⟨⟨k, d'⟩, hentry, rfl⟩ := List.mem_map.mp hmem
      have hget := OrdMap.getElem?_putAll_of_mem (m := ∅) (hkeys.symm ▸ hnodup)
        (List.mem_map_of_mem (f := fun e : Bytes32 × Digest F => (e.1, some e.2)) hentry)
      rw [hget, Option.some_inj]
      constructor
      · intro hd
        have hinj := List.inj_on_of_nodup_map hnodup hentry hd rfl
        exact (Prod.mk.inj hinj).2
      · rintro rfl
        exact hentry
    · rw [OrdMap.getElem?_putAll_of_not_mem (hkeys.symm ▸ hmem)]
      refine iff_of_false (fun hd => hmem (List.mem_map_of_mem (f := Prod.fst) hd)) ?_
      simp
  obtain ⟨T', hroot, -⟩ := h.root_eq
  refine ⟨T, T', ?_, ?_⟩
  · rw [List.foldlM_map] at hall
    exact hall
  · rw [hroot, node_of_perm hnodup hperm]

end Trie

/-! ### The map and its trie -/

namespace Keyed

variable [Ord K] [TrieKey K] [LawfulTrieKey K] [LeafValue F V]

/-- The leaf of every record of a map. -/
def leafEntries (map : OrdMap K V) : List (Bytes32 × Digest F) :=
  map.toList.map fun e => (keyBytes e.1, leaf e.1 e.2)

/-- The digest map has the leaves of the map's records under the paths of `K`, and nothing else. -/
structure InStep (map : OrdMap K V) (S : DigestMap F) : Prop where
  lookup : ∀ key : K, S[keyBytes key]? = map[key]?.map (leaf key)
  range : ∀ b, S[b]? ≠ none → ∃ key : K, keyBytes key = b

theorem leafEntries_nodup (map : OrdMap K V) : ((leafEntries map : List (_ × Digest F)).map Prod.fst).Nodup := by
  have hkeys : (leafEntries map : List (_ × Digest F)).map Prod.fst = (map.toList.map Prod.fst).map keyBytes := by
    rw [leafEntries, List.map_map, List.map_map]
    rfl
  rw [hkeys]
  exact map.nodup_keys.map LawfulTrieKey.keyBytes_injective

theorem leafEntries_length (map : OrdMap K V) : (leafEntries map : List (_ × Digest F)).length = map.size := by
  rw [leafEntries, List.length_map, Std.ExtTreeMap.length_toList]

theorem InStep.perm {map : OrdMap K V} {S : DigestMap F} (h : InStep map S) :
    (leafEntries map).Perm S.toList := by
  refine OrdMap.perm_toList _ (leafEntries_nodup map) fun b d => ?_
  rw [leafEntries, List.mem_map]
  constructor
  · rintro ⟨⟨key, v⟩, hmem, heq⟩
    obtain ⟨rfl, rfl⟩ := Prod.mk.inj heq
    rw [h.lookup key, map.mem_toList.mp hmem]
    rfl
  · intro hget
    obtain ⟨key, rfl⟩ := h.range b (by rw [hget]; simp)
    rw [h.lookup key, Option.map_eq_some_iff] at hget
    obtain ⟨v, hv, rfl⟩ := hget
    exact ⟨(key, v), map.mem_toList.mpr hv, rfl⟩

theorem InStep.node_eq {map : OrdMap K V} {S : DigestMap F} (h : InStep map S) :
    node S.toList = node (leafEntries map) :=
  (node_of_perm (leafEntries_nodup map) h.perm).symm

theorem InStep.size_eq {map : OrdMap K V} {S : DigestMap F} (h : InStep map S) : S.size = map.size := by
  rw [← Std.ExtTreeMap.length_toList, ← h.perm.length_eq, leafEntries_length]

/-- The trie holds `S`, and `S` is in step with the map up to the touched keys. -/
structure Inv (m : Keyed F C K V) (S : DigestMap F) : Prop where
  models : m.trie.Models S
  clean : ∀ key : K, m.dirty[key]? = none → S[keyBytes key]? = m.map[key]?.map (leaf key)
  range : ∀ b, S[b]? ≠ none → ∃ key : K, keyBytes key = b

/-- With nothing touched, the digest map is in step. -/
theorem Inv.inStep_empty {map : OrdMap K V} {trie : Trie F} {legacy : Option C} {S : DigestMap F}
    (h : Inv ⟨map, trie, ∅, legacy⟩ S) : InStep map S :=
  ⟨fun key => h.clean key (by simp), h.range⟩

/-- What a flush puts into the trie. -/
def updates (map : OrdMap K V) (dirty : OrdMap K Unit) : List (Bytes32 × Option (Digest F)) :=
  dirty.keys.map fun key => (keyBytes key, map[key]?.map (leaf key))

theorem updates_length (map : OrdMap K V) (dirty : OrdMap K Unit) :
    (updates map dirty : List (_ × Option (Digest F))).length = dirty.size := by
  rw [updates, List.length_map, Std.ExtTreeMap.length_keys]

theorem updates_nodup (map : OrdMap K V) (dirty : OrdMap K Unit) :
    ((updates map dirty : List (_ × Option (Digest F))).map Prod.fst).Nodup := by
  have hkeys : (updates map dirty : List (_ × Option (Digest F))).map Prod.fst = dirty.keys.map keyBytes := by
    rw [updates, List.map_map]
    rfl
  rw [hkeys]
  exact Std.ExtTreeMap.nodup_keys.map LawfulTrieKey.keyBytes_injective

theorem Inv.inStep_putAll {m : Keyed F C K V} {S : DigestMap F} (h : m.Inv S) :
    InStep m.map (OrdMap.putAll S (updates m.map m.dirty)) := by
  have hmem : ∀ key : K, keyBytes key ∈ (updates m.map m.dirty : List (_ × Option (Digest F))).map Prod.fst →
      (keyBytes key, m.map[key]?.map (leaf key)) ∈ (updates m.map m.dirty : List (_ × Option (Digest F))) := by
    intro key hkey
    rw [updates, List.map_map, List.mem_map] at hkey
    obtain ⟨k, hk, heq⟩ := hkey
    obtain rfl := LawfulTrieKey.keyBytes_injective heq
    exact List.mem_map_of_mem hk
  constructor
  · intro key
    by_cases hkey : keyBytes key ∈ (updates m.map m.dirty : List (_ × Option (Digest F))).map Prod.fst
    · exact OrdMap.getElem?_putAll_of_mem (updates_nodup m.map m.dirty) (hmem key hkey)
    · rw [OrdMap.getElem?_putAll_of_not_mem hkey]
      refine h.clean key ?_
      by_contra hdirty
      apply hkey
      rw [updates, List.map_map]
      refine List.mem_map_of_mem (f := keyBytes) ?_
      rw [Std.ExtTreeMap.mem_keys, Std.ExtTreeMap.mem_iff_isSome_getElem?]
      exact Option.isSome_iff_ne_none.mpr hdirty
  · intro b hb
    by_cases hmem' : b ∈ (updates m.map m.dirty : List (_ × Option (Digest F))).map Prod.fst
    · rw [updates, List.map_map, List.mem_map] at hmem'
      obtain ⟨key, -, rfl⟩ := hmem'
      exact ⟨key, rfl⟩
    · rw [OrdMap.getElem?_putAll_of_not_mem hmem'] at hb
      exact h.range b hb

/-- Updates that fit bring the trie in step with the map. -/
theorem Inv.fold_eq {m : Keyed F C K V} {S : DigestMap F} (h : m.Inv S)
    (hfit : DigestMap.FitsAll S (updates m.map m.dirty)) :
    ∃ trie, m.dirty.keys.foldlM (fun trie key => Trie.put trie (keyBytes key) (m.map[key]?.map (leaf key))) m.trie =
        some trie ∧ trie.Models (OrdMap.putAll S (updates m.map m.dirty)) := by
  obtain ⟨trie, hall, hmodels⟩ := h.models.putAll_eq hfit
  rw [updates, List.foldlM_map] at hall
  exact ⟨trie, hall, hmodels⟩

theorem Inv.flush_eq {m : Keyed F C K V} {S : DigestMap F} (h : m.Inv S)
    (hfit : DigestMap.FitsAll S (updates m.map m.dirty)) :
    ∃ trie, m.flush = some { m with trie, dirty := ∅ } ∧
      trie.Models (OrdMap.putAll S (updates m.map m.dirty)) := by
  obtain ⟨trie, hall, hmodels⟩ := h.fold_eq hfit
  refine ⟨trie, ?_, hmodels⟩
  rw [flush, hall]
  rfl

theorem Inv.commitment_eq {m : Keyed F C K V} {S : DigestMap F} (h : m.Inv S)
    (hfit : DigestMap.FitsAll S (updates m.map m.dirty)) :
    ∃ trie, m.commitment = some (node (leafEntries m.map), { m with trie, dirty := ∅ }) ∧
      trie.Models (OrdMap.putAll S (updates m.map m.dirty)) := by
  obtain ⟨trie, hflush, hmodels⟩ := h.flush_eq hfit
  obtain ⟨trie', hroot, hmodels'⟩ := hmodels.root_eq
  refine ⟨trie', ?_, hmodels'⟩
  simp only [commitment, hflush, Option.bind_eq_bind, Option.bind_some, hroot, h.inStep_putAll.node_eq]

theorem Inv.prove_eq {m : Keyed F C K V} {S : DigestMap F} (h : m.Inv S)
    (hfit : DigestMap.FitsAll S (updates m.map m.dirty)) (key : K) :
    ∃ p trie, m.prove key = some (p, { m with trie, dirty := ∅ }) ∧
      trie.Models (OrdMap.putAll S (updates m.map m.dirty)) ∧
      Trie.Honest (OrdMap.putAll S (updates m.map m.dirty)) (keyBytes key) p := by
  obtain ⟨trie, hflush, hmodels⟩ := h.flush_eq hfit
  obtain ⟨p, trie', hprove, hmodels', hhonest⟩ := hmodels.prove_eq (keyBytes key)
  refine ⟨p, trie', ?_, hmodels', hhonest⟩
  simp only [prove, hflush, Option.bind_eq_bind, Option.bind_some, hprove]

/-- A write to the map at a touched key keeps the invariant. -/
theorem Inv.touched {m : Keyed F C K V} {S : DigestMap F} (h : m.Inv S) {map : OrdMap K V} {key : K}
    (hsame : ∀ k, k ≠ key → map[k]? = m.map[k]?) : ({ m with map := map }.touched key).Inv S := by
  classical
  refine ⟨h.models, fun k hk => ?_, h.range⟩
  change (m.dirty.insert key ())[k]? = none at hk
  rw [OrdMap.getElem?_insert] at hk
  split_ifs at hk with hne
  rw [h.clean k hk]
  exact congrArg (Option.map (leaf k)) (hsame k (Ne.symm hne)).symm

/-! ### Runs -/

/-- An operation of a keyed map; `or_default` is there for records with a default. -/
inductive Op (K V : Type) where
  | insert (key : K) (value : V)
  | remove (key : K)
  | clear
  | getMut (key : K) (write : V → V)
  | orInsert (key : K) (default : V) (write : V → V)
  | orInsertWith (key : K) (default : Unit → V) (write : V → V)
  | orDefault [Inhabited V] (key : K) (write : V → V)
  | commitment
  | prove (key : K)
  | legacyCommitment
  | read

inductive Answer (F C K V : Type) [Ord K] where
  | old (value : Option V)
  | done
  | present (b : Bool)
  | commitment (digest : Digest F)
  | proof (p : TrieProof F)
  | legacy (c : C)
  | map (map : OrdMap K V)

/-- The operations, the v1 commitment being computed by `f`. -/
def step (f : OrdMap K V → C) (m : Keyed F C K V) : Op K V → Option (Answer F C K V × Keyed F C K V)
  | .insert key value => some (.old (m.insert key value).1, (m.insert key value).2)
  | .remove key => some (.old (m.remove key).1, (m.remove key).2)
  | .clear => some (.done, m.clear)
  | .getMut key write => some (.present (m.getMut key write).1, (m.getMut key write).2)
  | .orInsert key default write => some (.done, m.orInsert key default write)
  | .orInsertWith key default write => some (.done, m.orInsertWith key default write)
  | @Op.orDefault _ _ _ key write => some (.done, m.orDefault key write)
  | .commitment => m.commitment.map fun r => (.commitment r.1, r.2)
  | .prove key => (m.prove key).map fun r => (.proof r.1, r.2)
  | .legacyCommitment => some (.legacy (m.legacyCommitment f).1, (m.legacyCommitment f).2)
  | .read => some (.map m.map, m)

/-- What a keyed map stands for: the plain map, the digests committed last and the keys touched since. -/
structure View (F K V : Type) [Ord K] where
  map : OrdMap K V
  committed : DigestMap F
  dirty : OrdMap K Unit

/-- The plain map under the same write. -/
def plainWrite (map : OrdMap K V) : Op K V → OrdMap K V
  | .insert key value => map.insert key value
  | .remove key => map.erase key
  | .clear => ∅
  | .getMut key write => map.modify key write
  | .orInsert key default write => (if map.contains key then map else map.insert key default).modify key write
  | .orInsertWith key default write =>
      (if map.contains key then map else map.insert key (default ())).modify key write
  | @Op.orDefault _ _ _ key write => (if map.contains key then map else map.insert key default).modify key write
  | _ => map

/-- The root of a fresh trie built from the leaves of the map's records is `digest`. -/
def FreshRoot (map : OrdMap K V) (digest : Digest F) : Prop :=
  ∃ T T', Trie.fromEntries (leafEntries map) = some T ∧ T.root = some (digest, T')

/-- The keys touched after an operation. -/
def touch (A : View F K V) : Op K V → OrdMap K Unit
  | .insert key _ => A.dirty.insert key ()
  | .remove key => if A.map.contains key then A.dirty.insert key () else A.dirty
  | .clear => ∅
  | .getMut key _ => if A.map.contains key then A.dirty.insert key () else A.dirty
  | .orInsert key _ _ => A.dirty.insert key ()
  | .orInsertWith key _ _ => A.dirty.insert key ()
  | @Op.orDefault _ _ _ key _ => A.dirty.insert key ()
  | .commitment => ∅
  | .prove _ => ∅
  | .legacyCommitment => A.dirty
  | .read => A.dirty

/-- The digests committed after an operation. -/
def recommit (A : View F K V) : Op K V → DigestMap F
  | .clear => ∅
  | .commitment => OrdMap.putAll A.committed (updates A.map A.dirty)
  | .prove _ => OrdMap.putAll A.committed (updates A.map A.dirty)
  | _ => A.committed

/-- The plain map's own behaviour: every read is of the current map. -/
def plainSpec (f : OrdMap K V → C) : Refine.Spec (View F K V) (Op K V) (Answer F C K V) where
  apply A op := ⟨plainWrite A.map op, recommit A op, touch A op⟩
  Answers
    | A, .insert key _, .old o => o = A.map[key]?
    | A, .remove key, .old o => o = A.map[key]?
    | _, .clear, .done => True
    | A, .getMut key _, .present b => b = A.map.contains key
    | _, .orInsert _ _ _, .done => True
    | _, .orInsertWith _ _ _, .done => True
    | _, @Op.orDefault _ _ _ _ _, .done => True
    | A, .commitment, .commitment d => FreshRoot A.map d
    | A, .prove key, .proof p =>
        ∃ d : Digest F, FreshRoot A.map d ∧ p.verify d (keyBytes key) (A.map[key]?.map (leaf key)) = some true
    | A, .legacyCommitment, .legacy c => c = f A.map
    | A, .read, .map map => map = A.map
    | _, _, _ => False

/-- A commitment or proof read does not take the trie past its limit while it catches up. -/
def Fits (A : View F K V) : Op K V → Prop
  | .commitment => DigestMap.FitsAll A.committed (updates A.map A.dirty)
  | .prove _ => DigestMap.FitsAll A.committed (updates A.map A.dirty)
  | _ => True

/-- The keyed map is in the state the view says. -/
structure Shows (f : OrdMap K V → C) (m : Keyed F C K V) (A : View F K V) : Prop where
  map : m.map = A.map
  dirty : m.dirty = A.dirty
  inv : m.Inv A.committed
  size : A.committed.size ≤ Trie.maxKeys
  legacy : ∀ c, m.legacy = some c → c = f m.map

theorem shows_new (f : OrdMap K V → C) : Shows f (new : Keyed F C K V) ⟨∅, ∅, ∅⟩ := by
  refine ⟨rfl, rfl, ⟨Trie.models_empty, ?_, ?_⟩, by simp, ?_⟩
  · intro key _
    simp [new]
  · intro b hb
    simp at hb
  · intro c hc
    cases hc

theorem size_putAll_le {S : DigestMap F} {updates : List (Bytes32 × Option (Digest F))}
    (hS : S.size ≤ Trie.maxKeys) (hfit : DigestMap.FitsAll S updates) :
    (OrdMap.putAll S updates).size ≤ Trie.maxKeys := by
  induction updates generalizing S with
  | nil => exact hS
  | cons u updates ih => exact ih hfit.1 hfit.2

theorem freshRoot_node {map : OrdMap K V} (h : map.size ≤ Trie.maxKeys) :
    FreshRoot map (node (leafEntries map) : Digest F) :=
  Trie.fromEntries_root (leafEntries_nodup map) (by rw [leafEntries_length]; exact h)

/-- A write to the map at a key, which is then recorded as touched. -/
theorem Shows.write {f : OrdMap K V → C} {m : Keyed F C K V} {A : View F K V} (h : Shows f m A) (key : K)
    {map : OrdMap K V} (hsame : ∀ k, k ≠ key → map[k]? = m.map[k]?) :
    Shows f ({ m with map := map }.touched key) ⟨map, A.committed, A.dirty.insert key ()⟩ := by
  refine ⟨rfl, ?_, h.inv.touched hsame, h.size, ?_⟩
  · change m.dirty.insert key () = _
    rw [h.dirty]
  · intro c hc
    cases hc

theorem getElem?_insert_of_ne {map : OrdMap K V} {key k : K} (v : V) (hne : k ≠ key) :
    (map.insert key v)[k]? = map[k]? := by
  classical
  rw [OrdMap.getElem?_insert, if_neg (Ne.symm hne)]

theorem getElem?_modify_of_ne {map : OrdMap K V} {key k : K} (write : V → V) (hne : k ≠ key) :
    (map.modify key write)[k]? = map[k]? := by
  rw [Std.ExtTreeMap.getElem?_modify, if_neg]
  rw [Std.compare_eq_iff_eq]
  exact Ne.symm hne

/-- A read that flushes leaves the committed digests in step with the map. -/
theorem Shows.flushed {f : OrdMap K V → C} {m : Keyed F C K V} {A : View F K V} (h : Shows f m A)
    {trie : Trie F} {S : DigestMap F} (hmodels : trie.Models S) (hstep : InStep m.map S)
    (hS : S.size ≤ Trie.maxKeys) :
    Shows f { m with trie, dirty := ∅ } ⟨A.map, S, ∅⟩ :=
  ⟨h.map, rfl, ⟨hmodels, fun key _ => hstep.lookup key, hstep.range⟩, hS, h.legacy⟩

theorem modify_of_not_contains {map : OrdMap K V} {key : K} (write : V → V) (h : map[key]? = none) :
    map.modify key write = map := by
  refine Std.ExtTreeMap.ext_getElem? fun k => ?_
  by_cases hk : k = key
  · subst k
    rw [Std.ExtTreeMap.getElem?_modify_self, h]
    rfl
  · exact getElem?_modify_of_ne write hk

theorem Shows.orInsertWith {f : OrdMap K V → C} {m : Keyed F C K V} {A : View F K V} (h : Shows f m A) (key : K)
    (default : Unit → V) (write : V → V) :
    Shows f (m.orInsertWith key default write)
      ⟨(if A.map.contains key then A.map else A.map.insert key (default ())).modify key write, A.committed,
        A.dirty.insert key ()⟩ := by
  rw [Keyed.orInsertWith, ← h.map]
  split_ifs
  · exact h.write key fun k hk => getElem?_modify_of_ne write hk
  · refine h.write key fun k hk => ?_
    rw [getElem?_modify_of_ne write hk, getElem?_insert_of_ne _ hk]

theorem step_refines (f : OrdMap K V → C) (m : Keyed F C K V) (A : View F K V) (op : Op K V) (h : Shows f m A)
    (hfit : Fits A op) : (plainSpec f).Step (step f) (Shows f) m A op := by
  obtain ⟨map, S, dirty⟩ := A
  obtain rfl : m.map = map := h.map
  obtain rfl : m.dirty = dirty := h.dirty
  cases op with
  | insert key value =>
      exact ⟨.old m.map[key]?, _, rfl, rfl, h.write key fun k hk => getElem?_insert_of_ne value hk⟩
  | remove key =>
      refine ⟨.old (m.remove key).1, _, rfl, ?_, ?_⟩
      · change (m.remove key).1 = m.map[key]?
        rw [remove]
        cases m.map[key]? <;> rfl
      · change Shows f (m.remove key).2 ⟨m.map.erase key, S, if m.map.contains key then _ else _⟩
        rw [remove, OrdMap.contains_eq_isSome]
        cases hget : m.map[key]? with
        | none =>
            rw [OrdMap.erase_of_getElem? hget]
            exact h
        | some old =>
            refine h.write key fun k hk => ?_
            classical
            rw [OrdMap.getElem?_erase, if_neg (Ne.symm hk)]
  | clear => exact ⟨.done, _, rfl, trivial, shows_new f⟩
  | getMut key write =>
      refine ⟨.present (m.getMut key write).1, _, rfl, ?_, ?_⟩
      · change (m.getMut key write).1 = m.map.contains key
        rw [getMut]
        split_ifs with hc
        · exact hc.symm
        · exact (Bool.eq_false_iff.mpr hc).symm
      · change Shows f (m.getMut key write).2 ⟨m.map.modify key write, S, if m.map.contains key then _ else _⟩
        rw [getMut]
        split_ifs with hc
        · exact h.write key fun k hk => getElem?_modify_of_ne write hk
        · have hget : m.map[key]? = none := by
            rw [OrdMap.contains_eq_isSome] at hc
            simpa using hc
          rw [modify_of_not_contains write hget]
          exact h
  | orInsert key default write => exact ⟨.done, _, rfl, trivial, h.orInsertWith key (fun _ => default) write⟩
  | orInsertWith key default write => exact ⟨.done, _, rfl, trivial, h.orInsertWith key default write⟩
  | orDefault key write => exact ⟨.done, _, rfl, trivial, h.orInsertWith key (fun _ => default) write⟩
  | commitment =>
      obtain ⟨trie, hcommit, hmodels⟩ := h.inv.commitment_eq hfit
      have hsize := size_putAll_le h.size hfit
      refine ⟨.commitment _, _, by rw [step, hcommit]; rfl, freshRoot_node ?_,
        h.flushed hmodels h.inv.inStep_putAll hsize⟩
      rw [← h.inv.inStep_putAll.size_eq]
      exact hsize
  | prove key =>
      obtain ⟨p, trie, hprove, hmodels, hhonest⟩ := h.inv.prove_eq hfit key
      have hverify := hhonest.verify_eq
      rw [h.inv.inStep_putAll.node_eq, h.inv.inStep_putAll.lookup key] at hverify
      have hsize := size_putAll_le h.size hfit
      refine ⟨.proof p, _, by rw [step, hprove]; rfl, ⟨_, freshRoot_node ?_, hverify⟩,
        h.flushed hmodels h.inv.inStep_putAll hsize⟩
      rw [← h.inv.inStep_putAll.size_eq]
      exact hsize
  | legacyCommitment =>
      refine ⟨.legacy (m.legacyCommitment f).1, _, rfl, ?_, ?_⟩
      · change (m.legacyCommitment f).1 = f m.map
        rw [legacyCommitment]
        cases hlegacy : m.legacy with
        | none => rfl
        | some c => exact h.legacy c hlegacy
      · change Shows f (m.legacyCommitment f).2 ⟨m.map, S, m.dirty⟩
        rw [legacyCommitment]
        cases hlegacy : m.legacy with
        | none =>
            exact ⟨rfl, rfl, ⟨h.inv.models, h.inv.clean, h.inv.range⟩, h.size,
              fun c hc => (Option.some_inj.mp hc).symm⟩
        | some c => exact h
  | read => exact ⟨.map m.map, m, rfl, rfl, h⟩

/-- Every run from the empty keyed map reads, commits and proves as the plain map under the same writes,
as long as no flush takes the trie past `2 ^ 31` keys. -/
theorem run_refines_plain (f : OrdMap K V → C) {ops : List (Op K V)}
    (hfit : (plainSpec (F := F) f).Along Fits ⟨∅, ∅, ∅⟩ ops) :
    ∃ answers m, Refine.run (step f) (new : Keyed F C K V) ops = some (answers, m) ∧
      (plainSpec f).Agree ⟨∅, ∅, ∅⟩ ops answers := by
  obtain ⟨answers, m, hrun, hagree, -⟩ := Refine.Spec.run_agree (step_refines f) (shows_new f) hfit
  exact ⟨answers, m, hrun, hagree⟩

/-- A run that writes one key through a guard, with a commitment before and after. -/
theorem run_refines_plain_guard : ∃ answers m, Refine.run (step fun _ => ()) (new : Keyed Term Unit Bytes32 UInt64)
    [.insert (Vector.replicate 32 7) 1, .commitment, .orInsert (Vector.replicate 32 7) 0 (· + 1), .legacyCommitment,
      .commitment, .read] = some (answers, m) ∧
    (plainSpec fun _ => ()).Agree ⟨∅, ∅, ∅⟩
      [.insert (Vector.replicate 32 7) 1, .commitment, .orInsert (Vector.replicate 32 7) 0 (· + 1), .legacyCommitment,
        .commitment, .read] answers := by
  refine run_refines_plain _ ⟨trivial, DigestMap.fitsAll_of_le ?_, trivial, trivial, DigestMap.fitsAll_of_le ?_,
    trivial, trivial⟩
  · rw [updates_length]
    change (∅ : DigestMap Term).size + ((∅ : OrdMap Bytes32 Unit).insert (Vector.replicate 32 7) ()).size ≤ 2 ^ 31
    decide +kernel
  · rw [updates_length]
    refine le_trans (Nat.add_le_add_right (OrdMap.size_putAll_le _ _) _) ?_
    rw [updates_length]
    change (∅ : DigestMap Term).size + ((∅ : OrdMap Bytes32 Unit).insert (Vector.replicate 32 7) ()).size +
      ((∅ : OrdMap Bytes32 Unit).insert (Vector.replicate 32 7) ()).size ≤ 2 ^ 31
    decide +kernel

end Keyed

end LeanBbg
