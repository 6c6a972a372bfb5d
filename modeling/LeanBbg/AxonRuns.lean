import LeanBbg.AxonRefinement

/-! Runs of the adjacency index. From the empty index, every run within the limits of its tries keeps the
lists, the histogram and the member tries in step with the plain lists, and commits to what an index built
afresh by adding every axon commits to. -/

set_option linter.unusedSectionVars false

namespace LeanBbg

variable {F C : Type} [Hemera F] [DecidableEq F]

namespace AxonIndex

/-! ### A fresh index -/

/-- Add every axon of a list. -/
def addAll (particle : Particle) (x : AxonIndex F C) (l : List Particle) : Option (AxonIndex F C) :=
  l.foldlM (fun x axon => (x.add particle axon).map Prod.snd) x

/-- The index built by adding every axon of every list. -/
def fromAdds (A : Adjacency) : Option (AxonIndex F C) :=
  A.toList.foldlM (fun x e => addAll e.1 x e.2.axons) new

/-- The index has been built by adds alone: nothing is committed, and only listed particles are touched. -/
def Built (f : OrdMap Particle (List Particle) → C) (x : AxonIndex F C) (A : Adjacency) : Prop :=
  ∃ dirty, Shows f x ⟨A, ∅, dirty⟩ ∧ ∀ q : Particle, dirty[q]? ≠ none → A.axons q ≠ []

theorem Built.add {f : OrdMap Particle (List Particle) → C} {x : AxonIndex F C} {A : Adjacency}
    (h : Built f x A) {particle axon : Particle} (hnew : axon ∉ A.axons particle)
    (hlen : (A.axons particle).length < Trie.maxKeys) :
    ∃ x', (x.add particle axon).map Prod.snd = some x' ∧
      Built f x' (A.put particle (A.axons particle ++ [axon])) := by
  obtain ⟨dirty, hshows, hlisted⟩ := h
  have haxons : (A.put particle (A.axons particle ++ [axon])).axons particle = A.axons particle ++ [axon] := by
    rw [Adjacency.axons_put, if_pos rfl, eraseDups_of_nodup]
    exact List.Nodup.append (A.nodup_axons particle) (List.nodup_singleton axon) (by simpa using hnew)
  have hadd : A.add particle axon = A.put particle (A.axons particle ++ [axon]) := by
    rw [Adjacency.add, if_neg hnew]
  obtain ⟨x', hx', hshows'⟩ := hshows.add_eq particle axon (by
    change ((A.add particle axon).axons particle).length ≤ Trie.maxKeys
    rw [hadd, haxons, List.length_append]
    exact hlen)
  change Shows f x' ⟨A.add particle axon, ∅, _⟩ at hshows'
  rw [hadd] at hshows'
  refine ⟨x', by rw [hx']; rfl, _, hshows', fun q hq => ?_⟩
  by_cases hp : particle = q
  · rw [← hp, haxons]
    simp
  · rw [Adjacency.axons_put, if_neg hp]
    rw [getElem?_touchIf_of_ne hp] at hq
    exact hlisted q hq

theorem Built.addAll {f : OrdMap Particle (List Particle) → C} {x : AxonIndex F C} {A : Adjacency}
    (h : Built f x A) (particle : Particle) {l : List Particle} (hnodup : (A.axons particle ++ l).Nodup)
    (hlen : (A.axons particle ++ l).length ≤ Trie.maxKeys) :
    ∃ x', addAll particle x l = some x' ∧ Built f x' (A.put particle (A.axons particle ++ l)) := by
  induction l generalizing x A with
  | nil =>
      refine ⟨x, rfl, ?_⟩
      rw [List.append_nil, Adjacency.put_self rfl]
      exact h
  | cons axon l ih =>
      have hmid : (A.axons particle ++ axon :: l).Perm (axon :: (A.axons particle ++ l)) := List.perm_middle
      have hnew : axon ∉ A.axons particle := fun hmem =>
        (List.nodup_cons.mp (hmid.nodup_iff.mp hnodup)).1 (List.mem_append_left _ hmem)
      obtain ⟨x₁, hadd, h₁⟩ := h.add hnew (by rw [List.length_append, List.length_cons] at hlen; omega)
      have haxons : (A.put particle (A.axons particle ++ [axon])).axons particle = A.axons particle ++ [axon] := by
        rw [Adjacency.axons_put, if_pos rfl, eraseDups_of_nodup]
        exact List.Nodup.append (A.nodup_axons particle) (List.nodup_singleton axon) (by simpa using hnew)
      have happend : A.axons particle ++ [axon] ++ l = A.axons particle ++ axon :: l := by simp
      obtain ⟨x', hall, h'⟩ := ih h₁ (by rwa [haxons, happend]) (by rwa [haxons, happend])
      rw [haxons, happend, Adjacency.put_put] at h'
      refine ⟨x', ?_, h'⟩
      rw [AxonIndex.addAll, List.foldlM_cons, hadd]
      exact hall

/-- Adding the lists of some particles, none of them listed before. -/
theorem Built.addLists {f : OrdMap Particle (List Particle) → C} {x : AxonIndex F C} {A : Adjacency}
    (h : Built f x A) (entries : List (Particle × AxonList)) (hnodup : (entries.map Prod.fst).Nodup)
    (hnew : ∀ e ∈ entries, A.axons e.1 = []) (hlen : ∀ e ∈ entries, e.2.axons.length ≤ Trie.maxKeys) :
    ∃ x' A', entries.foldlM (fun x e => AxonIndex.addAll e.1 x e.2.axons) x = some x' ∧ Built f x' A' ∧
      (∀ e ∈ entries, A'.axons e.1 = e.2.axons) ∧ ∀ q ∉ entries.map Prod.fst, A'.axons q = A.axons q := by
  induction entries generalizing x A with
  | nil => exact ⟨x, A, rfl, h, by simp, fun q _ => rfl⟩
  | cons e entries ih =>
      rw [List.map_cons, List.nodup_cons] at hnodup
      have hfirst : A.axons e.1 ++ e.2.axons = e.2.axons := by rw [hnew e List.mem_cons_self, List.nil_append]
      obtain ⟨x₁, hall, h₁⟩ := h.addAll e.1 (l := e.2.axons) (by rw [hfirst]; exact e.2.nodup)
        (by rw [hfirst]; exact hlen e List.mem_cons_self)
      rw [hfirst] at h₁
      have haxons : ∀ q, (A.put e.1 e.2.axons).axons q = if e.1 = q then e.2.axons else A.axons q := by
        intro q
        rw [Adjacency.axons_put, eraseDups_of_nodup e.2.nodup]
      obtain ⟨x', A', hrest, h', hset, hkeep⟩ := ih h₁ hnodup.2 (by
        intro e' he'
        rw [haxons, if_neg, hnew e' (List.mem_cons_of_mem _ he')]
        intro heq
        exact hnodup.1 (heq ▸ List.mem_map_of_mem he')) fun e' he' => hlen e' (List.mem_cons_of_mem _ he')
      refine ⟨x', A', ?_, h', ?_, ?_⟩
      · rw [List.foldlM_cons, hall]
        exact hrest
      · intro e' he'
        rcases List.mem_cons.mp he' with rfl | he'
        · rw [hkeep _ hnodup.1, haxons, if_pos rfl]
        · exact hset e' he'
      · intro q hq
        rw [List.map_cons, List.mem_cons, not_or] at hq
        rw [hkeep q hq.2, haxons, if_neg (Ne.symm hq.1)]

theorem built_new (f : OrdMap Particle (List Particle) → C) : Built f (new : AxonIndex F C) ∅ :=
  ⟨∅, shows_new f, fun q hq => absurd (by simp) hq⟩

/-- The touched particles of a built index are at most the listed ones, so committing it fits. -/
theorem Built.commitment_eq {f : OrdMap Particle (List Particle) → C} {x : AxonIndex F C} {A : Adjacency}
    (h : Built f x A) (hsize : A.size ≤ Trie.maxKeys) :
    ∃ x', x.commitment = some (node (Keyed.leafEntries A), x') := by
  obtain ⟨dirty, hshows, hlisted⟩ := h
  have hsubset : dirty.keys ⊆ A.keys := by
    intro q hq
    rw [Std.ExtTreeMap.mem_keys, Std.ExtTreeMap.mem_iff_isSome_getElem?] at hq ⊢
    have hne := hlisted q (Option.isSome_iff_ne_none.mp hq)
    rw [Adjacency.axons] at hne
    cases hget : A[q]? with
    | none =>
        rw [hget] at hne
        exact absurd rfl hne
    | some l => rfl
  have hlen : dirty.size ≤ A.size := by
    rw [← Std.ExtTreeMap.length_keys, ← Std.ExtTreeMap.length_keys]
    exact (List.subperm_of_subset Std.ExtTreeMap.nodup_keys hsubset).length_le
  have hfit : DigestMap.FitsAll (∅ : DigestMap F) (Keyed.updates A dirty) := by
    refine DigestMap.fitsAll_of_le ?_
    rw [Std.ExtTreeMap.size_empty, Keyed.updates, List.length_map, Std.ExtTreeMap.length_keys]
    omega
  obtain ⟨x', hcommit, -⟩ := hshows.commitment_eq hfit
  exact ⟨x', hcommit⟩

/-- The index built afresh from the lists by adds commits to `digest`. -/
def FreshCommitment (A : Adjacency) (digest : Digest F) : Prop :=
  ∃ x x' : AxonIndex F Unit, fromAdds A = some x ∧ x.commitment = some (digest, x')

theorem freshCommitment_node {A : Adjacency} (hshort : ∀ q, (A.axons q).length ≤ Trie.maxKeys)
    (hsize : A.size ≤ Trie.maxKeys) : FreshCommitment A (node (Keyed.leafEntries A) : Digest F) := by
  have haxons : ∀ e ∈ A.toList, A.axons e.1 = e.2.axons := by
    rintro ⟨q, l⟩ he
    rw [Adjacency.axons, A.mem_toList.mp he]
    rfl
  obtain ⟨x, A', hbuild, h, hset, hkeep⟩ := (built_new (F := F) fun _ => ()).addLists A.toList A.nodup_keys
    (by simp) fun e he => haxons e he ▸ hshort e.1
  have hsame : A' = A := by
    refine Adjacency.ext_axons fun q => ?_
    by_cases hq : q ∈ A.toList.map Prod.fst
    · obtain ⟨e, he, rfl⟩ := List.mem_map.mp hq
      rw [hset e he, haxons e he]
    · have hnone : A[q]? = none := by
        cases hget : A[q]? with
        | none => rfl
        | some l => exact absurd (List.mem_map_of_mem (f := Prod.fst) (A.mem_toList.mpr hget)) hq
      rw [hkeep q hq, Adjacency.axons_empty, Adjacency.axons, hnone]
      rfl
  rw [hsame] at h
  obtain ⟨x', hcommit⟩ := h.commitment_eq hsize
  exact ⟨x, x', hbuild, hcommit⟩

/-! ### Runs -/

/-- An operation of an adjacency index. -/
inductive Op where
  | add (particle axon : Particle)
  | insert (particle : Particle) (list : List Particle)
  | remove (particle : Particle)
  | removeAxon (particle axon : Particle)
  | truncate (particle : Particle) (len : Nat)
  | clear
  | commitment
  | setRoot (particle : Particle)
  | prove (particle : Particle)
  | proveMember (particle axon : Particle)
  | maxDegree
  | legacyCommitment
  | read

inductive Answer (F C : Type) where
  | changed (b : Bool)
  | old (list : Option (List Particle))
  | dropped (n : Nat)
  | done
  | commitment (digest : Digest F)
  | setRoot (digest : Option (Digest F))
  | proof (p : TrieProof F)
  | member (p : Option (TrieProof F))
  | degree (n : Nat)
  | legacy (c : C)
  | lists (map : OrdMap Particle (List Particle))

/-- The operations, the v1 commitment being computed by `f`. -/
def step (f : OrdMap Particle (List Particle) → C) (x : AxonIndex F C) : Op → Option (Answer F C × AxonIndex F C)
  | .add particle axon => (x.add particle axon).map fun r => (.changed r.1, r.2)
  | .insert particle list => (x.insert particle list).map fun r => (.old r.1, r.2)
  | .remove particle => (x.remove particle).map fun r => (.old r.1, r.2)
  | .removeAxon particle axon => (x.removeAxon particle axon).map fun r => (.changed r.1, r.2)
  | .truncate particle len => (x.truncate particle len).map fun r => (.dropped r.1, r.2)
  | .clear => some (.done, x.clear)
  | .commitment => x.commitment.map fun r => (.commitment r.1, r.2)
  | .setRoot particle => (x.setRoot particle).map fun r => (.setRoot r.1, r.2)
  | .prove particle => (x.prove particle).map fun r => (.proof r.1, r.2)
  | .proveMember particle axon => (x.proveMember particle axon).map fun r => (.member r.1, r.2)
  | .maxDegree => some (.degree x.maxDegree, x)
  | .legacyCommitment => some (.legacy (x.legacyCommitment f).1, (x.legacyCommitment f).2)
  | .read => some (.lists x.map, x)

/-- The plain lists under the same write. -/
def plainWrite (A : Adjacency) : Op → Adjacency
  | .add particle axon => A.add particle axon
  | .insert particle list => A.put particle list
  | .remove particle => A.put particle []
  | .removeAxon particle axon => A.removeAxon particle axon
  | .truncate particle len => A.truncate particle len
  | .clear => ∅
  | _ => A

/-- The particles touched after an operation. -/
def touch (A : Adjacency) (dirty : OrdMap Particle Unit) : Op → OrdMap Particle Unit
  | .add particle axon => touchIf dirty particle (axon ∉ A.axons particle)
  | .insert particle list => touchIf dirty particle (A.axons particle ≠ [] ∨ list ≠ [])
  | .remove particle => touchIf dirty particle (A.axons particle ≠ [])
  | .removeAxon particle axon => touchIf dirty particle (axon ∈ A.axons particle)
  | .truncate particle len => touchIf dirty particle (len < (A.axons particle).length)
  | .clear => ∅
  | .commitment => ∅
  | .prove _ => ∅
  | _ => dirty

/-- The outer leaves committed after an operation. -/
def recommit (A : Keyed.View F Particle AxonList) : Op → DigestMap F
  | .clear => ∅
  | .commitment => OrdMap.putAll A.committed (Keyed.updates A.map A.dirty)
  | .prove _ => OrdMap.putAll A.committed (Keyed.updates A.map A.dirty)
  | _ => A.committed

/-- A member proof shows whether the particle's list has the axon; an unlisted particle has none. -/
def MemberAnswer (l : Option AxonList) (axon : Particle) (p : Option (TrieProof F)) : Prop :=
  match l, p with
  | none, none => True
  | some l, some p => p.verify (memberRoot l.axons) axon
      (if axon ∈ l.axons then some (memberDigest axon) else none) = some true
  | _, _ => False

/-- The plain lists' own behaviour: every read is of the current lists. -/
def plainSpec (f : OrdMap Particle (List Particle) → C) :
    Refine.Spec (Keyed.View F Particle AxonList) Op (Answer F C) where
  apply A op := ⟨plainWrite A.map op, recommit A op, touch A.map A.dirty op⟩
  Answers
    | A, .add particle axon, .changed b => b = decide (axon ∉ Adjacency.axons A.map particle)
    | A, .insert particle _, .old l => l = A.map[particle]?.map AxonList.axons
    | A, .remove particle, .old l => l = A.map[particle]?.map AxonList.axons
    | A, .removeAxon particle axon, .changed b => b = decide (axon ∈ Adjacency.axons A.map particle)
    | A, .truncate particle len, .dropped n => n = (Adjacency.axons A.map particle).length - len
    | _, .clear, .done => True
    | A, .commitment, .commitment d => FreshCommitment A.map d
    | A, .setRoot particle, .setRoot d => d = A.map[particle]?.map fun l => memberRoot l.axons
    | A, .prove particle, .proof p => ∃ d : Digest F, FreshCommitment A.map d ∧
        p.verify d particle (A.map[particle]?.map (Keyed.leaf particle)) = some true
    | A, .proveMember particle axon, .member p => MemberAnswer A.map[particle]? axon p
    | A, .maxDegree, .degree n => n = Adjacency.longest A.map
    | A, .legacyCommitment, .legacy c => c = f (Adjacency.lists A.map)
    | A, .read, .lists map => map = Adjacency.lists A.map
    | _, _, _ => False

/-- No list grows past the limit of its member trie, and no commitment or proof read takes the outer trie
past its own while it catches up. -/
def Fits (A : Keyed.View F Particle AxonList) : Op → Prop
  | .add particle axon => ((Adjacency.add A.map particle axon).axons particle).length ≤ Trie.maxKeys
  | .insert _ list => list.eraseDups.length ≤ Trie.maxKeys
  | .commitment => DigestMap.FitsAll A.committed (Keyed.updates A.map A.dirty)
  | .prove _ => DigestMap.FitsAll A.committed (Keyed.updates A.map A.dirty)
  | _ => True

theorem Shows.map_eq {f : OrdMap Particle (List Particle) → C} {x : AxonIndex F C}
    {A : Keyed.View F Particle AxonList} (h : Shows f x A) : x.map = Adjacency.lists A.map :=
  Std.ExtTreeMap.ext_getElem? fun q => by rw [h.map, Adjacency.getElem?_lists]

/-- An index in step with a view whose touched particles are committed has as many of them as fit. -/
theorem Shows.freshCommitment {f : OrdMap Particle (List Particle) → C} {x : AxonIndex F C}
    {A : Adjacency} {S : DigestMap F} (h : Shows f x ⟨A, S, ∅⟩) :
    FreshCommitment A (node (Keyed.leafEntries A) : Digest F) := by
  refine freshCommitment_node h.short ?_
  have hinv := h.inv
  rw [outer, h.dirty] at hinv
  rw [← hinv.inStep_empty.size_eq]
  exact h.size

theorem step_refines (f : OrdMap Particle (List Particle) → C) (x : AxonIndex F C)
    (A : Keyed.View F Particle AxonList) (op : Op) (h : Shows f x A) (hfit : Fits A op) :
    (plainSpec f).Step (step f) (Shows f) x A op := by
  cases op with
  | add particle axon =>
      obtain ⟨x', hadd, h'⟩ := h.add_eq particle axon hfit
      exact ⟨.changed _, x', by rw [step, hadd]; rfl, rfl, h'⟩
  | insert particle list =>
      obtain ⟨x', hinsert, h'⟩ := h.insert_eq particle list hfit
      exact ⟨.old _, x', by rw [step, hinsert]; rfl, rfl, h'⟩
  | remove particle =>
      obtain ⟨x', hremove, h'⟩ := h.remove_eq particle
      exact ⟨.old _, x', by rw [step, hremove]; rfl, rfl, h'⟩
  | removeAxon particle axon =>
      obtain ⟨x', hremove, h'⟩ := h.removeAxon_eq particle axon
      exact ⟨.changed _, x', by rw [step, hremove]; rfl, rfl, h'⟩
  | truncate particle len =>
      obtain ⟨x', htruncate, h'⟩ := h.truncate_eq particle len
      exact ⟨.dropped _, x', by rw [step, htruncate]; rfl, rfl, h'⟩
  | clear => exact ⟨.done, _, rfl, trivial, shows_new f⟩
  | commitment =>
      obtain ⟨x', hcommit, h'⟩ := h.commitment_eq hfit
      exact ⟨.commitment _, x', by rw [step, hcommit]; rfl, h'.freshCommitment, h'⟩
  | setRoot particle =>
      obtain ⟨x', hroot, h'⟩ := h.setRoot_eq particle
      exact ⟨.setRoot _, x', by rw [step, hroot]; rfl, rfl, h'⟩
  | prove particle =>
      obtain ⟨p, x', hprove, hverify, h'⟩ := h.prove_eq hfit particle
      exact ⟨.proof p, x', by rw [step, hprove]; rfl, ⟨_, h'.freshCommitment, hverify⟩, h'⟩
  | proveMember particle axon =>
      obtain ⟨p, x', hprove, h', hverify⟩ := h.proveMember_eq particle axon
      exact ⟨.member p, x', by rw [step, hprove]; rfl, hverify, h'⟩
  | maxDegree => exact ⟨.degree x.maxDegree, x, rfl, h.degrees.maxKey?_eq, h⟩
  | legacyCommitment =>
      refine ⟨.legacy (x.legacyCommitment f).1, _, rfl, ?_, ?_⟩
      · change (x.legacyCommitment f).1 = f (Adjacency.lists A.map)
        rw [legacyCommitment, ← h.map_eq]
        cases hlegacy : x.legacy with
        | none => rfl
        | some c => exact h.legacy c hlegacy
      · change Shows f (x.legacyCommitment f).2 A
        rw [legacyCommitment]
        cases hlegacy : x.legacy with
        | none =>
            exact ⟨h.map, h.sets, h.degrees, h.short, h.dirty, h.inv, h.size,
              fun c hc => (Option.some_inj.mp hc).symm⟩
        | some c => exact h
  | read => exact ⟨.lists x.map, x, rfl, h.map_eq, h⟩

/-- What holds of the parts of an index that stands for the lists `A`. -/
structure Mirrors (x : AxonIndex F C) (A : Adjacency) : Prop where
  lists : x.map = A.lists
  wellFormed : ∀ (q : Particle) (l : List Particle), x.map[q]? = some l → l ≠ [] ∧ l.Nodup
  listed : ∀ q : Particle, x.sets.contains q = x.map.contains q
  members : ∀ (q : Particle) (l : List Particle) (set : Trie F), x.map[q]? = some l → x.sets[q]? = some set →
    ∀ axon, set.get axon = some (if axon ∈ l then some (memberDigest axon) else none)
  histogram : ∀ d, x.degrees[d]? = if (x.map.toList.countP fun e => e.2.length == d) = 0 then none
    else some (x.map.toList.countP fun e => e.2.length == d)
  longest : x.maxDegree = (x.map.toList.map fun e => e.2.length).max?.getD 0

theorem Members.get_eq {set : Trie F} {l : List Particle} (h : Members set l) (axon : Particle) :
    set.get axon = some (if axon ∈ l then some (memberDigest axon) else none) := by
  obtain ⟨M, hmodels, hM⟩ := h
  rw [hmodels.get_eq, hM]

theorem Shows.mirrors {f : OrdMap Particle (List Particle) → C} {x : AxonIndex F C}
    {A : Keyed.View F Particle AxonList} (h : Shows f x A) : Mirrors x A.map := by
  have htoList : x.map.toList = A.map.toList.map fun e => (e.1, e.2.axons) := by
    rw [h.map_eq]
    exact Std.ExtTreeMap.toList_map
  have hcount : ∀ d, (x.map.toList.countP fun e => e.2.length == d) = Adjacency.countDegree A.map d := by
    intro d
    rw [htoList, List.countP_map]
    rfl
  refine ⟨h.map_eq, fun q l hget => ?_, fun q => ?_, fun q l set hget hset => ?_, fun d => ?_, ?_⟩
  · rw [h.map, Option.map_eq_some_iff] at hget
    obtain ⟨l, -, rfl⟩ := hget
    exact ⟨l.nonempty, l.nodup⟩
  · rw [OrdMap.contains_eq_isSome, OrdMap.contains_eq_isSome, h.map]
    rcases h.sets_cases q with ⟨hget, hold⟩ | ⟨l, set, hget, -, hold, -⟩
    · rw [hget, hold]
      rfl
    · rw [hget, hold]
      rfl
  · rcases h.sets_cases q with ⟨-, hold⟩ | ⟨l', set', hget', -, hold, hmembers⟩
    · rw [hold] at hset
      cases hset
    · rw [h.map, hget'] at hget
      obtain rfl := Option.some_inj.mp hget
      obtain rfl := Option.some_inj.mp (hold.symm.trans hset)
      exact hmembers.get_eq
  · rw [hcount]
    exact h.degrees d
  · rw [maxDegree, h.degrees.maxKey?_eq, htoList, List.map_map]
    rfl

/-- Every run from the empty index answers as the plain lists do, without a panic, and leaves the lists, the
histogram and the member tries in step, as long as no list and no flush passes `2 ^ 31` keys. -/
theorem run_keeps_lists (f : OrdMap Particle (List Particle) → C) {ops : List Op}
    (hfit : (plainSpec (F := F) f).Along Fits ⟨∅, ∅, ∅⟩ ops) :
    ∃ answers x, Refine.run (step f) (new : AxonIndex F C) ops = some (answers, x) ∧
      (plainSpec f).Agree ⟨∅, ∅, ∅⟩ ops answers ∧ Mirrors x (ops.foldl plainWrite ∅) := by
  obtain ⟨answers, x, hrun, hagree, hshows⟩ := Refine.Spec.run_agree (step_refines f) (shows_new f) hfit
  refine ⟨answers, x, hrun, hagree, ?_⟩
  have hmap : ∀ (ops : List Op) (A : Keyed.View F Particle AxonList),
      (ops.foldl (plainSpec (C := C) f).apply A).map = ops.foldl plainWrite A.map := by
    intro ops
    induction ops with
    | nil => exact fun _ => rfl
    | cons op ops ih => exact fun A => ih _
  rw [← hmap ops ⟨∅, ∅, ∅⟩]
  exact hshows.mirrors

/-- The runs of the plain lists within the limits. -/
theorem run_keeps_lists_small : ∃ answers x, Refine.run (step fun _ => ()) (new : AxonIndex Term Unit)
    [.insert (Vector.replicate 32 0) [Vector.replicate 32 1, Vector.replicate 32 2, Vector.replicate 32 1],
      .setRoot (Vector.replicate 32 0), .removeAxon (Vector.replicate 32 0) (Vector.replicate 32 1),
      .truncate (Vector.replicate 32 0) 0, .maxDegree] = some (answers, x) ∧
    (plainSpec fun _ => ()).Agree ⟨∅, ∅, ∅⟩
      [.insert (Vector.replicate 32 0) [Vector.replicate 32 1, Vector.replicate 32 2, Vector.replicate 32 1],
        .setRoot (Vector.replicate 32 0), .removeAxon (Vector.replicate 32 0) (Vector.replicate 32 1),
        .truncate (Vector.replicate 32 0) 0, .maxDegree] answers ∧
    Mirrors x (([.insert (Vector.replicate 32 0)
        [Vector.replicate 32 1, Vector.replicate 32 2, Vector.replicate 32 1],
      .setRoot (Vector.replicate 32 0), .removeAxon (Vector.replicate 32 0) (Vector.replicate 32 1),
      .truncate (Vector.replicate 32 0) 0, .maxDegree] : List Op).foldl plainWrite ∅) :=
  run_keeps_lists _ ⟨by change List.length _ ≤ 2 ^ 31; decide +kernel, trivial, trivial, trivial, trivial, trivial⟩

end AxonIndex

end LeanBbg
