import LeanBbg.Adjacency
import LeanBbg.AxonIndex

/-! The adjacency index in step with the lists it stands for. The histogram counts the lists of every
length, every member trie holds its list as a set, and the outer trie is that of a keyed map from
particles to lists: `outer` is that map, and the flush of the index does what its flush does. -/

set_option linter.unusedSectionVars false

namespace LeanBbg

variable {F C : Type} [Hemera F] [DecidableEq F]

namespace AxonIndex

/-! ### The histogram -/

/-- The histogram has the positive counts. -/
def Counts (degrees : OrdMap Nat Nat) (count : Nat → Nat) : Prop :=
  ∀ d, degrees[d]? = if count d = 0 then none else some (count d)

/-- A particle of degree `n` beside the others: degree 0 is not counted. -/
def withOne (rest : Nat → Nat) (n d : Nat) : Nat := rest d + if 0 < n ∧ n = d then 1 else 0

theorem withOne_self (rest : Nat → Nat) {n : Nat} (hn : 0 < n) : withOne rest n n = rest n + 1 := by
  rw [withOne, if_pos ⟨hn, rfl⟩]

theorem withOne_of_ne (rest : Nat → Nat) {n d : Nat} (hne : n ≠ d) : withOne rest n d = rest d := by
  rw [withOne, if_neg fun h => hne h.2, Nat.add_zero]

theorem withOne_zero (rest : Nat → Nat) : withOne rest 0 = rest := by
  funext d
  simp [withOne]

theorem Counts.left {degrees : OrdMap Nat Nat} {rest : Nat → Nat} {old : Nat}
    (h : Counts degrees (withOne rest old)) (hold : 0 < old) :
    ∃ degrees', degreeLeft degrees old = some degrees' ∧ Counts degrees' rest := by
  have hget : degrees[old]? = some (rest old + 1) := by
    rw [h old, withOne_self rest hold, if_neg (Nat.succ_ne_zero _)]
  refine ⟨_, by rw [degreeLeft, hget], fun d => ?_⟩
  by_cases hd : old = d
  · subst hd
    split_ifs with hzero
    · rw [OrdMap.getElem?_erase, if_pos rfl]
    · rw [OrdMap.getElem?_insert, if_pos rfl]
  · have hother : degrees[d]? = if rest d = 0 then none else some (rest d) := by
      rw [h d, withOne_of_ne rest hd]
    rw [← hother]
    split_ifs with hzero
    · rw [OrdMap.getElem?_erase, if_neg hd]
    · rw [OrdMap.getElem?_insert, if_neg hd]

theorem Counts.joined {degrees : OrdMap Nat Nat} {rest : Nat → Nat} (h : Counts degrees rest) {new : Nat}
    (hnew : 0 < new) : Counts (degrees.insert new (degrees[new]?.getD 0 + 1)) (withOne rest new) := by
  intro d
  rw [OrdMap.getElem?_insert]
  by_cases hd : new = d
  · subst hd
    have hget : degrees[new]?.getD 0 = rest new := by
      rw [h new]
      split_ifs with hzero
      · exact hzero.symm
      · rfl
    rw [if_pos rfl, withOne_self rest hnew, if_neg (Nat.succ_ne_zero _), hget]
  · rw [if_neg hd, withOne_of_ne rest hd, h d]

/-- Moving a particle between degrees keeps the counts. -/
theorem Counts.moved {degrees : OrdMap Nat Nat} {rest : Nat → Nat} {old : Nat}
    (h : Counts degrees (withOne rest old)) (new : Nat) :
    ∃ degrees', degreeMoved degrees old new = some degrees' ∧ Counts degrees' (withOne rest new) := by
  by_cases hsame : old = new
  · exact ⟨degrees, by rw [degreeMoved, if_pos hsame], hsame ▸ h⟩
  obtain ⟨degrees₁, hleft, h₁⟩ :
      ∃ degrees₁, (if 0 < old then degreeLeft degrees old else some degrees) = some degrees₁ ∧
        Counts degrees₁ rest := by
    by_cases hold : 0 < old
    · rw [if_pos hold]
      exact h.left hold
    · rw [Nat.eq_zero_of_not_pos hold, withOne_zero] at h
      exact ⟨degrees, if_neg hold, h⟩
  refine ⟨if 0 < new then degrees₁.insert new (degrees₁[new]?.getD 0 + 1) else degrees₁, ?_, ?_⟩
  · rw [degreeMoved, if_neg hsame, hleft]
    rfl
  · by_cases hnew : 0 < new
    · rw [if_pos hnew]
      exact h₁.joined hnew
    · rw [if_neg hnew, Nat.eq_zero_of_not_pos hnew, withOne_zero]
      exact h₁

theorem Counts.congr {degrees : OrdMap Nat Nat} {count count' : Nat → Nat} (h : Counts degrees count)
    (heq : ∀ d, count d = count' d) : Counts degrees count' := by
  intro d
  rw [h d, heq d]

/-- The last key of the histogram is the largest degree. -/
theorem Counts.maxKey?_eq {degrees : OrdMap Nat Nat} {A : Adjacency} (h : Counts degrees A.countDegree) :
    degrees.maxKey?.getD 0 = A.longest := by
  have hmem : ∀ d, d ∈ degrees ↔ ∃ e ∈ A.toList, e.2.axons.length = d := by
    intro d
    rw [Std.ExtTreeMap.mem_iff_isSome_getElem?, h d]
    have hpos := Adjacency.countDegree_pos (A := A) (d := d)
    split_ifs with hzero
    · refine iff_of_false (by simp) ?_
      rintro ⟨⟨particle, l⟩, he, hd⟩
      exact hpos.mpr ⟨particle, l, A.mem_toList.mp he, hd⟩ hzero
    · obtain ⟨particle, l, hget, hd⟩ := hpos.mp hzero
      exact iff_of_true rfl ⟨(particle, l), A.mem_toList.mpr hget, hd⟩
  refine congrArg (Option.getD · 0) (Option.ext fun n => ?_)
  rw [Std.ExtTreeMap.maxKey?_eq_some_iff_mem_and_forall, List.max?_eq_some_iff]
  simp only [hmem, List.mem_map, Nat.isLE_compare, Prod.exists]

/-! ### Member tries -/

/-- The trie holds exactly the axons of the list. -/
def Members (set : Trie F) (l : List Particle) : Prop :=
  ∃ M, set.Models M ∧ ∀ a, M[a]? = if a ∈ l then some (memberDigest a) else none

theorem members_toList_perm {M : DigestMap F} {l : List Particle}
    (h : ∀ a, M[a]? = if a ∈ l then some (memberDigest a) else none) (hnodup : l.Nodup) :
    (l.map fun a => (a, (memberDigest a : Digest F))).Perm M.toList := by
  refine M.perm_toList ?_ fun a d => ?_
  · rw [List.map_map]
    exact (List.map_id l).symm ▸ hnodup
  · rw [h a, List.mem_map]
    split_ifs with ha
    · constructor
      · rintro ⟨a', -, heq⟩
        obtain ⟨rfl, rfl⟩ := Prod.mk.inj heq
        rfl
      · intro heq
        exact ⟨a, ha, by rw [Option.some_inj.mp heq]⟩
    · refine iff_of_false ?_ (by simp)
      rintro ⟨a', ha', heq⟩
      obtain ⟨rfl, -⟩ := Prod.mk.inj heq
      exact ha ha'

theorem members_size {M : DigestMap F} {l : List Particle}
    (h : ∀ a, M[a]? = if a ∈ l then some (memberDigest a) else none) (hnodup : l.Nodup) : M.size = l.length := by
  rw [← Std.ExtTreeMap.length_toList, ← (members_toList_perm h hnodup).length_eq, List.length_map]

theorem members_empty : Members (Trie.empty : Trie F) [] :=
  ⟨∅, Trie.models_empty, fun a => by simp⟩

theorem Members.congr {set : Trie F} {l l' : List Particle} (h : Members set l) (heq : ∀ a, a ∈ l ↔ a ∈ l') :
    Members set l' := by
  obtain ⟨M, hmodels, hM⟩ := h
  refine ⟨M, hmodels, fun a => ?_⟩
  simp only [hM a, heq a]

/-- Setting an axon tells whether it is new. -/
theorem Members.set_eq {set : Trie F} {l : List Particle} (h : Members set l) (hnodup : l.Nodup) {a : Particle}
    (hle : l.length ≤ Trie.maxKeys) (hfit : a ∉ l → l.length < Trie.maxKeys) :
    ∃ set', set.set a (memberDigest a) = some (decide (a ∉ l), set') ∧ Members set' (l ++ [a]) := by
  obtain ⟨M, hmodels, hM⟩ := h
  have hM' : ∀ b, (M.insert a (memberDigest a))[b]? = if b ∈ l ++ [a] then some (memberDigest b) else none := by
    intro b
    rw [OrdMap.getElem?_insert, hM b]
    by_cases hab : a = b
    · simp [hab]
    · simp [hab, Ne.symm hab]
  have hcontains : M.contains a = decide (a ∈ l) := by
    rw [OrdMap.contains_eq_isSome, hM a]
    split_ifs with ha
    · simp [ha]
    · simp [ha]
  have hsize : (M.insert a (memberDigest a)).size ≤ Trie.maxKeys := by
    by_cases ha : a ∈ l
    · have hmem : M.contains a = true := by rw [hcontains, decide_eq_true ha]
      rw [Std.ExtTreeMap.size_insert, if_pos hmem, members_size hM hnodup]
      exact hle
    · have hnew : (l ++ [a]).Nodup := List.Nodup.append hnodup (List.nodup_singleton a) (by simpa using ha)
      rw [members_size hM' hnew, List.length_append]
      exact hfit ha
  obtain ⟨set', hset, hmodels'⟩ := hmodels.set_eq a (memberDigest a) hsize
  exact ⟨set', by rw [hset, hcontains, decide_not], _, hmodels', hM'⟩

theorem Members.remove_eq {set : Trie F} {l : List Particle} (h : Members set l) (a : Particle) :
    ∃ set', set.remove a = some (decide (a ∈ l), set') ∧ Members set' (l.filter (· != a)) := by
  obtain ⟨M, hmodels, hM⟩ := h
  have hcontains : M.contains a = decide (a ∈ l) := by
    rw [OrdMap.contains_eq_isSome, hM a]
    split_ifs with ha
    · simp [ha]
    · simp [ha]
  obtain ⟨set', hremove, hmodels'⟩ := hmodels.remove_eq a
  refine ⟨set', by rw [hremove, hcontains], _, hmodels', fun b => ?_⟩
  rw [OrdMap.getElem?_erase, hM b]
  by_cases hab : a = b
  · simp [hab]
  · simp [hab, Ne.symm hab]

theorem node_members {M : DigestMap F} {l : List Particle}
    (h : ∀ a, M[a]? = if a ∈ l then some (memberDigest a) else none) (hnodup : l.Nodup) :
    node M.toList = memberRoot l := by
  refine (node_of_perm ?_ (members_toList_perm h hnodup)).symm
  rw [List.map_map]
  exact (List.map_id l).symm ▸ hnodup

theorem Members.root_eq {set : Trie F} {l : List Particle} (h : Members set l) (hnodup : l.Nodup) :
    ∃ set', set.root = some (memberRoot l, set') ∧ Members set' l := by
  obtain ⟨M, hmodels, hM⟩ := h
  obtain ⟨set', hroot, hmodels'⟩ := hmodels.root_eq
  exact ⟨set', by rw [hroot, node_members hM hnodup], M, hmodels', hM⟩

theorem Members.prove_eq {set : Trie F} {l : List Particle} (h : Members set l) (hnodup : l.Nodup)
    (a : Particle) : ∃ p set', set.prove a = some (p, set') ∧ Members set' l ∧
      p.verify (memberRoot l) a (if a ∈ l then some (memberDigest a) else none) = some true := by
  obtain ⟨M, hmodels, hM⟩ := h
  obtain ⟨p, set', hprove, hmodels', hhonest⟩ := hmodels.prove_eq a
  refine ⟨p, set', hprove, ⟨M, hmodels', hM⟩, ?_⟩
  rw [← node_members hM hnodup, ← hM a]
  exact hhonest.verify_eq

/-- Removing axons one after the other. -/
theorem Members.removeAll_eq {set : Trie F} {l : List Particle} (h : Members set l) (dropped : List Particle) :
    ∃ set', dropped.foldlM (fun set a => (Trie.remove set a).map Prod.snd) set = some set' ∧
      Members set' (l.filter (· ∉ dropped)) := by
  induction dropped generalizing set l with
  | nil => exact ⟨set, rfl, h.congr fun a => by simp⟩
  | cons a dropped ih =>
      obtain ⟨set₁, hremove, h₁⟩ := h.remove_eq a
      obtain ⟨set', hall, h'⟩ := ih h₁
      refine ⟨set', ?_, h'.congr fun b => ?_⟩
      · rw [List.foldlM_cons, hremove]
        exact hall
      · simp only [List.mem_filter, List.mem_cons, not_or, bne_iff_ne, decide_eq_true_eq, and_assoc]

/-- What is left without the dropped end of a list is its front. -/
theorem mem_filter_not_mem_drop {l : List Particle} (hnodup : l.Nodup) (len : Nat) (a : Particle) :
    a ∈ l.filter (· ∉ l.drop len) ↔ a ∈ l.take len := by
  have hdisjoint : List.Disjoint (l.take len) (l.drop len) :=
    List.disjoint_of_nodup_append (by rwa [List.take_append_drop])
  have hmem : a ∈ l ↔ a ∈ l.take len ∨ a ∈ l.drop len := by rw [← List.mem_append, List.take_append_drop]
  rw [List.mem_filter, decide_eq_true_eq, hmem]
  constructor
  · rintro ⟨htake | hdrop, hnot⟩
    · exact htake
    · exact absurd hdrop hnot
  · exact fun htake => ⟨.inl htake, fun hdrop => hdisjoint htake hdrop⟩

theorem removeAll_cons_of_mem {a : Particle} {seen : List Particle} (ha : a ∈ seen) (l : List Particle) :
    (a :: l).removeAll seen = l.removeAll seen := by
  simp [List.removeAll, ha]

/-- A new axon comes first, and is then one of those seen. -/
theorem eraseDups_removeAll_cons {a : Particle} {seen : List Particle} (ha : a ∉ seen) (l : List Particle) :
    ((a :: l).removeAll seen).eraseDups = a :: (l.removeAll (seen ++ [a])).eraseDups := by
  have hfirst : (a :: l).removeAll seen = a :: l.removeAll seen := by simp [List.removeAll, ha]
  have hrest : (l.removeAll seen).filter (fun b => !b == a) = l.removeAll (seen ++ [a]) := by
    rw [List.removeAll, List.filter_filter, List.removeAll]
    refine List.filter_congr fun b _ => ?_
    by_cases hb : b = a <;> simp [hb]
  rw [hfirst, List.eraseDups_cons, hrest]

theorem insertLoop_eq {set : Trie F} {seen : List Particle} (h : Members set seen) (hnodup : seen.Nodup)
    (l : List Particle) (hfit : (seen ++ (l.removeAll seen).eraseDups).length ≤ Trie.maxKeys) :
    ∃ set', insertLoop set l = some ((l.removeAll seen).eraseDups, set') ∧
      Members set' (seen ++ (l.removeAll seen).eraseDups) := by
  induction l generalizing set seen with
  | nil => exact ⟨set, rfl, by simpa using h⟩
  | cons a l ih =>
      by_cases ha : a ∈ seen
      · rw [removeAll_cons_of_mem ha] at hfit ⊢
        obtain ⟨set₁, hset, h₁⟩ := h.set_eq hnodup (a := a)
          (by rw [List.length_append] at hfit; omega) (fun hnot => absurd ha hnot)
        obtain ⟨set', hloop, h'⟩ := ih (h₁.congr fun b => by simpa using fun hb => hb ▸ ha) hnodup hfit
        refine ⟨set', ?_, h'⟩
        simp [insertLoop, hset, hloop, ha]
      · have happend := List.append_cons seen a (l.removeAll (seen ++ [a])).eraseDups
        rw [eraseDups_removeAll_cons ha, happend] at hfit ⊢
        rw [List.length_append, List.length_append, List.length_singleton] at hfit
        obtain ⟨set₁, hset, h₁⟩ := h.set_eq hnodup (a := a) (by omega) (fun _ => by omega)
        obtain ⟨set', hloop, h'⟩ := ih h₁
          (List.Nodup.append hnodup (List.nodup_singleton a) (by simpa using ha))
          (by rw [List.length_append, List.length_append, List.length_singleton]; exact hfit)
        refine ⟨set', ?_, h'⟩
        simp [insertLoop, hset, hloop, ha]

/-! ### The index and its lists -/

/-- A listed particle has a member trie with its axons, and no other particle has one. -/
def MemberSet (set : Option (Trie F)) (l : List Particle) : Prop :=
  match set with
  | none => l = []
  | some set => l ≠ [] ∧ Members set l

/-- The keyed map from particles to lists whose trie the outer trie is. -/
def outer (x : AxonIndex F C) (A : Adjacency) : Keyed F Unit Particle AxonList := ⟨A, x.trie, x.dirty, none⟩

/-- The index is in the state the view says. -/
structure Shows (f : OrdMap Particle (List Particle) → C) (x : AxonIndex F C)
    (A : Keyed.View F Particle AxonList) : Prop where
  map : ∀ q : Particle, x.map[q]? = A.map[q]?.map AxonList.axons
  sets : ∀ q : Particle, MemberSet x.sets[q]? (Adjacency.axons A.map q)
  degrees : Counts x.degrees (Adjacency.countDegree A.map)
  short : ∀ q, (Adjacency.axons A.map q).length ≤ Trie.maxKeys
  dirty : x.dirty = A.dirty
  inv : (x.outer A.map).Inv A.committed
  size : A.committed.size ≤ Trie.maxKeys
  legacy : ∀ c, x.legacy = some c → c = f x.map

theorem shows_new (f : OrdMap Particle (List Particle) → C) : Shows f (new : AxonIndex F C) ⟨∅, ∅, ∅⟩ where
  map q := by simp [new]
  sets q := by simp [new, MemberSet]
  degrees d := by simp [new, Adjacency.countDegree, OrdMap.countVals]
  short q := by simp
  dirty := rfl
  inv := (Keyed.shows_new (C := Unit) fun _ => ()).inv
  size := by simp
  legacy c hc := by cases hc

/-- The touched particles after a write that may have changed nothing. -/
def touchIf (dirty : OrdMap Particle Unit) (particle : Particle) (changed : Prop) [Decidable changed] :
    OrdMap Particle Unit :=
  if changed then dirty.insert particle () else dirty

theorem insert_touchIf (dirty : OrdMap Particle Unit) (particle : Particle) (changed : Prop)
    [Decidable changed] : (touchIf dirty particle changed).insert particle () = dirty.insert particle () := by
  refine Std.ExtTreeMap.ext_getElem? fun q => ?_
  rw [touchIf]
  split_ifs
  · rw [OrdMap.getElem?_insert, OrdMap.getElem?_insert]
    split_ifs <;> rfl
  · rfl

theorem getElem?_touchIf_of_ne {dirty : OrdMap Particle Unit} {particle q : Particle} {changed : Prop}
    [Decidable changed] (hne : particle ≠ q) : (touchIf dirty particle changed)[q]? = dirty[q]? := by
  rw [touchIf]
  split_ifs
  · rw [OrdMap.getElem?_insert, if_neg hne]
  · rfl

section Write

variable {f : OrdMap Particle (List Particle) → C} {x : AxonIndex F C} {A : Keyed.View F Particle AxonList}
  (h : Shows f x A) (particle : Particle)

include h

theorem Shows.map_axons : x.map[particle]? = if Adjacency.axons A.map particle = [] then none else
    some (Adjacency.axons A.map particle) := by
  rw [h.map, Adjacency.getElem?_map_axons]

theorem Shows.map_getD : x.map[particle]?.getD [] = Adjacency.axons A.map particle := by
  rw [h.map]
  rfl

/-- The histogram move for a new list of the particle. -/
theorem Shows.degreeMoved_eq (n : Nat) : ∃ degrees,
    degreeMoved x.degrees (Adjacency.axons A.map particle).length n = some degrees ∧
      Counts degrees (withOne (Adjacency.countDegree (A.map.erase particle)) n) :=
  (h.degrees.congr (Adjacency.countDegree_eq A.map particle)).moved n

/-- Replacing the list of one particle, in the map, the member tries and the histogram. -/
theorem Shows.write {l : List Particle} (hnodup : l.Nodup) (hshort : l.length ≤ Trie.maxKeys)
    {map : OrdMap Particle (List Particle)} {sets : OrdMap Particle (Trie F)} {degrees : OrdMap Nat Nat}
    (hmap : ∀ q : Particle, map[q]? = if particle = q then (if l = [] then none else some l) else x.map[q]?)
    (hsets : ∀ q : Particle, particle ≠ q → sets[q]? = x.sets[q]?) (hset : MemberSet sets[particle]? l)
    (hdegrees : Counts degrees (withOne (Adjacency.countDegree (A.map.erase particle)) l.length)) :
    Shows f ({ x with map, sets, degrees }.touched particle)
      ⟨Adjacency.put A.map particle l, A.committed, A.dirty.insert particle ()⟩ := by
  have haxons : ∀ q, (Adjacency.put A.map particle l).axons q =
      if particle = q then l else Adjacency.axons A.map q := by
    intro q
    rw [Adjacency.axons_put, eraseDups_of_nodup hnodup]
  refine ⟨fun q => ?_, fun q => ?_, ?_, fun q => ?_, ?_, ?_, h.size, ?_⟩
  · change map[q]? = _
    rw [hmap, Adjacency.getElem?_map_axons, haxons]
    split_ifs with hq hnil hnil
    · rfl
    · rfl
    · rw [h.map_axons, if_pos hnil]
    · rw [h.map_axons, if_neg hnil]
  · change MemberSet sets[q]? _
    rw [haxons]
    split_ifs with hq
    · rw [← hq]
      exact hset
    · rw [hsets q hq]
      exact h.sets q
  · refine hdegrees.congr fun d => ?_
    rw [Adjacency.countDegree_eq _ particle, Adjacency.erase_put, haxons, if_pos rfl]
    rfl
  · rw [haxons]
    split_ifs
    · exact hshort
    · exact h.short q
  · change x.dirty.insert particle () = _
    rw [h.dirty]
  · refine Keyed.Inv.touched (m := x.outer A.map) h.inv fun q hq => ?_
    rw [Adjacency.getElem?_put, if_neg (Ne.symm hq)]
    rfl
  · intro c hc
    cases hc

/-- Replacing a member trie by one with the same axons. -/
theorem Shows.reset {set : Trie F} (hne : Adjacency.axons A.map particle ≠ [])
    (hset : Members set (Adjacency.axons A.map particle)) :
    Shows f { x with sets := x.sets.insert particle set } A := by
  refine ⟨h.map, fun q => ?_, h.degrees, h.short, h.dirty, h.inv, h.size, h.legacy⟩
  change MemberSet (x.sets.insert particle set)[q]? _
  rw [OrdMap.getElem?_insert]
  split_ifs with hq
  · rw [← hq]
    exact ⟨hne, hset⟩
  · exact h.sets q

theorem Shows.remove_eq : ∃ x', x.remove particle = some (A.map[particle]?.map AxonList.axons, x') ∧
    Shows f x' ⟨Adjacency.put A.map particle [], A.committed,
      touchIf A.dirty particle (Adjacency.axons A.map particle ≠ [])⟩ := by
  by_cases hnil : Adjacency.axons A.map particle = []
  · have hget := h.map_axons particle
    rw [if_pos hnil] at hget
    refine ⟨x, by rw [remove, ← h.map, hget], ?_⟩
    rw [Adjacency.put_self hnil, touchIf, if_neg (not_not.mpr hnil)]
    exact h
  · have hget := h.map_axons particle
    rw [if_neg hnil] at hget
    obtain ⟨degrees, hmoved, hdegrees⟩ := h.degreeMoved_eq particle 0
    refine ⟨_, by rw [remove, ← h.map, hget]; simp only [hmoved, Option.bind_eq_bind, Option.bind_some]; rfl, ?_⟩
    rw [touchIf, if_pos hnil]
    refine h.write particle List.nodup_nil (Nat.zero_le _) (fun q => ?_) (fun q hq => ?_) ?_ hdegrees
    · rw [OrdMap.getElem?_erase, if_pos rfl]
    · rw [OrdMap.getElem?_erase, if_neg hq]
    · rw [OrdMap.getElem?_erase, if_pos rfl]
      rfl

/-- The member trie of a particle, or the empty one, holds its axons. -/
theorem Shows.members : Members (x.sets[particle]?.getD Trie.empty) (Adjacency.axons A.map particle) := by
  have hset := h.sets particle
  cases hget : x.sets[particle]? with
  | none =>
      rw [hget] at hset
      rw [show Adjacency.axons A.map particle = [] from hset]
      exact members_empty
  | some set =>
      rw [hget] at hset
      exact hset.2

theorem Shows.add_eq (axon : Particle)
    (hfit : ((Adjacency.add A.map particle axon).axons particle).length ≤ Trie.maxKeys) :
    ∃ x', x.add particle axon = some (decide (axon ∉ Adjacency.axons A.map particle), x') ∧
      Shows f x' ⟨Adjacency.add A.map particle axon, A.committed,
        touchIf A.dirty particle (axon ∉ Adjacency.axons A.map particle)⟩ := by
  have hnodup := Adjacency.nodup_axons A.map particle
  rw [Adjacency.add] at hfit ⊢
  by_cases hmem : axon ∈ Adjacency.axons A.map particle
  · obtain ⟨set, hset, hmembers⟩ := (h.members particle).set_eq hnodup (a := axon) (h.short particle)
      (fun hnot => absurd hmem hnot)
    refine ⟨{ x with sets := x.sets.insert particle set }, ?_, ?_⟩
    · simp [add, hset, hmem]
    · rw [if_pos hmem, touchIf, if_neg (not_not.mpr hmem)]
      exact h.reset particle (List.ne_nil_of_mem hmem) (hmembers.congr fun b => by simpa using fun hb => hb ▸ hmem)
  · have hnew : (Adjacency.axons A.map particle ++ [axon]).Nodup :=
      List.Nodup.append hnodup (List.nodup_singleton axon) (by simpa using hmem)
    have hne : Adjacency.axons A.map particle ++ [axon] ≠ [] := by simp
    rw [if_neg hmem, Adjacency.axons_put, if_pos rfl, eraseDups_of_nodup hnew] at hfit
    obtain ⟨set, hset, hmembers⟩ := (h.members particle).set_eq hnodup (a := axon) (h.short particle)
      (fun _ => by rw [List.length_append, List.length_singleton] at hfit; omega)
    obtain ⟨degrees, hmoved, hdegrees⟩ :=
      h.degreeMoved_eq particle (Adjacency.axons A.map particle ++ [axon]).length
    have hlen : (Adjacency.axons A.map particle ++ [axon]).length - 1 =
        (Adjacency.axons A.map particle).length := by
      rw [List.length_append, List.length_singleton, Nat.add_sub_cancel]
    refine ⟨_, by simp only [add, hset, h.map_getD, hlen, hmoved, hmem, not_false_eq_true, decide_true,
      Bool.not_true, Bool.false_eq_true, if_false, Option.bind_eq_bind, Option.bind_some]; rfl, ?_⟩
    rw [if_neg hmem, touchIf, if_pos hmem]
    refine h.write particle hnew hfit (fun q => ?_) (fun q hq => ?_) ?_ hdegrees
    · rw [OrdMap.getElem?_insert, if_neg hne]
    · rw [OrdMap.getElem?_insert, if_neg hq]
    · rw [OrdMap.getElem?_insert, if_pos rfl]
      exact ⟨hne, hmembers⟩

theorem Shows.insert_eq (l : List Particle) (hfit : l.eraseDups.length ≤ Trie.maxKeys) :
    ∃ x', x.insert particle l = some (A.map[particle]?.map AxonList.axons, x') ∧
      Shows f x' ⟨Adjacency.put A.map particle l, A.committed,
        touchIf A.dirty particle (Adjacency.axons A.map particle ≠ [] ∨ l ≠ [])⟩ := by
  obtain ⟨x₁, hremove, h₁⟩ := h.remove_eq particle
  obtain ⟨set, hloop, hmembers⟩ := insertLoop_eq (F := F) members_empty List.nodup_nil l (by simpa using hfit)
  rw [List.removeAll_nil] at hloop hmembers
  by_cases hnil : l = []
  · subst hnil
    refine ⟨x₁, ?_, ?_⟩
    · simp [insert, hremove, hloop]
    · simpa using h₁
  · have hne : l.eraseDups ≠ [] := by
      obtain ⟨a, ha⟩ := List.exists_mem_of_ne_nil l hnil
      exact List.ne_nil_of_mem (List.mem_eraseDups.mpr ha)
    have hempty : (Adjacency.put A.map particle []).axons particle = [] := by
      rw [Adjacency.axons_put, if_pos rfl]
      rfl
    obtain ⟨degrees, hmoved, hdegrees⟩ := h₁.degreeMoved_eq particle l.eraseDups.length
    rw [hempty, List.length_nil] at hmoved
    have hwrite : Shows f ({ x₁ with
        map := x₁.map.insert particle l.eraseDups
        sets := x₁.sets.insert particle set
        degrees }.touched particle)
        ⟨(Adjacency.put A.map particle []).put particle l.eraseDups, A.committed,
          (touchIf A.dirty particle (Adjacency.axons A.map particle ≠ [])).insert particle ()⟩ := by
      refine h₁.write particle (nodup_eraseDups l) hfit (fun q => ?_) (fun q hq => ?_) ?_ hdegrees
      · rw [OrdMap.getElem?_insert, if_neg hne]
      · rw [OrdMap.getElem?_insert, if_neg hq]
      · rw [OrdMap.getElem?_insert, if_pos rfl]
        exact ⟨hne, hmembers⟩
    rw [Adjacency.put_put, Adjacency.put_eraseDups, insert_touchIf] at hwrite
    refine ⟨_, by simp only [insert, hremove, hloop, hmoved, List.isEmpty_iff, hne, if_false,
      Option.bind_eq_bind, Option.bind_some]; rfl, ?_⟩
    rw [touchIf, if_pos (.inr hnil)]
    exact hwrite

theorem Shows.removeAxon_eq (axon : Particle) :
    ∃ x', x.removeAxon particle axon = some (decide (axon ∈ Adjacency.axons A.map particle), x') ∧
      Shows f x' ⟨Adjacency.removeAxon A.map particle axon, A.committed,
        touchIf A.dirty particle (axon ∈ Adjacency.axons A.map particle)⟩ := by
  have hnodup := Adjacency.nodup_axons A.map particle
  have hset := h.sets particle
  rw [removeAxon, Adjacency.removeAxon]
  cases hget : x.sets[particle]? with
  | none =>
      rw [hget] at hset
      have hnil : Adjacency.axons A.map particle = [] := hset
      refine ⟨x, by simp [hnil], ?_⟩
      rw [Adjacency.put_self (by simp [hnil]), touchIf, if_neg (by simp [hnil])]
      exact h
  | some set =>
      rw [hget] at hset
      obtain ⟨hne, hmembers⟩ := hset
      obtain ⟨set', hremove, hmembers'⟩ := hmembers.remove_eq axon
      by_cases hmem : axon ∈ Adjacency.axons A.map particle
      · have hlist := h.map_axons particle
        rw [if_neg hne] at hlist
        generalize hrest : (Adjacency.axons A.map particle).filter (· != axon) = rest at *
        have hrestNodup : rest.Nodup := hrest ▸ hnodup.filter _
        have hshort : rest.length ≤ Trie.maxKeys := by
          rw [← hrest]
          exact (List.length_filter_le _ _).trans (h.short particle)
        obtain ⟨degrees, hmoved, hdegrees⟩ := h.degreeMoved_eq particle rest.length
        refine ⟨_, by simp only [hremove, hmem, decide_true, Bool.not_true, Bool.false_eq_true, if_false, hlist,
          hrest, hmoved, Option.bind_eq_bind, Option.bind_some]; rfl, ?_⟩
        rw [touchIf, if_pos hmem]
        by_cases hempty : rest = []
        · rw [if_pos (List.isEmpty_iff.mpr hempty)]
          refine h.write particle hrestNodup hshort (fun q => ?_) (fun q hq => ?_) ?_ hdegrees
          · rw [OrdMap.getElem?_erase, if_pos hempty]
          · rw [OrdMap.getElem?_erase, if_neg hq, OrdMap.getElem?_insert, if_neg hq]
          · rw [OrdMap.getElem?_erase, if_pos rfl]
            exact hempty
        · rw [if_neg (by rwa [List.isEmpty_iff])]
          refine h.write particle hrestNodup hshort (fun q => ?_) (fun q hq => ?_) ?_ hdegrees
          · rw [OrdMap.getElem?_insert, if_neg hempty]
          · rw [OrdMap.getElem?_insert, if_neg hq]
          · rw [OrdMap.getElem?_insert, if_pos rfl]
            exact ⟨hempty, hmembers'⟩
      · have hsame : (Adjacency.axons A.map particle).filter (· != axon) = Adjacency.axons A.map particle := by
          refine List.filter_eq_self.mpr fun b hb => ?_
          have : b ≠ axon := by
            rintro rfl
            exact hmem hb
          simpa using this
        rw [hsame] at hmembers' ⊢
        refine ⟨{ x with sets := x.sets.insert particle set' }, by simp [hremove, hmem], ?_⟩
        rw [Adjacency.put_self rfl, touchIf, if_neg hmem]
        exact h.reset particle hne hmembers'

theorem Shows.truncate_eq (len : Nat) :
    ∃ x', x.truncate particle len = some ((Adjacency.axons A.map particle).length - len, x') ∧
      Shows f x' ⟨Adjacency.truncate A.map particle len, A.committed,
        touchIf A.dirty particle (len < (Adjacency.axons A.map particle).length)⟩ := by
  have hnodup := Adjacency.nodup_axons A.map particle
  have hdegree : x.degree particle = (Adjacency.axons A.map particle).length := by
    rw [degree, h.map_axons]
    split_ifs with hnil
    · rw [hnil]
      rfl
    · rfl
  rw [truncate, Adjacency.truncate, hdegree]
  by_cases hle : (Adjacency.axons A.map particle).length ≤ len
  · refine ⟨x, by rw [if_pos hle, Nat.sub_eq_zero_of_le hle], ?_⟩
    rw [Adjacency.put_self (List.take_of_length_le hle).symm, touchIf, if_neg (Nat.not_lt.mpr hle)]
    exact h
  have hlt : len < (Adjacency.axons A.map particle).length := Nat.lt_of_not_le hle
  have hne : Adjacency.axons A.map particle ≠ [] := by
    intro hnil
    rw [hnil] at hlt
    cases hlt
  have hlist := h.map_axons particle
  rw [if_neg hne] at hlist
  rw [if_neg hle]
  by_cases hzero : len = 0
  · subst hzero
    obtain ⟨x', hremove, h'⟩ := h.remove_eq particle
    refine ⟨x', ?_, ?_⟩
    · rw [if_pos rfl, hremove, ← h.map, hlist]
      rfl
    · rw [touchIf, if_pos hne] at h'
      rw [touchIf, if_pos hlt]
      exact h'
  · have hset := h.sets particle
    cases hget : x.sets[particle]? with
    | none =>
        rw [hget] at hset
        exact absurd hset hne
    | some set =>
        rw [hget] at hset
        obtain ⟨set', hall, hmembers⟩ := hset.2.removeAll_eq ((Adjacency.axons A.map particle).drop len)
        obtain ⟨degrees, hmoved, hdegrees⟩ := h.degreeMoved_eq particle len
        have htake : ((Adjacency.axons A.map particle).take len).length = len := by
          rw [List.length_take]
          omega
        have htakeNe : (Adjacency.axons A.map particle).take len ≠ [] := by
          intro hnil
          rw [hnil] at htake
          exact hzero htake.symm
        refine ⟨_, by simp only [if_neg hzero, hlist, hall, hmoved, Option.bind_eq_bind, Option.bind_some,
          List.length_drop]; rfl, ?_⟩
        rw [touchIf, if_pos hlt]
        refine h.write particle (hnodup.sublist (List.take_sublist _ _)) ?_ (fun q => ?_) (fun q hq => ?_) ?_
          (htake.symm ▸ hdegrees)
        · exact (List.length_take_le _ _).trans (le_of_lt (hlt.trans_le (h.short particle)))
        · rw [OrdMap.getElem?_insert, if_neg htakeNe]
        · rw [OrdMap.getElem?_insert, if_neg hq]
        · rw [OrdMap.getElem?_insert, if_pos rfl]
          exact ⟨htakeNe, hmembers.congr fun a => mem_filter_not_mem_drop hnodup len a⟩

end Write

/-! ### Reads -/

/-- Bringing one particle's outer leaf up to date is an update of the outer trie with its record. -/
theorem flushParticle_eq {x : AxonIndex F C} {A : Adjacency}
    (hmap : ∀ q : Particle, x.map[q]? = A[q]?.map AxonList.axons)
    (hsets : ∀ q : Particle, MemberSet x.sets[q]? (A.axons q)) (particle : Particle) {trie : Trie F}
    (hput : x.trie.put (keyBytes particle) (A[particle]?.map (Keyed.leaf particle)) = some trie) :
    ∃ sets, x.flushParticle particle = some { x with sets, trie } ∧
      ∀ q : Particle, MemberSet sets[q]? (A.axons q) := by
  have hset := hsets particle
  rw [flushParticle, hmap]
  rw [Adjacency.axons] at hset
  cases hget : A[particle]? with
  | none =>
      rw [hget] at hput
      refine ⟨x.sets, ?_, hsets⟩
      change (x.trie.put particle none).bind _ = _
      rw [show x.trie.put particle none = some trie from hput]
      rfl
  | some l =>
      rw [hget] at hput hset
      cases hold : x.sets[particle]? with
      | none =>
          rw [hold] at hset
          exact absurd hset l.nonempty
      | some set =>
          rw [hold] at hset
          obtain ⟨set', hroot, hmembers⟩ := Members.root_eq (l := l.axons) hset.2 l.nodup
          refine ⟨x.sets.insert particle set', ?_, fun q => ?_⟩
          · have hleaf : x.trie.put particle
                (some (leaf particle (UInt64.ofNat l.axons.length) (memberRoot l.axons))) = some trie := hput
            simp only [Option.map_some, hroot, hleaf, Option.bind_eq_bind, Option.bind_some]
          · rw [OrdMap.getElem?_insert]
            split_ifs with hq
            · rw [← hq, Adjacency.axons, hget]
              exact ⟨l.nonempty, hmembers⟩
            · exact hsets q

theorem flushParticles_eq {x : AxonIndex F C} {A : Adjacency}
    (hmap : ∀ q : Particle, x.map[q]? = A[q]?.map AxonList.axons)
    (hsets : ∀ q : Particle, MemberSet x.sets[q]? (A.axons q)) (particles : List Particle) {trie : Trie F}
    (hall : particles.foldlM (fun trie key => Trie.put trie (keyBytes key) (A[key]?.map (Keyed.leaf key))) x.trie =
      some trie) : ∃ sets, particles.foldlM flushParticle x = some { x with sets, trie } ∧
        ∀ q : Particle, MemberSet sets[q]? (A.axons q) := by
  induction particles generalizing x with
  | nil =>
      obtain rfl : x.trie = trie := Option.some_inj.mp hall
      exact ⟨x.sets, rfl, hsets⟩
  | cons particle particles ih =>
      rw [List.foldlM_cons, Option.bind_eq_bind, Option.bind_eq_some_iff] at hall
      obtain ⟨trie₁, hput, hrest⟩ := hall
      obtain ⟨sets₁, hone, hsets₁⟩ := flushParticle_eq hmap hsets particle hput
      obtain ⟨sets, hrun, hsets'⟩ := ih (x := { x with sets := sets₁, trie := trie₁ }) hmap hsets₁ hrest
      refine ⟨sets, ?_, hsets'⟩
      rw [List.foldlM_cons, hone]
      exact hrun

section Read

variable {f : OrdMap Particle (List Particle) → C} {x : AxonIndex F C} {A : Keyed.View F Particle AxonList}
  (h : Shows f x A)

include h

/-- A flush that fits brings the outer trie in step with the lists. -/
theorem Shows.flush_eq (hfit : DigestMap.FitsAll A.committed (Keyed.updates A.map A.dirty)) :
    ∃ sets trie, x.flush = some { x with sets, trie, dirty := ∅ } ∧
      trie.Models (OrdMap.putAll A.committed (Keyed.updates A.map A.dirty)) ∧
      ∀ trie', trie'.Models (OrdMap.putAll A.committed (Keyed.updates A.map A.dirty)) →
        Shows f { x with sets, trie := trie', dirty := ∅ }
          ⟨A.map, OrdMap.putAll A.committed (Keyed.updates A.map A.dirty), ∅⟩ := by
  have hsame : Keyed.updates A.map A.dirty = Keyed.updates (x.outer A.map).map (x.outer A.map).dirty (F := F) :=
    congrArg _ h.dirty.symm
  have hstep := h.inv.inStep_putAll
  rw [hsame] at hfit ⊢
  obtain ⟨trie, hall, hmodels⟩ := h.inv.fold_eq hfit
  obtain ⟨sets, hflush, hsets⟩ := flushParticles_eq h.map h.sets x.dirty.keys hall
  refine ⟨sets, trie, by rw [flush, hflush]; rfl, hmodels, fun trie' hmodels' => ?_⟩
  exact ⟨h.map, hsets, h.degrees, h.short, rfl, ⟨hmodels', fun key _ => hstep.lookup key, hstep.range⟩,
    Keyed.size_putAll_le h.size hfit, h.legacy⟩

theorem Shows.commitment_eq (hfit : DigestMap.FitsAll A.committed (Keyed.updates A.map A.dirty)) :
    ∃ x', x.commitment = some (node (Keyed.leafEntries A.map), x') ∧
      Shows f x' ⟨A.map, OrdMap.putAll A.committed (Keyed.updates A.map A.dirty), ∅⟩ := by
  obtain ⟨sets, trie, hflush, hmodels, hshows⟩ := h.flush_eq hfit
  obtain ⟨trie', hroot, hmodels'⟩ := hmodels.root_eq
  refine ⟨_, ?_, hshows trie' hmodels'⟩
  have hstep := (hshows trie' hmodels').inv.inStep_empty
  simp only [commitment, hflush, Option.bind_eq_bind, Option.bind_some, hroot, ← hstep.node_eq]

theorem Shows.prove_eq (hfit : DigestMap.FitsAll A.committed (Keyed.updates A.map A.dirty))
    (particle : Particle) : ∃ p x', x.prove particle = some (p, x') ∧
      p.verify (node (Keyed.leafEntries A.map)) particle (A.map[particle]?.map (Keyed.leaf particle)) = some true ∧
      Shows f x' ⟨A.map, OrdMap.putAll A.committed (Keyed.updates A.map A.dirty), ∅⟩ := by
  obtain ⟨sets, trie, hflush, hmodels, hshows⟩ := h.flush_eq hfit
  obtain ⟨p, trie', hprove, hmodels', hhonest⟩ := hmodels.prove_eq particle
  have hstep := (hshows trie' hmodels').inv.inStep_empty
  refine ⟨p, _, by simp only [prove, hflush, Option.bind_eq_bind, Option.bind_some, hprove], ?_,
    hshows trie' hmodels'⟩
  have hverify := hhonest.verify_eq
  rw [hstep.node_eq] at hverify
  rw [← hverify]
  exact congrArg _ (hstep.lookup particle).symm

/-- A particle has a list and a member trie, or neither. -/
theorem Shows.sets_cases (particle : Particle) :
    (A.map[particle]? = none ∧ x.sets[particle]? = none) ∨
      ∃ l set, A.map[particle]? = some l ∧ Adjacency.axons A.map particle = l.axons ∧
        x.sets[particle]? = some set ∧ Members set l.axons := by
  have hset := h.sets particle
  rw [Adjacency.axons] at hset ⊢
  cases hget : A.map[particle]? with
  | none =>
      refine .inl ⟨rfl, ?_⟩
      cases hold : x.sets[particle]? with
      | none => rfl
      | some set =>
          rw [hget, hold] at hset
          exact absurd rfl hset.1
  | some l =>
      cases hold : x.sets[particle]? with
      | none =>
          rw [hget, hold] at hset
          exact absurd hset l.nonempty
      | some set =>
          rw [hget, hold] at hset
          exact .inr ⟨l, set, rfl, rfl, rfl, hset.2⟩

theorem Shows.setRoot_eq (particle : Particle) :
    ∃ x', x.setRoot particle = some (A.map[particle]?.map fun l => memberRoot l.axons, x') ∧ Shows f x' A := by
  rcases h.sets_cases particle with ⟨hget, hold⟩ | ⟨l, set, hget, haxons, hold, hmembers⟩
  · exact ⟨x, by rw [setRoot, hold, hget]; rfl, h⟩
  · obtain ⟨set', hroot, hmembers'⟩ := hmembers.root_eq l.nodup
    refine ⟨{ x with sets := x.sets.insert particle set' }, ?_, ?_⟩
    · rw [setRoot, hold, hget]
      simp only [hroot, Option.bind_eq_bind, Option.bind_some, Option.map_some]
    · exact h.reset particle (haxons ▸ l.nonempty) (haxons ▸ hmembers')

theorem Shows.proveMember_eq (particle axon : Particle) :
    ∃ p x', x.proveMember particle axon = some (p, x') ∧ Shows f x' A ∧
      match A.map[particle]?, p with
      | none, none => True
      | some l, some p => p.verify (memberRoot l.axons) axon
          (if axon ∈ l.axons then some (memberDigest axon) else none) = some true
      | _, _ => False := by
  rcases h.sets_cases particle with ⟨hget, hold⟩ | ⟨l, set, hget, haxons, hold, hmembers⟩
  · refine ⟨none, x, by rw [proveMember, hold], h, ?_⟩
    rw [hget]
    trivial
  · obtain ⟨p, set', hprove, hmembers', hverify⟩ := hmembers.prove_eq l.nodup axon
    refine ⟨some p, { x with sets := x.sets.insert particle set' }, ?_, ?_, ?_⟩
    · rw [proveMember, hold]
      simp only [hprove, Option.bind_eq_bind, Option.bind_some]
    · exact h.reset particle (haxons ▸ l.nonempty) (haxons ▸ hmembers')
    · rw [hget]
      exact hverify

end Read

end AxonIndex

end LeanBbg
