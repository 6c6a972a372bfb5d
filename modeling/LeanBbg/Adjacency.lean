import LeanBbg.KeyedRefinement

/-! What an adjacency index is for: every particle has a list of distinct axons in the order of their
addition, and a particle without axons is not in the map. All writes are one operation, `put`, which
replaces a particle's list and keeps the first of every repeated axon. -/

set_option linter.unusedSectionVars false

namespace LeanBbg

variable {F : Type} [Hemera F] [DecidableEq F]

theorem nodup_eraseDups {α : Type} [BEq α] [LawfulBEq α] (l : List α) : l.eraseDups.Nodup := by
  induction h : l.length using Nat.strong_induction_on generalizing l with
  | _ n ih =>
      cases l with
      | nil => exact List.nodup_nil
      | cons a l =>
          rw [List.eraseDups_cons, List.nodup_cons]
          constructor
          · rw [List.mem_eraseDups]
            simp
          · have hlen := List.length_filter_le (fun b => !b == a) l
            rw [List.length_cons] at h
            exact ih _ (by omega) _ rfl

theorem eraseDups_of_nodup {α : Type} [BEq α] [LawfulBEq α] {l : List α} (h : l.Nodup) : l.eraseDups = l := by
  induction l with
  | nil => rfl
  | cons a l ih =>
      obtain ⟨hmem, hl⟩ := List.nodup_cons.mp h
      have hfilter : (l.filter fun b => !b == a) = l := by
        refine List.filter_eq_self.mpr fun b hb => ?_
        have : b ≠ a := by
          rintro rfl
          exact hmem hb
        simpa using this
      rw [List.eraseDups_cons, hfilter, ih hl]

/-- The axons of a particle: at least one, each once. -/
@[ext] structure AxonList where
  axons : List Particle
  nonempty : axons ≠ []
  nodup : axons.Nodup

namespace AxonList

/-- The list with the first of every repeated axon, if there is any. -/
def ofList (l : List Particle) : Option AxonList :=
  if h : l.eraseDups ≠ [] then some ⟨l.eraseDups, h, nodup_eraseDups l⟩ else none

theorem ofList_axons (l : List Particle) : ((ofList l).map axons).getD [] = l.eraseDups := by
  rw [ofList]
  split_ifs with h
  · rfl
  · exact (not_not.mp h).symm

@[simp] theorem ofList_nil : ofList [] = none := rfl

theorem ofList_self (l : AxonList) : ofList l.axons = some l := by
  have hself := eraseDups_of_nodup l.nodup
  rw [ofList, dif_pos (by rw [hself]; exact l.nonempty)]
  exact congrArg some (AxonList.ext hself)

end AxonList

/-- The commitment to a set of axons. -/
def memberRoot (l : List Particle) : Digest F := node (l.map fun a => (a, leafDigest a []))

/-- The outer leaf of a particle has its degree and the commitment to its axons. -/
instance : LeafValue F AxonList :=
  ⟨fun l => u64Limbs (UInt64.ofNat l.axons.length) ++ (memberRoot l.axons).toList⟩

abbrev Adjacency := OrdMap Particle AxonList

namespace Adjacency

def axons (A : Adjacency) (particle : Particle) : List Particle := (A[particle]?.map AxonList.axons).getD []

/-- The lists as a plain map. -/
def lists (A : Adjacency) : OrdMap Particle (List Particle) := A.map fun _ l => l.axons

theorem getElem?_lists (A : Adjacency) (particle : Particle) :
    A.lists[particle]? = A[particle]?.map AxonList.axons :=
  Std.ExtTreeMap.getElem?_map

/-- Replace a particle's list; without axons, the particle goes. -/
def put (A : Adjacency) (particle : Particle) (l : List Particle) : Adjacency :=
  match AxonList.ofList l with
  | some l => A.insert particle l
  | none => A.erase particle

theorem getElem?_put (A : Adjacency) (particle : Particle) (l : List Particle) (q : Particle) :
    (A.put particle l)[q]? = if particle = q then AxonList.ofList l else A[q]? := by
  rw [put]
  cases AxonList.ofList l with
  | none => rw [OrdMap.getElem?_erase]
  | some l => rw [OrdMap.getElem?_insert]

@[simp] theorem axons_empty (q : Particle) : axons ∅ q = [] := by simp [axons]

theorem axons_put (A : Adjacency) (particle : Particle) (l : List Particle) (q : Particle) :
    (A.put particle l).axons q = if particle = q then l.eraseDups else A.axons q := by
  rw [axons, getElem?_put]
  split_ifs with hq
  · exact AxonList.ofList_axons l
  · rfl

theorem nodup_axons (A : Adjacency) (particle : Particle) : (A.axons particle).Nodup := by
  rw [axons]
  cases A[particle]? with
  | none => exact List.nodup_nil
  | some l => exact l.nodup

/-- A particle's entry is its list. -/
theorem getElem?_eq_ofList (A : Adjacency) (particle : Particle) : A[particle]? = AxonList.ofList (A.axons particle) := by
  rw [axons]
  cases A[particle]? with
  | none => rfl
  | some l => exact (AxonList.ofList_self l).symm

theorem ext_axons {A B : Adjacency} (h : ∀ particle, A.axons particle = B.axons particle) : A = B := by
  refine Std.ExtTreeMap.ext_getElem? fun particle => ?_
  rw [getElem?_eq_ofList, getElem?_eq_ofList, h]

/-- Putting the list that is there changes nothing. -/
theorem put_self {A : Adjacency} {particle : Particle} {l : List Particle} (h : A.axons particle = l) :
    A.put particle l = A := by
  refine ext_axons fun q => ?_
  rw [axons_put]
  split_ifs with hq
  · rw [← h, eraseDups_of_nodup (A.nodup_axons particle), hq]
  · rfl

theorem put_put (A : Adjacency) (particle : Particle) (l l' : List Particle) :
    (A.put particle l).put particle l' = A.put particle l' := by
  refine ext_axons fun q => ?_
  rw [axons_put, axons_put, axons_put]
  split_ifs <;> rfl

theorem put_eraseDups (A : Adjacency) (particle : Particle) (l : List Particle) :
    A.put particle l.eraseDups = A.put particle l := by
  refine ext_axons fun q => ?_
  rw [axons_put, axons_put, eraseDups_of_nodup (nodup_eraseDups l)]

theorem getElem?_map_axons (A : Adjacency) (particle : Particle) : A[particle]?.map AxonList.axons =
    if A.axons particle = [] then none else some (A.axons particle) := by
  rw [axons]
  cases A[particle]? with
  | none => rfl
  | some l => exact (if_neg l.nonempty).symm

theorem erase_put (A : Adjacency) (particle : Particle) (l : List Particle) :
    (A.put particle l).erase particle = A.erase particle := by
  refine Std.ExtTreeMap.ext_getElem? fun q => ?_
  rw [OrdMap.getElem?_erase, OrdMap.getElem?_erase, getElem?_put]
  split_ifs <;> rfl

/-! ### The plain operations -/

/-- Append the axon if it is new. -/
def add (A : Adjacency) (particle axon : Particle) : Adjacency :=
  if axon ∈ A.axons particle then A else A.put particle (A.axons particle ++ [axon])

def removeAxon (A : Adjacency) (particle axon : Particle) : Adjacency :=
  A.put particle ((A.axons particle).filter (· != axon))

def truncate (A : Adjacency) (particle : Particle) (len : Nat) : Adjacency :=
  A.put particle ((A.axons particle).take len)

/-- How many particles have a degree. -/
def countDegree (A : Adjacency) (d : Nat) : Nat := OrdMap.countVals (fun l : AxonList => l.axons.length == d) A

/-- The length of the longest list. -/
def longest (A : Adjacency) : Nat := (A.toList.map fun e => e.2.axons.length).max?.getD 0

theorem any_degree (A : Adjacency) (particle : Particle) (d : Nat) :
    (A[particle]?.any fun l => l.axons.length == d) =
      decide (0 < (A.axons particle).length ∧ (A.axons particle).length = d) := by
  rw [axons]
  cases A[particle]? with
  | none => rfl
  | some l =>
      have := List.length_pos_iff.mpr l.nonempty
      rw [Option.any_some, Option.map_some, Option.getD_some, Bool.eq_iff_iff, beq_iff_eq, decide_eq_true_eq]
      exact (and_iff_right this).symm

/-- The count of a degree splits into one particle and the others. -/
theorem countDegree_eq (A : Adjacency) (particle : Particle) (d : Nat) :
    A.countDegree d = countDegree (A.erase particle) d +
      if 0 < (A.axons particle).length ∧ (A.axons particle).length = d then 1 else 0 := by
  rw [countDegree, OrdMap.countVals_eq _ A particle, any_degree]
  simp only [decide_eq_true_eq]
  rfl

theorem countDegree_pos {A : Adjacency} {d : Nat} :
    A.countDegree d ≠ 0 ↔ ∃ (particle : Particle) (l : AxonList), A[particle]? = some l ∧ l.axons.length = d := by
  rw [countDegree, OrdMap.countVals, ← Nat.pos_iff_ne_zero, List.countP_pos_iff]
  constructor
  · rintro ⟨⟨particle, l⟩, hmem, hd⟩
    exact ⟨particle, l, A.mem_toList.mp hmem, by simpa using hd⟩
  · rintro ⟨particle, l, hget, hd⟩
    exact ⟨(particle, l), A.mem_toList.mpr hget, by simpa using hd⟩

end Adjacency

end LeanBbg
