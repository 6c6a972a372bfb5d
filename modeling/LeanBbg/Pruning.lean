import LeanBbg.LibSort
import LeanBbg.RollingHash
import LeanBbg.Topology

/-! What a pruning cycle removes. The rank floor protects a share of the particles; below the size limit
the stale unprotected axons go, over it the unprotected records go, lightest first, until the estimate is
within the limit. Axons without a record have rank zero for the half-life, and gravity does not see them. -/

set_option linter.unusedSectionVars false

namespace LeanBbg

variable {F : Type} [Hemera F] [DecidableEq F] [Brakedown F]

namespace Adjacency

/-- The lists with the axons that a predicate keeps, in their order; an empty list goes. -/
def keep (A : Adjacency) (kept : Particle → Particle → Bool) : Adjacency :=
  A.filterMap fun p l => AxonList.ofList (l.axons.filter (kept p))

theorem axons_keep (A : Adjacency) (kept : Particle → Particle → Bool) (p : Particle) :
    (A.keep kept).axons p = (A.axons p).filter (kept p) := by
  rw [axons, keep, Std.ExtTreeMap.getElem?_filterMap', axons]
  cases A[p]? with
  | none => rfl
  | some l =>
      rw [Option.bind_some, AxonList.ofList_axons]
      exact eraseDups_of_nodup (l.nodup.filter _)

/-- The lists without some axons, in their order. -/
def without (A : Adjacency) (removed : List Particle) : Adjacency :=
  A.filterMap fun _ l => AxonList.ofList (l.axons.filter fun a => a ∉ removed)

theorem axons_without (A : Adjacency) (removed : List Particle) (p : Particle) :
    (A.without removed).axons p = (A.axons p).filter fun a => a ∉ removed :=
  A.axons_keep (fun _ a => a ∉ removed) p

/-- The size of the lists: a header for each, and their axons. -/
def bytes (A : Adjacency) : Nat := OrdMap.sumVals (fun l : AxonList => 32 + l.axons.length * 32) A

/-- A shorter list makes the index no larger. -/
theorem bytes_put_le {A : Adjacency} {p : Particle} {l : List Particle} (hle : l.length ≤ (A.axons p).length)
    (hnodup : l.Nodup) : (A.put p l).bytes ≤ A.bytes := by
  have hsplit : A.bytes = _ := OrdMap.sumVals_eq _ A p
  rw [put, hsplit]
  cases hlist : AxonList.ofList l with
  | none => exact Nat.le_add_left _ _
  | some l' =>
      have haxons : l'.axons = l := by
        have hdups := AxonList.ofList_axons l
        rw [hlist, eraseDups_of_nodup hnodup] at hdups
        exact hdups
      have hinsert : bytes (A.insert p l') = _ := OrdMap.sumVals_insert _ A p l'
      have hpos := List.length_pos_iff.mpr l'.nonempty
      rw [axons] at hle
      cases hget : A[p]? with
      | none =>
          rw [hget] at hle
          rw [haxons] at hpos
          exact absurd (hpos.trans_le hle) (Nat.lt_irrefl 0)
      | some l₀ =>
          rw [hget] at hle
          dsimp only [Option.map_some, Option.getD_some] at hle ⊢
          rw [hinsert, haxons]
          omega

theorem bytes_removeAxon_le (A : Adjacency) (p a : Particle) : (A.removeAxon p a).bytes ≤ A.bytes :=
  bytes_put_le (List.length_filter_le _ _) ((A.nodup_axons p).filter _)

end Adjacency

namespace State

variable {s : State F}

/-! ### The rank floor -/

/-- The ranks of the particles, ascending. -/
def scores (s : State F) : List UInt64 :=
  (s.particles.toList.map fun e => e.2.piStar).mergeSort fun a b => decide (a ≤ b)

theorem length_scores (s : State F) : s.scores.length = s.particles.size := by
  rw [scores, List.length_mergeSort, List.length_map, Std.ExtTreeMap.length_toList]

theorem rankFloor_eq {pct : UInt8} (hpct : pct ≠ 0) :
    s.rankFloor pct = s.scores[s.particles.size - (s.particles.size * pct.toNat + 99) / 100]?.getD 0 := by
  rw [rankFloor, if_neg hpct, ← length_scores]
  rfl

/-- A share of up to 100 percent of the particles is at most all of them. -/
theorem share_le {n pct : Nat} (hpct : pct ≤ 100) : (n * pct + 99) / 100 ≤ n := by
  have := Nat.mul_le_mul_left n hpct
  omega

theorem scores_floor {pct : UInt8} (hpct : pct ≠ 0) (hpos : s.particles.size ≠ 0) :
    s.scores[s.scores.length - (s.particles.size * pct.toNat + 99) / 100]? = some (s.rankFloor pct) := by
  have hnat : pct.toNat ≠ 0 := fun h => hpct (UInt8.toNat_inj.mp h)
  have hshare : 0 < s.particles.size * pct.toNat := Nat.mul_pos (Nat.pos_of_ne_zero hpos) (Nat.pos_of_ne_zero hnat)
  rw [rankFloor_eq hpct, length_scores, List.getElem?_eq_getElem (by rw [length_scores]; omega)]
  rfl

theorem mem_scores {x : UInt64} : x ∈ s.scores ↔ ∃ (p : Particle) (r : ParticleRecord), s.particles[p]? = some r ∧ r.piStar = x := by
  rw [scores, List.mem_mergeSort, List.mem_map]
  constructor
  · rintro ⟨⟨p, r⟩, hmem, rfl⟩
    exact ⟨p, r, s.particles.mem_toList.mp hmem, rfl⟩
  · rintro ⟨p, r, hget, rfl⟩
    exact ⟨(p, r), s.particles.mem_toList.mpr hget, rfl⟩

/-- The floor is the rank of a particle, or zero when there is none. -/
theorem rankFloor_mem (pct : UInt8) (hpct : pct ≠ 0) :
    (s.particles.size = 0 ∧ s.rankFloor pct = 0) ∨
      ∃ (p : Particle) (r : ParticleRecord), s.particles[p]? = some r ∧ r.piStar = s.rankFloor pct := by
  rcases Nat.eq_zero_or_pos s.particles.size with hzero | hpos
  · have hnil : s.scores = [] := List.length_eq_zero_iff.mp (by rw [length_scores, hzero])
    refine .inl ⟨hzero, ?_⟩
    rw [rankFloor_eq hpct, hnil]
    rfl
  · exact .inr (mem_scores.mp (List.mem_of_getElem? (scores_floor hpct hpos.ne')))

/-- How many particles the floor protects. -/
theorem le_countP_rankFloor (pct : UInt8) (hpct : pct ≠ 0) (hle : pct.toNat ≤ 100) :
    (s.particles.size * pct.toNat + 99) / 100 ≤
      s.particles.toList.countP fun e => decide (s.rankFloor pct ≤ e.2.piStar) := by
  rcases Nat.eq_zero_or_pos s.particles.size with hzero | hpos
  · rw [hzero]
    simp
  · have hcount := Sort.le_countP_of_sorted (Sort.pairwise_sorted _)
      ((share_le hle).trans_eq s.length_scores.symm) (scores_floor hpct hpos.ne')
    rw [(List.mergeSort_perm _ _).countP_eq, List.countP_map] at hcount
    exact hcount

/-- The full share protects every record. -/
theorem rankFloor_full {p : Particle} {r : ParticleRecord} (hget : s.particles[p]? = some r) :
    s.rankFloor 100 ≤ r.piStar := by
  have hcount := le_countP_rankFloor (s := s) 100 (by decide) (by decide)
  have hall : (s.particles.size * (100 : UInt8).toNat + 99) / 100 = s.particles.toList.length := by
    rw [Std.ExtTreeMap.length_toList]
    change (s.particles.size * 100 + 99) / 100 = s.particles.size
    omega
  rw [hall] at hcount
  have hevery := List.countP_eq_length.mp (le_antisymm List.countP_le_length hcount)
  exact of_decide_eq_true (hevery (p, r) (s.particles.mem_toList.mpr hget))

/-! ### The candidates -/

/-- A particle record below the floor. -/
def Unprotected (s : State F) (floor : UInt64) (p : Particle) : Prop :=
  ∃ r, s.particles[p]? = some r ∧ r.piStar < floor

/-- An axon of rank below the floor that was not touched within the half-life; without a record the rank is zero. -/
def Stale (s : State F) (touched : LastTouched) (floor halfLife epoch : UInt64) (a : Particle) : Prop :=
  ∃ last, touched[a]? = some last ∧ (s.particles[a]?.map ParticleRecord.piStar).getD 0 < floor ∧
    halfLife.toNat < epoch.toNat - last.toNat

def weight (s : State F) (p : Particle) : UInt64 := (s.particles[p]?.map ParticleRecord.weight).getD 0

/-- The unprotected records in the order of their weight, and those of one weight in the order of their ids. -/
structure Lightest (s : State F) (floor : UInt64) (order : List Particle) : Prop where
  mem : ∀ p, p ∈ order ↔ s.Unprotected floor p
  sorted : order.Pairwise fun p q => s.weight p < s.weight q ∨ s.weight p = s.weight q ∧ compare p q = .lt

/-- The candidates of gravity, in the order of removal. -/
def gravityOrder (s : State F) (floor : UInt64) : List Particle :=
  (((s.particles.toList.filter fun e => e.2.piStar < floor).map fun e => (e.1, e.2.weight)).mergeSort
    fun a b => decide (a.2 ≤ b.2)).map Prod.fst

/-- The candidates of the half-life, in the order of removal. -/
def staleOrder (s : State F) (touched : LastTouched) (floor halfLife epoch : UInt64) : List Particle :=
  (((touched.toList.filter fun e => ((s.particles[e.1]?.map ParticleRecord.piStar).getD 0 < floor) &&
      halfLife < saturatingSub epoch e.2).map fun e => (e.1, s.weight e.1)).mergeSort
    fun a b => decide (a.2 ≤ b.2)).map Prod.fst

theorem candidates_eq (s : State F) (touched : LastTouched) (config : PruneConfig) (epoch : UInt64) :
    s.candidates touched config epoch none = some (decide (config.maxBytes < s.estimateBytes),
      if config.maxBytes < s.estimateBytes then s.gravityOrder (s.rankFloor config.rankFloorPct)
      else s.staleOrder touched (s.rankFloor config.rankFloorPct) config.halfLifeEpochs epoch) := by
  rw [candidates, unprotected]
  by_cases hover : config.maxBytes < s.estimateBytes
  · rw [if_pos hover, if_pos hover]
    rfl
  · rw [if_neg hover, if_neg hover]
    rfl

theorem mem_staleOrder {touched : LastTouched} {floor halfLife epoch : UInt64} {a : Particle} :
    a ∈ s.staleOrder touched floor halfLife epoch ↔ s.Stale touched floor halfLife epoch a := by
  have hsub : ∀ last : UInt64, halfLife < saturatingSub epoch last ↔ halfLife.toNat < epoch.toNat - last.toNat := by
    intro last
    rw [saturatingSub, UInt64.lt_iff_toNat_lt]
    split_ifs with h
    · rw [UInt64.toNat_sub_of_le _ _ h]
    · rw [UInt64.le_iff_toNat_le] at h
      rw [Nat.sub_eq_zero_of_le (by omega)]
      rfl
  simp only [staleOrder, List.mem_map, List.mem_mergeSort, List.mem_filter, Bool.and_eq_true, decide_eq_true_eq, hsub]
  constructor
  · rintro ⟨-, ⟨⟨a, last⟩, ⟨hmem, hrank, hstale⟩, rfl⟩, rfl⟩
    exact ⟨last, touched.mem_toList.mp hmem, hrank, hstale⟩
  · rintro ⟨last, hget, hrank, hstale⟩
    exact ⟨(a, s.weight a), ⟨(a, last), ⟨touched.mem_toList.mpr hget, hrank, hstale⟩, rfl⟩, rfl⟩

theorem mem_gravityOrder {floor : UInt64} {p : Particle} : p ∈ s.gravityOrder floor ↔ s.Unprotected floor p := by
  simp only [gravityOrder, List.mem_map, List.mem_mergeSort, List.mem_filter, decide_eq_true_eq]
  constructor
  · rintro ⟨-, ⟨⟨p, r⟩, ⟨hmem, hrank⟩, rfl⟩, rfl⟩
    exact ⟨r, s.particles.mem_toList.mp hmem, hrank⟩
  · rintro ⟨r, hget, hrank⟩
    exact ⟨(p, r.weight), ⟨(p, r), ⟨s.particles.mem_toList.mpr hget, hrank⟩, rfl⟩, rfl⟩

/-- The map lists the ids in ascending order, and the sort by weight keeps that order among equal weights. -/
theorem lightest_gravityOrder (s : State F) (floor : UInt64) : s.Lightest floor (s.gravityOrder floor) := by
  refine ⟨fun p => mem_gravityOrder, ?_⟩
  have hids : (s.particles.toList.filter fun e => e.2.piStar < floor).Pairwise fun e e' => compare e.1 e'.1 = .lt :=
    Std.ExtTreeMap.ordered_keys_toList.filter _
  have hlisted : ((s.particles.toList.filter fun e => e.2.piStar < floor).map fun e => (e.1, e.2.weight)).Pairwise
      fun a b : Particle × UInt64 => compare a.1 b.1 = .lt := List.pairwise_map.mpr hids
  have hnodup : ((s.particles.toList.filter fun e => e.2.piStar < floor).map fun e => (e.1, e.2.weight)).Nodup := by
    refine hlisted.imp fun {a b} hlt heq => ?_
    rw [heq, @Std.ReflCmp.compare_self _ compare] at hlt
    cases hlt
  have hsorted := Sort.pairwise_stable (f := Prod.snd) hnodup hlisted
  rw [gravityOrder, List.pairwise_map]
  refine List.Pairwise.imp_of_mem (fun {a b} ha hb hle => ?_) hsorted
  have hweight : ∀ e ∈ ((s.particles.toList.filter fun e => e.2.piStar < floor).map
      fun e => (e.1, e.2.weight)).mergeSort fun a b => decide (a.2 ≤ b.2), s.weight e.1 = e.2 := by
    intro e he
    obtain ⟨⟨p, r⟩, hmem, rfl⟩ := List.mem_map.mp (List.mem_mergeSort.mp he)
    rw [weight, s.particles.mem_toList.mp (List.mem_of_mem_filter hmem)]
    rfl
  rw [hweight a ha, hweight b hb]
  obtain ⟨hle, hties⟩ := hle
  rcases UInt64.lt_or_eq_of_le hle with hlt | heq
  · exact .inl hlt
  · exact .inr ⟨heq, hties (UInt64.le_of_eq heq.symm)⟩

/-! ### The size -/

/-- The size that `estimateBytes` counts in 64 bits. -/
def bytes (s : State F) : Nat :=
  s.particles.size * 80 + s.axonsOut.bytes + s.axonsIn.bytes + s.neurons.size * 64

theorem estimateBytes_eq (s : State F) : s.estimateBytes = UInt64.ofNat s.bytes := by
  have hlists : ∀ A : Adjacency, (A.toList.map fun e => 32 + UInt64.ofNat e.2.axons.length * 32).sum =
      UInt64.ofNat A.bytes := by
    intro A
    rw [Adjacency.bytes, OrdMap.sumVals]
    induction A.toList with
    | nil => rfl
    | cons e l ih =>
        rw [List.map_cons, List.sum_cons, List.map_cons, List.sum_cons, ih, UInt64.ofNat_add, UInt64.ofNat_add,
          UInt64.ofNat_mul]
        rfl
  rw [estimateBytes]
  dsimp only
  rw [hlists, hlists, bytes, UInt64.ofNat_add, UInt64.ofNat_add, UInt64.ofNat_add, UInt64.ofNat_mul,
    UInt64.ofNat_mul]
  rfl

/-- The estimate is the size, as long as it fits in 64 bits. -/
theorem toNat_estimateBytes (h : s.bytes < 2 ^ 64) : s.estimateBytes.toNat = s.bytes := by
  rw [estimateBytes_eq, UInt64.toNat_ofNat_of_lt' h]

/-- A removal changes nothing but the records, the edges and the adjacency indexes. -/
theorem removeAxon_rest (s : State F) (a : Particle) : s.removeAxon a =
    { s with
      particles := (s.removeAxon a).particles
      axonEdges := (s.removeAxon a).axonEdges
      axonsOut := (s.removeAxon a).axonsOut
      axonsIn := (s.removeAxon a).axonsIn } := by
  rw [removeAxon]
  dsimp only
  cases s.axonEdges[a]? with
  | none => rfl
  | some e => rfl

/-- The lists of a removed axon's two ends lose it. -/
theorem removeAxon_lists (s : State F) (a : Particle) :
    (s.removeAxon a).axonsOut = (s.axonEdges[a]?.map Prod.fst).elim s.axonsOut (fun p => s.axonsOut.removeAxon p a) ∧
      (s.removeAxon a).axonsIn = (s.axonEdges[a]?.map Prod.snd).elim s.axonsIn fun p => s.axonsIn.removeAxon p a := by
  rw [removeAxon]
  dsimp only
  cases s.axonEdges[a]? with
  | none => exact ⟨rfl, rfl⟩
  | some e => exact ⟨rfl, rfl⟩

theorem bytes_removeAxon_le (s : State F) (a : Particle) : (s.removeAxon a).bytes ≤ s.bytes := by
  have hparticles : (s.particles.erase a).size ≤ s.particles.size := Std.ExtTreeMap.size_erase_le
  rw [removeAxon]
  dsimp only
  cases s.axonEdges[a]? with
  | none =>
      rw [bytes, bytes]
      dsimp only
      omega
  | some e =>
      obtain ⟨source, target⟩ := e
      have hout := s.axonsOut.bytes_removeAxon_le source a
      have hinn := s.axonsIn.bytes_removeAxon_le target a
      rw [bytes, bytes]
      dsimp only
      omega

/-- There is a record, and its rank is below the floor. -/
def isUnprotected (s : State F) (floor : UInt64) (p : Particle) : Bool := s.particles[p]?.any fun r => r.piStar < floor

theorem isUnprotected_iff {floor : UInt64} {p : Particle} : s.isUnprotected floor p = true ↔ s.Unprotected floor p := by
  rw [isUnprotected, Option.any_eq_true, Unprotected]
  simp only [decide_eq_true_eq]

/-- The state without its unprotected records, and without these axons in the edges and in the lists of
their two ends. -/
def withoutUnprotected (s : State F) (floor : UInt64) : State F :=
  { s with
    particles := s.particles.filter fun _ r => floor ≤ r.piStar
    axonEdges := s.axonEdges.filter fun a _ => !s.isUnprotected floor a
    axonsOut := s.axonsOut.keep fun p a => !(s.isUnprotected floor a && s.axonEdges[a]?.map Prod.fst == some p)
    axonsIn := s.axonsIn.keep fun p a => !(s.isUnprotected floor a && s.axonEdges[a]?.map Prod.snd == some p) }

end State

namespace Bbg

variable {L : Set (Particle × Particle)} {b : Bbg F}

/-! ### Removal -/

/-- Some ids taken out of the records, the edges, the touched axons and both adjacency indexes. -/
def without (b : Bbg F) (removed : List Particle) : Bbg F :=
  { b with
    state := { b.state with
      particles := b.state.particles.filter fun p _ => p ∉ removed
      axonEdges := b.state.axonEdges.filter fun a _ => a ∉ removed
      axonsOut := b.state.axonsOut.without removed
      axonsIn := b.state.axonsIn.without removed }
    lastTouched := b.lastTouched.filter fun a _ => a ∉ removed }

def removeAll (b : Bbg F) (axons : List Particle) : Bbg F := axons.foldl removeAxon b

theorem getElem?_filter_notMem {V : Type} (m : OrdMap Particle V) (removed : List Particle) (p : Particle) :
    (m.filter fun p _ => decide (p ∉ removed))[p]? = if p ∈ removed then none else m[p]? := by
  rw [Std.ExtTreeMap.getElem?_filter']
  cases m[p]? with
  | none => simp
  | some v => by_cases h : p ∈ removed <;> simp [h]

theorem filter_notMem_nil {V : Type} (m : OrdMap Particle V) : (m.filter fun p _ => decide (p ∉ ([] : List Particle))) = m := by
  refine Std.ExtTreeMap.ext_getElem? fun p => ?_
  rw [getElem?_filter_notMem, if_neg List.not_mem_nil]

theorem filter_erase {V : Type} (m : OrdMap Particle V) (a : Particle) (removed : List Particle) :
    ((m.erase a).filter fun p _ => decide (p ∉ removed)) = m.filter fun p _ => decide (p ∉ a :: removed) := by
  refine Std.ExtTreeMap.ext_getElem? fun p => ?_
  rw [getElem?_filter_notMem, getElem?_filter_notMem, OrdMap.getElem?_erase]
  simp only [List.mem_cons, eq_comm (a := p)]
  split_ifs <;> tauto

theorem without_nil (b : Bbg F) : b.without [] = b := by
  have hlists : ∀ A : Adjacency, A.without [] = A := by
    intro A
    refine Adjacency.ext_axons fun p => ?_
    rw [Adjacency.axons_without]
    simp
  rw [without, filter_notMem_nil, filter_notMem_nil, filter_notMem_nil, hlists, hlists]

/-- An adjacency index whose lists have the axon under one particle only loses it everywhere. -/
theorem without_removeAxon {A : Adjacency} {p a : Particle} (honly : ∀ q, a ∈ A.axons q → q = p)
    (removed : List Particle) : (A.removeAxon p a).without removed = A.without (a :: removed) := by
  refine Adjacency.ext_axons fun q => ?_
  rw [Adjacency.axons_without, Adjacency.axons_without, Adjacency.removeAxon, Adjacency.axons_put]
  have hcons : ∀ l : List Particle, (l.filter fun x => decide (x ∉ a :: removed)) =
      (l.filter fun x => x != a).filter fun x => decide (x ∉ removed) := by
    intro l
    rw [List.filter_filter]
    refine List.filter_congr fun x _ => ?_
    by_cases hx : x = a <;> simp [hx]
  rw [hcons]
  split_ifs with hq
  · subst hq
    rw [eraseDups_of_nodup ((A.nodup_axons p).filter _)]
  · have hself : ((A.axons q).filter fun x => x != a) = A.axons q := by
      refine List.filter_eq_self.mpr fun x hx => ?_
      have : x ≠ a := by
        rintro rfl
        exact hq (honly q hx).symm
      simpa using this
    rw [hself]

/-- An index that does not list the axon is the same without it. -/
theorem without_unlisted {A : Adjacency} {a : Particle} (hnone : ∀ q, a ∉ A.axons q) (removed : List Particle) :
    A.without removed = A.without (a :: removed) := by
  refine Adjacency.ext_axons fun q => ?_
  rw [Adjacency.axons_without, Adjacency.axons_without]
  refine List.filter_congr fun x hx => ?_
  have hne : x ≠ a := by
    rintro rfl
    exact hnone q hx
  simp [hne]

theorem Consistent.without_removeAxon (h : Consistent L b) (a : Particle) (removed : List Particle) :
    (b.removeAxon a).without removed = b.without (a :: removed) := by
  rw [Bbg.removeAxon, State.removeAxon]
  dsimp only
  cases hedge : b.state.axonEdges[a]? with
  | none =>
      have hout : ∀ q, a ∉ b.state.axonsOut.axons q := by
        intro q hq
        obtain ⟨t, ht⟩ := (h.out a q).mp hq
        rw [hedge] at ht
        cases ht
      have hinn : ∀ q, a ∉ b.state.axonsIn.axons q := by
        intro q hq
        obtain ⟨f, hf⟩ := (h.inn a q).mp hq
        rw [hedge] at hf
        cases hf
      have hedges := filter_erase b.state.axonEdges a removed
      rw [OrdMap.erase_of_getElem? hedge] at hedges
      rw [without, without, filter_erase, filter_erase, hedges, without_unlisted hout, without_unlisted hinn]
  | some e =>
      obtain ⟨source, target⟩ := e
      have hout : ∀ q, a ∈ b.state.axonsOut.axons q → q = source := by
        intro q hq
        obtain ⟨t, ht⟩ := (h.out a q).mp hq
        rw [hedge] at ht
        exact (congrArg Prod.fst (Option.some_inj.mp ht)).symm
      have hinn : ∀ q, a ∈ b.state.axonsIn.axons q → q = target := by
        intro q hq
        obtain ⟨f, hf⟩ := (h.inn a q).mp hq
        rw [hedge] at hf
        exact (congrArg Prod.snd (Option.some_inj.mp hf)).symm
      dsimp only
      rw [without, without, filter_erase, filter_erase, filter_erase, Bbg.without_removeAxon hout,
        Bbg.without_removeAxon hinn]

/-- With consistent indexes, the removals take the ids out of everything. -/
theorem Consistent.removeAll (h : Consistent L b) (axons : List Particle) : b.removeAll axons = b.without axons := by
  induction axons generalizing b with
  | nil => exact (without_nil b).symm
  | cons a axons ih => exact (ih (h.removeAxon a)).trans (h.without_removeAxon a axons)

theorem removeAxon_maps (b : Bbg F) (a : Particle) : (b.removeAxon a).state.particles = b.state.particles.erase a ∧
    (b.removeAxon a).state.axonEdges = b.state.axonEdges.erase a ∧
    (b.removeAxon a).lastTouched = b.lastTouched.erase a := by
  rw [Bbg.removeAxon, State.removeAxon]
  dsimp only
  cases hedge : b.state.axonEdges[a]? with
  | none => exact ⟨rfl, (OrdMap.erase_of_getElem? hedge).symm, rfl⟩
  | some e => exact ⟨rfl, rfl, rfl⟩

/-- What is left of the three maps after the removals, whatever the adjacency indexes are. -/
theorem removeAll_maps (b : Bbg F) (axons : List Particle) :
    (b.removeAll axons).state.particles = (b.state.particles.filter fun p _ => p ∉ axons) ∧
      (b.removeAll axons).state.axonEdges = (b.state.axonEdges.filter fun p _ => p ∉ axons) ∧
      (b.removeAll axons).lastTouched = b.lastTouched.filter fun p _ => p ∉ axons := by
  induction axons generalizing b with
  | nil => exact ⟨(filter_notMem_nil _).symm, (filter_notMem_nil _).symm, (filter_notMem_nil _).symm⟩
  | cons a axons ih =>
      obtain ⟨hparticles, hedges, htouched⟩ := removeAxon_maps b a
      obtain ⟨ihparticles, ihedges, ihtouched⟩ := ih (b.removeAxon a)
      rw [hparticles, filter_erase] at ihparticles
      rw [hedges, filter_erase] at ihedges
      rw [htouched, filter_erase] at ihtouched
      exact ⟨ihparticles, ihedges, ihtouched⟩

/-- The removals change nothing but the records, the edges and the adjacency indexes. -/
theorem removeAll_rest (b : Bbg F) (axons : List Particle) : (b.removeAll axons).state =
    { b.state with
      particles := (b.removeAll axons).state.particles
      axonEdges := (b.removeAll axons).state.axonEdges
      axonsOut := (b.removeAll axons).state.axonsOut
      axonsIn := (b.removeAll axons).state.axonsIn } := by
  induction axons generalizing b with
  | nil => rfl
  | cons a axons ih =>
      refine (ih (b.removeAxon a)).trans ?_
      have hcons : b.removeAll (a :: axons) = (b.removeAxon a).removeAll axons := rfl
      rw [hcons]
      generalize (b.removeAxon a).removeAll axons = b'
      change { b.state.removeAxon a with
        particles := b'.state.particles
        axonEdges := b'.state.axonEdges
        axonsOut := b'.state.axonsOut
        axonsIn := b'.state.axonsIn } = _
      rw [State.removeAxon_rest]

/-- One removal from the list of an end, and then the later ones, which no more find an edge of the axon. -/
theorem filter_removeEnd (A : Adjacency) (source : Particle → Option Particle) (a : Particle)
    (removed : List Particle) (p : Particle) :
    (((source a).elim A fun q => A.removeAxon q a).axons p).filter (fun x =>
        !(decide (x ∈ removed) && (if a = x then none else source x) == some p)) =
      (A.axons p).filter fun x => !(decide (x ∈ a :: removed) && source x == some p) := by
  have hlist : ((source a).elim A fun q => A.removeAxon q a).axons p =
      (A.axons p).filter fun x => !(x == a && source a == some p) := by
    cases hsource : source a with
    | none => simp
    | some q =>
        rw [Option.elim_some, Adjacency.removeAxon, Adjacency.axons_put,
          eraseDups_of_nodup ((A.nodup_axons q).filter _)]
        split_ifs with hq
        · subst hq
          simp [bne]
        · exact (List.filter_eq_self.mpr fun x _ => by simp [hq]).symm
  rw [hlist, List.filter_filter]
  refine List.filter_congr fun x _ => ?_
  by_cases hx : x = a
  · subst hx
    simp
  · simp [hx, Ne.symm hx]

theorem removeAll_lists (b : Bbg F) (axons : List Particle) (p : Particle) :
    (b.removeAll axons).state.axonsOut.axons p = (b.state.axonsOut.axons p).filter (fun a =>
        !(decide (a ∈ axons) && b.state.axonEdges[a]?.map Prod.fst == some p)) ∧
      (b.removeAll axons).state.axonsIn.axons p = (b.state.axonsIn.axons p).filter fun a =>
        !(decide (a ∈ axons) && b.state.axonEdges[a]?.map Prod.snd == some p) := by
  induction axons generalizing b with
  | nil => simp [removeAll]
  | cons a axons ih =>
      obtain ⟨hout, hinn⟩ := ih (b.removeAxon a)
      rw [← filter_removeEnd, ← filter_removeEnd]
      have hedges : ∀ x, (b.removeAxon a).state.axonEdges[x]? = if a = x then none else b.state.axonEdges[x]? := by
        intro x
        rw [(removeAxon_maps b a).2.1, OrdMap.getElem?_erase]
      simp only [hedges, apply_ite (Option.map _), Option.map_none] at hout hinn
      obtain ⟨hlist, hlist'⟩ := b.state.removeAxon_lists a
      exact ⟨hout.trans (by rw [← hlist]; rfl), hinn.trans (by rw [← hlist']; rfl)⟩

/-! ### The loop -/

/-- The removals do not depend on the configuration. -/
theorem removeAll_configured (b : Bbg F) (config : PruneConfig) (axons : List Particle) :
    removeAll { b with pruneConfig := config } axons = { b.removeAll axons with pruneConfig := config } := by
  induction axons generalizing b with
  | nil => rfl
  | cons a axons ih => exact ih (b.removeAxon a)

theorem removeAll_pruneConfig (b : Bbg F) (axons : List Particle) :
    { b.removeAll axons with pruneConfig := b.pruneConfig } = b.removeAll axons :=
  (removeAll_configured b b.pruneConfig axons).symm

theorem pruneLoop_false (b : Bbg F) (axons : List Particle) : pruneLoop false b axons = b.removeAll axons := by
  induction axons generalizing b with
  | nil => rfl
  | cons a axons ih => exact ih (b.removeAxon a)

/-- Over budget, the loop removes the shortest prefix that brings the estimate within the limit, or all. -/
theorem exists_pruneLoop_true (b : Bbg F) (axons : List Particle) : ∃ k ≤ axons.length,
    pruneLoop true b axons = b.removeAll (axons.take k) ∧
      (∀ j < k, b.pruneConfig.maxBytes < (b.removeAll (axons.take j)).state.estimateBytes) ∧
      (k < axons.length → (b.removeAll (axons.take k)).state.estimateBytes ≤ b.pruneConfig.maxBytes) := by
  induction axons generalizing b with
  | nil => exact ⟨0, le_refl _, rfl, nofun, nofun⟩
  | cons a axons ih =>
      rw [pruneLoop, Bool.true_and]
      split_ifs with hfits
      · exact ⟨0, Nat.zero_le _, rfl, nofun, fun _ => of_decide_eq_true hfits⟩
      · have hover : b.pruneConfig.maxBytes < b.state.estimateBytes :=
          UInt64.not_le.mp fun hle => hfits (decide_eq_true hle)
        obtain ⟨k, hk, hloop, hbefore, hstop⟩ := ih (b.removeAxon a)
        refine ⟨k + 1, Nat.succ_le_succ hk, hloop, fun j hj => ?_, fun hlt => hstop (Nat.lt_of_succ_lt_succ hlt)⟩
        cases j with
        | zero => exact hover
        | succ j => exact hbefore j (Nat.lt_of_succ_lt_succ hj)

/-! ### One cycle -/

/-- The unprotected records of a configuration in the order in which gravity removes them. -/
def gravity (b : Bbg F) (config : PruneConfig) : List Particle :=
  b.state.gravityOrder (b.state.rankFloor config.rankFloorPct)

/-- The stale unprotected axons of a configuration in the order of their removal. -/
def stale (b : Bbg F) (config : PruneConfig) (epoch : UInt64) : List Particle :=
  b.state.staleOrder b.lastTouched (b.state.rankFloor config.rankFloorPct) config.halfLifeEpochs epoch

/-- Within the budget, all stale unprotected axons are removed. -/
theorem pruneWith_of_le {config : PruneConfig} (hle : b.state.estimateBytes ≤ config.maxBytes) (epoch : UInt64) :
    b.pruneWith config epoch = b.removeAll (b.stale config epoch) := by
  have hunder : ¬config.maxBytes < b.state.estimateBytes := UInt64.not_lt.mpr hle
  have hloop : prune { b with pruneConfig := config } epoch =
      pruneLoop false { b with pruneConfig := config } (b.stale config epoch) := by
    rw [prune]
    dsimp only
    rw [State.candidates_eq, if_neg hunder, decide_eq_false hunder]
    rfl
  rw [pruneWith, hloop, pruneLoop_false, removeAll_configured]
  exact removeAll_pruneConfig b _

/-- Over the budget, unprotected records are removed, lightest first, until the estimate is within it. -/
theorem exists_pruneWith {config : PruneConfig} (hover : config.maxBytes < b.state.estimateBytes) (epoch : UInt64) :
    ∃ k ≤ (b.gravity config).length, b.pruneWith config epoch = b.removeAll ((b.gravity config).take k) ∧
      (∀ j < k, config.maxBytes < (b.removeAll ((b.gravity config).take j)).state.estimateBytes) ∧
      (k < (b.gravity config).length →
        (b.removeAll ((b.gravity config).take k)).state.estimateBytes ≤ config.maxBytes) := by
  have hloop : prune { b with pruneConfig := config } epoch =
      pruneLoop true { b with pruneConfig := config } (b.gravity config) := by
    rw [prune]
    dsimp only
    rw [State.candidates_eq, if_pos hover, decide_eq_true hover]
    rfl
  obtain ⟨k, hk, hremoved, hbefore, hstop⟩ := exists_pruneLoop_true { b with pruneConfig := config } (b.gravity config)
  refine ⟨k, hk, ?_, fun j hj => ?_, fun hlt => ?_⟩
  · rw [pruneWith, hloop, hremoved, removeAll_configured]
    exact removeAll_pruneConfig b _
  · have hj := hbefore j hj
    rwa [removeAll_configured] at hj
  · have hk := hstop hlt
    rwa [removeAll_configured] at hk

/-- The ids that a cycle removes have no record of the floor's rank or above. -/
theorem exists_removed (b : Bbg F) (config : PruneConfig) (epoch : UInt64) :
    ∃ removed, b.pruneWith config epoch = b.removeAll removed ∧ ∀ p ∈ removed, ∀ r : ParticleRecord,
      b.state.particles[p]? = some r → r.piStar < b.state.rankFloor config.rankFloorPct := by
  by_cases hover : config.maxBytes < b.state.estimateBytes
  · obtain ⟨k, -, hremoved, -, -⟩ := exists_pruneWith hover epoch
    refine ⟨_, hremoved, fun p hp r hget => ?_⟩
    obtain ⟨r', hget', hrank⟩ := State.mem_gravityOrder.mp (List.mem_of_mem_take hp)
    obtain rfl := Option.some_inj.mp (hget.symm.trans hget')
    exact hrank
  · refine ⟨_, pruneWith_of_le (UInt64.not_lt.mp hover) epoch, fun p hp r hget => ?_⟩
    obtain ⟨last, -, hrank, -⟩ := State.mem_staleOrder.mp hp
    rwa [hget] at hrank

/-- Records of the floor's rank or above survive the cycle. -/
theorem pruneWith_protects {config : PruneConfig} {epoch : UInt64} {p : Particle} {r : ParticleRecord}
    (hget : b.state.particles[p]? = some r) (hrank : b.state.rankFloor config.rankFloorPct ≤ r.piStar) :
    (b.pruneWith config epoch).state.particles[p]? = some r := by
  obtain ⟨removed, heq, hbelow⟩ := exists_removed b config epoch
  have hkept : p ∉ removed := fun hp => UInt64.not_lt.mpr hrank (hbelow p hp r hget)
  rw [heq, (removeAll_maps b removed).1, getElem?_filter_notMem, if_neg hkept, hget]

/-- At least the protected share of the records survives. -/
theorem share_survives {config : PruneConfig} (hpos : config.rankFloorPct ≠ 0) (hle : config.rankFloorPct.toNat ≤ 100)
    (epoch : UInt64) : (b.state.particles.size * config.rankFloorPct.toNat + 99) / 100 ≤
      (b.pruneWith config epoch).state.particles.size := by
  have hcount := State.le_countP_rankFloor (s := b.state) _ hpos hle
  rw [List.countP_eq_length_filter] at hcount
  rw [← Std.ExtTreeMap.length_toList (t := (b.pruneWith config epoch).state.particles)]
  refine hcount.trans (List.Subperm.length_le ?_)
  refine List.subperm_of_subset (b.state.particles.nodup_keys.of_map.filter _) fun e he => ?_
  obtain ⟨hmem, hrank⟩ := List.mem_filter.mp he
  exact (OrdMap.mem_toList _).mpr (pruneWith_protects (b.state.particles.mem_toList.mp hmem) (of_decide_eq_true hrank))

/-- One cycle on consistent indexes. Protected records survive, and with them the protected share; within
the budget exactly the stale unprotected axons go, over it the shortest sufficient prefix of the unprotected
records in the order of weight and id, or all of them; and what goes, goes from everything. -/
theorem prune_exact (b : Bbg F) (h : Consistent L b) (config : PruneConfig) (hpct : config.rankFloorPct.toNat ≤ 100)
    (epoch : UInt64) :
    (∀ (p : Particle) (r : ParticleRecord), b.state.particles[p]? = some r →
      b.state.rankFloor config.rankFloorPct ≤ r.piStar → (b.pruneWith config epoch).state.particles[p]? = some r) ∧
    (1 ≤ config.rankFloorPct.toNat → ⌈(b.state.particles.size * config.rankFloorPct.toNat : ℚ) / 100⌉₊ ≤
      (b.pruneWith config epoch).state.particles.size) ∧
    (b.state.estimateBytes ≤ config.maxBytes → ∃ removed, b.pruneWith config epoch = b.without removed ∧
      ∀ a, a ∈ removed ↔ b.state.Stale b.lastTouched (b.state.rankFloor config.rankFloorPct) config.halfLifeEpochs epoch a) ∧
    (config.maxBytes < b.state.estimateBytes → ∃ order, ∃ k ≤ order.length,
      b.state.Lightest (b.state.rankFloor config.rankFloorPct) order ∧ b.pruneWith config epoch = b.without (order.take k) ∧
      (∀ j < k, config.maxBytes < (b.without (order.take j)).state.estimateBytes) ∧
      (k < order.length → (b.without (order.take k)).state.estimateBytes ≤ config.maxBytes)) := by
  refine ⟨fun p r hget hrank => pruneWith_protects hget hrank, fun hone => ?_, fun hle => ?_, fun hover => ?_⟩
  · have hpos : config.rankFloorPct ≠ 0 := by
      intro hzero
      rw [hzero] at hone
      exact absurd hone (by decide)
    have hshare := share_survives (b := b) hpos hpct epoch
    have hnat : b.state.particles.size * config.rankFloorPct.toNat ≤
        (b.pruneWith config epoch).state.particles.size * 100 := by
      omega
    rw [Nat.ceil_le, div_le_iff₀ (by norm_num)]
    exact_mod_cast hnat
  · refine ⟨b.stale config epoch, ?_, fun a => State.mem_staleOrder⟩
    rw [pruneWith_of_le hle, h.removeAll]
  · obtain ⟨k, hk, hremoved, hbefore, hstop⟩ := exists_pruneWith hover epoch
    simp only [h.removeAll] at hremoved hbefore hstop
    exact ⟨b.gravity config, k, hk, State.lightest_gravityOrder _ _, hremoved, hbefore, hstop⟩

/-- Without protection, an axon that was never linked again is stale after the half-life. -/
theorem prune_exact_oneLink : ∃ removed, ((new : Bbg Rolling).accept oneLink).pruneWith ⟨1000, 0, 10⟩ 100 =
      ((new : Bbg Rolling).accept oneLink).without removed ∧
    axonId Rolling (Vector.replicate 32 2) (Vector.replicate 32 3) ∈ removed := by
  have hconsistent : Consistent (linkEnds [oneLink]) ((new : Bbg Rolling).accept oneLink) := by
    refine (consistent_new _).accept (fun e he e' he' _ => ?_) fun link hlink => ⟨oneLink, List.mem_singleton_self _, link, hlink, rfl⟩
    rw [linkEnds_oneLink e he, linkEnds_oneLink e' he']
  obtain ⟨-, -, hwithin, -⟩ := prune_exact _ hconsistent ⟨1000, 0, 10⟩ (by decide) 100
  obtain ⟨removed, heq, hmem⟩ := hwithin (by decide +kernel)
  exact ⟨removed, heq, (hmem _).mpr ⟨0, by decide +kernel, by decide +kernel, by decide⟩⟩

/-! ### Gravity -/

/-- A cycle over the budget ends within it, or with every axon of the edge map protected by its record. -/
def RelievesPressure (b : Bbg F) (config : PruneConfig) (epoch : UInt64) : Prop :=
  config.maxBytes < b.state.estimateBytes →
    (b.pruneWith config epoch).state.estimateBytes ≤ config.maxBytes ∨
      ∀ (a : Particle) (e : Particle × Particle), (b.pruneWith config epoch).state.axonEdges[a]? = some e →
        ∃ r : ParticleRecord, (b.pruneWith config epoch).state.particles[a]? = some r ∧
          b.state.rankFloor config.rankFloorPct ≤ r.piStar

/-- The condition on the state before the cycle: it is within the budget, or it would be without its
unprotected records, or every axon of the edge map has a record. -/
def Relievable (b : Bbg F) (config : PruneConfig) : Prop :=
  b.state.estimateBytes ≤ config.maxBytes ∨
    (b.state.withoutUnprotected (b.state.rankFloor config.rankFloorPct)).estimateBytes ≤ config.maxBytes ∨
    ∀ (a : Particle) (e : Particle × Particle), b.state.axonEdges[a]? = some e →
      ∃ r : ParticleRecord, b.state.particles[a]? = some r

/-- When gravity removes all it may, the rest is the state without its unprotected records. -/
theorem removeAll_gravity (b : Bbg F) (config : PruneConfig) : (b.removeAll (b.gravity config)).state =
    b.state.withoutUnprotected (b.state.rankFloor config.rankFloorPct) := by
  have hmem : ∀ a, decide (a ∈ b.gravity config) = b.state.isUnprotected (b.state.rankFloor config.rankFloorPct) a := by
    intro a
    rw [Bool.eq_iff_iff, decide_eq_true_eq, State.isUnprotected_iff]
    exact State.mem_gravityOrder
  obtain ⟨hparticles, hedges, -⟩ := removeAll_maps b (b.gravity config)
  have hrecords : (b.state.particles.filter fun p _ => decide (p ∉ b.gravity config)) =
      b.state.particles.filter fun _ r => decide (b.state.rankFloor config.rankFloorPct ≤ r.piStar) := by
    refine Std.ExtTreeMap.ext_getElem? fun p => ?_
    rw [Std.ExtTreeMap.getElem?_filter', Std.ExtTreeMap.getElem?_filter']
    cases hget : b.state.particles[p]? with
    | none => rfl
    | some r =>
        rw [Option.filter_some, Option.filter_some, decide_not, hmem, State.isUnprotected, hget, Option.any_some,
          ← decide_not]
        simp only [UInt64.not_lt]
  have hout : (b.removeAll (b.gravity config)).state.axonsOut = b.state.axonsOut.keep fun p a =>
      !(decide (a ∈ b.gravity config) && b.state.axonEdges[a]?.map Prod.fst == some p) :=
    Adjacency.ext_axons fun p => by rw [(removeAll_lists b _ p).1, Adjacency.axons_keep]
  have hinn : (b.removeAll (b.gravity config)).state.axonsIn = b.state.axonsIn.keep fun p a =>
      !(decide (a ∈ b.gravity config) && b.state.axonEdges[a]?.map Prod.snd == some p) :=
    Adjacency.ext_axons fun p => by rw [(removeAll_lists b _ p).2, Adjacency.axons_keep]
  rw [removeAll_rest, hparticles, hedges, hout, hinn, hrecords, State.withoutUnprotected]
  simp only [decide_not, hmem]

/-- What is left after gravity has removed all it may is protected if every axon has a record. -/
theorem withoutUnprotected_protected (s : State F) (floor : UInt64) :
    (∀ (a : Particle) (e : Particle × Particle), (s.withoutUnprotected floor).axonEdges[a]? = some e →
      ∃ r : ParticleRecord, (s.withoutUnprotected floor).particles[a]? = some r ∧ floor ≤ r.piStar) ↔
    ∀ (a : Particle) (e : Particle × Particle), s.axonEdges[a]? = some e →
      ∃ r : ParticleRecord, s.particles[a]? = some r := by
  simp only [State.withoutUnprotected, Std.ExtTreeMap.getElem?_filter']
  constructor
  · intro hleft a e he
    by_cases ha : s.isUnprotected floor a
    · obtain ⟨r, hget, -⟩ := State.isUnprotected_iff.mp ha
      exact ⟨r, hget⟩
    · obtain ⟨r, hget, -⟩ := hleft a e (by rw [he]; simp [ha])
      exact ⟨r, (Option.filter_eq_some_iff.mp hget).1⟩
  · intro hrecords a e he
    obtain ⟨hedge, hkept⟩ := Option.filter_eq_some_iff.mp he
    obtain ⟨r, hget⟩ := hrecords a e hedge
    have hrank : floor ≤ r.piStar := UInt64.not_lt.mp fun hlt => by
      rw [State.isUnprotected_iff.mpr ⟨r, hget, hlt⟩] at hkept
      cases hkept
    exact ⟨r, Option.filter_eq_some_iff.mpr ⟨hget, decide_eq_true hrank⟩, hrank⟩

theorem bytes_removeAll_le (b : Bbg F) (axons : List Particle) : (b.removeAll axons).state.bytes ≤ b.state.bytes := by
  induction axons generalizing b with
  | nil => exact le_refl _
  | cons a axons ih => exact (ih (b.removeAxon a)).trans (b.state.bytes_removeAxon_le a)

/-- The more gravity removes, the smaller the state. -/
theorem bytes_removeAll_take (b : Bbg F) (axons : List Particle) (k : Nat) :
    (b.removeAll axons).state.bytes ≤ (b.removeAll (axons.take k)).state.bytes := by
  have hall : b.removeAll axons = (b.removeAll (axons.take k)).removeAll (axons.drop k) := by
    rw [removeAll, removeAll, removeAll, ← List.foldl_append, List.take_append_drop]
  rw [hall]
  exact bytes_removeAll_le _ _

/-- Under the condition, a cycle that did not bring the estimate within the budget has removed all it may. -/
theorem relievesPressure_of_relievable {config : PruneConfig} (h : b.Relievable config) (epoch : UInt64) :
    b.RelievesPressure config epoch := by
  intro hover
  obtain ⟨k, hk, hremoved, -, hstop⟩ := exists_pruneWith hover epoch
  rw [hremoved]
  by_cases hfits : (b.removeAll ((b.gravity config).take k)).state.estimateBytes ≤ config.maxBytes
  · exact .inl hfits
  · obtain rfl : k = (b.gravity config).length := le_antisymm hk (not_lt.mp fun hlt => hfits (hstop hlt))
    rw [List.take_length, removeAll_gravity] at hfits
    rw [List.take_length, removeAll_gravity]
    rcases h with hwithin | hfits' | hrecords
    · exact absurd hover (UInt64.not_lt.mpr hwithin)
    · exact absurd hfits' hfits
    · exact .inr ((withoutUnprotected_protected b.state _).mpr hrecords)

/-- When 64 bits hold the size, a cycle that stops within the budget would be within it too if it went on. -/
theorem relievable_of_relievesPressure {config : PruneConfig} {epoch : UInt64} (hsize : b.state.bytes < 2 ^ 64)
    (h : b.RelievesPressure config epoch) : b.Relievable config := by
  by_cases hover : config.maxBytes < b.state.estimateBytes
  · obtain ⟨k, hk, hremoved, -, hstop⟩ := exists_pruneWith hover epoch
    have hall : (b.removeAll ((b.gravity config).take k)).state.estimateBytes ≤ config.maxBytes →
        (b.state.withoutUnprotected (b.state.rankFloor config.rankFloorPct)).estimateBytes ≤ config.maxBytes := by
      intro hfits
      have hsmaller := bytes_removeAll_take b (b.gravity config) k
      have hsize' := (bytes_removeAll_le b ((b.gravity config).take k)).trans_lt hsize
      rw [removeAll_gravity] at hsmaller
      rw [UInt64.le_iff_toNat_le, State.toNat_estimateBytes hsize'] at hfits
      rw [UInt64.le_iff_toNat_le, State.toNat_estimateBytes (hsmaller.trans_lt hsize')]
      exact hsmaller.trans hfits
    rcases h hover with hfits | hprotected
    · rw [hremoved] at hfits
      exact .inr (.inl (hall hfits))
    · rcases Nat.lt_or_ge k (b.gravity config).length with hlt | hge
      · exact .inr (.inl (hall (hstop hlt)))
      · rw [hremoved, List.take_of_length_le hge, removeAll_gravity] at hprotected
        exact .inr (.inr ((withoutUnprotected_protected b.state _).mp hprotected))
  · exact .inl (UInt64.not_lt.mp hover)

/-- Gravity removes records, and with them their axons. Over the budget it does what it is for when the state
fits without its unprotected records or every axon of the edge map has a record, and, where 64 bits hold the
size, exactly then. -/
theorem relievesPressure_iff (b : Bbg F) (config : PruneConfig) (epoch : UInt64) :
    (b.state.bytes < 2 ^ 64 → (b.RelievesPressure config epoch ↔ b.Relievable config)) ∧
      (b.Relievable config → b.RelievesPressure config epoch) :=
  ⟨fun hsize => ⟨relievable_of_relievesPressure hsize, fun h => relievesPressure_of_relievable h epoch⟩,
    fun h => relievesPressure_of_relievable h epoch⟩

/-- One link with conviction. -/
def stakedLink : Signal :=
  ⟨Vector.replicate 32 1, [⟨Vector.replicate 32 2, Vector.replicate 32 5, Vector.replicate 32 4, 9, 0⟩], [], 0⟩

/-- A link with conviction has a record, so the condition holds for it at a budget of zero. -/
theorem relievesPressure_iff_staked : ∃ answers b,
    Refine.run step (new : Bbg Rolling) [.insert stakedLink] = some (answers, b) ∧ 0 < b.state.estimateBytes ∧
      b.RelievesPressure ⟨0, 20, 1000⟩ 0 := by
  have hfacts : (Refine.run step (new : Bbg Rolling) [.insert stakedLink]).map (fun r =>
      (r.2.state.bytes, r.2.state.estimateBytes,
        r.2.state.axonEdges.toList.all fun e => r.2.state.particles[e.1]?.isSome)) = some (288, 288, true) := by
    decide +kernel
  obtain ⟨⟨answers, b⟩, hrun, hb⟩ := Option.map_eq_some_iff.mp hfacts
  obtain ⟨hbytes, hrest⟩ := Prod.mk.inj hb
  obtain ⟨hestimate, hrecords⟩ := Prod.mk.inj hrest
  dsimp only at hbytes hestimate hrecords
  have hrelievable : b.Relievable ⟨0, 20, 1000⟩ := by
    refine .inr (.inr fun a e he => ?_)
    exact Option.isSome_iff_exists.mp (List.all_eq_true.mp hrecords (a, e) ((OrdMap.mem_toList _).mpr he))
  refine ⟨answers, b, hrun, ?_, ?_⟩
  · rw [hestimate]
    decide
  · exact ((relievesPressure_iff b ⟨0, 20, 1000⟩ 0).1 (by rw [hbytes]; decide)).mpr hrelievable

/-- Over the budget without an unprotected record, the cycle removes nothing. -/
theorem pruneWith_of_gravity_nil {config : PruneConfig} (hover : config.maxBytes < b.state.estimateBytes)
    (hnone : b.gravity config = []) (epoch : UInt64) : b.pruneWith config epoch = b := by
  obtain ⟨k, -, hremoved, -, -⟩ := exists_pruneWith hover epoch
  rw [hremoved, hnone, List.take_nil]
  rfl

/-- A floor of zero protects everything. -/
theorem pruneWith_of_floor_zero {config : PruneConfig} (hfloor : b.state.rankFloor config.rankFloorPct = 0)
    (epoch : UInt64) : b.pruneWith config epoch = b := by
  by_cases hover : config.maxBytes < b.state.estimateBytes
  · refine pruneWith_of_gravity_nil hover (List.eq_nil_iff_forall_not_mem.mpr fun p hp => ?_) epoch
    obtain ⟨r, -, hrank⟩ := State.mem_gravityOrder.mp hp
    rw [hfloor] at hrank
    exact UInt64.not_lt_zero hrank
  · have hnone : b.stale config epoch = [] := by
      refine List.eq_nil_iff_forall_not_mem.mpr fun a ha => ?_
      obtain ⟨last, -, hrank, -⟩ := State.mem_staleOrder.mp ha
      rw [hfloor] at hrank
      exact UInt64.not_lt_zero hrank
    rw [pruneWith_of_le (UInt64.not_lt.mp hover), hnone]
    rfl

/-- Pruning with the own configuration. -/
theorem pruneWith_self (b : Bbg F) (epoch : UInt64) : b.pruneWith b.pruneConfig epoch = b.prune epoch := by
  have hconfig : (b.prune epoch).pruneConfig = b.pruneConfig :=
    prune_induction (I := fun b' => b'.pruneConfig = b.pruneConfig) (fun _ _ _ hI => hI) rfl
  change { b.prune epoch with pruneConfig := b.pruneConfig } = _
  rw [← hconfig]

/-- A link without conviction has an edge and no record: gravity does not find it. -/
theorem oneLink_not_relievesPressure : ∃ answers b, Refine.run step (new : Bbg Rolling) [.insert oneLink] = some (answers, b) ∧
    ¬b.RelievesPressure ⟨0, 20, 1000⟩ 0 := by
  have hfacts : (Refine.run step (new : Bbg Rolling) [.insert oneLink]).map (fun r =>
      (r.2.state.estimateBytes, r.2.state.particles.size,
        r.2.state.axonEdges[axonId Rolling (Vector.replicate 32 2) (Vector.replicate 32 3)]?)) =
      some (128, 0, some (Vector.replicate 32 2, Vector.replicate 32 3)) := by
    decide +kernel
  obtain ⟨⟨answers, b⟩, hrun, hb⟩ := Option.map_eq_some_iff.mp hfacts
  obtain ⟨hestimate, hrest⟩ := Prod.mk.inj hb
  obtain ⟨hsize, hedge⟩ := Prod.mk.inj hrest
  dsimp only at hestimate hsize hedge
  have hempty : ∀ (p : Particle) (r : ParticleRecord), b.state.particles[p]? ≠ some r := by
    intro p r hget
    have hmem := b.state.particles.mem_toList.mpr hget
    rw [List.length_eq_zero_iff.mp (Std.ExtTreeMap.length_toList.trans hsize)] at hmem
    cases hmem
  have hover : (0 : UInt64) < b.state.estimateBytes := by
    rw [hestimate]
    decide
  have hgravity : b.gravity ⟨0, 20, 1000⟩ = [] := by
    refine List.eq_nil_iff_forall_not_mem.mpr fun p hp => ?_
    obtain ⟨r, hget, -⟩ := State.mem_gravityOrder.mp hp
    exact hempty p r hget
  refine ⟨answers, b, hrun, fun hrelieves => ?_⟩
  rw [RelievesPressure, pruneWith_of_gravity_nil hover hgravity] at hrelieves
  rcases hrelieves hover with hfits | hprotected
  · exact UInt64.not_lt.mpr hfits hover
  · obtain ⟨r, hget, -⟩ := hprotected _ _ hedge
    exact hempty _ r hget

/-! ### Full protection -/

/-- Nothing is removed from the records, the edges, the adjacency indexes and the touched axons. -/
def PruneKeepsAll (b : Bbg F) (config : PruneConfig) (epoch : UInt64) : Prop :=
  (b.pruneWith config epoch).state.particles = b.state.particles ∧
    (b.pruneWith config epoch).state.axonEdges = b.state.axonEdges ∧
    (b.pruneWith config epoch).state.axonsOut = b.state.axonsOut ∧
    (b.pruneWith config epoch).state.axonsIn = b.state.axonsIn ∧
    (b.pruneWith config epoch).lastTouched = b.lastTouched

/-- Removals of touched axons are seen, so a cycle within the budget keeps all only when nothing is stale. -/
theorem pruneKeepsAll_of_le {config : PruneConfig} (hle : b.state.estimateBytes ≤ config.maxBytes) (epoch : UInt64) :
    b.PruneKeepsAll config epoch ↔ b.stale config epoch = [] := by
  rw [PruneKeepsAll, pruneWith_of_le hle]
  constructor
  · rintro ⟨-, -, -, -, htouched⟩
    refine List.eq_nil_iff_forall_not_mem.mpr fun a ha => ?_
    obtain ⟨last, hget, -, -⟩ := State.mem_staleOrder.mp ha
    rw [← htouched, (removeAll_maps b _).2.2, getElem?_filter_notMem, if_pos ha] at hget
    cases hget
  · intro hnil
    rw [hnil]
    exact ⟨rfl, rfl, rfl, rfl, rfl⟩

/-- The floor of the whole share is the least rank of a record. -/
theorem rankFloor_full_eq_zero {s : State F} : s.rankFloor 100 = 0 ↔
    s.particles.size = 0 ∨ ∃ (p : Particle) (r : ParticleRecord), s.particles[p]? = some r ∧ r.piStar = 0 := by
  rcases State.rankFloor_mem (s := s) 100 (by decide) with ⟨hsize, hzero⟩ | ⟨p, r, hget, hrank⟩
  · exact iff_of_true hzero (.inl hsize)
  · constructor
    · intro hzero
      exact .inr ⟨p, r, hget, hrank.trans hzero⟩
    · rintro (hsize | ⟨q, r', hget', hzero⟩)
      · have hmem := s.particles.mem_toList.mpr hget
        rw [List.length_eq_zero_iff.mp (Std.ExtTreeMap.length_toList.trans hsize)] at hmem
        cases hmem
      · have hle := State.rankFloor_full hget'
        rw [hzero] at hle
        exact UInt64.le_antisymm hle UInt64.zero_le

/-- With the whole share protected nothing is removed over the budget; within it, axons without a record have
rank zero, and the stale ones stay only when the least rank of a record is zero too. -/
theorem pruneKeepsAll_full (b : Bbg F) (maxBytes halfLife epoch : UInt64) :
    b.PruneKeepsAll ⟨maxBytes, 100, halfLife⟩ epoch ↔ maxBytes < b.state.estimateBytes ∨
      (b.state.particles.size = 0 ∨ ∃ (p : Particle) (r : ParticleRecord), b.state.particles[p]? = some r ∧ r.piStar = 0) ∨
      ∀ (a : Particle) (last : UInt64), b.lastTouched[a]? = some last → halfLife.toNat < epoch.toNat - last.toNat →
        ∃ r : ParticleRecord, b.state.particles[a]? = some r := by
  rw [← rankFloor_full_eq_zero]
  by_cases hover : maxBytes < b.state.estimateBytes
  · refine iff_of_true ?_ (.inl hover)
    have hnone : b.gravity ⟨maxBytes, 100, halfLife⟩ = [] := by
      refine List.eq_nil_iff_forall_not_mem.mpr fun p hp => ?_
      obtain ⟨r, hget, hrank⟩ := State.mem_gravityOrder.mp hp
      exact UInt64.not_lt.mpr (State.rankFloor_full hget) hrank
    rw [PruneKeepsAll, pruneWith_of_gravity_nil hover hnone]
    exact ⟨rfl, rfl, rfl, rfl, rfl⟩
  · have hle : b.state.estimateBytes ≤ (⟨maxBytes, 100, halfLife⟩ : PruneConfig).maxBytes := UInt64.not_lt.mp hover
    rw [or_iff_right hover, pruneKeepsAll_of_le hle, List.eq_nil_iff_forall_not_mem]
    constructor
    · intro hnone
      refine or_iff_not_imp_left.mpr fun hfloor a last hget hstale => ?_
      cases hrecord : b.state.particles[a]? with
      | some r => exact ⟨r, rfl⟩
      | none =>
          refine absurd (State.mem_staleOrder.mpr ⟨last, hget, ?_, hstale⟩) (hnone a)
          rw [hrecord]
          exact UInt64.pos_iff_ne_zero.mpr hfloor
    · rintro hkept a ha
      obtain ⟨last, hget, hrank, hstale⟩ := State.mem_staleOrder.mp ha
      rcases hkept with hfloor | hrecords
      · rw [hfloor] at hrank
        exact UInt64.not_lt_zero hrank
      · obtain ⟨r, hrecord⟩ := hrecords a last hget hstale
        rw [hrecord] at hrank
        exact UInt64.not_lt.mpr (State.rankFloor_full hrecord) hrank

/-- The ranks of the records, set from outside. -/
def withRanks (b : Bbg F) (rank : Particle → UInt64) : Bbg F :=
  b.onState fun s => { s with particles := s.particles.map fun p r => { r with piStar := rank p } }

/-- The records have rank one, the axon without a record counts as rank zero, and its touch is removed. -/
theorem twoLinks_not_keepsAll : ∃ answers b, Refine.run step (new : Bbg Rolling) [.insert twoLinks] = some (answers, b) ∧
    ¬(b.withRanks fun _ => 1).PruneKeepsAll ⟨1000, 100, 10⟩ 100 := by
  have hfacts : (Refine.run step (new : Bbg Rolling) [.insert twoLinks]).map (fun r =>
      ((r.2.withRanks fun _ => 1).state.estimateBytes, (r.2.withRanks fun _ => 1).state.particles.size,
        r.2.lastTouched[axonId Rolling (Vector.replicate 32 2) (Vector.replicate 32 3)]?,
        r.2.state.particles.contains (axonId Rolling (Vector.replicate 32 2) (Vector.replicate 32 3)))) =
      some (384, 2, some 0, false) := by
    decide +kernel
  obtain ⟨⟨answers, b⟩, hrun, hb⟩ := Option.map_eq_some_iff.mp hfacts
  obtain ⟨hestimate, hrest⟩ := Prod.mk.inj hb
  obtain ⟨hsize, hrest⟩ := Prod.mk.inj hrest
  obtain ⟨htouched, hrecord⟩ := Prod.mk.inj hrest
  dsimp only at hestimate hsize htouched hrecord
  refine ⟨answers, b, hrun, fun hkeeps => ?_⟩
  have hranks : ∀ p : Particle, (b.withRanks fun _ => 1).state.particles[p]? =
      b.state.particles[p]?.map fun r => { r with piStar := 1 } := fun p => Std.ExtTreeMap.getElem?_map
  have hfloor : (b.withRanks fun _ => 1).state.rankFloor 100 ≠ 0 := by
    rw [Ne, rankFloor_full_eq_zero, hsize]
    rintro (hzero | ⟨p, r, hget, hzero⟩)
    · cases hzero
    · rw [hranks] at hget
      obtain ⟨r', -, rfl⟩ := Option.map_eq_some_iff.mp hget
      cases hzero
  have hnone := (pruneKeepsAll_of_le (by rw [hestimate]; decide) 100).mp hkeeps
  refine absurd (State.mem_staleOrder.mpr ⟨0, htouched, ?_, by decide⟩) (List.eq_nil_iff_forall_not_mem.mp hnone _)
  rw [OrdMap.contains_eq_isSome, Option.isSome_eq_false_iff, Option.isNone_iff_eq_none] at hrecord
  rw [hranks, hrecord]
  exact UInt64.pos_iff_ne_zero.mpr hfloor

end Bbg

end LeanBbg
