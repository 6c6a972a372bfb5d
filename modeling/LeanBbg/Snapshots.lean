import LeanBbg.Goldilocks
import LeanBbg.Positions

/-! The snapshot of positions is exact. Over the indexes that the operations on cards build, it lists every
card once, in ascending order of axons and cards, with the stake of its balance; the sums of each axon and
the totals are the sums over the records, and the searches return what is listed. -/

set_option linter.unusedSectionVars false

namespace LeanBbg

variable {F : Type} [Hemera F]

/-! ### Sums of stakes -/

def stakeSum (ps : List Position) : Nat := (ps.map fun p => p.stake.toNat).sum

def sideSum (side : Side) (ps : List Position) : Nat := stakeSum (ps.filter fun p => p.record.valence.side = side)

def activeSum (ps : List Position) : Nat := stakeSum (ps.filter fun p => p.record.valence.isActive)

theorem stakeSum_cons (p : Position) (ps : List Position) : stakeSum (p :: ps) = p.stake.toNat + stakeSum ps := rfl

theorem stakeSum_append (ps qs : List Position) : stakeSum (ps ++ qs) = stakeSum ps + stakeSum qs := by
  rw [stakeSum, List.map_append, List.sum_append]
  rfl

theorem activeSum_append (ps qs : List Position) : activeSum (ps ++ qs) = activeSum ps + activeSum qs := by
  rw [activeSum, List.filter_append, stakeSum_append]
  rfl

theorem stakeSum_filter_le (f : Position → Bool) (ps : List Position) : stakeSum (ps.filter f) ≤ stakeSum ps := by
  induction ps with
  | nil => exact Nat.le_refl _
  | cons p ps ih =>
      rw [List.filter_cons]
      split_ifs
      · rw [stakeSum_cons, stakeSum_cons]
        omega
      · rw [stakeSum_cons]
        omega

theorem sideSum_cons (side : Side) (p : Position) (ps : List Position) : sideSum side (p :: ps) =
    (if p.record.valence.side = side then p.stake.toNat else 0) + sideSum side ps := by
  rw [sideSum, List.filter_cons]
  by_cases h : p.record.valence.side = side
  · rw [if_pos (by simpa using h), if_pos h, stakeSum_cons]
    rfl
  · rw [if_neg (by simpa using h), if_neg h, Nat.zero_add]
    rfl

theorem activeSum_cons (p : Position) (ps : List Position) : activeSum (p :: ps) =
    (if p.record.valence.isActive then p.stake.toNat else 0) + activeSum ps := by
  rw [activeSum, List.filter_cons]
  split_ifs
  · rfl
  · rw [Nat.zero_add]
    rfl

/-- Every stake is on one side. -/
theorem sideSum_add (ps : List Position) : sideSum .plus ps + sideSum .minus ps = stakeSum ps := by
  induction ps with
  | nil => rfl
  | cons p ps ih =>
      rw [sideSum_cons, sideSum_cons, stakeSum_cons, ← ih]
      cases p.record.valence.side with
      | plus =>
          rw [if_pos rfl, if_neg (by decide)]
          omega
      | minus =>
          rw [if_neg (by decide), if_pos rfl]
          omega

theorem stakeSum_le (ps : List Position) : stakeSum ps ≤ ps.length * (2 ^ 64 - 1) := by
  induction ps with
  | nil => exact Nat.zero_le _
  | cons p ps ih =>
      have hstake := p.stake.toNat_lt
      rw [stakeSum_cons, List.length_cons, Nat.succ_mul]
      omega

theorem sides_eq (side : Side) (n : Nat) : (if side = .plus then n else 0) + (if side = .minus then n else 0) = n := by
  cases side with
  | plus => rw [if_pos rfl, if_neg (by decide), Nat.add_zero]
  | minus => rw [if_neg (by decide), if_pos rfl, Nat.zero_add]

theorem addU128_eq {a b : Nat} (h : a + b < 2 ^ 128) : addU128 a b = a + b := Nat.mod_eq_of_lt h

namespace SideSums

theorem add_eq (sums : SideSums) (p : Position) (h : sums.plus + sums.minus + p.stake.toNat < 2 ^ 128) :
    sums.add p.record.valence.side p.stake =
      ⟨sums.plus + (if p.record.valence.side = .plus then p.stake.toNat else 0),
        sums.minus + (if p.record.valence.side = .minus then p.stake.toNat else 0)⟩ := by
  rw [add.eq_def]
  cases p.record.valence.side with
  | plus =>
      dsimp only
      rw [addU128_eq (by omega), if_pos rfl, if_neg (by decide), Nat.add_zero]
  | minus =>
      dsimp only
      rw [addU128_eq (by omega), if_neg (by decide), if_pos rfl, Nat.add_zero]

end SideSums

/-! ### The loops -/

namespace State

/-- The position of an entry of the index. -/
def position (s : State F) (c : Cards) (e : Particle × Bytes32) : Option Position :=
  c.records[e.1]?.map fun record => ⟨e.1, record, s.balanceAt e.2⟩

def positionsOf (s : State F) (c : Cards) (entries : List (Particle × Bytes32)) : List Position :=
  entries.filterMap (s.position c)

variable {s : State F} {c : Cards} {entries : List (Particle × Bytes32)}

theorem positionsOf_cons (s : State F) (entries : List (Particle × Bytes32)) {e : Particle × Bytes32} {record : CardRecord} (h : c.records[e.1]? = some record) :
    s.positionsOf c (e :: entries) = ⟨e.1, record, s.balanceAt e.2⟩ :: s.positionsOf c entries := by
  rw [positionsOf, List.filterMap_cons, position, h]
  rfl

theorem addCards_eq (hrecords : ∀ e ∈ entries, ∃ record, c.records[e.1]? = some record) {active : Nat} {sums : SideSums}
    {acc : List Position} (hactive : active + stakeSum (s.positionsOf c entries) < 2 ^ 128)
    (hsums : sums.plus + sums.minus + stakeSum (s.positionsOf c entries) < 2 ^ 128) :
    entries.foldlM (s.addCard c) (active, sums, acc) =
      some (active + activeSum (s.positionsOf c entries),
        ⟨sums.plus + sideSum .plus (s.positionsOf c entries), sums.minus + sideSum .minus (s.positionsOf c entries)⟩,
        acc ++ s.positionsOf c entries) := by
  induction entries generalizing active sums acc with
  | nil =>
      simp only [positionsOf, List.filterMap_nil, List.append_nil, List.foldlM_nil]
      rfl
  | cons e entries ih =>
      obtain ⟨hhead, hrecords⟩ := List.forall_mem_cons.mp hrecords
      obtain ⟨record, hrecord⟩ := hhead
      have hsplit := positionsOf_cons s entries hrecord
      rw [hsplit, stakeSum_cons] at hactive hsums
      rw [hsplit, sideSum_cons, sideSum_cons, activeSum_cons, List.foldlM_cons, addCard, hrecord]
      have hadd := SideSums.add_eq sums ⟨e.1, record, s.balanceAt e.2⟩ (by omega)
      dsimp only [Option.map_some, Option.bind_eq_bind, Option.bind_some] at hadd hactive hsums ⊢
      rw [hadd]
      have hnow : (if record.valence.isActive = true then addU128 active (s.balanceAt e.2).toNat else active) =
          active + if record.valence.isActive = true then (s.balanceAt e.2).toNat else 0 := by
        split_ifs
        · exact addU128_eq (by omega)
        · rfl
      have hle : (if record.valence.isActive = true then (s.balanceAt e.2).toNat else 0) ≤ (s.balanceAt e.2).toNat := by
        split_ifs <;> omega
      have hside := sides_eq record.valence.side (s.balanceAt e.2).toNat
      rw [hnow, ih hrecords (by omega) (by dsimp only; omega)]
      simp only [Nat.add_assoc, List.append_assoc, List.singleton_append]

theorem sideSums_eq {axon : Particle} (hrecords : ∀ e ∈ (c.byAxon[axon]?.getD ∅).toList, ∃ record, c.records[e.1]? = some record)
    (hsums : stakeSum (s.positionsOf c (c.byAxon[axon]?.getD ∅).toList) < 2 ^ 128) :
    s.sideSums c axon = some ⟨sideSum .plus (s.positionsOf c (c.byAxon[axon]?.getD ∅).toList),
      sideSum .minus (s.positionsOf c (c.byAxon[axon]?.getD ∅).toList)⟩ := by
  rw [sideSums, indexed]
  generalize (c.byAxon[axon]?.getD ∅).toList = entries at hrecords hsums
  have hloop : ∀ sums : SideSums, sums.plus + sums.minus + stakeSum (s.positionsOf c entries) < 2 ^ 128 →
      ((entries.mapM fun e => c.records[e.1]?.map fun record => (record, e.2)).map fun cards =>
        cards.foldl (fun sums e => sums.add e.1.valence.side (s.balanceAt e.2)) sums) =
      some ⟨sums.plus + sideSum .plus (s.positionsOf c entries),
        sums.minus + sideSum .minus (s.positionsOf c entries)⟩ := by
    clear hsums
    induction entries with
    | nil =>
        intro sums _
        simp only [positionsOf, List.filterMap_nil, List.mapM_nil]
        rfl
    | cons e entries ih =>
        intro sums hsums
        obtain ⟨hhead, hrecords⟩ := List.forall_mem_cons.mp hrecords
        obtain ⟨record, hrecord⟩ := hhead
        have hsplit := positionsOf_cons s entries hrecord
        rw [hsplit, stakeSum_cons] at hsums
        have hadd := SideSums.add_eq sums ⟨e.1, record, s.balanceAt e.2⟩ (by omega)
        have hside := sides_eq record.valence.side (s.balanceAt e.2).toNat
        have hrest := ih hrecords (sums.add record.valence.side (s.balanceAt e.2)) (by
          dsimp only at hadd hsums
          rw [hadd]
          dsimp only
          omega)
        obtain ⟨cards, hcards, hfold⟩ := Option.map_eq_some_iff.mp hrest
        rw [List.mapM_cons, hrecord, hcards]
        dsimp only [Option.map_some, Option.bind_eq_bind, Option.bind_some, Option.pure_def, List.foldl_cons]
        rw [hfold, hsplit, sideSum_cons, sideSum_cons]
        dsimp only at hadd ⊢
        rw [hadd]
        simp only [Nat.add_assoc]
  have hzero := hloop ⟨0, 0⟩ (by dsimp only; omega)
  simpa using hzero

/-- What the snapshot lists of an entry of the index. -/
def axonOf (s : State F) (c : Cards) (e : Particle × OrdMap Particle Bytes32) : AxonPositions :=
  ⟨e.1, ⟨sideSum .plus (s.positionsOf c e.2.toList), sideSum .minus (s.positionsOf c e.2.toList)⟩,
    s.positionsOf c e.2.toList⟩

/-- The positions of a list of axons. -/
def allPositions (s : State F) (c : Cards) (l : List (Particle × OrdMap Particle Bytes32)) : List Position :=
  l.flatMap fun e => s.positionsOf c e.2.toList

theorem addAxons_eq {l : List (Particle × OrdMap Particle Bytes32)}
    (hrecords : ∀ e ∈ l, ∀ x ∈ e.2.toList, ∃ record, c.records[x.1]? = some record) {snap : PositionSnapshot}
    (htotal : snap.total + stakeSum (s.allPositions c l) < 2 ^ 128)
    (hactive : snap.active + stakeSum (s.allPositions c l) < 2 ^ 128) :
    l.foldlM (s.addAxon c) snap =
      some ⟨snap.axons ++ l.map (s.axonOf c), snap.len + (s.allPositions c l).length,
        snap.total + stakeSum (s.allPositions c l), snap.active + activeSum (s.allPositions c l)⟩ := by
  induction l generalizing snap with
  | nil =>
      simp only [allPositions, List.flatMap_nil, List.map_nil, List.append_nil, List.foldlM_nil]
      rfl
  | cons e l ih =>
      obtain ⟨hhead, hrecords⟩ := List.forall_mem_cons.mp hrecords
      have hsplit : s.allPositions c (e :: l) = s.positionsOf c e.2.toList ++ s.allPositions c l := List.flatMap_cons
      rw [hsplit, stakeSum_append] at htotal hactive
      have hactiveLe := stakeSum_filter_le (fun p => p.record.valence.isActive) (s.positionsOf c e.2.toList)
      change activeSum (s.positionsOf c e.2.toList) ≤ _ at hactiveLe
      have hsides := sideSum_add (s.positionsOf c e.2.toList)
      rw [List.foldlM_cons, addAxon, addCards_eq hhead (by omega) (by dsimp only; omega)]
      dsimp only [Option.map_some, Option.bind_eq_bind, Option.bind_some, List.nil_append]
      rw [Nat.zero_add, Nat.zero_add, addU128_eq (a := sideSum .plus _) (by omega), hsides, addU128_eq (by omega),
        ih hrecords (by dsimp only; omega) (by dsimp only; omega), hsplit, stakeSum_append, activeSum_append]
      simp only [List.length_append, Nat.add_assoc, List.append_assoc, List.map_cons, List.singleton_append]
      rfl

end State

/-! ### Exactness -/

/-- The sum of the stakes of the cards whose records meet a condition. -/
def recordStake (s : State F) (c : Cards) (cond : CardRecord → Bool) : Nat :=
  ((c.records.toList.filter fun e => cond e.2).map fun e => (s.stake e.1).toNat).sum

/-- The snapshot says of the cards what the records and the balances say. -/
structure PositionSnapshot.Exact (s : State F) (c : Cards) (snap : PositionSnapshot) : Prop where
  /-- every card once -/
  once : ((snap.axons.flatMap AxonPositions.positions).map fun p => (p.card, p.record)).Perm c.records.toList
  axonsAscend : snap.axons.Pairwise fun a a' => compare a.axon a'.axon = .lt
  cardsAscend : ∀ a ∈ snap.axons, a.positions.Pairwise fun p p' => compare p.card p'.card = .lt
  listed : ∀ a ∈ snap.axons, ∀ p ∈ a.positions, p.record.particle = a.axon ∧ p.stake = s.stake p.card
  nonempty : ∀ a ∈ snap.axons, a.positions ≠ []
  sums : ∀ a ∈ snap.axons, s.sideSums c a.axon = some a.sums ∧
    a.sums.plus = recordStake s c (fun r => r.particle = a.axon ∧ r.valence.side = .plus) ∧
    a.sums.minus = recordStake s c (fun r => r.particle = a.axon ∧ r.valence.side = .minus)
  len : snap.len = c.records.size
  total : snap.total = recordStake s c fun _ => true
  active : snap.active = recordStake s c fun r => r.valence.isActive
  fits : recordStake s c (fun _ => true) < 2 ^ 128
  get : ∀ axon a, snap.get axon = some a ↔ a ∈ snap.axons ∧ a.axon = axon
  find : ∀ axon card p, snap.find axon card = some p ↔ ∃ a ∈ snap.axons, a.axon = axon ∧ p ∈ a.positions ∧ p.card = card

namespace Cards.Indexed

open State

variable {c : Cards} (h : Indexed F c) (s : State F)

include h

theorem entry_of_mem {e : Particle × OrdMap Particle Bytes32} (he : e ∈ c.byAxon.toList) {x : Particle × Bytes32}
    (hx : x ∈ e.2.toList) :
    ∃ record, c.records[x.1]? = some record ∧ record.particle = e.1 ∧ x.2 = stakeKey F x.1 :=
  (h.entry e.1 x.1 x.2).mp ⟨e.2, (OrdMap.mem_toList _).mp he, (OrdMap.mem_toList _).mp hx⟩

/-- The positions of an axon are those of the cards whose records name it. -/
theorem mem_positionsOf {e : Particle × OrdMap Particle Bytes32} (he : e ∈ c.byAxon.toList) {p : Position} :
    p ∈ s.positionsOf c e.2.toList ↔
      c.records[p.card]? = some p.record ∧ p.record.particle = e.1 ∧ p.stake = s.stake p.card := by
  rw [positionsOf, List.mem_filterMap]
  constructor
  · rintro ⟨x, hx, hp⟩
    obtain ⟨record, hrecord, hparticle, hkey⟩ := h.entry_of_mem he hx
    rw [position, hrecord, Option.map_some, Option.some_inj] at hp
    subst hp
    exact ⟨hrecord, hparticle, by rw [stake, ← hkey]⟩
  · rintro ⟨hrecord, hparticle, hstake⟩
    obtain ⟨cards, hcards, hkey⟩ := (h.entry e.1 p.card (stakeKey F p.card)).mpr ⟨p.record, hrecord, hparticle, rfl⟩
    rw [(OrdMap.mem_toList _).mp he, Option.some_inj] at hcards
    subst hcards
    refine ⟨(p.card, stakeKey F p.card), (OrdMap.mem_toList _).mpr hkey, ?_⟩
    rw [position, hrecord, Option.map_some]
    exact congrArg some (congrArg (Position.mk p.card p.record) hstake.symm)

theorem exists_axon {card : Particle} {record : CardRecord} (hrecord : c.records[card]? = some record) :
    ∃ e ∈ c.byAxon.toList, e.1 = record.particle := by
  obtain ⟨cards, hcards, -⟩ := (h.entry record.particle card (stakeKey F card)).mpr ⟨record, hrecord, rfl, rfl⟩
  exact ⟨(record.particle, cards), (OrdMap.mem_toList _).mpr hcards, rfl⟩

omit h in
theorem positionsOf_ascend (cards : OrdMap Particle Bytes32) :
    (s.positionsOf c cards.toList).Pairwise fun p p' => compare p.card p'.card = .lt := by
  rw [positionsOf, List.pairwise_filterMap]
  refine Std.ExtTreeMap.ordered_keys_toList.imp fun {x x'} hlt p hp p' hp' => ?_
  obtain ⟨record, -, rfl⟩ := Option.map_eq_some_iff.mp hp
  obtain ⟨record', -, rfl⟩ := Option.map_eq_some_iff.mp hp'
  exact hlt

omit h in
theorem nodup_of_ascend {X : Type} {key : X → Particle} {l : List X}
    (hl : l.Pairwise fun x y => compare (key x) (key y) = .lt) : (l.map key).Nodup := by
  rw [List.Nodup, List.pairwise_map]
  refine hl.imp fun {x y} hlt heq => ?_
  rw [heq, Std.compare_self] at hlt
  cases hlt

/-- Each card stands once under its axon. -/
theorem allPositions_perm :
    ((s.allPositions c c.byAxon.toList).map fun p => (p.card, p.record)).Perm c.records.toList := by
  refine OrdMap.perm_toList _ ?_ fun card record => ?_
  · rw [List.map_map, allPositions, List.map_flatMap, List.nodup_flatMap]
    refine ⟨fun e _ => nodup_of_ascend (positionsOf_ascend s e.2), ?_⟩
    refine Std.ExtTreeMap.ordered_keys_toList.imp_of_mem fun {e e'} he he' hlt => ?_
    intro card hcard hcard'
    obtain ⟨p, hp, rfl⟩ := List.mem_map.mp hcard
    obtain ⟨p', hp', hsame⟩ := List.mem_map.mp hcard'
    obtain ⟨hrecord, hparticle, -⟩ := (h.mem_positionsOf s he).mp hp
    obtain ⟨hrecord', hparticle', -⟩ := (h.mem_positionsOf s he').mp hp'
    change p'.card = p.card at hsame
    rw [hsame, hrecord, Option.some_inj] at hrecord'
    rw [← hparticle, ← hparticle', hrecord', Std.compare_self] at hlt
    cases hlt
  · rw [List.mem_map]
    constructor
    · rintro ⟨p, hp, hpair⟩
      obtain ⟨rfl, rfl⟩ := Prod.mk.inj hpair
      obtain ⟨e, he, hp⟩ := List.mem_flatMap.mp hp
      exact ((h.mem_positionsOf s he).mp hp).1
    · intro hrecord
      obtain ⟨e, he, hparticle⟩ := h.exists_axon hrecord
      exact ⟨⟨card, record, s.stake card⟩, List.mem_flatMap.mpr ⟨e, he,
        (h.mem_positionsOf s he).mpr ⟨hrecord, hparticle.symm, rfl⟩⟩, rfl⟩

omit h in
/-- A sum over positions with the stakes of the state is a sum over their records. -/
theorem stakeSum_eq {ps : List Position} (hstake : ∀ p ∈ ps, p.stake = s.stake p.card) (cond cond' : CardRecord → Bool)
    (hperm : (ps.map fun p => (p.card, p.record)).Perm (c.records.toList.filter fun e => cond' e.2)) :
    stakeSum (ps.filter fun p => cond p.record) = recordStake s c fun r => cond' r && cond r := by
  have hsum : stakeSum (ps.filter fun p => cond p.record) =
      (((ps.map fun p => (p.card, p.record)).filter fun e => cond e.2).map fun e => (s.stake e.1).toNat).sum := by
    rw [stakeSum, List.filter_map, List.map_map]
    refine congrArg List.sum (List.map_congr_left fun p hp => ?_)
    rw [hstake p (List.mem_of_mem_filter hp)]
    rfl
  rw [hsum, ((hperm.filter _).map _).sum_eq, List.filter_filter, recordStake]
  simp only [Bool.and_comm]

/-- The positions of one axon are its records. -/
theorem positionsOf_perm {e : Particle × OrdMap Particle Bytes32} (he : e ∈ c.byAxon.toList) :
    ((s.positionsOf c e.2.toList).map fun p => (p.card, p.record)).Perm
      (c.records.toList.filter fun x => decide (x.2.particle = e.1)) := by
  have hnodup : ((s.positionsOf c e.2.toList).map fun p => (p.card, p.record)).Nodup := by
    refine List.Nodup.of_map Prod.fst ?_
    rw [List.map_map]
    exact nodup_of_ascend (positionsOf_ascend s e.2)
  refine (List.perm_ext_iff_of_nodup hnodup (c.records.nodup_keys.of_map.filter _)).mpr ?_
  rintro ⟨card, record⟩
  rw [List.mem_map, List.mem_filter, OrdMap.mem_toList]
  constructor
  · rintro ⟨p, hp, hpair⟩
    obtain ⟨rfl, rfl⟩ := Prod.mk.inj hpair
    obtain ⟨hrecord, hparticle, -⟩ := (h.mem_positionsOf s he).mp hp
    exact ⟨hrecord, by simpa using hparticle⟩
  · rintro ⟨hrecord, hparticle⟩
    exact ⟨⟨card, record, s.stake card⟩, (h.mem_positionsOf s he).mpr ⟨hrecord, by simpa using hparticle, rfl⟩, rfl⟩

omit h in
theorem ascending_of_ascend {X : Type} {key : X → Particle} {l : List X}
    (hl : l.Pairwise fun x y => compare (key x) (key y) = .lt) (k : Particle) :
    Search.Ascending (fun x => compare (key x) k) l := by
  refine hl.imp fun {x y} hlt hge => ?_
  rw [Std.OrientedCmp.gt_iff_lt]
  rw [← Std.OrientedCmp.gt_iff_lt] at hlt
  have hle : (compare k (key x)).isLE := by
    have hswap : compare k (key x) = (compare (key x) k).swap := Std.OrientedCmp.eq_swap
    dsimp only at hge
    rw [hswap]
    generalize compare (key x) k = o at hge
    cases o with
    | lt => exact absurd rfl hge
    | eq => rfl
    | gt => rfl
  exact Std.TransCmp.lt_of_isLE_of_lt hle (Std.OrientedCmp.gt_iff_lt.mp hlt)

omit h in
/-- The binary search finds the entry of an axon. -/
theorem get_eq_some {snap : PositionSnapshot}
    (hascend : snap.axons.Pairwise fun a a' => compare a.axon a'.axon = .lt) (axon : Particle) (a : AxonPositions) :
    snap.get axon = some a ↔ a ∈ snap.axons ∧ a.axon = axon := by
  rw [PositionSnapshot.get, Search.binarySearch_eq_some_iff (ascending_of_ascend hascend axon), Std.compare_eq_iff_eq]

omit h in
/-- The two binary searches find the position of a card on an axon. -/
theorem find_eq_some {snap : PositionSnapshot}
    (hascend : snap.axons.Pairwise fun a a' => compare a.axon a'.axon = .lt)
    (hcards : ∀ a ∈ snap.axons, a.positions.Pairwise fun p p' => compare p.card p'.card = .lt)
    (axon card : Particle) (p : Position) :
    snap.find axon card = some p ↔ ∃ a ∈ snap.axons, a.axon = axon ∧ p ∈ a.positions ∧ p.card = card := by
  rw [PositionSnapshot.find, Option.bind_eq_bind, Option.bind_eq_some_iff]
  constructor
  · rintro ⟨a, ha, hp⟩
    obtain ⟨ha, haxon⟩ := (get_eq_some hascend axon a).mp ha
    rw [Search.binarySearch_eq_some_iff (ascending_of_ascend (hcards a ha) card), Std.compare_eq_iff_eq] at hp
    exact ⟨a, ha, haxon, hp⟩
  · rintro ⟨a, ha, haxon, hp⟩
    refine ⟨a, (get_eq_some hascend axon a).mpr ⟨ha, haxon⟩, ?_⟩
    rw [Search.binarySearch_eq_some_iff (ascending_of_ascend (hcards a ha) card), Std.compare_eq_iff_eq]
    exact hp

/-- An axon of the index has a position. -/
theorem positionsOf_ne_nil {e : Particle × OrdMap Particle Bytes32} (he : e ∈ c.byAxon.toList) :
    s.positionsOf c e.2.toList ≠ [] := by
  obtain ⟨card, hcard⟩ : ∃ card, card ∈ e.2 := by
    by_contra hnone
    have hempty := h.nonempty e.1 e.2 ((OrdMap.mem_toList _).mp he)
    refine Std.ExtTreeMap.isEmpty_eq_false_iff.mp hempty (Std.ExtTreeMap.ext_getElem? fun k => ?_)
    rw [Std.ExtTreeMap.getElem?_empty, Std.ExtTreeMap.getElem?_eq_none fun hk => hnone ⟨k, hk⟩]
  have hentry := (OrdMap.mem_toList _).mpr (Std.ExtTreeMap.getElem?_eq_some_getElem hcard)
  obtain ⟨record, hrecord, hparticle, -⟩ := h.entry_of_mem he hentry
  have hmem : (⟨card, record, s.stake card⟩ : Position) ∈ s.positionsOf c e.2.toList :=
    (h.mem_positionsOf s he).mpr ⟨hrecord, hparticle, rfl⟩
  exact List.ne_nil_of_mem hmem

/-- The stake on one side of an axon is that of its records of the valence. -/
theorem sideSum_positionsOf {e : Particle × OrdMap Particle Bytes32} (he : e ∈ c.byAxon.toList) (side : Side) :
    sideSum side (s.positionsOf c e.2.toList) =
      recordStake s c fun r => decide (r.particle = e.1 ∧ r.valence.side = side) := by
  have := stakeSum_eq s (fun p hp => ((h.mem_positionsOf s he).mp hp).2.2)
    (fun r => decide (r.valence.side = side)) (fun r => decide (r.particle = e.1)) (h.positionsOf_perm s he)
  rw [sideSum, this]
  simp only [Bool.decide_and]

/-- The snapshot of a state over an index that the operations keep. -/
theorem positions_exact (hsize : c.records.size < 2 ^ 64) :
    ∃ snap, s.positions c = some snap ∧ snap.Exact s c := by
  have hperm := h.allPositions_perm s
  have hlen : (s.allPositions c c.byAxon.toList).length = c.records.size := by
    have := hperm.length_eq
    rwa [List.length_map, Std.ExtTreeMap.length_toList] at this
  have hbound : stakeSum (s.allPositions c c.byAxon.toList) < 2 ^ 128 := by
    have hle := stakeSum_le (s.allPositions c c.byAxon.toList)
    have hmul := Nat.mul_le_mul_right (2 ^ 64 - 1) (Nat.le_of_lt hsize)
    rw [hlen] at hle
    omega
  have hrecords : ∀ e ∈ c.byAxon.toList, ∀ x ∈ e.2.toList, ∃ record, c.records[x.1]? = some record := by
    intro e he x hx
    obtain ⟨record, hrecord, -⟩ := h.entry_of_mem he hx
    exact ⟨record, hrecord⟩
  have hstake : ∀ p ∈ s.allPositions c c.byAxon.toList, p.stake = s.stake p.card := by
    intro p hp
    obtain ⟨e, he, hp⟩ := List.mem_flatMap.mp hp
    exact ((h.mem_positionsOf s he).mp hp).2.2
  have hall : (((s.allPositions c c.byAxon.toList)).map fun p => (p.card, p.record)).Perm
      (c.records.toList.filter fun _ => true) := by
    rwa [List.filter_true]
  have hpositions : s.positions c = _ := addAxons_eq hrecords (by dsimp only; omega) (by dsimp only; omega)
  have htotal : stakeSum (s.allPositions c c.byAxon.toList) = recordStake s c fun _ => true := by
    have := stakeSum_eq s hstake (fun _ => true) (fun _ => true) hall
    rwa [List.filter_true] at this
  have hactive : activeSum (s.allPositions c c.byAxon.toList) = recordStake s c fun r => r.valence.isActive := by
    have := stakeSum_eq s hstake (fun r => r.valence.isActive) (fun _ => true) hall
    rw [activeSum, this]
    simp only [Bool.true_and]
  have hascend : (c.byAxon.toList.map (s.axonOf c)).Pairwise fun a a' => compare a.axon a'.axon = .lt := by
    rw [List.pairwise_map]
    exact Std.ExtTreeMap.ordered_keys_toList
  have hcards : ∀ a ∈ c.byAxon.toList.map (s.axonOf c),
      a.positions.Pairwise fun p p' => compare p.card p'.card = .lt := by
    intro a ha
    obtain ⟨e, -, rfl⟩ := List.mem_map.mp ha
    exact positionsOf_ascend s e.2
  rw [Nat.zero_add, Nat.zero_add, Nat.zero_add, List.nil_append] at hpositions
  refine ⟨_, hpositions, ?_, hascend, hcards, fun a ha p hp => ?_, fun a ha => ?_, fun a ha => ?_, hlen, htotal, hactive,
    htotal ▸ hbound, get_eq_some hascend, find_eq_some hascend hcards⟩
  · rw [List.flatMap_map]
    exact hperm
  · obtain ⟨e, he, rfl⟩ := List.mem_map.mp ha
    exact ((h.mem_positionsOf s he).mp hp).2
  · obtain ⟨e, he, rfl⟩ := List.mem_map.mp ha
    exact h.positionsOf_ne_nil s he
  · obtain ⟨e, he, rfl⟩ := List.mem_map.mp ha
    have hget := (OrdMap.mem_toList _).mp he
    have hle : stakeSum (s.positionsOf c e.2.toList) ≤ stakeSum (s.allPositions c c.byAxon.toList) := by
      obtain ⟨l, r, hsplit⟩ := List.append_of_mem he
      rw [allPositions, hsplit, List.flatMap_append, List.flatMap_cons, stakeSum_append, stakeSum_append]
      omega
    have hsums : s.sideSums c e.1 = _ := sideSums_eq (by rw [hget]; exact hrecords e he)
      (by rw [hget]; exact Nat.lt_of_le_of_lt hle hbound)
    rw [hget] at hsums
    exact ⟨hsums, h.sideSum_positionsOf s he .plus, h.sideSum_positionsOf s he .minus⟩

end Cards.Indexed

namespace Cards

/-- Every sequence of operations runs without a panic and keeps the index; and the snapshot of every state over
the cards it leaves is exact. The number of cards is a `usize`. -/
theorem run_positions (ops : List Op) :
    ∃ answers c, Refine.run (step F) new ops = some (answers, c) ∧ Indexed F c ∧
      (c.records.size < 2 ^ 64 → ∀ s : State F, s.cards = c.records →
        ∃ snap, s.positions c = some snap ∧ snap.Exact s c) := by
  have hrun : ∀ (ops : List Op) (c : Cards), Indexed F c →
      ∃ answers c', Refine.run (step F) c ops = some (answers, c') ∧ Indexed F c' := by
    intro ops
    induction ops with
    | nil => exact fun c h => ⟨[], c, rfl, h⟩
    | cons op ops ih =>
        intro c h
        obtain ⟨next, hnext, hindexed⟩ := h.step op
        obtain ⟨answers, c', hrun, hindexed'⟩ := ih next.2 hindexed
        refine ⟨next.1 :: answers, c', ?_, hindexed'⟩
        rw [Refine.run, hnext, Option.bind_some, hrun]
        rfl
  obtain ⟨answers, c, hrun, hindexed⟩ := hrun ops new indexed_new
  exact ⟨answers, c, hrun, hindexed, fun hsize s _ => hindexed.positions_exact s hsize⟩

/-- A card that moves to another axon, and a card that is removed. -/
def moveAndRemove : List Op :=
  let card (axon : UInt8) : CardRecord :=
    ⟨Vector.replicate 32 1, Vector.replicate 32 axon, Vector.replicate 32 1, .for, 0⟩
  [.insert (Vector.replicate 32 5) (card 2), .insert (Vector.replicate 32 6) (card 2),
    .insert (Vector.replicate 32 5) (card 3), .remove (Vector.replicate 32 6)]

theorem run_positions_moveAndRemove : ∃ answers c, Refine.run (step Goldilocks) new moveAndRemove = some (answers, c) ∧
    c.records.size = 1 ∧ ∃ snap, ({ State.new with cards := c.records } : State Goldilocks).positions c = some snap ∧
      snap.len = 1 := by
  have hone : (Refine.run (step Goldilocks) new moveAndRemove).map (fun r => r.2.records.size) = some 1 := by
    decide +kernel
  obtain ⟨answers, c, hrun, -, hexact⟩ := run_positions (F := Goldilocks) moveAndRemove
  rw [hrun, Option.map_some, Option.some_inj] at hone
  change c.records.size = 1 at hone
  obtain ⟨snap, hsnap, hfacts⟩ := hexact (by rw [hone]; decide) { State.new with cards := c.records } rfl
  exact ⟨answers, c, hrun, hone, snap, hsnap, hfacts.len.trans hone⟩

end Cards

end LeanBbg
