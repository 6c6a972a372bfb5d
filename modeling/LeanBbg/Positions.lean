import LeanBbg.LibRefine
import LeanBbg.LibSearch
import LeanBbg.State

/-! Positions: staked cyberlinks. A position is one card; its stake is the balance at the stake key of the
card. Beside the records an index from axons to cards is kept, with the stake key of every card, and the
snapshot of a state lists the positions from this index without hashing. Looking up a missing entry of the
index, or the record of a missing card, is a panic of the source: `none`. -/

set_option linter.unusedSectionVars false

namespace LeanBbg

variable {F : Type} [Hemera F]

/-! ### Keys -/

/-- The bytes of a tag of the source, with its final zero. -/
def tagBytes (text : String) : List UInt8 := (text.toList.map fun c => UInt8.ofNat c.toNat) ++ [0]

def D_CARD : List UInt8 := tagBytes "soft3/chain/card/v1"

def D_STAKE : List UInt8 := tagBytes "soft3/chain/stake/v1"

def D_FOCUS : List UInt8 := tagBytes "soft3/chain/focus/v1"

variable (F)

def tagged (tag : List UInt8) (parts : List Bytes32) : Bytes32 := Hemera.hash (F := F) (tag ++ parts.flatMap Vector.toList)

/-- `H(D_CARD ‖ author ‖ p ‖ q)`, 116 bytes in. -/
def cardId (author : NeuronId) (p q : Particle) : Particle := tagged F D_CARD [author, p, q]

/-- `H(D_STAKE ‖ card)`, 53 bytes in. -/
def stakeKey (card : Particle) : Bytes32 := tagged F D_STAKE [card]

/-- `H(D_FOCUS ‖ token)`, 53 bytes in. -/
def focusKey (token : Particle) : Bytes32 := tagged F D_FOCUS [token]

variable {F}

inductive Side where
  | plus
  | minus
  deriving DecidableEq

def Valence.side : Valence → Side
  | .against => .minus
  | .neutral => .plus
  | .for => .plus

/-- v ≠ 0 -/
def Valence.isActive : Valence → Bool
  | .neutral => false
  | _ => true

/-! ### Cards -/

/-- The records, and the index axon → card → stake key. -/
structure Cards where
  records : OrdMap Particle CardRecord
  byAxon : OrdMap Particle (OrdMap Particle Bytes32)

namespace Cards

def new : Cards := ⟨∅, ∅⟩

/-- Drop `card` from the entry of `axon`; its cached stake key. -/
def unindex (c : Cards) (axon card : Particle) : Option (Bytes32 × Cards) := do
  let cards ← c.byAxon[axon]?
  let key ← cards[card]?
  let cards := cards.erase card
  some (key, { c with byAxon := if cards.isEmpty then c.byAxon.erase axon else c.byAxon.insert axon cards })

def index (c : Cards) (axon card : Particle) (key : Bytes32) : Cards :=
  { c with byAxon := c.byAxon.insert axon ((c.byAxon[axon]?.getD ∅).insert card key) }

variable (F) in
/-- Insert or replace the record of `card`; the previous record. -/
def insert (c : Cards) (card : Particle) (record : CardRecord) : Option (Option CardRecord × Cards) :=
  let old := c.records[card]?
  let c := { c with records := c.records.insert card record }
  match old with
  | none => some (old, c.index record.particle card (stakeKey F card))
  | some o =>
      if o.particle = record.particle then some (old, c)
      else do
        let (key, c) ← c.unindex o.particle card
        some (old, c.index record.particle card key)

def remove (c : Cards) (card : Particle) : Option (Option CardRecord × Cards) :=
  match c.records[card]? with
  | none => some (none, c)
  | some old => do
      let (_, c) ← { c with records := c.records.erase card }.unindex old.particle card
      some (some old, c)

def clear (_ : Cards) : Cards := ⟨∅, ∅⟩

inductive Op where
  | insert (card : Particle) (record : CardRecord)
  | remove (card : Particle)
  | clear

variable (F) in
def step (c : Cards) : Op → Option (Option CardRecord × Cards)
  | .insert card record => c.insert F card record
  | .remove card => c.remove card
  | .clear => some (none, c.clear)

end Cards

/-! ### Snapshots -/

/-- Addition of `u128` values, kept as numbers. -/
def addU128 (a b : Nat) : Nat := (a + b) % 2 ^ 128

structure SideSums where
  plus : Nat
  minus : Nat

def SideSums.add (sums : SideSums) (side : Side) (stake : UInt64) : SideSums :=
  match side with
  | .plus => { sums with plus := addU128 sums.plus stake.toNat }
  | .minus => { sums with minus := addU128 sums.minus stake.toNat }

structure Position where
  card : Particle
  record : CardRecord
  stake : UInt64

structure AxonPositions where
  axon : Particle
  sums : SideSums
  positions : List Position

structure PositionSnapshot where
  axons : List AxonPositions
  len : Nat
  total : Nat
  active : Nat

namespace PositionSnapshot

def get (snap : PositionSnapshot) (axon : Particle) : Option AxonPositions :=
  Search.binarySearch (fun a => compare a.axon axon) snap.axons

def find (snap : PositionSnapshot) (axon card : Particle) : Option Position := do
  let a ← snap.get axon
  Search.binarySearch (fun p => compare p.card card) a.positions

end PositionSnapshot

namespace State

def balanceAt (s : State F) (key : Bytes32) : UInt64 := s.balances[key]?.getD 0

/-- The stake of `card`. -/
def stake (s : State F) (card : Particle) : UInt64 := s.balanceAt (stakeKey F card)

/-- The records of the cards on `axon`, with their stake keys. -/
def indexed (c : Cards) (axon : Particle) : Option (List (CardRecord × Bytes32)) :=
  (c.byAxon[axon]?.getD ∅).toList.mapM fun e => c.records[e.1]?.map fun record => (record, e.2)

/-- S⁺ and S⁻ of `axon`. -/
def sideSums (s : State F) (c : Cards) (axon : Particle) : Option SideSums :=
  (indexed c axon).map fun cards => cards.foldl (fun sums e => sums.add e.1.valence.side (s.balanceAt e.2)) ⟨0, 0⟩

/-- One card of an axon: the active stake, the sums and the positions so far. -/
def addCard (s : State F) (c : Cards) (acc : Nat × SideSums × List Position) (e : Particle × Bytes32) :
    Option (Nat × SideSums × List Position) :=
  c.records[e.1]?.map fun record =>
    let stake := s.balanceAt e.2
    (if record.valence.isActive then addU128 acc.1 stake.toNat else acc.1,
      acc.2.1.add record.valence.side stake, acc.2.2 ++ [⟨e.1, record, stake⟩])

def addAxon (s : State F) (c : Cards) (snap : PositionSnapshot) (e : Particle × OrdMap Particle Bytes32) :
    Option PositionSnapshot :=
  (e.2.toList.foldlM (s.addCard c) (snap.active, ⟨0, 0⟩, [])).map fun found =>
    { axons := snap.axons ++ [⟨e.1, found.2.1, found.2.2⟩]
      len := snap.len + found.2.2.length
      total := addU128 snap.total (addU128 found.2.1.plus found.2.1.minus)
      active := found.1 }

/-- Every position, grouped by axon. -/
def positions (s : State F) (c : Cards) : Option PositionSnapshot :=
  c.byAxon.toList.foldlM (s.addAxon c) ⟨[], 0, 0, 0⟩

end State

/-! ### The index -/

namespace Cards

variable (F) in
/-- The index has one entry for each card, under its particle and with its stake key, and no empty axon. -/
structure Indexed (c : Cards) : Prop where
  entry : ∀ (axon card : Particle) (key : Bytes32), (∃ cards, c.byAxon[axon]? = some cards ∧ cards[card]? = some key) ↔
    ∃ record, c.records[card]? = some record ∧ record.particle = axon ∧ key = stakeKey F card
  nonempty : ∀ (axon : Particle) (cards : OrdMap Particle Bytes32), c.byAxon[axon]? = some cards → cards.isEmpty = false

variable {c : Cards}

/-- The key under which an axon lists a card. -/
def listed (c : Cards) (axon card : Particle) : Option Bytes32 := c.byAxon[axon]?.bind fun cards => cards[card]?

theorem listed_eq_some {axon card : Particle} {key : Bytes32} : c.listed axon card = some key ↔
    ∃ cards, c.byAxon[axon]? = some cards ∧ cards[card]? = some key := by
  rw [listed, Option.bind_eq_some_iff]

theorem listed_index (axon card a b : Particle) (key : Bytes32) : (c.index axon card key).listed a b =
    if axon = a ∧ card = b then some key else c.listed a b := by
  rw [listed, index, OrdMap.getElem?_insert]
  by_cases ha : axon = a
  · subst ha
    rw [if_pos rfl, Option.bind_some, OrdMap.getElem?_insert, listed]
    by_cases hb : card = b
    · rw [if_pos hb, if_pos ⟨rfl, hb⟩]
    · rw [if_neg hb, if_neg fun h => hb h.2]
      cases c.byAxon[axon]? with
      | none => exact Std.ExtTreeMap.getElem?_empty
      | some cards => rfl
  · rw [if_neg ha, if_neg fun h => ha h.1]
    rfl

/-- An indexed card is unindexed without a panic, and its cached key is returned. -/
theorem unindex_ok {axon card : Particle} {key : Bytes32} (h : c.listed axon card = some key)
    (hempty : ∀ (a : Particle) (cards : OrdMap Particle Bytes32), c.byAxon[a]? = some cards → cards.isEmpty = false) :
    ∃ c', c.unindex axon card = some (key, c') ∧ c'.records = c.records ∧
      (∀ a b, c'.listed a b = if axon = a ∧ card = b then none else c.listed a b) ∧
      ∀ (a : Particle) (cards : OrdMap Particle Bytes32), c'.byAxon[a]? = some cards → cards.isEmpty = false := by
  obtain ⟨cards, hcards, hkey⟩ := listed_eq_some.mp h
  have hunindex : c.unindex axon card = some (key, { c with
      byAxon := if (cards.erase card).isEmpty then c.byAxon.erase axon else c.byAxon.insert axon (cards.erase card) }) := by
    rw [unindex, hcards]
    change (cards[card]?.bind _) = _
    rw [hkey]
    rfl
  have hother : ∀ b, (cards.erase card)[b]? = if card = b then none else cards[b]? := OrdMap.getElem?_erase cards card
  refine ⟨_, hunindex, rfl, fun a b => ?_, fun a found hfound => ?_⟩
  · rw [listed, listed]
    dsimp only
    by_cases ha : axon = a
    · subst ha
      rw [hcards, Option.bind_some]
      split_ifs with hnone hb hb
      · rw [OrdMap.getElem?_erase, if_pos rfl]
        rfl
      · rw [OrdMap.getElem?_erase, if_pos rfl]
        have hgone := Std.ExtTreeMap.isEmpty_iff.mp hnone
        have hb' := hother b
        rw [hgone, if_neg fun h => hb ⟨rfl, h⟩] at hb'
        rw [← hb']
        exact Std.ExtTreeMap.getElem?_empty.symm
      · rw [OrdMap.getElem?_insert, if_pos rfl, Option.bind_some, hother, if_pos hb.2]
      · rw [OrdMap.getElem?_insert, if_pos rfl, Option.bind_some, hother, if_neg fun h => hb ⟨rfl, h⟩]
    · split_ifs with hnone hab hab
      · exact absurd hab.1 ha
      · rw [OrdMap.getElem?_erase, if_neg ha]
      · exact absurd hab.1 ha
      · rw [OrdMap.getElem?_insert, if_neg ha]
  · dsimp only at hfound
    split_ifs at hfound with hnone
    · rw [OrdMap.getElem?_erase] at hfound
      split_ifs at hfound
      exact hempty a found hfound
    · rw [OrdMap.getElem?_insert] at hfound
      split_ifs at hfound
      · obtain rfl := Option.some_inj.mp hfound
        exact Bool.not_eq_true _ ▸ hnone
      · exact hempty a found hfound

variable (F) in
/-- What `listed` must answer for a map of records. -/
def entryOf (records : OrdMap Particle CardRecord) (axon card : Particle) : Option Bytes32 :=
  (records[card]?.filter fun record => record.particle = axon).map fun _ => stakeKey F card

theorem entryOf_eq_some {records : OrdMap Particle CardRecord} {axon card : Particle} {key : Bytes32} :
    entryOf F records axon card = some key ↔
      ∃ record, records[card]? = some record ∧ record.particle = axon ∧ key = stakeKey F card := by
  rw [entryOf, Option.map_eq_some_iff]
  simp only [Option.filter_eq_some_iff, decide_eq_true_eq]
  constructor
  · rintro ⟨record, ⟨hrecord, haxon⟩, rfl⟩
    exact ⟨record, hrecord, haxon, rfl⟩
  · rintro ⟨record, hrecord, haxon, rfl⟩
    exact ⟨record, ⟨hrecord, haxon⟩, rfl⟩

theorem indexed_iff : Indexed F c ↔ (∀ axon card, c.listed axon card = entryOf F c.records axon card) ∧
    ∀ (axon : Particle) (cards : OrdMap Particle Bytes32), c.byAxon[axon]? = some cards → cards.isEmpty = false := by
  constructor
  · rintro ⟨hentry, hempty⟩
    refine ⟨fun axon card => Option.ext fun key => ?_, hempty⟩
    rw [listed_eq_some, entryOf_eq_some]
    exact hentry axon card key
  · rintro ⟨hlisted, hempty⟩
    refine ⟨fun axon card key => ?_, hempty⟩
    rw [← listed_eq_some, ← entryOf_eq_some, hlisted]

theorem nonempty_index (hempty : ∀ (a : Particle) (cards : OrdMap Particle Bytes32), c.byAxon[a]? = some cards →
    cards.isEmpty = false) (axon card : Particle) (key : Bytes32) (a : Particle) (cards : OrdMap Particle Bytes32)
    (hcards : (c.index axon card key).byAxon[a]? = some cards) : cards.isEmpty = false := by
  rw [index, OrdMap.getElem?_insert] at hcards
  split_ifs at hcards
  · obtain rfl := Option.some_inj.mp hcards
    exact Std.ExtTreeMap.isEmpty_eq_false_iff.mpr Std.ExtTreeMap.insert_ne_empty
  · exact hempty a cards hcards

theorem Indexed.insert (h : Indexed F c) (card : Particle) (record : CardRecord) :
    ∃ c', c.insert F card record = some (c.records[card]?, c') ∧ Indexed F c' ∧
      c'.records = c.records.insert card record := by
  obtain ⟨hlisted, hempty⟩ := indexed_iff.mp h
  have hentry : ∀ a b, entryOf F (c.records.insert card record) a b =
      if card = b then (if record.particle = a then some (stakeKey F b) else none) else entryOf F c.records a b := by
    intro a b
    rw [entryOf, OrdMap.getElem?_insert]
    split_ifs with hb ha
    · rw [Option.filter_some, if_pos (by simpa using ha)]
      rfl
    · rw [Option.filter_some, if_neg (by simpa using ha)]
      rfl
    · rfl
  rw [Cards.insert]
  cases hold : c.records[card]? with
  | none =>
      refine ⟨_, rfl, indexed_iff.mpr ⟨fun a b => ?_, nonempty_index hempty _ _ _⟩, rfl⟩
      rw [listed_index]
      change (if _ then _ else c.listed a b) = entryOf F (c.records.insert card record) a b
      rw [hentry, hlisted]
      by_cases hb : card = b
      · subst hb
        rw [if_pos rfl]
        by_cases ha : record.particle = a
        · rw [if_pos ⟨ha, rfl⟩, if_pos ha]
        · rw [if_neg fun h => ha h.1, if_neg ha, entryOf, hold]
          rfl
      · rw [if_neg fun h => hb h.2, if_neg hb]
  | some o =>
      dsimp only
      have hnow : c.listed o.particle card = some (stakeKey F card) :=
        (hlisted _ _).trans (entryOf_eq_some.mpr ⟨o, hold, rfl, rfl⟩)
      have hnowhere : ∀ a, o.particle ≠ a → c.listed a card = none := by
        intro a ha
        rw [hlisted, entryOf, hold, Option.filter_some, if_neg (by simpa using ha)]
        rfl
      split_ifs with hsame
      · refine ⟨_, rfl, indexed_iff.mpr ⟨fun a b => ?_, hempty⟩, rfl⟩
        change c.listed a b = entryOf F (c.records.insert card record) a b
        rw [hentry]
        by_cases hb : card = b
        · subst hb
          rw [if_pos rfl]
          by_cases ha : record.particle = a
          · rw [if_pos ha, ← ha, ← hsame, hnow]
          · rw [if_neg ha, hnowhere a fun h => ha (hsame.symm.trans h)]
        · rw [if_neg hb, hlisted]
      · obtain ⟨c', hunindex, hrecords, hlisted', hempty'⟩ :=
          unindex_ok (c := { c with records := c.records.insert card record }) hnow hempty
        refine ⟨c'.index record.particle card (stakeKey F card), by rw [hunindex]; rfl,
          indexed_iff.mpr ⟨fun a b => ?_, nonempty_index hempty' _ _ _⟩, hrecords⟩
        change _ = entryOf F c'.records a b
        rw [listed_index, hlisted', hrecords]
        change (if _ then _ else if _ then none else c.listed a b) = entryOf F (c.records.insert card record) a b
        rw [hentry]
        by_cases hb : card = b
        · subst hb
          rw [if_pos rfl]
          by_cases ha : record.particle = a
          · rw [if_pos ⟨ha, rfl⟩, if_pos ha]
          · rw [if_neg fun h => ha h.1, if_neg ha]
            by_cases hold' : o.particle = a
            · rw [if_pos ⟨hold', rfl⟩]
            · rw [if_neg fun h => hold' h.1, hnowhere a hold']
        · rw [if_neg fun h => hb h.2, if_neg fun h => hb h.2, if_neg hb, hlisted]

theorem Indexed.remove (h : Indexed F c) (card : Particle) :
    ∃ c', c.remove card = some (c.records[card]?, c') ∧ Indexed F c' ∧ c'.records = c.records.erase card := by
  obtain ⟨hlisted, hempty⟩ := indexed_iff.mp h
  rw [Cards.remove]
  cases hold : c.records[card]? with
  | none => exact ⟨c, rfl, h, (OrdMap.erase_of_getElem? hold).symm⟩
  | some old =>
      dsimp only
      have hnow : c.listed old.particle card = some (stakeKey F card) :=
        (hlisted _ _).trans (entryOf_eq_some.mpr ⟨old, hold, rfl, rfl⟩)
      obtain ⟨c', hunindex, hrecords, hlisted', hempty'⟩ :=
        unindex_ok (c := { c with records := c.records.erase card }) hnow hempty
      refine ⟨c', by rw [hunindex]; rfl, indexed_iff.mpr ⟨fun a b => ?_, hempty'⟩, hrecords⟩
      rw [hlisted', hrecords]
      change (if _ then none else c.listed a b) = entryOf F (c.records.erase card) a b
      rw [hlisted, entryOf, entryOf, OrdMap.getElem?_erase]
      by_cases hb : card = b
      · subst hb
        rw [if_pos rfl, hold]
        by_cases ha : old.particle = a
        · rw [if_pos ⟨ha, rfl⟩]
          rfl
        · rw [if_neg fun h => ha h.1, Option.filter_some, if_neg (by simpa using ha)]
          rfl
      · rw [if_neg fun h => hb h.2, if_neg hb]

theorem indexed_new : Indexed F new :=
  indexed_iff.mpr ⟨fun _ _ => by simp [listed, entryOf, new], by simp [new]⟩

/-- No operation panics, and each keeps the index. -/
theorem Indexed.step (h : Indexed F c) (op : Op) : ∃ next, c.step F op = some next ∧ Indexed F next.2 := by
  cases op with
  | insert card record =>
      obtain ⟨c', hinsert, hindexed, -⟩ := h.insert card record
      exact ⟨_, hinsert, hindexed⟩
  | remove card =>
      obtain ⟨c', hremove, hindexed, -⟩ := h.remove card
      exact ⟨_, hremove, hindexed⟩
  | clear => exact ⟨_, rfl, indexed_new⟩

end Cards

end LeanBbg
