import LeanBbg.Balances
import LeanBbg.Topology

/-! The order of signals. Every part of the state that a signal writes is written by a fold over its links
or over its box moves; where two such writes commute, the order of the signals does not matter. The
adjacency lists agree as sets, and the balances when no credit or debit saturates. -/

set_option linter.unusedSectionVars false

namespace LeanBbg

variable {F : Type} [Hemera F] [DecidableEq F] [Brakedown F]

/-! ### Arithmetic -/

theorem saturatingAdd_right_comm (w a b : UInt64) :
    saturatingAdd (saturatingAdd w a) b = saturatingAdd (saturatingAdd w b) a := by
  rw [← UInt64.toNat_inj]
  simp only [toNat_saturatingAdd]
  omega

theorem saturatingAdd_comm (a b : UInt64) : saturatingAdd a b = saturatingAdd b a := by
  rw [← UInt64.toNat_inj]
  simp only [toNat_saturatingAdd]
  omega

theorem zero_saturatingAdd (a : UInt64) : saturatingAdd 0 a = a := by
  have := a.toNat_lt
  rw [← UInt64.toNat_inj, toNat_saturatingAdd, UInt64.toNat_zero]
  omega

theorem saturatingSub_right_comm (w a b : UInt64) :
    saturatingSub (saturatingSub w a) b = saturatingSub (saturatingSub w b) a := by
  rw [← UInt64.toNat_inj]
  simp only [toNat_saturatingSub]
  omega

namespace State

/-! ### Folds over links and moves -/

/-- A signal that is not refused. -/
def applySignal (s : State F) (signal : Signal) : State F :=
  signal.links.foldl (applyLink signal.neuron) (signal.boxMoves.foldl applyMove s)

/-- Insert a list of signals; `none` when one is refused. -/
def insertAll (s : State F) (signals : List Signal) : Option (State F) :=
  signals.foldlM (fun s signal => match s.insert signal with
    | (.ok (), s) => some s
    | (.error _, _) => none) s

theorem insertAll_eq {s s' : State F} {signals : List Signal} (h : s.insertAll signals = some s') :
    s' = signals.foldl applySignal s := by
  induction signals generalizing s with
  | nil => exact (Option.some_inj.mp h).symm
  | cons signal signals ih =>
      rw [insertAll, List.foldlM_cons, insert] at h
      split_ifs at h
      · cases h
      · exact ih h

end State

/-- The links of a list of signals, each with the neuron of its signal. -/
def linksOf (signals : List Signal) : List (NeuronId × Cyberlink) :=
  signals.flatMap fun signal => signal.links.map fun link => (signal.neuron, link)

def movesOf (signals : List Signal) : List BoxMove := signals.flatMap Signal.boxMoves

theorem linksOf_perm {signals signals' : List Signal} (h : signals.Perm signals') :
    (linksOf signals).Perm (linksOf signals') := h.flatMap_right _

theorem movesOf_perm {signals signals' : List Signal} (h : signals.Perm signals') :
    (movesOf signals).Perm (movesOf signals') := h.flatMap_right _

namespace State

variable {X : Type} {s : State F} {signals : List Signal}

/-- A part that moves do not write is a fold over the links. -/
theorem part_links {π : State F → X} {f : X → NeuronId × Cyberlink → X} (hmove : ∀ s mv, π (applyMove s mv) = π s)
    (hlink : ∀ s neuron link, π (applyLink neuron s link) = f (π s) (neuron, link)) :
    π (signals.foldl applySignal s) = (linksOf signals).foldl f (π s) := by
  have hmoves : ∀ (moves : List BoxMove) (s : State F), π (moves.foldl applyMove s) = π s := by
    intro moves
    induction moves with
    | nil => exact fun s => rfl
    | cons mv moves ih => exact fun s => (ih _).trans (hmove s mv)
  have hlinks : ∀ (neuron : NeuronId) (links : List Cyberlink) (s : State F),
      π (links.foldl (applyLink neuron) s) = (links.map fun link => (neuron, link)).foldl f (π s) := by
    intro neuron links
    induction links with
    | nil => exact fun s => rfl
    | cons link links ih =>
        intro s
        rw [List.foldl_cons, ih, hlink, List.map_cons, List.foldl_cons]
  induction signals generalizing s with
  | nil => rfl
  | cons signal signals ih =>
      have hsplit : linksOf (signal :: signals) = (signal.links.map fun link => (signal.neuron, link)) ++
        linksOf signals := List.flatMap_cons
      rw [List.foldl_cons, ih, hsplit, List.foldl_append, applySignal, hlinks, hmoves]

/-- A part that links do not write is a fold over the moves. -/
theorem part_moves {π : State F → X} {f : X → BoxMove → X} (hmove : ∀ s mv, π (applyMove s mv) = f (π s) mv)
    (hlink : ∀ s neuron link, π (applyLink neuron s link) = π s) :
    π (signals.foldl applySignal s) = (movesOf signals).foldl f (π s) := by
  have hmoves : ∀ (moves : List BoxMove) (s : State F), π (moves.foldl applyMove s) = moves.foldl f (π s) := by
    intro moves
    induction moves with
    | nil => exact fun s => rfl
    | cons mv moves ih =>
        intro s
        rw [List.foldl_cons, ih, hmove, List.foldl_cons]
  have hlinks : ∀ (neuron : NeuronId) (links : List Cyberlink) (s : State F),
      π (links.foldl (applyLink neuron) s) = π s := by
    intro neuron links
    induction links with
    | nil => exact fun s => rfl
    | cons link links ih => exact fun s => (ih _).trans (hlink s neuron link)
  induction signals generalizing s with
  | nil => rfl
  | cons signal signals ih =>
      have hsplit : movesOf (signal :: signals) = signal.boxMoves ++ movesOf signals := List.flatMap_cons
      rw [List.foldl_cons, ih, hsplit, List.foldl_append, applySignal, hlinks, hmoves]

/-! ### Particles -/

/-- A growth of one field of a record. -/
inductive Growth where
  | weight (amount : UInt64)
  | energy (amount : UInt64)

def Growth.on : Growth → Option ParticleRecord → ParticleRecord
  | .weight a, p => { p.getD .zero with weight := (p.map fun p => saturatingAdd p.weight a).getD a }
  | .energy a, p => { p.getD .zero with energy := (p.map fun p => saturatingAdd p.energy a).getD a }

theorem Growth.on_comm (g g' : Growth) (p : Option ParticleRecord) : g.on (some (g'.on p)) = g'.on (some (g.on p)) := by
  cases g with
  | weight a =>
      cases g' with
      | weight b =>
          cases p with
          | none => simp [on, saturatingAdd_comm a b]
          | some p => simp [on, saturatingAdd_right_comm p.weight a b]
      | energy b =>
          cases p with
          | none => simp [on, ParticleRecord.zero, zero_saturatingAdd]
          | some p => simp [on]
  | energy a =>
      cases g' with
      | weight b =>
          cases p with
          | none => simp [on, ParticleRecord.zero, zero_saturatingAdd]
          | some p => simp [on]
      | energy b =>
          cases p with
          | none => simp [on, saturatingAdd_comm a b]
          | some p => simp [on, saturatingAdd_right_comm p.energy a b]

def grow (m : OrdMap Particle ParticleRecord) (u : Particle × Growth) : OrdMap Particle ParticleRecord :=
  m.insert u.1 (u.2.on m[u.1]?)

theorem grow_comm (m : OrdMap Particle ParticleRecord) (u u' : Particle × Growth) :
    grow (grow m u) u' = grow (grow m u') u := by
  refine Std.ExtTreeMap.ext_getElem? fun k => ?_
  simp only [grow, OrdMap.getElem?_insert]
  by_cases hk : u.1 = u'.1
  · rw [if_pos hk, if_pos hk.symm, hk]
    split_ifs
    · rw [Growth.on_comm]
    · rfl
  · rw [if_neg hk, if_neg (Ne.symm hk)]
    by_cases hu : u.1 = k
    · subst hu
      rw [if_neg (Ne.symm hk), if_pos rfl, if_pos rfl]
    · rw [if_neg hu, if_neg hu]

variable (F) in
/-- What a link with conviction grows. -/
def growths (l : NeuronId × Cyberlink) : List (Particle × Growth) :=
  if l.2.amount = 0 then []
  else [(axonId F l.2.source l.2.target, .weight l.2.amount), (l.2.target, .energy l.2.amount)]

/-- A part that no move writes. -/
theorem applyMove_part {π : State F → X} (hnullifiers : ∀ (s : State F) n, π { s with nullifiers := n } = π s)
    (hcommitments : ∀ (s : State F) c, π { s with commitments := c } = π s) (s : State F) (mv : BoxMove) :
    π (s.applyMove mv) = π s := by
  rw [applyMove]
  cases mv.commitment with
  | none => exact hnullifiers s _
  | some output => exact (hcommitments _ _).trans (hnullifiers s _)

/-- A part that the focus of neurons is not in. -/
theorem spendFocus_part {π : State F → X} (hneurons : ∀ (s : State F) n, π { s with neurons := n } = π s) (s : State F)
    (neuron : NeuronId) (amount : UInt64) : π (s.spendFocus neuron amount) = π s := by
  rw [spendFocus]
  cases s.neurons[neuron]? with
  | none => rfl
  | some nr => exact hneurons s _

theorem particles_eq : (signals.foldl applySignal s).particles =
    ((linksOf signals).flatMap (growths F)).foldl grow s.particles := by
  rw [List.foldl_flatMap]
  refine part_links (applyMove_part (fun _ _ => rfl) fun _ _ => rfl) fun s neuron link => ?_
  rw [applyLink, growths]
  dsimp only
  split_ifs
  · rfl
  · exact spendFocus_part (π := State.particles) (fun _ _ => rfl) _ neuron link.amount

/-! ### Neurons -/

def spend (m : OrdMap NeuronId NeuronRecord) (l : NeuronId × Cyberlink) : OrdMap NeuronId NeuronRecord :=
  if l.2.amount = 0 then m
  else
    match m[l.1]? with
    | some nr => m.insert l.1 { nr with focus := saturatingSub nr.focus l.2.amount }
    | none => m

theorem getElem?_spend (m : OrdMap NeuronId NeuronRecord) (l : NeuronId × Cyberlink) (k : NeuronId) :
    (spend m l)[k]? = if l.1 = k ∧ l.2.amount ≠ 0 then
      m[k]?.map fun nr => { nr with focus := saturatingSub nr.focus l.2.amount } else m[k]? := by
  rw [spend]
  by_cases hamount : l.2.amount = 0
  · rw [if_pos hamount, if_neg fun h => h.2 hamount]
  · rw [if_neg hamount]
    by_cases hk : l.1 = k
    · rw [if_pos ⟨hk, hamount⟩, hk]
      cases hget : m[k]? with
      | none => exact hget
      | some nr =>
          dsimp only
          rw [OrdMap.getElem?_insert, if_pos rfl]
          rfl
    · rw [if_neg fun h => hk h.1]
      cases m[l.1]? with
      | none => rfl
      | some nr =>
          dsimp only
          rw [OrdMap.getElem?_insert, if_neg hk]

theorem spend_comm (m : OrdMap NeuronId NeuronRecord) (l l' : NeuronId × Cyberlink) :
    spend (spend m l) l' = spend (spend m l') l := by
  refine Std.ExtTreeMap.ext_getElem? fun k => ?_
  simp only [getElem?_spend]
  split_ifs
  · cases m[k]? with
    | none => rfl
    | some nr =>
        simp only [Option.map_some]
        rw [saturatingSub_right_comm]
  · rfl
  · rfl
  · rfl

theorem neurons_eq : (signals.foldl applySignal s).neurons = (linksOf signals).foldl spend s.neurons := by
  refine part_links (applyMove_part (fun _ _ => rfl) fun _ _ => rfl) fun s neuron link => ?_
  rw [applyLink, spend]
  dsimp only
  split_ifs
  · rfl
  · change (spendFocus _ neuron link.amount).neurons = _
    rw [spendFocus]
    change (match s.neurons[neuron]? with | some nr => _ | none => _ : State F).neurons = _
    cases s.neurons[neuron]? <;> rfl

/-! ### Nullifiers and commitments -/

theorem nullifiers_eq : (signals.foldl applySignal s).nullifiers =
    (movesOf signals).foldl (fun m mv => m.insert mv.nullifier ()) s.nullifiers := by
  refine part_moves (fun s mv => ?_) fun s neuron link => ?_
  · rw [applyMove]
    cases mv.commitment <;> rfl
  · rw [applyLink]
    split_ifs
    · rfl
    · exact spendFocus_part (π := State.nullifiers) (fun _ _ => rfl) _ neuron link.amount

theorem insert_comm {K V : Type} [Ord K] [Std.TransOrd K] [Std.LawfulEqOrd K] [DecidableEq K] (m : OrdMap K V)
    {k k' : K} {v v' : V} (h : k = k' → v = v') : (m.insert k v).insert k' v' = (m.insert k' v').insert k v := by
  refine Std.ExtTreeMap.ext_getElem? fun a => ?_
  simp only [OrdMap.getElem?_insert]
  split_ifs with ha ha'
  · rw [h (ha'.trans ha.symm)]
  · rfl
  · rfl
  · rfl

theorem commitments_eq : (signals.foldl applySignal s).commitments =
    ((movesOf signals).filterMap BoxMove.commitment).foldl (fun m output => m.insert output.1 (LeanBbg.new output.2))
      s.commitments := by
  rw [List.foldl_filterMap]
  refine part_moves (fun s mv => ?_) fun s neuron link => ?_
  · rw [applyMove]
    cases mv.commitment <;> rfl
  · rw [applyLink]
    split_ifs
    · rfl
    · exact spendFocus_part (π := State.commitments) (fun _ _ => rfl) _ neuron link.amount

/-! ### Edges -/

variable (F) in
def edge (m : OrdMap Particle (Particle × Particle)) (l : NeuronId × Cyberlink) : OrdMap Particle (Particle × Particle) :=
  if m.contains (axonId F l.2.source l.2.target) then m
  else m.insert (axonId F l.2.source l.2.target) (l.2.source, l.2.target)

theorem getElem?_edge (m : OrdMap Particle (Particle × Particle)) (l : NeuronId × Cyberlink) (k : Particle) :
    (edge F m l)[k]? = if axonId F l.2.source l.2.target = k then some (m[k]?.getD l.2.ends) else m[k]? := by
  rw [edge]
  split_ifs with hmem hk hk
  · rw [OrdMap.contains_eq_isSome, hk, Option.isSome_iff_exists] at hmem
    obtain ⟨e, he⟩ := hmem
    rw [he, Option.getD_some]
  · rfl
  · rw [OrdMap.contains_eq_isSome, Bool.not_eq_true, Option.isSome_eq_false_iff, Option.isNone_iff_eq_none, hk] at hmem
    rw [OrdMap.getElem?_insert, if_pos hk, hmem, Option.getD_none]
    rfl
  · rw [OrdMap.getElem?_insert, if_neg hk]

theorem edge_comm (m : OrdMap Particle (Particle × Particle)) {l l' : NeuronId × Cyberlink}
    (h : axonId F l.2.source l.2.target = axonId F l'.2.source l'.2.target → l.2.ends = l'.2.ends) :
    edge F (edge F m l) l' = edge F (edge F m l') l := by
  refine Std.ExtTreeMap.ext_getElem? fun k => ?_
  simp only [getElem?_edge]
  split_ifs with hk hk'
  · rw [Option.getD_some, Option.getD_some, h (hk'.trans hk.symm)]
  · rfl
  · rfl
  · rfl

theorem axonEdges_eq : (signals.foldl applySignal s).axonEdges = (linksOf signals).foldl (edge F) s.axonEdges := by
  refine part_links (applyMove_part (fun _ _ => rfl) fun _ _ => rfl) fun s neuron link => ?_
  exact (Bbg.applyLink_indexes neuron s link).1

/-! ### Adjacency -/

theorem axonsOut_eq : (signals.foldl applySignal s).axonsOut = (linksOf signals).foldl
    (fun A l => A.add l.2.source (axonId F l.2.source l.2.target)) s.axonsOut := by
  refine part_links (applyMove_part (fun _ _ => rfl) fun _ _ => rfl) fun s neuron link => ?_
  exact (Bbg.applyLink_indexes neuron s link).2.1

theorem axonsIn_eq : (signals.foldl applySignal s).axonsIn = (linksOf signals).foldl
    (fun A l => A.add l.2.target (axonId F l.2.source l.2.target)) s.axonsIn := by
  refine part_links (applyMove_part (fun _ _ => rfl) fun _ _ => rfl) fun s neuron link => ?_
  exact (Bbg.applyLink_indexes neuron s link).2.2

theorem mem_foldl_add {links : List (NeuronId × Cyberlink)} {A : Adjacency} (f g : NeuronId × Cyberlink → Particle)
    {q x : Particle} : x ∈ (links.foldl (fun A l => A.add (f l) (g l)) A).axons q ↔
      x ∈ A.axons q ∨ ∃ l ∈ links, q = f l ∧ x = g l := by
  induction links generalizing A with
  | nil => simp
  | cons l links ih =>
      rw [List.foldl_cons, ih, Adjacency.mem_add]
      simp only [List.mem_cons, exists_eq_or_imp, or_assoc]

theorem mem_foldl_add_perm {links links' : List (NeuronId × Cyberlink)} (h : links.Perm links') {A : Adjacency}
    (f g : NeuronId × Cyberlink → Particle) {q x : Particle} :
    x ∈ (links.foldl (fun A l => A.add (f l) (g l)) A).axons q ↔
      x ∈ (links'.foldl (fun A l => A.add (f l) (g l)) A).axons q := by
  rw [mem_foldl_add, mem_foldl_add]
  simp only [h.mem_iff]

/-! ### Balances -/

def creditRow (m : OrdMap Bytes32 UInt64) (key : Bytes32) (amount : UInt64) : OrdMap Bytes32 UInt64 :=
  m.insert key ((m[key]?.map fun b => saturatingAdd b amount).getD amount)

def debitRow (m : OrdMap Bytes32 UInt64) (key : Bytes32) (amount : UInt64) : OrdMap Bytes32 UInt64 :=
  let next := (m[key]?.map fun b => saturatingSub b amount).getD 0
  if next = 0 then m.erase key else m.insert key next

variable (F) in
def toKey (l : NeuronId × Cyberlink) : Bytes32 := balanceKey F l.2.target l.2.token

variable (F) in
def fromKey (l : NeuronId × Cyberlink) : Bytes32 := balanceKey F l.2.source l.2.token

variable (F) in
def transfer (m : OrdMap Bytes32 UInt64) (l : NeuronId × Cyberlink) : OrdMap Bytes32 UInt64 :=
  if l.2.amount = 0 then m else debitRow (creditRow m (toKey F l) l.2.amount) (fromKey F l) l.2.amount

theorem applyLink_balances (s : State F) (neuron : NeuronId) (link : Cyberlink) :
    (s.applyLink neuron link).balances = transfer F s.balances (neuron, link) := by
  rw [applyLink, transfer]
  dsimp only
  split_ifs
  · rfl
  · rw [moveConviction]
    rw [debit, credit]
    dsimp only
    rw [spendFocus_balances]
    rfl

theorem balances_eq : (signals.foldl applySignal s).balances = (linksOf signals).foldl (transfer F) s.balances :=
  part_links (applyMove_part (fun _ _ => rfl) fun _ _ => rfl) applyLink_balances

/-- The balance at a key. -/
def amountAt (m : OrdMap Bytes32 UInt64) (k : Bytes32) : Nat := (m[k]?.getD 0).toNat

theorem amountAt_creditRow (m : OrdMap Bytes32 UInt64) (key k : Bytes32) (amount : UInt64) :
    amountAt (creditRow m key amount) k =
      if key = k then min (amountAt m k + amount.toNat) (2 ^ 64 - 1) else amountAt m k := by
  rw [amountAt, creditRow, OrdMap.getElem?_insert]
  split_ifs with hk
  · subst hk
    rw [Option.getD_some, amountAt]
    cases m[key]? with
    | none =>
        have := amount.toNat_lt
        simp only [Option.map_none, Option.getD_none, UInt64.toNat_zero]
        omega
    | some v => exact toNat_saturatingAdd v amount
  · rfl

theorem amountAt_debitRow (m : OrdMap Bytes32 UInt64) (key k : Bytes32) (amount : UInt64) :
    amountAt (debitRow m key amount) k = if key = k then amountAt m k - amount.toNat else amountAt m k := by
  have hnext : ((m[key]?.map fun b => saturatingSub b amount).getD 0).toNat = amountAt m key - amount.toNat := by
    rw [amountAt]
    cases m[key]? with
    | none => simp
    | some v => exact toNat_saturatingSub v amount
  rw [amountAt, debitRow]
  split_ifs with hzero hk hk
  · rw [OrdMap.getElem?_erase, if_pos hk, ← hk, ← hnext, hzero]
    rfl
  · rw [OrdMap.getElem?_erase, if_neg hk]
    rfl
  · rw [OrdMap.getElem?_insert, if_pos hk, ← hk, ← hnext]
    rfl
  · rw [OrdMap.getElem?_insert, if_neg hk]
    rfl

variable (F) in
/-- No credit saturates at the largest balance, and no debit at zero. -/
def Unsaturated : OrdMap Bytes32 UInt64 → List (NeuronId × Cyberlink) → Prop
  | _, [] => True
  | m, l :: links =>
      amountAt m (toKey F l) + l.2.amount.toNat < 2 ^ 64 ∧
        l.2.amount.toNat ≤ amountAt (creditRow m (toKey F l) l.2.amount) (fromKey F l) ∧
        Unsaturated (transfer F m l) links

/-- The sum of the amounts of the links that a key is on. -/
def moved (key : NeuronId × Cyberlink → Bytes32) (k : Bytes32) (links : List (NeuronId × Cyberlink)) : Nat :=
  (links.map fun l => if key l = k then l.2.amount.toNat else 0).sum

theorem amountAt_transfer {m : OrdMap Bytes32 UInt64} {l : NeuronId × Cyberlink}
    (hcredit : amountAt m (toKey F l) + l.2.amount.toNat < 2 ^ 64)
    (hdebit : l.2.amount.toNat ≤ amountAt (creditRow m (toKey F l) l.2.amount) (fromKey F l)) (k : Bytes32) :
    amountAt (transfer F m l) k + (if fromKey F l = k then l.2.amount.toNat else 0) =
      amountAt m k + if toKey F l = k then l.2.amount.toNat else 0 := by
  rw [transfer]
  by_cases hamount : l.2.amount = 0
  · rw [if_pos hamount, hamount]
    simp
  · rw [if_neg hamount, amountAt_debitRow]
    have hcredited := amountAt_creditRow m (toKey F l) k l.2.amount
    by_cases hfrom : fromKey F l = k
    · rw [if_pos hfrom, if_pos hfrom, Nat.sub_add_cancel (hfrom ▸ hdebit), hcredited]
      split_ifs with hto
      · rw [hto] at hcredit
        omega
      · rfl
    · rw [if_neg hfrom, if_neg hfrom, Nat.add_zero, hcredited]
      split_ifs with hto
      · rw [hto] at hcredit
        omega
      · rfl

/-- Without saturation the balances are the first balances with all credits and without all debits. -/
theorem amountAt_foldl {m : OrdMap Bytes32 UInt64} {links : List (NeuronId × Cyberlink)} (h : Unsaturated F m links)
    (k : Bytes32) : amountAt (links.foldl (transfer F) m) k + moved (fromKey F) k links =
      amountAt m k + moved (toKey F) k links := by
  induction links generalizing m with
  | nil => rfl
  | cons l links ih =>
      have hrest := ih h.2.2
      have hstep := amountAt_transfer h.1 h.2.1 k
      have hfrom : moved (fromKey F) k (l :: links) =
        (if fromKey F l = k then l.2.amount.toNat else 0) + moved (fromKey F) k links := rfl
      have hto : moved (toKey F) k (l :: links) =
        (if toKey F l = k then l.2.amount.toNat else 0) + moved (toKey F) k links := rfl
      rw [List.foldl_cons, hfrom, hto]
      omega

variable (F) in
/-- A link with conviction at the key. -/
def Touches (k : Bytes32) (l : NeuronId × Cyberlink) : Prop := l.2.amount ≠ 0 ∧ (toKey F l = k ∨ fromKey F l = k)

theorem transfer_of_not_touches {m : OrdMap Bytes32 UInt64} {l : NeuronId × Cyberlink} {k : Bytes32}
    (h : ¬Touches F k l) : (transfer F m l)[k]? = m[k]? := by
  rw [transfer]
  split_ifs with hamount
  · rfl
  · have hto : toKey F l ≠ k := fun heq => h ⟨hamount, .inl heq⟩
    have hfrom : fromKey F l ≠ k := fun heq => h ⟨hamount, .inr heq⟩
    rw [debitRow]
    split_ifs
    · rw [OrdMap.getElem?_erase, if_neg hfrom, creditRow, OrdMap.getElem?_insert, if_neg hto]
    · rw [OrdMap.getElem?_insert, if_neg hfrom, creditRow, OrdMap.getElem?_insert, if_neg hto]

/-- A row that a link with conviction wrote does not hold zero. -/
theorem transfer_ne_zero {m : OrdMap Bytes32 UInt64} {l : NeuronId × Cyberlink} {k : Bytes32}
    (h : Touches F k l) : (transfer F m l)[k]? ≠ some 0 := by
  rw [transfer, if_neg h.1, debitRow]
  split_ifs with hzero
  · rw [OrdMap.getElem?_erase]
    split_ifs with hfrom
    · nofun
    · rw [creditRow, OrdMap.getElem?_insert, if_pos (h.2.resolve_right hfrom)]
      exact fun heq => credited_ne_zero _ h.1 (Option.some_inj.mp heq)
  · rw [OrdMap.getElem?_insert]
    split_ifs with hfrom
    · exact fun heq => hzero (Option.some_inj.mp heq)
    · rw [creditRow, OrdMap.getElem?_insert, if_pos (h.2.resolve_right hfrom)]
      exact fun heq => credited_ne_zero _ h.1 (Option.some_inj.mp heq)

theorem foldl_of_not_touches {links : List (NeuronId × Cyberlink)} {m : OrdMap Bytes32 UInt64} {k : Bytes32}
    (h : ∀ l ∈ links, ¬Touches F k l) : (links.foldl (transfer F) m)[k]? = m[k]? := by
  induction links generalizing m with
  | nil => rfl
  | cons l links ih =>
      obtain ⟨hhead, htail⟩ := List.forall_mem_cons.mp h
      exact (ih htail).trans (transfer_of_not_touches hhead)

theorem foldl_ne_zero {links : List (NeuronId × Cyberlink)} {m : OrdMap Bytes32 UInt64} {k : Bytes32}
    (h : m[k]? ≠ some 0 ∨ ∃ l ∈ links, Touches F k l) : (links.foldl (transfer F) m)[k]? ≠ some 0 := by
  induction links generalizing m with
  | nil => exact h.resolve_right (by simp)
  | cons l links ih =>
      rw [List.foldl_cons]
      refine ih ?_
      by_cases hl : Touches F k l
      · exact .inl (transfer_ne_zero hl)
      · rw [transfer_of_not_touches hl]
        refine h.imp_right ?_
        rintro ⟨l', hl', htouches⟩
        rcases List.mem_cons.mp hl' with rfl | hl'
        · exact absurd htouches hl
        · exact ⟨l', hl', htouches⟩

/-- Without saturation the order of the transfers does not matter. -/
theorem transfers_perm {links links' : List (NeuronId × Cyberlink)} (hperm : links.Perm links')
    {m : OrdMap Bytes32 UInt64} (h : Unsaturated F m links) (h' : Unsaturated F m links') :
    links.foldl (transfer F) m = links'.foldl (transfer F) m := by
  refine Std.ExtTreeMap.ext_getElem? fun k => ?_
  by_cases htouched : ∃ l ∈ links, Touches F k l
  · have hne : (links.foldl (transfer F) m)[k]? ≠ some 0 := foldl_ne_zero (.inr htouched)
    have hne' : (links'.foldl (transfer F) m)[k]? ≠ some 0 :=
      foldl_ne_zero (.inr (by simpa only [hperm.mem_iff] using htouched))
    have hamount := amountAt_foldl h k
    have hamount' := amountAt_foldl h' k
    have hfrom : moved (fromKey F) k links = moved (fromKey F) k links' := (hperm.map _).sum_eq
    have hto : moved (toKey F) k links = moved (toKey F) k links' := (hperm.map _).sum_eq
    have hsame : amountAt (links.foldl (transfer F) m) k = amountAt (links'.foldl (transfer F) m) k := by omega
    rw [amountAt, amountAt, UInt64.toNat_inj] at hsame
    revert hne hne' hsame
    generalize (links.foldl (transfer F) m)[k]? = x
    generalize (links'.foldl (transfer F) m)[k]? = y
    intro hne hne' hsame
    cases x with
    | none =>
        cases y with
        | none => rfl
        | some w => exact absurd (congrArg some hsame.symm) hne'
    | some v =>
        cases y with
        | none => exact absurd (congrArg some hsame) hne
        | some w => exact congrArg some hsame
  · have hnot : ∀ l ∈ links, ¬Touches F k l := fun l hl hl' => htouched ⟨l, hl, hl'⟩
    have hnot' : ∀ l ∈ links', ¬Touches F k l := fun l hl => hnot l (hperm.mem_iff.mpr hl)
    rw [foldl_of_not_touches hnot, foldl_of_not_touches hnot']

/-! ### The other parts -/

/-- What no signal writes. -/
structure Rest where
  locations : OrdMap Particle LocationRecord
  coins : OrdMap Particle CoinRecord
  cards : OrdMap Particle CardRecord
  files : OrdMap Particle FileRecord
  time : OrdMap UInt64 Particle
  signals : OrdMap Particle SignalRecord
  intents : OrdMap Particle IntentRecord
  diameterOverride : Option UInt64
  height : UInt64

def rest (s : State F) : Rest :=
  ⟨s.locations, s.coins, s.cards, s.files, s.time, s.signals, s.intents, s.diameterOverride, s.height⟩

theorem rest_eq : (signals.foldl applySignal s).rest = s.rest := by
  have hparts : (signals.foldl applySignal s).rest = (linksOf signals).foldl (fun r _ => r) s.rest := by
    refine part_links (applyMove_part (fun _ _ => rfl) fun _ _ => rfl) fun s neuron link => ?_
    rw [applyLink]
    split_ifs
    · rfl
    · exact spendFocus_part (π := State.rest) (fun _ _ => rfl) _ neuron link.amount
  rw [hparts]
  generalize linksOf signals = links
  induction links with
  | nil => rfl
  | cons l links ih => exact ih

end State

namespace Adjacency

variable {A B : Adjacency}

theorem perm_of_mem (h : ∀ p x, x ∈ A.axons p ↔ x ∈ B.axons p) (p : Particle) : (A.axons p).Perm (B.axons p) :=
  (List.perm_ext_iff_of_nodup (A.nodup_axons p) (B.nodup_axons p)).mpr (h p)

/-- What depends on the lists up to their order is the same of both indexes. -/
theorem map_eq_of_mem {X : Type} {f : Particle → AxonList → X} (hf : ∀ p (l l' : AxonList), l.axons.Perm l'.axons →
    f p l = f p l') (h : ∀ p x, x ∈ A.axons p ↔ x ∈ B.axons p) :
    A.toList.map (fun e => (e.1, f e.1 e.2)) = B.toList.map fun e => (e.1, f e.1 e.2) := by
  have hmap : A.map f = B.map f := by
    refine Std.ExtTreeMap.ext_getElem? fun p => ?_
    rw [Std.ExtTreeMap.getElem?_map, Std.ExtTreeMap.getElem?_map]
    have hperm := perm_of_mem h p
    rw [axons, axons] at hperm
    cases hA : A[p]? with
    | none =>
        cases hB : B[p]? with
        | none => rfl
        | some l =>
            rw [hA, hB] at hperm
            exact absurd (List.Perm.nil_eq hperm).symm l.nonempty
    | some l =>
        cases hB : B[p]? with
        | none =>
            rw [hA, hB] at hperm
            exact absurd (List.Perm.eq_nil hperm) l.nonempty
        | some l' =>
            rw [hA, hB] at hperm
            exact congrArg some (hf p l l' hperm)
  have htoList := congrArg Std.ExtTreeMap.toList hmap
  rwa [Std.ExtTreeMap.toList_map, Std.ExtTreeMap.toList_map] at htoList

theorem leafEntries_of_mem (h : ∀ p x, x ∈ A.axons p ↔ x ∈ B.axons p) :
    (Keyed.leafEntries A : List (Bytes32 × Digest F)) = Keyed.leafEntries B := by
  have hleaf : ∀ (p : Particle) (l l' : AxonList), l.axons.Perm l'.axons →
      (Keyed.leaf p l : Digest F) = Keyed.leaf p l' := by
    intro p l l' hperm
    have hroot : (memberRoot l.axons : Digest F) = memberRoot l'.axons := by
      refine node_of_perm ?_ (hperm.map _)
      rw [List.map_map]
      exact l.nodup.map fun _ _ h => h
    have hvals : (leafVals l : List F) = leafVals l' := by
      change u64Limbs _ ++ (memberRoot l.axons).toList = u64Limbs _ ++ (memberRoot l'.axons).toList
      rw [hroot, hperm.length_eq]
    rw [Keyed.leaf, Keyed.leaf, hvals]
  have hmap := congrArg (List.map fun e : Particle × Digest F => (keyBytes e.1, e.2)) (map_eq_of_mem hleaf h)
  rw [List.map_map, List.map_map] at hmap
  exact hmap

theorem size_of_mem (h : ∀ p x, x ∈ A.axons p ↔ x ∈ B.axons p) : A.size = B.size := by
  have hmap := congrArg List.length (map_eq_of_mem (f := fun _ _ => ()) (fun _ _ _ _ => rfl) h)
  rwa [List.length_map, List.length_map, Std.ExtTreeMap.length_toList, Std.ExtTreeMap.length_toList] at hmap

theorem longest_of_mem (h : ∀ p x, x ∈ A.axons p ↔ x ∈ B.axons p) : A.longest = B.longest := by
  have hmap := congrArg (List.map Prod.snd) (map_eq_of_mem (f := fun _ l => l.axons.length)
    (fun _ _ _ hperm => hperm.length_eq) h)
  rw [List.map_map, List.map_map] at hmap
  rw [longest, longest]
  exact congrArg (fun l : List Nat => l.max?.getD 0) hmap

end Adjacency

namespace State

/-- The root under the second version. -/
def rootV2 (s : State F) : Particle := { s with rootVersion := .v2 }.root

/-- The states agree, with the adjacency lists as sets. -/
structure SameGraph (s s' : State F) : Prop where
  particles : s.particles = s'.particles
  neurons : s.neurons = s'.neurons
  commitments : s.commitments = s'.commitments
  nullifiers : s.nullifiers = s'.nullifiers
  axonEdges : s.axonEdges = s'.axonEdges
  axonsOut : ∀ p x, x ∈ s.axonsOut.axons p ↔ x ∈ s'.axonsOut.axons p
  axonsIn : ∀ p x, x ∈ s.axonsIn.axons p ↔ x ∈ s'.axonsIn.axons p

variable {s s' s₁ s₂ : State F} {signals signals' : List Signal}

/-- The second root does not see the order of the adjacency lists. -/
theorem SameGraph.rootV2 (h : SameGraph s s') (hbalances : s.balances = s'.balances) (hrest : s.rest = s'.rest) :
    s.rootV2 = s'.rootV2 := by
  have hlocations : s.locations = s'.locations := congrArg Rest.locations hrest
  have hcoins : s.coins = s'.coins := congrArg Rest.coins hrest
  have hcards : s.cards = s'.cards := congrArg Rest.cards hrest
  have hfiles : s.files = s'.files := congrArg Rest.files hrest
  have htime : s.time = s'.time := congrArg Rest.time hrest
  have hsignals : s.signals = s'.signals := congrArg Rest.signals hrest
  have hoverride : s.diameterOverride = s'.diameterOverride := congrArg Rest.diameterOverride hrest
  have hstats : { s with rootVersion := .v2 }.statistics = { s' with rootVersion := .v2 }.statistics := by
    simp only [statistics, h.particles, h.neurons, hlocations, hcoins, hcards, hfiles, htime, hsignals, hoverride,
      hbalances, Adjacency.size_of_mem h.axonsOut, Adjacency.size_of_mem h.axonsIn, Adjacency.longest_of_mem h.axonsOut,
      Adjacency.longest_of_mem h.axonsIn]
  have hleaves : { s with rootVersion := .v2 }.v2Leaves = { s' with rootVersion := .v2 }.v2Leaves := by
    simp only [v2Leaves, h.particles, h.neurons, h.commitments, h.nullifiers, hlocations, hcoins, hcards, hfiles, htime,
      hsignals, hbalances, Adjacency.leafEntries_of_mem h.axonsOut, Adjacency.leafEntries_of_mem h.axonsIn]
  rw [State.rootV2, State.rootV2, root, root, rootLeaves, rootLeaves]
  dsimp only
  rw [hstats, hleaves]

/-- Two orders of the same signals that are both accepted lead to the same graph; and without saturation of a
balance, to the same balances and the same root. Axon ids must not identify two links of the signals. -/
theorem insertAll_perm (hperm : signals.Perm signals')
    (hinj : Set.InjOn (fun e => axonId F e.1 e.2) (linkEnds signals))
    (hpoints : (((movesOf signals).filterMap BoxMove.commitment).map Prod.fst).Nodup)
    (h₁ : s.insertAll signals = some s₁) (h₂ : s.insertAll signals' = some s₂) :
    SameGraph s₁ s₂ ∧ (Unsaturated F s.balances (linksOf signals) → Unsaturated F s.balances (linksOf signals') →
      s₁.balances = s₂.balances ∧ s₁.rootV2 = s₂.rootV2) := by
  obtain rfl := insertAll_eq h₁
  obtain rfl := insertAll_eq h₂
  have hlinks := linksOf_perm hperm
  have hmoves := movesOf_perm hperm
  have hends : ∀ l ∈ linksOf signals, l.2.ends ∈ linkEnds signals := by
    intro l hl
    obtain ⟨signal, hsignal, hl⟩ := List.mem_flatMap.mp hl
    obtain ⟨link, hlink, rfl⟩ := List.mem_map.mp hl
    exact ⟨signal, hsignal, link, hlink, rfl⟩
  have hgraph : SameGraph (signals.foldl applySignal s) (signals'.foldl applySignal s) := by
    refine ⟨?_, ?_, ?_, ?_, ?_, fun p x => ?_, fun p x => ?_⟩
    · rw [particles_eq, particles_eq]
      exact (hlinks.flatMap_right _).foldl_eq' (fun u _ u' _ m => grow_comm m u u') _
    · rw [neurons_eq, neurons_eq]
      exact hlinks.foldl_eq' (fun l _ l' _ m => spend_comm m l l') _
    · rw [commitments_eq, commitments_eq]
      refine (hmoves.filterMap _).foldl_eq' (fun output houtput output' houtput' m => ?_) _
      refine insert_comm m fun hpoint => ?_
      rw [List.inj_on_of_nodup_map hpoints houtput houtput' hpoint]
    · rw [nullifiers_eq, nullifiers_eq]
      exact hmoves.foldl_eq' (fun mv _ mv' _ m => insert_comm m fun _ => rfl) _
    · rw [axonEdges_eq, axonEdges_eq]
      exact hlinks.foldl_eq' (fun l hl l' hl' m => edge_comm m fun hid => hinj (hends l hl) (hends l' hl') hid) _
    · rw [axonsOut_eq, axonsOut_eq]
      exact mem_foldl_add_perm hlinks (fun l => l.2.source) fun l => axonId F l.2.source l.2.target
    · rw [axonsIn_eq, axonsIn_eq]
      exact mem_foldl_add_perm hlinks (fun l => l.2.target) fun l => axonId F l.2.source l.2.target
  refine ⟨hgraph, fun hsat hsat' => ?_⟩
  have hbalances : (signals.foldl applySignal s).balances = (signals'.foldl applySignal s).balances := by
    rw [balances_eq, balances_eq]
    exact transfers_perm hlinks hsat hsat'
  exact ⟨hbalances, hgraph.rootV2 hbalances (rest_eq.trans rest_eq.symm)⟩

/-- A signal of one link from a particle to itself, and a box that is spent into a commitment. -/
def selfTransfer (b : UInt8) (amount : UInt64) : Signal :=
  ⟨Vector.replicate 32 1, [⟨Vector.replicate 32 b, Vector.replicate 32 b, Vector.replicate 32 9, amount, 1⟩],
    [⟨Vector.replicate 32 b, some (Vector.replicate 32 b, 3)⟩], 0⟩

theorem insertAll_perm_selfTransfers : ∃ s₁ s₂, (State.new : State Rolling).insertAll [selfTransfer 2 5, selfTransfer 3 7] = some s₁ ∧
    (State.new : State Rolling).insertAll [selfTransfer 3 7, selfTransfer 2 5] = some s₂ ∧ SameGraph s₁ s₂ ∧
    s₁.rootV2 = s₂.rootV2 := by
  obtain ⟨s₁, h₁⟩ := Option.isSome_iff_exists.mp
    (show ((State.new : State Rolling).insertAll [selfTransfer 2 5, selfTransfer 3 7]).isSome = true by decide +kernel)
  obtain ⟨s₂, h₂⟩ := Option.isSome_iff_exists.mp
    (show ((State.new : State Rolling).insertAll [selfTransfer 3 7, selfTransfer 2 5]).isSome = true by decide +kernel)
  have hends : ∀ e ∈ linkEnds [selfTransfer 2 5, selfTransfer 3 7],
      e ∈ [((Vector.replicate 32 2, Vector.replicate 32 2) : Particle × Particle),
        (Vector.replicate 32 3, Vector.replicate 32 3)] := by
    rintro e ⟨signal, hsignal, link, hlink, rfl⟩
    simp only [List.mem_cons, List.not_mem_nil, or_false] at hsignal
    rcases hsignal with rfl | rfl
    · obtain rfl := List.mem_singleton.mp hlink
      simp [Cyberlink.ends]
    · obtain rfl := List.mem_singleton.mp hlink
      simp [Cyberlink.ends]
  have hinj : ∀ e ∈ [((Vector.replicate 32 2, Vector.replicate 32 2) : Particle × Particle),
        (Vector.replicate 32 3, Vector.replicate 32 3)],
      ∀ e' ∈ [((Vector.replicate 32 2, Vector.replicate 32 2) : Particle × Particle),
        (Vector.replicate 32 3, Vector.replicate 32 3)],
      axonId Rolling e.1 e.2 = axonId Rolling e'.1 e'.2 → e = e' := by
    decide +kernel
  obtain ⟨hsame, hroots⟩ := insertAll_perm (List.Perm.swap _ _ _)
    (fun e he e' he' heq => hinj e (hends e he) e' (hends e' he') heq) (by decide) h₁ h₂
  obtain ⟨-, hroot⟩ := hroots ⟨by decide +kernel, by decide +kernel, by decide +kernel, by decide +kernel, trivial⟩
    ⟨by decide +kernel, by decide +kernel, by decide +kernel, by decide +kernel, trivial⟩
  exact ⟨s₁, s₂, h₁, h₂, hsame, hroot⟩

end State

end LeanBbg
