import LeanBbg.DoubleSpend
import LeanBbg.Reordering

/-! The balance check of the native path against the insertion it admits. The check counts on a scratch map
that is filled from the rows as they are read and keeps zeros; the insertion saturates on the rows themselves
and removes the zero ones. Both read the same amounts after every link. -/

set_option linter.unusedSectionVars false

namespace LeanBbg

variable {F : Type} [Hemera F] [DecidableEq F] [Brakedown F]

/-- The scratch map of the check after the links. -/
def scratchLinks (b : Bbg F) : OrdMap Bytes32 UInt64 → List Cyberlink → Except Error (OrdMap Bytes32 UInt64)
  | balances, [] => .ok balances
  | balances, link :: links =>
      let target := balanceKey F link.target link.token
      let source := balanceKey F link.source link.token
      match checkedAdd (balances[target]?.getD (b.state.balances[target]?.getD 0)) link.amount with
      | none => .error (.overflow "balance")
      | some credit =>
          let balances := balances.insert target credit
          let debit := balances[source]?.getD (b.state.balances[source]?.getD 0)
          scratchLinks b (balances.insert source (saturatingSub debit link.amount)) links

/-- The check is the scratch map that is thrown away at the end. -/
theorem validateLinks_eq (b : Bbg F) (balances : OrdMap Bytes32 UInt64) (links : List Cyberlink) :
    validateLinks b balances links = (scratchLinks b balances links).map fun _ => () := by
  induction links generalizing balances with
  | nil => rfl
  | cons link links ih =>
      rw [validateLinks, scratchLinks]
      dsimp only
      cases checkedAdd (balances[balanceKey F link.target link.token]?.getD
          (b.state.balances[balanceKey F link.target link.token]?.getD 0)) link.amount with
      | none => rfl
      | some credit => exact ih _

/-- What the check reads at a key. -/
def scratchRead (b : Bbg F) (balances : OrdMap Bytes32 UInt64) (k : Bytes32) : UInt64 :=
  balances[k]?.getD (b.state.balances[k]?.getD 0)

theorem scratchRead_insert (b : Bbg F) (balances : OrdMap Bytes32 UInt64) (key k : Bytes32) (v : UInt64) :
    scratchRead b (balances.insert key v) k = if key = k then v else scratchRead b balances k := by
  rw [scratchRead, OrdMap.getElem?_insert]
  split_ifs
  · rfl
  · rfl

namespace State

/-- No credit of the links reaches the limit of a balance. -/
def CreditsFit (neuron : NeuronId) : State F → List Cyberlink → Prop
  | _, [] => True
  | s, link :: links =>
      (s.balances[balanceKey F link.target link.token]?.getD 0).toNat + link.amount.toNat < 2 ^ 64 ∧
        CreditsFit neuron (s.applyLink neuron link) links

/-- A transfer whose credit fits moves the amount; at one key for both ends, the credit comes first. -/
theorem amountAt_transfer_sub {m : OrdMap Bytes32 UInt64} {l : NeuronId × Cyberlink}
    (hcredit : amountAt m (toKey F l) + l.2.amount.toNat < 2 ^ 64) (k : Bytes32) :
    amountAt (transfer F m l) k =
      (amountAt m k + if toKey F l = k then l.2.amount.toNat else 0) - if fromKey F l = k then l.2.amount.toNat else 0 := by
  rw [transfer]
  by_cases hamount : l.2.amount = 0
  · rw [if_pos hamount, hamount]
    simp
  · have hcredited : amountAt (creditRow m (toKey F l) l.2.amount) k =
        amountAt m k + if toKey F l = k then l.2.amount.toNat else 0 := by
      rw [amountAt_creditRow]
      split_ifs with hto
      · rw [hto] at hcredit
        omega
      · rfl
    rw [if_neg hamount, amountAt_debitRow, hcredited]
    split_ifs <;> rfl

end State

/-! ### One link -/

/-- The rows hold what the check reads. -/
def Predicts (b : Bbg F) (balances rows : OrdMap Bytes32 UInt64) : Prop :=
  ∀ k, rows[k]?.getD 0 = scratchRead b balances k

variable {b : Bbg F} {balances rows : OrdMap Bytes32 UInt64}

/-- After a link that the check admits, the rows hold what the check reads, and the credit was not cut. -/
theorem Predicts.link (h : Predicts b balances rows) {link : Cyberlink} {credit : UInt64}
    (hcredit : checkedAdd (scratchRead b balances (balanceKey F link.target link.token)) link.amount = some credit)
    (neuron : NeuronId) :
    (rows[balanceKey F link.target link.token]?.getD 0).toNat + link.amount.toNat < 2 ^ 64 ∧
      Predicts b ((balances.insert (balanceKey F link.target link.token) credit).insert
        (balanceKey F link.source link.token)
        (saturatingSub (scratchRead b (balances.insert (balanceKey F link.target link.token) credit)
          (balanceKey F link.source link.token)) link.amount))
        (State.transfer F rows (neuron, link)) := by
  have hsum := toNat_checkedAdd hcredit
  rw [← h] at hsum
  have hfits : (rows[balanceKey F link.target link.token]?.getD 0).toNat + link.amount.toNat < 2 ^ 64 := by
    have := credit.toNat_lt
    omega
  refine ⟨hfits, fun k => UInt64.toNat_inj.mp ?_⟩
  refine (State.amountAt_transfer_sub (l := (neuron, link)) hfits k).trans ?_
  have hcredited : ∀ k, (scratchRead b (balances.insert (balanceKey F link.target link.token) credit) k).toNat =
      (rows[k]?.getD 0).toNat + if balanceKey F link.target link.token = k then link.amount.toNat else 0 := by
    intro k
    rw [scratchRead_insert]
    split_ifs with hto
    · rw [hsum, hto]
    · rw [← h]
      rfl
  rw [scratchRead_insert]
  change (rows[k]?.getD 0).toNat + (if balanceKey F link.target link.token = k then link.amount.toNat else 0) -
    (if balanceKey F link.source link.token = k then link.amount.toNat else 0) = _
  by_cases hfrom : balanceKey F link.source link.token = k
  · rw [if_pos hfrom, if_pos hfrom, toNat_saturatingSub, hcredited, hfrom]
  · rw [if_neg hfrom, if_neg hfrom, hcredited, Nat.sub_zero]

/-! ### All links -/

/-- Links that the check admits leave in the rows what its scratch map has; it has the keys of all links. -/
theorem scratchLinks_predicts {links : List Cyberlink} {scratch : OrdMap Bytes32 UInt64} {s : State F}
    (h : Predicts b balances s.balances) (hscratch : scratchLinks b balances links = .ok scratch) (neuron : NeuronId) :
    Predicts b scratch (links.foldl (State.applyLink neuron) s).balances ∧ s.CreditsFit neuron links ∧
      (∀ k, balances.contains k → scratch.contains k) ∧
      ∀ link ∈ links, scratch.contains (balanceKey F link.target link.token) ∧
        scratch.contains (balanceKey F link.source link.token) := by
  induction links generalizing balances s with
  | nil =>
      obtain rfl := Except.ok.inj hscratch
      exact ⟨h, trivial, fun _ hk => hk, nofun⟩
  | cons link links ih =>
      rw [scratchLinks] at hscratch
      cases hcredit : checkedAdd (balances[balanceKey F link.target link.token]?.getD
          (b.state.balances[balanceKey F link.target link.token]?.getD 0)) link.amount with
      | none =>
          rw [hcredit] at hscratch
          cases hscratch
      | some credit =>
          rw [hcredit] at hscratch
          obtain ⟨hfits, hstep⟩ := h.link hcredit neuron
          rw [← State.applyLink_balances] at hstep
          obtain ⟨hpredicts, hrest, hkeep, hkeys⟩ := ih hstep hscratch
          refine ⟨hpredicts, ⟨hfits, hrest⟩, fun k hk => hkeep k ?_, List.forall_mem_cons.mpr ⟨⟨hkeep _ ?_, hkeep _ ?_⟩, hkeys⟩⟩
          · rw [Std.ExtTreeMap.contains_insert, Std.ExtTreeMap.contains_insert, hk, Bool.or_true, Bool.or_true]
          · rw [Std.ExtTreeMap.contains_insert, Std.ExtTreeMap.contains_insert_self, Bool.or_true]
          · exact Std.ExtTreeMap.contains_insert_self

theorem validateMoves_unspent {seen : OrdMap Bytes32 Unit} {moves : List BoxMove}
    (h : validateMoves b seen moves = .ok ()) : (moves.any fun mv => b.state.nullifiers.contains mv.nullifier) = false := by
  induction moves generalizing seen with
  | nil => rfl
  | cons mv moves ih =>
      rw [validateMoves] at h
      split_ifs at h with hseen
      rw [Bool.or_eq_true, not_or] at hseen
      rw [List.any_cons, ih h, Bool.eq_false_iff.mpr hseen.1]
      rfl

/-- An accepted signal has unspent boxes and links that the scratch map admits. -/
theorem exists_scratch {signal : Signal} {key : Particle} {header : SignalRecord}
    (h : validate b signal key header = .ok ()) :
    b.state.spent signal = false ∧ ∃ scratch, scratchLinks b ∅ signal.links = .ok scratch := by
  rw [validate] at h
  split_ifs at h
  cases hmoves : validateMoves b ∅ signal.boxMoves with
  | error e =>
      rw [hmoves] at h
      cases h
  | ok u =>
      rw [hmoves] at h
      dsimp only at h
      rw [validateLinks_eq] at h
      refine ⟨validateMoves_unspent hmoves, ?_⟩
      cases hscratch : scratchLinks b ∅ signal.links with
      | error e =>
          rw [hscratch] at h
          cases h
      | ok scratch => exact ⟨scratch, rfl⟩

/-- The check predicts the insertion. A signal that it accepts is inserted; the scratch map has the balance
keys of all links, and after the insertion the rows hold its amounts, a missing row being zero; and no credit
of the insertion saturates. -/
theorem validate_predicts_insert {signal : Signal} {key : Particle} {header : SignalRecord}
    (h : validate b signal key header = .ok ()) :
    (b.state.insert signal).1 = .ok () ∧ ∃ scratch, scratchLinks b ∅ signal.links = .ok scratch ∧
      (∀ link ∈ signal.links, scratch.contains (balanceKey F link.target link.token) ∧
        scratch.contains (balanceKey F link.source link.token)) ∧
      (∀ (k : Bytes32) (v : UInt64), scratch[k]? = some v → (b.state.insert signal).2.balances[k]?.getD 0 = v) ∧
      State.CreditsFit signal.neuron (signal.boxMoves.foldl State.applyMove b.state) signal.links := by
  obtain ⟨hspent, scratch, hscratch⟩ := exists_scratch h
  have hinsert : b.state.insert signal = (.ok (), signal.links.foldl (State.applyLink signal.neuron)
      (signal.boxMoves.foldl State.applyMove b.state)) := by
    rw [State.insert, hspent]
    rfl
  have hstart : Predicts b ∅ (signal.boxMoves.foldl State.applyMove b.state).balances := by
    intro k
    rw [State.foldl_applyMove_balances, scratchRead]
    simp
  obtain ⟨hpredicts, hfits, -, hkeys⟩ := scratchLinks_predicts hstart hscratch signal.neuron
  rw [hinsert]
  refine ⟨rfl, scratch, hscratch, hkeys, fun k v hv => ?_, hfits⟩
  rw [hpredicts k, scratchRead, hv]
  rfl

/-- A link to its own source, a link to another, and a link back. -/
def threeLinks : Signal :=
  ⟨Vector.replicate 32 1, [⟨Vector.replicate 32 2, Vector.replicate 32 2, Vector.replicate 32 4, 9, 0⟩,
    ⟨Vector.replicate 32 2, Vector.replicate 32 3, Vector.replicate 32 4, 5, 0⟩,
    ⟨Vector.replicate 32 3, Vector.replicate 32 2, Vector.replicate 32 4, 3, 0⟩], [], 0⟩

theorem validate_predicts_insert_threeLinks :
    ((Bbg.new : Bbg Rolling).state.insert threeLinks).1 = .ok () ∧
      ((Bbg.new : Bbg Rolling).state.insert threeLinks).2.balances[balanceKey Rolling (Vector.replicate 32 3)
        (Vector.replicate 32 4)]?.getD 0 = 2 := by
  have hvalid : (validate (Bbg.new : Bbg Rolling) threeLinks (Vector.replicate 32 0)
      ⟨Vector.replicate 32 1, Vector.replicate 32 0, 3, 0, Vector.replicate 32 0, 0⟩).toOption = some () := by
    decide +kernel
  have hrow : (scratchLinks (Bbg.new : Bbg Rolling) ∅ threeLinks.links).toOption.map
      (fun m => m[balanceKey Rolling (Vector.replicate 32 3) (Vector.replicate 32 4)]?) = some (some 2) := by
    decide +kernel
  have hok : validate (Bbg.new : Bbg Rolling) threeLinks (Vector.replicate 32 0)
      ⟨Vector.replicate 32 1, Vector.replicate 32 0, 3, 0, Vector.replicate 32 0, 0⟩ = .ok () := by
    cases hcases : validate (Bbg.new : Bbg Rolling) threeLinks (Vector.replicate 32 0)
        ⟨Vector.replicate 32 1, Vector.replicate 32 0, 3, 0, Vector.replicate 32 0, 0⟩ with
    | ok u => rfl
    | error e =>
        rw [hcases] at hvalid
        cases hvalid
  obtain ⟨hinsert, scratch, hscratch, -, hrows, -⟩ := validate_predicts_insert hok
  rw [hscratch] at hrow
  exact ⟨hinsert, hrows _ 2 (Option.some_inj.mp hrow)⟩

end LeanBbg
