import LeanBbg.NativeRuns
import LeanBbg.RollingHash

/-! The balances dimension over whole runs. Links keep every row positive: a credit is of a positive amount,
and a debit that reaches zero removes its row. A local credit of zero to an owner without a row writes a row
that holds zero, and it is the only write that does. -/

set_option linter.unusedSectionVars false

namespace LeanBbg

variable {F : Type} [Hemera F] [DecidableEq F] [Brakedown F]

theorem toNat_saturatingAdd (a b : UInt64) : (saturatingAdd a b).toNat = min (a.toNat + b.toNat) (2 ^ 64 - 1) := by
  rw [saturatingAdd, UInt64.toNat_ofNat']
  exact Nat.mod_eq_of_lt (by omega)

/-- A row that has been credited is not zero. -/
theorem credited_ne_zero (row : Option UInt64) {amount : UInt64} (h : amount ≠ 0) :
    (row.map fun b => saturatingAdd b amount).getD amount ≠ 0 := by
  cases row with
  | none => exact h
  | some v =>
      intro heq
      have hnat := congrArg UInt64.toNat heq
      have hpos : amount.toNat ≠ 0 := fun hzero => h (UInt64.toNat_inj.mp hzero)
      rw [Option.map_some, Option.getD_some, toNat_saturatingAdd] at hnat
      simp only [UInt64.toNat_zero] at hnat
      omega

theorem toNat_saturatingSub (a b : UInt64) : (saturatingSub a b).toNat = a.toNat - b.toNat := by
  rw [saturatingSub]
  split_ifs with h
  · exact UInt64.toNat_sub_of_le _ _ h
  · have hlt : a.toNat < b.toNat := UInt64.lt_iff_toNat_lt.mp (UInt64.not_le.mp h)
    simp
    omega

theorem toNat_checkedAdd {a b c : UInt64} (h : checkedAdd a b = some c) : c.toNat = a.toNat + b.toNat := by
  rw [checkedAdd] at h
  split_ifs at h with hlt
  obtain rfl := Option.some_inj.mp h
  rw [UInt64.toNat_add]
  exact Nat.mod_eq_of_lt hlt

namespace State

/-- No row holds zero. -/
def NoZeroBalance (s : State F) : Prop := ∀ k : Bytes32, s.balances[k]? ≠ some 0

variable {s : State F}

theorem NoZeroBalance.insert {balances : OrdMap Bytes32 UInt64} (h : ∀ k : Bytes32, balances[k]? ≠ some 0) {key : Bytes32}
    {v : UInt64} (hv : v ≠ 0) (k : Bytes32) : (balances.insert key v)[k]? ≠ some 0 := by
  rw [OrdMap.getElem?_insert]
  split_ifs
  · exact fun heq => hv (Option.some_inj.mp heq)
  · exact h k

theorem NoZeroBalance.credit (h : s.NoZeroBalance) {key : Bytes32} {amount : UInt64} (hamount : amount ≠ 0) :
    (s.credit key amount).NoZeroBalance :=
  NoZeroBalance.insert h (credited_ne_zero _ hamount)

theorem NoZeroBalance.debit (h : s.NoZeroBalance) (key : Bytes32) (amount : UInt64) :
    (s.debit key amount).NoZeroBalance := by
  intro k
  rw [State.debit]
  dsimp only
  split_ifs with hzero
  · rw [OrdMap.getElem?_erase]
    split_ifs
    · exact (Option.some_ne_none _).symm
    · exact h k
  · exact NoZeroBalance.insert h hzero k

theorem spendFocus_balances (s : State F) (neuron : NeuronId) (amount : UInt64) :
    (s.spendFocus neuron amount).balances = s.balances := by
  rw [spendFocus]
  cases s.neurons[neuron]? <;> rfl

theorem NoZeroBalance.applyLink (h : s.NoZeroBalance) (neuron : NeuronId) (link : Cyberlink) :
    (s.applyLink neuron link).NoZeroBalance := by
  rw [State.applyLink]
  split_ifs with hamount
  · exact h
  · refine NoZeroBalance.debit (NoZeroBalance.credit ?_ hamount) _ _
    intro k
    rw [spendFocus_balances]
    exact h k

theorem applyMove_balances (s : State F) (mv : BoxMove) : (s.applyMove mv).balances = s.balances := by
  rw [applyMove]
  cases mv.commitment <;> rfl

theorem foldl_applyMove_balances (moves : List BoxMove) (s : State F) :
    (moves.foldl applyMove s).balances = s.balances := by
  induction moves generalizing s with
  | nil => rfl
  | cons mv moves ih => exact (ih _).trans (applyMove_balances s mv)

theorem NoZeroBalance.foldl_applyLink (h : s.NoZeroBalance) (neuron : NeuronId) (links : List Cyberlink) :
    (links.foldl (State.applyLink neuron) s).NoZeroBalance := by
  induction links generalizing s with
  | nil => exact h
  | cons link links ih => exact ih (h.applyLink neuron link)

end State

namespace Bbg

variable {b : Bbg F}

theorem removeAxon_balances (b : Bbg F) (axon : Particle) : (b.removeAxon axon).state.balances = b.state.balances := by
  rw [removeAxon, State.removeAxon]
  cases b.state.axonEdges[axon]? <;> rfl

theorem prune_balances (b : Bbg F) (epoch : UInt64) : (b.prune epoch).state.balances = b.state.balances :=
  prune_induction (I := fun b' => b'.state.balances = b.state.balances)
    (fun axon _ b' h => (removeAxon_balances b' axon).trans h) rfl

theorem finalizeBlock_balances (b : Bbg F) : b.finalizeBlock.state.balances = b.state.balances :=
  finalizeBlock_induction (I := fun b' => b'.state.balances = b.state.balances)
    (fun _ axon _ b' h => (removeAxon_balances b' axon).trans h) (fun _ h => h) rfl

theorem noZero_accept (h : b.state.NoZeroBalance) (signal : Signal) : (b.accept signal).state.NoZeroBalance := by
  change (signal.links.foldl (State.applyLink signal.neuron) _).NoZeroBalance
  refine State.NoZeroBalance.foldl_applyLink ?_ signal.neuron signal.links
  intro k
  change (signal.boxMoves.foldl State.applyMove b.state).balances[k]? ≠ some 0
  rw [State.foldl_applyMove_balances]
  exact h k

/-- A local credit of an amount, or of zero to an owner that has a row. -/
def Funded (b : Bbg F) : NativeChange → Prop
  | .localCredit neuron token amount _ => amount ≠ 0 ∨ b.state.balances.contains (balanceKey F neuron token)
  | _ => True

theorem noZero_event {change : NativeChange} {b' : Bbg F} (h : b.state.NoZeroBalance) (hfunded : b.Funded change)
    (hevent : b.plainEvent change = some b') : b'.state.NoZeroBalance := by
  cases change with
  | signal signal header =>
      rw [plainEvent, plainSignal, insert_eq] at hevent
      split_ifs at hevent
      obtain rfl := Option.some_inj.mp hevent
      intro k
      rw [finalizeBlock_balances]
      exact noZero_accept h signal k
  | intent intent =>
      obtain rfl := Option.some_inj.mp hevent
      exact h
  | localCredit neuron token amount focus =>
      obtain ⟨balance, hbalance, hevent⟩ := Option.bind_eq_some_iff.mp hevent
      obtain ⟨nextFocus, -, hevent⟩ := Option.bind_eq_some_iff.mp hevent
      obtain rfl := Option.some_inj.mp hevent
      refine State.NoZeroBalance.insert h ?_
      have hsum := toNat_checkedAdd hbalance
      intro hzero
      rw [hzero, UInt64.toNat_zero] at hsum
      rcases hfunded with hamount | hrow
      · exact hamount (UInt64.toNat_inj.mp (by rw [UInt64.toNat_zero]; omega))
      · rw [OrdMap.contains_eq_isSome, Option.isSome_iff_exists] at hrow
        obtain ⟨v, hv⟩ := hrow
        rw [hv, Option.getD_some] at hsum
        refine h _ (hv.trans (congrArg some (UInt64.toNat_inj.mp ?_)))
        rw [UInt64.toNat_zero]
        omega

/-- The local credits of an accepted batch are funded where they are applied. -/
def FundedAct (b : Bbg F) : Act → Prop
  | .op (.publish events) =>
      (b.prepareNativeBatch events).isOk → Refine.RunAlong plainStep Funded b events
  | _ => True

variable [NebuRoundTrip F]

theorem noZero_act {a : Act} {next : List Signal × Bbg F} (h : b.state.NoZeroBalance) (hfunded : b.FundedAct a)
    (hact : b.act a = some next) : next.2.state.NoZeroBalance := by
  cases a with
  | configure config =>
      obtain rfl := Option.some_inj.mp hact
      exact h
  | op op =>
      change b.step op = some next at hact
      cases op with
      | insert signal =>
          rw [step_insert] at hact
          split_ifs at hact
          · obtain rfl := Option.some_inj.mp hact
            exact h
          · obtain rfl := Option.some_inj.mp hact
            exact noZero_accept h signal
      | finalizeBlock =>
          obtain rfl := Option.some_inj.mp hact
          intro k
          rw [finalizeBlock_balances]
          exact h k
      | prune config epoch =>
          obtain rfl := Option.some_inj.mp hact
          intro k
          change (prune { b with pruneConfig := config } epoch).state.balances[k]? ≠ some 0
          rw [prune_balances]
          exact h k
      | applyIntent intent =>
          obtain rfl := Option.some_inj.mp hact
          exact h
      | applySignalRecord record =>
          obtain rfl := Option.some_inj.mp hact
          exact h
      | publish events =>
          rcases step_publish b events with hsame | ⟨p, hprepare, hpublish⟩
          · obtain rfl := Option.some_inj.mp (hsame.symm.trans hact)
            exact h
          · obtain rfl := Option.some_inj.mp (hpublish.symm.trans hact)
            have hgood := hfunded (by rw [hprepare]; rfl)
            exact prepare_induction (I := fun _ b => b.state.NoZeroBalance)
              (fun _ _ _ _ hI _ hgood hevent => noZero_event hI hgood hevent) h hprepare hgood
      | drop events =>
          obtain rfl := Option.some_inj.mp ((step_drop b events).symm.trans hact)
          exact h

/-- States without zero rows whose owners have the same balances have the same rows. -/
theorem balances_eq_of_noZero {s s' : State F} (h : s.NoZeroBalance) (h' : s'.NoZeroBalance)
    (heq : ∀ k : Bytes32, s.balances[k]?.getD 0 = s'.balances[k]?.getD 0) : s.balances = s'.balances := by
  refine Std.ExtTreeMap.ext_getElem? fun k => ?_
  have hk := heq k
  have hs := h k
  have hs' := h' k
  revert hk hs hs'
  generalize s.balances[k]? = x
  generalize s'.balances[k]? = y
  intro hk hs hs'
  cases x with
  | none =>
      cases y with
      | none => rfl
      | some v => exact absurd (congrArg some hk.symm) hs'
  | some v =>
      cases y with
      | none => exact absurd (congrArg some hk) hs
      | some w => exact congrArg some hk

/-- In a run whose local credits are all funded no row ever holds zero; an owner without a balance has no row,
and two such states with the same balances that differ in nothing else have the same root. -/
theorem run_noZeroBalance (acts : List Act) (hfunded : Refine.RunAlong act FundedAct (new : Bbg F) acts) :
    ∃ answers b, Refine.run act (new : Bbg F) acts = some (answers, b) ∧ b.state.NoZeroBalance ∧
      (∀ owner token, b.state.balances[balanceKey F owner token]?.getD 0 = 0 →
        b.state.balances.contains (balanceKey F owner token) = false) ∧
      ∀ s : State F, s.NoZeroBalance → (∀ k : Bytes32, s.balances[k]?.getD 0 = b.state.balances[k]?.getD 0) →
        { b.state with balances := s.balances }.root = b.state.root := by
  obtain ⟨answers, b, hrun⟩ := Refine.exists_run exists_act (new : Bbg F) acts
  have hstart : (new : Bbg F).state.NoZeroBalance := by
    intro k
    simp [new, State.new]
  have h : b.state.NoZeroBalance :=
    Refine.run_induction_along (I := fun _ b => b.state.NoZeroBalance)
      (fun _ _ _ _ hI hgood hact => noZero_act hI hgood hact) [] hstart hfunded hrun
  refine ⟨answers, b, hrun, h, fun owner token hzero => ?_, fun s hs heq => ?_⟩
  · rw [OrdMap.contains_eq_isSome]
    have hrow := h (balanceKey F owner token)
    revert hzero hrow
    generalize b.state.balances[balanceKey F owner token]? = x
    intro hzero hrow
    cases x with
    | none => rfl
    | some v => exact absurd (congrArg some hzero) hrow
  · rw [balances_eq_of_noZero hs h heq]

/-- A batch with one local credit. -/
def creditOnly (amount : UInt64) : List Act :=
  [.op (.publish [.localCredit (Vector.replicate 32 1) (Vector.replicate 32 2) amount 0])]

theorem run_noZeroBalance_five : ∃ answers b,
    Refine.run act (new : Bbg Rolling) (creditOnly 5) = some (answers, b) ∧ b.state.NoZeroBalance := by
  have hfunded : Refine.RunAlong act FundedAct (new : Bbg Rolling) (creditOnly 5) :=
    ⟨fun _ => ⟨.inl (by decide), fun _ _ => trivial⟩, fun _ _ => trivial⟩
  obtain ⟨answers, b, hrun, hzero, -⟩ := run_noZeroBalance (creditOnly 5) hfunded
  exact ⟨answers, b, hrun, hzero⟩

/-- A local credit of zero to an owner without a row writes a row that holds zero. -/
theorem zeroCredit_row : ∃ answers b, Refine.run act (new : Bbg Rolling) (creditOnly 0) = some (answers, b) ∧
    b.state.balances[balanceKey Rolling (Vector.replicate 32 1) (Vector.replicate 32 2)]? = some 0 := by
  have hrow : (Refine.run act (new : Bbg Rolling) (creditOnly 0)).map (fun r =>
      r.2.state.balances[balanceKey Rolling (Vector.replicate 32 1) (Vector.replicate 32 2)]?) = some (some 0) := by
    decide +kernel
  obtain ⟨⟨answers, b⟩, hrun, hb⟩ := Option.map_eq_some_iff.mp hrow
  exact ⟨answers, b, hrun, hb⟩

end Bbg

end LeanBbg
