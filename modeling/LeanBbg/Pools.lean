import LeanBbg.Balances
import LeanBbg.Positions
import LeanBbg.RollingHash

/-! Stake and focus pools are out of reach of transfers. The keys of the pools are hashes of 53 bytes, and
every path that moves a balance addresses a hash of 64 bytes; no path writes the cards. -/

set_option linter.unusedSectionVars false

namespace LeanBbg

variable {F : Type} [Hemera F] [DecidableEq F] [Brakedown F]

/-! ### Preimages -/

/-- The owners and tokens whose balances a link moves. -/
def Cyberlink.accounts (link : Cyberlink) : List (Bytes32 × Bytes32) :=
  [(link.source, link.token), (link.target, link.token)]

def Signal.accounts (signal : Signal) : List (Bytes32 × Bytes32) := signal.links.flatMap Cyberlink.accounts

def NativeChange.accounts : NativeChange → List (Bytes32 × Bytes32)
  | .signal sent _ => sent.accounts
  | .intent _ => []
  | .localCredit neuron token _ _ => [(neuron, token)]

def Bbg.Op.accounts : Bbg.Op → List (Bytes32 × Bytes32)
  | .insert signal => signal.accounts
  | .publish events => events.flatMap NativeChange.accounts
  | .drop events => events.flatMap NativeChange.accounts
  | _ => []

/-- What is hashed for the pools of a card and a token and for the balances of a list of accounts. -/
def poolPreimages (card token : Particle) (accounts : List (Bytes32 × Bytes32)) : Set (List UInt8) :=
  {m | m = D_STAKE ++ card.toList ∨ m = D_FOCUS ++ token.toList ∨ ∃ a ∈ accounts, m = a.1.toList ++ a.2.toList}

theorem D_STAKE_length : D_STAKE.length = 21 := by decide

theorem D_FOCUS_length : D_FOCUS.length = 21 := by decide

variable {card token : Particle} {accounts : List (Bytes32 × Bytes32)}

/-- Where the hash has no collision among the preimages, no account is a pool. -/
theorem balanceKey_ne_pool (hinj : Set.InjOn (Hemera.hash (F := F)) (poolPreimages card token accounts))
    {a : Bytes32 × Bytes32} (ha : a ∈ accounts) :
    balanceKey F a.1 a.2 ≠ stakeKey F card ∧ balanceKey F a.1 a.2 ≠ focusKey F token := by
  have hmem : a.1.toList ++ a.2.toList ∈ poolPreimages card token accounts := .inr (.inr ⟨a, ha, rfl⟩)
  have hlen : (a.1.toList ++ a.2.toList).length = 64 := by simp
  constructor
  · intro heq
    have hstake : stakeKey F card = Hemera.hash (F := F) (D_STAKE ++ card.toList) := by
      rw [stakeKey, tagged, List.flatMap_singleton]
    have hsame := hinj hmem (.inl rfl) (heq.trans hstake)
    rw [hsame, List.length_append, D_STAKE_length] at hlen
    simp at hlen
  · intro heq
    have hfocus : focusKey F token = Hemera.hash (F := F) (D_FOCUS ++ token.toList) := by
      rw [focusKey, tagged, List.flatMap_singleton]
    have hsame := hinj hmem (.inr (.inl rfl)) (heq.trans hfocus)
    rw [hsame, List.length_append, D_FOCUS_length] at hlen
    simp at hlen

/-! ### Steps -/

namespace Bbg

/-- The graphs have the same row at `key` and the same cards. -/
structure SamePool (key : Bytes32) (b b' : Bbg F) : Prop where
  row : b'.state.balances[key]? = b.state.balances[key]?
  cards : b'.state.cards = b.state.cards

variable {b b₁ b₂ : Bbg F} {key : Bytes32}

theorem SamePool.refl : SamePool key b b := ⟨rfl, rfl⟩

theorem SamePool.trans (h : SamePool key b b₁) (h' : SamePool key b₁ b₂) : SamePool key b b₂ :=
  ⟨h'.row.trans h.row, h'.cards.trans h.cards⟩

theorem samePool_removeAxon (b : Bbg F) (axon : Particle) : SamePool key b (b.removeAxon axon) := by
  refine ⟨by rw [removeAxon_balances], ?_⟩
  rw [removeAxon, State.removeAxon]
  cases b.state.axonEdges[axon]? <;> rfl

theorem samePool_prune (b : Bbg F) (epoch : UInt64) : SamePool key b (b.prune epoch) :=
  prune_induction (I := SamePool key b) (fun axon _ b' h => h.trans (samePool_removeAxon b' axon)) SamePool.refl

theorem samePool_finalizeBlock (b : Bbg F) : SamePool key b b.finalizeBlock :=
  finalizeBlock_induction (I := SamePool key b) (fun _ axon _ b' h => h.trans (samePool_removeAxon b' axon))
    (fun _ h => ⟨h.row, h.cards⟩) ⟨rfl, rfl⟩

theorem samePool_accept {signal : Signal} (hkey : ∀ a ∈ signal.accounts, balanceKey F a.1 a.2 ≠ key) :
    SamePool key b (b.accept signal) := by
  have htouches : Touches {c | c ≠ .balance key} b (b.accept signal) := by
    refine touches_accept fun c hc => ?_
    rintro rfl
    rcases List.mem_append.mp hc with hmove | hlink
    · obtain ⟨mv, -, hmv⟩ := List.mem_flatMap.mp hmove
      simp [moveCells] at hmv
    · obtain ⟨link, hlink, hc⟩ := List.mem_flatMap.mp hlink
      have haccounts : ∀ a ∈ link.accounts, balanceKey F a.1 a.2 ≠ key := fun a ha =>
        hkey a (List.mem_flatMap.mpr ⟨link, hlink, ha⟩)
      have hsource := haccounts (link.source, link.token) (by simp [Cyberlink.accounts])
      have htarget := haccounts (link.target, link.token) (by simp [Cyberlink.accounts])
      simp [linkCells, hsource.symm, htarget.symm] at hc
  refine ⟨?_, congrArg Fixed.cards htouches.fixed⟩
  exact htouches.cells (.balance key) fun h => h rfl

theorem samePool_event {change : NativeChange} (hkey : ∀ a ∈ change.accounts, balanceKey F a.1 a.2 ≠ key)
    (hevent : b.plainEvent change = some b₁) : SamePool key b b₁ := by
  cases change with
  | signal signal header =>
      rw [plainEvent, plainSignal, insert_eq] at hevent
      split_ifs at hevent
      obtain rfl := Option.some_inj.mp hevent
      have haccept : SamePool key b ((b.accept signal).applySignalRecord header) :=
        (samePool_accept hkey).trans ⟨rfl, rfl⟩
      exact haccept.trans (samePool_finalizeBlock _)
  | intent intent =>
      obtain rfl := Option.some_inj.mp hevent
      exact ⟨rfl, rfl⟩
  | localCredit neuron token amount focus =>
      obtain ⟨balance, -, hevent⟩ := Option.bind_eq_some_iff.mp hevent
      obtain ⟨nextFocus, -, hevent⟩ := Option.bind_eq_some_iff.mp hevent
      obtain rfl := Option.some_inj.mp hevent
      refine ⟨?_, rfl⟩
      exact (OrdMap.getElem?_insert ..).trans (if_neg (hkey (neuron, token) (List.mem_singleton.mpr rfl)))

variable [NebuRoundTrip F]

theorem samePool_step {op : Op} (hkey : ∀ a ∈ op.accounts, balanceKey F a.1 a.2 ≠ key) {next : List Signal × Bbg F}
    (hstep : b.step op = some next) : SamePool key b next.2 := by
  cases op with
  | insert signal =>
      rw [step_insert] at hstep
      split_ifs at hstep
      · obtain rfl := Option.some_inj.mp hstep
        exact SamePool.refl
      · obtain rfl := Option.some_inj.mp hstep
        exact samePool_accept hkey
  | finalizeBlock =>
      obtain rfl := Option.some_inj.mp hstep
      exact samePool_finalizeBlock b
  | prune config epoch =>
      obtain rfl := Option.some_inj.mp hstep
      have hprune : SamePool key { b with pruneConfig := config } _ := samePool_prune _ epoch
      exact ⟨hprune.row, hprune.cards⟩
  | applyIntent intent =>
      obtain rfl := Option.some_inj.mp hstep
      exact ⟨rfl, rfl⟩
  | applySignalRecord record =>
      obtain rfl := Option.some_inj.mp hstep
      exact ⟨rfl, rfl⟩
  | publish events =>
      rcases step_publish b events with hsame | ⟨p, hprepare, hpublish⟩
      · obtain rfl := Option.some_inj.mp (hsame.symm.trans hstep)
        exact SamePool.refl
      · obtain rfl := Option.some_inj.mp (hpublish.symm.trans hstep)
        have hgood : ∀ change ∈ events, ∀ _ : Bbg F, ∀ a ∈ change.accounts, balanceKey F a.1 a.2 ≠ key :=
          fun change hchange _ a ha => hkey a (List.mem_flatMap.mpr ⟨change, hchange, ha⟩)
        exact prepare_induction (I := fun _ b' => SamePool key b b')
          (fun _ _ _ _ hI _ hgood hevent => hI.trans (samePool_event hgood hevent)) SamePool.refl hprepare
          (Refine.runAlong_of_forall hgood b)
  | drop events =>
      obtain rfl := Option.some_inj.mp ((step_drop b events).symm.trans hstep)
      exact SamePool.refl

/-- Where the hash has no collision among the preimages of an operation and of two pools, the operation keeps the
rows of the pools, and all cards. -/
theorem step_pools (b : Bbg F) (op : Op) (card token : Particle)
    (hinj : Set.InjOn (Hemera.hash (F := F)) (poolPreimages card token op.accounts)) :
    ∃ accepted b', b.step op = some (accepted, b') ∧
      b'.state.balances[stakeKey F card]? = b.state.balances[stakeKey F card]? ∧
      b'.state.balances[focusKey F token]? = b.state.balances[focusKey F token]? ∧
      b'.state.cards = b.state.cards := by
  obtain ⟨⟨accepted, b'⟩, hstep⟩ := exists_step b op
  have hstake := samePool_step (fun a ha => (balanceKey_ne_pool hinj ha).1) hstep
  have hfocus := samePool_step (fun a ha => (balanceKey_ne_pool hinj ha).2) hstep
  exact ⟨accepted, b', hstep, hstake.row, hfocus.row, hstake.cards⟩

/-- A link of conviction between two accounts. -/
def oneTransfer : Signal :=
  ⟨Vector.replicate 32 1, [⟨Vector.replicate 32 2, Vector.replicate 32 3, Vector.replicate 32 4, 9, 1⟩], [], 0⟩

theorem step_pools_oneTransfer : ∃ accepted b', (new : Bbg Rolling).step (.insert oneTransfer) = some (accepted, b') ∧
    b'.state.balances[stakeKey Rolling (Vector.replicate 32 2)]? =
      (new : Bbg Rolling).state.balances[stakeKey Rolling (Vector.replicate 32 2)]? := by
  have hlist : ∀ m ∈ poolPreimages (Vector.replicate 32 2) (Vector.replicate 32 4) (Op.insert oneTransfer).accounts,
      m ∈ [D_STAKE ++ (Vector.replicate 32 2).toList, D_FOCUS ++ (Vector.replicate 32 4).toList,
        List.replicate 32 2 ++ List.replicate 32 4, List.replicate 32 3 ++ List.replicate 32 4] := by
    rintro m (rfl | rfl | ⟨a, ha, rfl⟩)
    · simp
    · simp
    · simp only [Op.accounts, Signal.accounts, oneTransfer, Cyberlink.accounts, List.flatMap_cons, List.flatMap_nil,
        List.append_nil, List.mem_cons, List.not_mem_nil, or_false] at ha
      rcases ha with rfl | rfl <;> simp
  have hinj : ∀ m ∈ [D_STAKE ++ (Vector.replicate 32 2).toList, D_FOCUS ++ (Vector.replicate 32 4).toList,
        List.replicate 32 2 ++ List.replicate 32 4, List.replicate 32 3 ++ List.replicate 32 4],
      ∀ m' ∈ [D_STAKE ++ (Vector.replicate 32 2).toList, D_FOCUS ++ (Vector.replicate 32 4).toList,
        List.replicate 32 2 ++ List.replicate 32 4, List.replicate 32 3 ++ List.replicate 32 4],
      Hemera.hash (F := Rolling) m = Hemera.hash (F := Rolling) m' → m = m' := by
    decide +kernel
  obtain ⟨accepted, b', hstep, hstake, -, -⟩ := step_pools (new : Bbg Rolling) (.insert oneTransfer)
    (Vector.replicate 32 2) (Vector.replicate 32 4) fun m hm m' hm' heq => hinj m (hlist m hm) m' (hlist m' hm') heq
  exact ⟨accepted, b', hstep, hstake⟩

end Bbg

end LeanBbg
