import LeanBbg.Application
import LeanBbg.LibAttempt

/-! What each operation of the application store does to the rows it sees: codecs are inverse, row keys do not
collide, a transaction commits its view, and a write that is no retry publishes exactly one history row, head
and receipt. -/

namespace LeanBbg.Storage

open Bytes Attempt

/-! ### Codecs and keys -/

theorem refuse_ok {cond : Prop} [Decidable cond] {e : Error} {u : Unit} (h : refuse cond e = .ok u) : ¬cond := by
  intro hcond
  rw [refuse, if_pos hcond] at h
  cases h

theorem refuse_of_not {cond : Prop} [Decidable cond] {e : Error} (h : ¬cond) : refuse cond e = .ok () := if_neg h

theorem lift_ok {α : Type} {x : Except StorageError α} {a : α} (h : lift x = .ok a) : x = .ok a := by
  cases x with
  | ok b => exact congrArg Except.ok (Except.ok.inj h)
  | error e => cases h

theorem particle_toList (p : Particle) : particle p.toList = .ok p := by
  rw [particle, dif_pos (by simp)]
  congr 1

theorem toList_of_particle {bytes : List UInt8} {p : Particle} (h : particle bytes = .ok p) : bytes = p.toList := by
  rw [particle] at h
  split_ifs at h with hlen
  obtain rfl := Except.ok.inj h
  rfl

theorem u64FromLe_u64LeBytes (v : UInt64) : u64FromLe (u64LeBytes v) = v := by
  apply UInt64.toNat_inj.mp
  rw [u64FromLe, u64LeBytes, leValue_leBytes_of_lt v.toNat_lt, UInt64.ofNat_toNat]

theorem u64LeBytes_u64FromLe {bytes : List UInt8} (h : bytes.length = 8) : u64LeBytes (u64FromLe bytes) = bytes := by
  have hlt : leValue bytes < 2 ^ 64 := by
    have := leValue_lt bytes
    rw [h] at this
    exact this
  rw [u64LeBytes, u64FromLe, UInt64.toNat_ofNat', Nat.mod_eq_of_lt hlt, ← h, leBytes_leValue]

@[simp] theorem u64BeBytes_length (v : UInt64) : (u64BeBytes v).length = 8 := by simp [u64BeBytes]

@[simp] theorem encodeHead_length (head : Head) : (encodeHead head).length = 40 := by simp [encodeHead]

@[simp] theorem encodeRequest_length (fingerprint : Particle) (head : Head) :
    (encodeRequest fingerprint head).length = 72 := by simp [encodeRequest]

theorem decodeHead_encodeHead (head : Head) : decodeHead (encodeHead head) = .ok head := by
  have hlen := u64LeBytes_length head.index
  rw [decodeHead, refuse_of_not (by simp), encodeHead, List.drop_left' hlen, List.take_left' hlen,
    u64FromLe_u64LeBytes, particle_toList]
  rfl

theorem encodeHead_of_decodeHead {bytes : List UInt8} {head : Head} (h : decodeHead bytes = .ok head) :
    bytes = encodeHead head := by
  obtain ⟨_, hlen, h⟩ := exists_of_bind_ok h
  obtain ⟨commit, hcommit, h⟩ := exists_of_bind_ok h
  obtain rfl := Except.ok.inj h
  have hlen := refuse_ok hlen
  rw [encodeHead, ← toList_of_particle hcommit, u64LeBytes_u64FromLe (by simp; omega), List.take_append_drop]

theorem decodeRequest_encodeRequest (fingerprint : Particle) (head : Head) :
    decodeRequest (encodeRequest fingerprint head) = .ok (fingerprint, head) := by
  have hlen : fingerprint.toList.length = 32 := by simp
  rw [decodeRequest, refuse_of_not (by simp), encodeRequest, List.drop_left' hlen, List.take_left' hlen,
    particle_toList, decodeHead_encodeHead]
  rfl

theorem encodeRequest_of_decodeRequest {bytes : List UInt8} {fingerprint : Particle} {head : Head}
    (h : decodeRequest bytes = .ok (fingerprint, head)) : bytes = encodeRequest fingerprint head := by
  obtain ⟨_, -, h⟩ := exists_of_bind_ok h
  obtain ⟨f, hf, h⟩ := exists_of_bind_ok h
  obtain ⟨d, hd, h⟩ := exists_of_bind_ok h
  obtain ⟨rfl, rfl⟩ := Prod.mk.inj (Except.ok.inj h)
  rw [encodeRequest, ← toList_of_particle hf, ← encodeHead_of_decodeHead hd, List.take_append_drop]

theorem encodeHead_injective {head head' : Head} (h : encodeHead head = encodeHead head') : head = head' := by
  have := decodeHead_encodeHead head
  rw [h, decodeHead_encodeHead] at this
  exact (Except.ok.inj this).symm

theorem encodeRequest_injective {f f' : Particle} {head head' : Head}
    (h : encodeRequest f head = encodeRequest f' head') : f = f' ∧ head = head' := by
  have := decodeRequest_encodeRequest f head
  rw [h, decodeRequest_encodeRequest] at this
  obtain ⟨rfl, rfl⟩ := Prod.mk.inj (Except.ok.inj this)
  exact ⟨rfl, rfl⟩

theorem requestKey_injective {s s' r r' : Particle} (h : requestKey s r = requestKey s' r') : s = s' ∧ r = r' := by
  obtain ⟨hs, hr⟩ := List.append_inj h (by simp)
  exact ⟨Vector.toList_inj.mp hs, Vector.toList_inj.mp hr⟩

theorem historyKey_injective {s s' : Particle} {i i' : UInt64} (h : historyKey s i = historyKey s' i') :
    s = s' ∧ i = i' := by
  obtain ⟨hs, hi⟩ := List.append_inj h (by simp)
  exact ⟨Vector.toList_inj.mp hs, u64LeBytes_injective (List.reverse_injective hi)⟩

theorem fenceKey_injective {s s' : Particle} (h : fenceKey s = fenceKey s') : s = s' :=
  Vector.toList_inj.mp (List.append_cancel_left h)

theorem fenceKey_length (s : Particle) : (fenceKey s).length = 45 := by
  have : (ascii "neuron-fence\x00").length = 13 := by decide
  rw [fenceKey, List.length_append, this, Vector.length_toList]

theorem stageKey_length (s : Particle) : (stageKey s).length = 33 := by simp [stageKey]

theorem cursorKey_length (s : Particle) : (cursorKey s).length = 33 := by simp [cursorKey]

theorem targetKey_length (s : Particle) : (targetKey s).length = 33 := by simp [targetKey]

theorem statusKey_length : statusKey.length = 6 := by decide

theorem stageKey_injective {s s' : Particle} (h : stageKey s = stageKey s') : s = s' :=
  Vector.toList_inj.mp (List.cons.inj h).2

theorem fenceKey_ne_statusKey (s : Particle) : fenceKey s ≠ statusKey := by
  intro h
  have := congrArg List.length h
  rw [fenceKey_length, statusKey_length] at this
  omega

theorem fenceKey_ne_stageKey (s s' : Particle) : fenceKey s ≠ stageKey s' := by
  intro h
  have := congrArg List.length h
  rw [fenceKey_length, stageKey_length] at this
  omega

/-! ### Closures -/

/-- The tables that only the application and the migrations write. -/
def Table.isOwned : Table → Bool
  | shard _ | native _ | metadata => false
  | _ => true

/-- The rows of a transaction outside a set of tables are as before. -/
structure Transaction.KeepsRows (keep : Table → Bool) (tx tx' : Transaction) : Prop where
  engine : tx'.engine = tx.engine
  view : ∀ t k, keep t = true → tx'.view t k = tx.view t k

namespace Transaction

variable {keep : Table → Bool} {tx tx' tx'' : Transaction}

theorem KeepsRows.refl (keep : Table → Bool) (tx : Transaction) : KeepsRows keep tx tx := ⟨rfl, fun _ _ _ => rfl⟩

theorem KeepsRows.trans (h : KeepsRows keep tx tx') (h' : KeepsRows keep tx' tx'') : KeepsRows keep tx tx'' :=
  ⟨h'.engine.trans h.engine, fun t k hk => (h'.view t k hk).trans (h.view t k hk)⟩

theorem keepsRows_stage {table : Table} {key : List UInt8} {value : Option (List UInt8)} (hkeep : keep table = false)
    (h : tx.stage table key value = .ok tx') : KeepsRows keep tx tx' := by
  obtain ⟨hengine, -, hview⟩ := stage_ok h
  refine ⟨hengine, fun t k ht => ?_⟩
  rw [hview, if_neg]
  rintro ⟨rfl, -⟩
  rw [hkeep] at ht
  cases ht

theorem keepsRows_settle {table : Table} {key : List UInt8} {value : Option (List UInt8)} (hkeep : keep table = false) :
    KeepsRows keep tx (settle tx (tx.stage table key value)).2 := by
  cases h : tx.stage table key value with
  | error e => exact .refl keep tx
  | ok tx' => exact keepsRows_stage hkeep h

end Transaction

/-- The programs of callers reach the shards and the native records only. -/
theorem Program.keepsRows_of_run {program : Program} {tx tx' : Transaction} (h : program.run tx = .ok tx') :
    tx.KeepsRows Table.isOwned tx' := by
  induction program generalizing tx with
  | done result =>
      cases result with
      | error e => cases h
      | ok u =>
          obtain rfl := Except.ok.inj h
          exact .refl _ tx
  | readShard dimension key maxElements next ih => exact ih _ h
  | putShard dimension key value next ih =>
      refine Transaction.KeepsRows.trans ?_ (ih _ h)
      rw [Transaction.putShard]
      cases diskDimension dimension with
      | error e => exact .refl _ tx
      | ok u =>
          cases checkReadLimit value.length with
          | error e => exact .refl _ tx
          | ok u => exact Transaction.keepsRows_settle rfl
  | removeShard dimension key next ih =>
      refine Transaction.KeepsRows.trans ?_ (ih _ h)
      rw [Transaction.removeShard]
      cases tx.readShard dimension key MAX_VALUE_ELEMENTS with
      | error e => exact .refl _ tx
      | ok previous =>
          change tx.KeepsRows _ (settleRemoval tx ((tx.remove (.shard dimension) key.toList).bind _)).2
          cases hremove : tx.remove (.shard dimension) key.toList with
          | error e => exact .refl _ tx
          | ok tx₁ => exact Transaction.keepsRows_stage rfl hremove
  | readRecord domain key max next ih => exact ih _ h
  | putRecord domain key value next ih => exact (Transaction.keepsRows_settle rfl).trans (ih _ h)
  | removeRecord domain key next ih => exact (Transaction.keepsRows_settle rfl).trans (ih _ h)
  | scanRecords domain after pre limits next ih => exact ih _ h

/-! ### Immutable rows -/

/-- Rows that a transaction sees are seen after it, in the tables where rows are only added. -/
structure Transaction.Adds (table : Table) (tx tx' : Transaction) : Prop where
  keeps : tx.KeepsRows (fun t => t ≠ table) tx'
  kept : ∀ k v, tx.view table k = some v → tx'.view table k = some v

namespace Transaction

variable {table : Table} {tx tx' tx'' : Transaction}

theorem Adds.refl (table : Table) (tx : Transaction) : Adds table tx tx := ⟨.refl _ tx, fun _ _ h => h⟩

theorem Adds.trans (h : Adds table tx tx') (h' : Adds table tx' tx'') : Adds table tx tx'' :=
  ⟨h.keeps.trans h'.keeps, fun k v hv => h'.kept k v (h.kept k v hv)⟩

end Transaction

theorem immutablePut_ok {tx tx' : Transaction} {table : Table} {key value : List UInt8} {max : Nat}
    (h : immutablePut tx table key value max = .ok tx') :
    tx'.engine = tx.engine ∧ (tx.view table key = none ∨ tx.view table key = some value) ∧
      ∀ t k, tx'.view t k = if t = table ∧ k = key then some value else tx.view t k := by
  obtain ⟨previous, hget, h⟩ := exists_of_bind_ok h
  have hprevious := Transaction.get_ok (lift_ok hget)
  cases previous with
  | none =>
      obtain ⟨hengine, -, hview⟩ := Transaction.stage_ok (lift_ok h)
      exact ⟨hengine, .inl hprevious.symm, hview⟩
  | some previous =>
      dsimp only at h
      split_ifs at h with hsame
      obtain rfl := Except.ok.inj h
      rw [not_not] at hsame
      subst hsame
      refine ⟨rfl, .inr hprevious.symm, fun t k => ?_⟩
      split_ifs with heq
      · rw [heq.1, heq.2, ← hprevious]
      · rfl

theorem adds_of_immutablePut {tx tx' : Transaction} {table : Table} {key value : List UInt8} {max : Nat}
    (h : immutablePut tx table key value max = .ok tx') : tx.Adds table tx' := by
  obtain ⟨hengine, hprior, hview⟩ := immutablePut_ok h
  refine ⟨⟨hengine, fun t k ht => ?_⟩, fun k v hv => ?_⟩
  · rw [hview, if_neg fun heq => (of_decide_eq_true ht) heq.1]
  · rw [hview]
    split_ifs with heq
    · rw [heq.2] at hv
      rcases hprior with hnone | hsome
      · rw [hnone] at hv
        cases hv
      · rw [← hsome, hv]
    · exact hv

theorem adds_of_foldlM {X : Type} {tx tx' : Transaction} {table : Table} {key value : X → List UInt8} {max : Nat}
    {rows : List X} (h : rows.foldlM (fun tx row => immutablePut tx table (key row) (value row) max) tx = .ok tx') :
    tx.Adds table tx' :=
  foldlM_ok (fun _ _ _ _ hq hput => hq.trans (adds_of_immutablePut hput)) (.refl table tx) h

/-! ### Publications -/

/-- The rows of all tables. -/
abbrev View := Table → List UInt8 → Option (List UInt8)

/-- The row at one address is the given one, and those beside it in its table are as before. -/
def View.Sets (v v' : View) (table : Table) (key : List UInt8) (value : List UInt8) : Prop :=
  ∀ k, v' table k = if k = key then some value else v table k

/-- What a request without a receipt needs. -/
structure Admitted (write : Write) (v : View) : Prop where
  receipt : v .requests (requestKey write.space write.request) = none
  fence : v .migration (fenceKey write.space) = none
  unsealed : v .migration statusKey ≠ some (ascii "export-v1")
  staged : v .migration (stageKey write.space) = none
  head : v .heads write.space.toList = write.expected.map encodeHead
  next : nextIndex write.expected = .ok write.head.index

/-- What a publication does to the five application tables. -/
structure Published (write : Write) (v v' : View) : Prop where
  claims : ∀ k x, v .claims k = some x → v' .claims k = some x
  content : ∀ k x, v .content k = some x → v' .content k = some x
  committed : (v' .content write.head.commit.toList).isSome = true
  history : v.Sets v' .history (historyKey write.space write.head.index) write.head.commit.toList
  heads : v.Sets v' .heads write.space.toList (encodeHead write.head)
  requests : v.Sets v' .requests (requestKey write.space write.request) (encodeRequest write.fingerprint write.head)

theorem head_of_mapM {row : Option (List UInt8)} {current : Option Head} (h : row.mapM decodeHead = .ok current) :
    row = current.map encodeHead := by
  cases row with
  | none =>
      obtain rfl := Except.ok.inj h
      rfl
  | some bytes =>
      obtain ⟨head, hhead, h⟩ := exists_of_bind_ok h
      obtain rfl := Except.ok.inj h
      exact congrArg some (encodeHead_of_decodeHead hhead)

theorem admitFresh_ok {write : Write} {tx tx' : Transaction}
    (hreceipt : tx.view .requests (requestKey write.space write.request) = none) (h : admitFresh write tx = .ok tx') :
    Admitted write tx.view ∧ tx.KeepsRows (fun t => t ≠ .claims ∧ t ≠ .content) tx' ∧
      (∀ k x, tx.view .claims k = some x → tx'.view .claims k = some x) ∧
      (∀ k x, tx.view .content k = some x → tx'.view .content k = some x) ∧
      (tx'.view .content write.head.commit.toList).isSome = true := by
  obtain ⟨fence, hfence, h⟩ := exists_of_bind_ok h
  obtain ⟨_, hunfenced, h⟩ := exists_of_bind_ok h
  obtain ⟨status, hstatus, h⟩ := exists_of_bind_ok h
  obtain ⟨_, hunsealed, h⟩ := exists_of_bind_ok h
  obtain ⟨staged, hstaged, h⟩ := exists_of_bind_ok h
  obtain ⟨_, hunstaged, h⟩ := exists_of_bind_ok h
  obtain ⟨row, hrow, h⟩ := exists_of_bind_ok h
  obtain ⟨current, hcurrent, h⟩ := exists_of_bind_ok h
  obtain ⟨_, hexpected, h⟩ := exists_of_bind_ok h
  obtain ⟨next, hnext, h⟩ := exists_of_bind_ok h
  obtain ⟨_, hindex, h⟩ := exists_of_bind_ok h
  obtain ⟨tx₁, hclaims, h⟩ := exists_of_bind_ok h
  obtain ⟨tx₂, hcontent, h⟩ := exists_of_bind_ok h
  obtain ⟨committed, hcommitted, h⟩ := exists_of_bind_ok h
  obtain ⟨_, hsome, h⟩ := exists_of_bind_ok h
  obtain rfl := Except.ok.inj h
  have hexpected := not_not.mp (refuse_ok hexpected)
  have hindex := not_not.mp (refuse_ok hindex)
  have hclaims := adds_of_foldlM hclaims
  have hcontent := adds_of_foldlM hcontent
  refine ⟨⟨hreceipt, ?_, ?_, ?_, ?_, ?_⟩, ?_, fun k x hx => ?_, fun k x hx => ?_, ?_⟩
  · rw [← Transaction.get_ok (lift_ok hfence)]
    simpa using refuse_ok hunfenced
  · rw [← Transaction.get_ok (lift_ok hstatus)]
    exact refuse_ok hunsealed
  · rw [← Transaction.get_ok (lift_ok hstaged)]
    simpa using refuse_ok hunstaged
  · rw [← Transaction.get_ok (lift_ok hrow), head_of_mapM hcurrent, hexpected]
  · rw [← hexpected, hnext, hindex]
  · refine ⟨hcontent.keeps.engine.trans hclaims.keeps.engine, fun t k ht => ?_⟩
    obtain ⟨hne, hne'⟩ := of_decide_eq_true ht
    rw [hcontent.keeps.view t k (decide_eq_true hne'), hclaims.keeps.view t k (decide_eq_true hne)]
  · rw [hcontent.keeps.view .claims k rfl]
    exact hclaims.kept k x hx
  · refine hcontent.kept k x ?_
    rw [hclaims.keeps.view .content k rfl]
    exact hx
  · rw [← Transaction.get_ok (lift_ok hcommitted)]
    simpa [Option.isSome_iff_ne_none] using refuse_ok hsome

theorem publish_ok {write : Write} {tx tx' : Transaction} (h : publish write tx = .ok tx') :
    tx'.engine = tx.engine ∧ tx'.changes ≠ ∅ ∧
      View.Sets tx.view tx'.view .history (historyKey write.space write.head.index) write.head.commit.toList ∧
      View.Sets tx.view tx'.view .heads write.space.toList (encodeHead write.head) ∧
      View.Sets tx.view tx'.view .requests (requestKey write.space write.request)
        (encodeRequest write.fingerprint write.head) ∧
      ∀ t k, t ≠ .history → t ≠ .heads → t ≠ .requests → tx'.view t k = tx.view t k := by
  obtain ⟨tx₁, hhistory, h⟩ := exists_of_bind_ok h
  obtain ⟨tx₂, hheads, h⟩ := exists_of_bind_ok h
  obtain ⟨hengine₁, -, hview₁⟩ := Transaction.stage_ok (lift_ok hhistory)
  obtain ⟨hengine₂, -, hview₂⟩ := Transaction.stage_ok (lift_ok hheads)
  obtain ⟨hengine₃, hchanges, hview₃⟩ := Transaction.stage_ok (lift_ok h)
  refine ⟨hengine₃.trans (hengine₂.trans hengine₁), hchanges, fun k => ?_, fun k => ?_, fun k => ?_,
    fun t k hhist hhead hreq => ?_⟩
  · simp [hview₃, hview₂, hview₁]
  · simp [hview₃, hview₂, hview₁]
  · simp [hview₃, hview₂, hview₁]
  · simp [hview₃, hview₂, hview₁, hhist, hhead, hreq]

/-- A transition that leaves the five application tables alone. -/
def KeepsApplication (transition : Transaction → Except Error Transaction) : Prop :=
  ∀ tx tx', transition tx = .ok tx' → tx.KeepsRows (fun t => t.isOwned && t ≠ .migration) tx'

/-- A write that succeeds is a retry, which stages nothing, or a publication. -/
theorem applyBody_ok {write : Write} {allowRetry : Bool} {transition : Transaction → Except Error Transaction}
    (hkeeps : KeepsApplication transition) {tx tx' : Transaction} {head : Head}
    (h : applyBody write allowRetry transition tx = .ok (head, tx')) :
    (tx' = tx ∧ allowRetry = true ∧
      tx.view .requests (requestKey write.space write.request) = some (encodeRequest write.fingerprint head)) ∨
    (head = write.head ∧ tx'.engine = tx.engine ∧ tx'.changes ≠ ∅ ∧ Admitted write tx.view ∧
      Published write tx.view tx'.view ∧ ∃ tx₁ tx₂, transition tx₁ = .ok tx₂ ∧
        (∀ k, tx₁.view .migration k = tx.view .migration k) ∧
        (∀ k, tx₁.view .heads k = tx.view .heads k) ∧
        ∀ k, tx'.view .migration k = tx₂.view .migration k) := by
  obtain ⟨admitted, hadmission, h⟩ := exists_of_bind_ok h
  obtain ⟨prior, hprior, hadmission⟩ := exists_of_bind_ok hadmission
  have hprior := Transaction.get_ok (lift_ok hprior)
  cases prior with
  | some prior =>
      dsimp only at hadmission
      split_ifs at hadmission with hretry
      obtain ⟨⟨fingerprint, head'⟩, hdecode, hadmission⟩ := exists_of_bind_ok hadmission
      dsimp only at hadmission
      split_ifs at hadmission with hsame
      obtain rfl := Except.ok.inj hadmission
      obtain ⟨rfl, rfl⟩ := Prod.mk.inj (Except.ok.inj h)
      left
      refine ⟨rfl, by simpa using hretry, ?_⟩
      rw [← hprior, encodeRequest_of_decodeRequest hdecode, hsame]
  | none =>
      dsimp only at hadmission
      cases hfresh : admitFresh write tx with
      | error e =>
          rw [hfresh] at hadmission
          cases hadmission
      | ok tx₁ =>
          rw [hfresh] at hadmission
          obtain rfl := Except.ok.inj hadmission
          obtain ⟨tx₂, htransition, h⟩ := exists_of_bind_ok h
          obtain ⟨tx₃, hpublish, h⟩ := exists_of_bind_ok h
          obtain ⟨rfl, rfl⟩ := Prod.mk.inj (Except.ok.inj h)
          obtain ⟨hadmitted, hkeep₁, hclaims, hcontent, hcommitted⟩ := admitFresh_ok hprior.symm hfresh
          have hkeep₂ := hkeeps tx₁ tx₂ htransition
          obtain ⟨hengine, hchanges, hhistory, hheads, hrequests, hother⟩ := publish_ok hpublish
          right
          refine ⟨rfl, hengine.trans (hkeep₂.engine.trans hkeep₁.engine), hchanges, hadmitted,
            ⟨fun k x hx => ?_, fun k x hx => ?_, ?_, fun k => ?_, fun k => ?_, fun k => ?_⟩,
            tx₁, tx₂, htransition, fun k => hkeep₁.view _ k rfl, fun k => hkeep₁.view _ k rfl, fun k => ?_⟩
          · rw [hother .claims k nofun nofun nofun, hkeep₂.view _ k rfl]
            exact hclaims k x hx
          · rw [hother .content k nofun nofun nofun, hkeep₂.view _ k rfl]
            exact hcontent k x hx
          · rw [hother .content _ nofun nofun nofun, hkeep₂.view _ _ rfl]
            exact hcommitted
          · rw [hhistory, hkeep₂.view _ k rfl, hkeep₁.view _ k rfl]
          · rw [hheads, hkeep₂.view _ k rfl, hkeep₁.view _ k rfl]
          · rw [hrequests, hkeep₂.view _ k rfl, hkeep₁.view _ k rfl]
          · exact hother _ _ nofun nofun nofun

/-! ### Migrations -/

theorem promoteNeuron_ok {tx tx' : Transaction} (h : promoteNeuron tx = .ok tx') :
    tx'.engine = tx.engine ∧
      ∀ t k, ¬(t = .migration ∧ k = statusKey) → tx'.view t k = tx.view t k := by
  obtain ⟨status, -, h⟩ := exists_of_bind_ok h
  obtain ⟨generation, -, h⟩ := exists_of_bind_ok h
  have hsame : tx' = tx → tx'.engine = tx.engine ∧
      ∀ t k, ¬(t = .migration ∧ k = statusKey) → tx'.view t k = tx.view t k := by
    rintro rfl
    exact ⟨rfl, fun _ _ _ => rfl⟩
  cases generation with
  | original =>
      obtain ⟨hengine, -, hview⟩ := Transaction.stage_ok h
      exact ⟨hengine, fun t k hne => by rw [hview, if_neg hne]⟩
  | neuronV1 => exact hsame (Except.ok.inj h).symm
  | authenticatedV1 => exact hsame (Except.ok.inj h).symm

theorem keepsRows_of_fenceSource {write : Write} {manifest : Particle} {tx tx' : Transaction}
    {source : Particle × Head} (h : fenceSource write manifest tx source = .ok tx') :
    tx.KeepsRows (fun t => t ≠ .migration) tx' := by
  obtain ⟨_, -, h⟩ := exists_of_bind_ok h
  obtain ⟨row, -, h⟩ := exists_of_bind_ok h
  obtain ⟨current, -, h⟩ := exists_of_bind_ok h
  obtain ⟨_, -, h⟩ := exists_of_bind_ok h
  exact (adds_of_immutablePut h).keeps

theorem keepsRows_of_migrateSources {write : Write} {migration : NamespaceMigration} {tx tx' : Transaction}
    (h : migrateSources write migration tx = .ok tx') : tx.KeepsRows (fun t => t ≠ .migration) tx' := by
  obtain ⟨tx₁, hfences, h⟩ := exists_of_bind_ok h
  obtain ⟨hengine, hview⟩ := promoteNeuron_ok (lift_ok h)
  have hkeep : tx.KeepsRows (fun t => t ≠ .migration) tx₁ :=
    foldlM_ok (fun _ _ _ _ hq hfence => hq.trans (keepsRows_of_fenceSource hfence)) (.refl _ tx) hfences
  refine hkeep.trans ⟨hengine, fun t k ht => hview t k ?_⟩
  rintro ⟨rfl, -⟩
  exact (of_decide_eq_true ht) rfl

/-! ### Commits -/

/-- The rows of a database. -/
def Database.view (db : Database) : View := fun t k => (db.tables t)[k]?

theorem applyChanges_withMarkers (tx : Transaction) (id : Bytes32) {t : Table} (k : List UInt8) (ht : t ≠ .metadata) :
    (applyChanges tx.engine (withMarkers tx.changes id) t)[k]? = tx.view t k := by
  have hne : ∀ key, (t, k) ≠ (Table.metadata, key) := fun key h => ht (Prod.mk.inj h).1
  rw [applyChanges_get, withMarkers, AList.lookup_insert_ne (hne _), Transaction.view]
  split_ifs
  · rw [AList.lookup_insert_ne (hne _)]
  · rfl

/-- A database that has written the batch of a transaction has the rows that the transaction saw. -/
theorem view_of_written {hemera : List UInt8 → Bytes32} {db db' : Database} {tx : Transaction}
    (hengine : tx.engine = db.tables)
    (htables : db'.tables = applyChanges db.tables (withMarkers tx.changes (changeId hemera tx.changes))) (t : Table)
    (k : List UInt8) (ht : t ≠ .metadata) : db'.view t k = tx.view t k := by
  have hcommit := applyChanges_withMarkers tx (changeId hemera tx.changes) k ht
  rw [hengine] at hcommit
  rw [Database.view, htables]
  exact hcommit

section Transactions

variable {E α : Type} (hemera : List UInt8 → Bytes32) (ofStorage : StorageError → E) (outcome : CommitOutcome)
  {db : Database} {execute : Transaction → Except E (α × Transaction)}

theorem transaction_of_failure {e : StorageError} (h : db.failure = some e) :
    db.transaction hemera ofStorage outcome execute = (⟨.error (ofStorage e), false⟩, db) := by
  simp only [Database.transaction, h]

theorem transaction_of_error (hready : db.failure = none) {e : E} (h : execute (.begin db.tables) = .error e) :
    db.transaction hemera ofStorage outcome execute = (⟨.error e, false⟩, db) := by
  simp only [Database.transaction, hready, h]

theorem transaction_of_unchanged (hready : db.failure = none) {value : α} {tx : Transaction}
    (h : execute (.begin db.tables) = .ok (value, tx)) (hempty : tx.changes = ∅) :
    db.transaction hemera ofStorage outcome execute = (⟨.ok value, false⟩, db) := by
  have hisEmpty : tx.changes.entries.isEmpty = true := by
    rw [hempty]
    rfl
  simp only [Database.transaction, hready, h, hisEmpty, if_true]

/-- A transaction writes nothing, or it writes what its closure staged and answers with the closure's value or
with an unknown commit. -/
theorem transaction_cases {reply : Reply E α} {db' : Database}
    (h : db.transaction hemera ofStorage outcome execute = (reply, db')) :
    (reply.written = false ∧ db'.tables = db.tables) ∨
    (reply.written = true ∧ db.failure = none ∧ ∃ value tx, execute (.begin db.tables) = .ok (value, tx) ∧
      tx.changes ≠ ∅ ∧ db'.tables = applyChanges db.tables (withMarkers tx.changes (changeId hemera tx.changes)) ∧
      (reply.result = .ok value ∨ ∃ id message, reply.result = .error (ofStorage (.commitUnknown id message)))) := by
  cases hready : db.failure with
  | some e =>
      rw [transaction_of_failure hemera ofStorage outcome hready] at h
      obtain ⟨rfl, rfl⟩ := Prod.mk.inj h
      exact .inl ⟨rfl, rfl⟩
  | none =>
      cases hexecute : execute (.begin db.tables) with
      | error e =>
          rw [transaction_of_error hemera ofStorage outcome hready hexecute] at h
          obtain ⟨rfl, rfl⟩ := Prod.mk.inj h
          exact .inl ⟨rfl, rfl⟩
      | ok result =>
          obtain ⟨value, tx⟩ := result
          by_cases hempty : tx.changes = ∅
          · rw [transaction_of_unchanged hemera ofStorage outcome hready hexecute hempty] at h
            obtain ⟨rfl, rfl⟩ := Prod.mk.inj h
            exact .inl ⟨rfl, rfl⟩
          · have hisEmpty : tx.changes.entries.isEmpty = false := by
              rw [Bool.eq_false_iff]
              intro hnil
              exact hempty (AList.ext (List.isEmpty_iff.mp hnil))
            simp only [Database.transaction, hready, hexecute, hisEmpty] at h
            cases outcome with
            | done =>
                obtain ⟨rfl, rfl⟩ := Prod.mk.inj h
                exact .inr ⟨rfl, rfl, value, tx, rfl, hempty, rfl, .inl rfl⟩
            | failed message =>
                obtain ⟨rfl, rfl⟩ := Prod.mk.inj h
                exact .inl ⟨rfl, rfl⟩
            | unknown message written =>
                obtain ⟨rfl, rfl⟩ := Prod.mk.inj h
                cases written with
                | false => exact .inl ⟨rfl, rfl⟩
                | true => exact .inr ⟨rfl, rfl, value, tx, rfl, hempty, rfl, .inr ⟨_, _, rfl⟩⟩

/-- A transaction that answers has run its closure, and has written what the closure staged, if anything. -/
theorem transaction_ok {reply : Reply E α} {db' : Database} {value : α}
    (h : db.transaction hemera ofStorage outcome execute = (reply, db')) (hok : reply.result = .ok value) :
    ∃ tx, execute (.begin db.tables) = .ok (value, tx) ∧ ((tx.changes = ∅ ∧ db' = db) ∨ (reply.written = true ∧
      db'.tables = applyChanges db.tables (withMarkers tx.changes (changeId hemera tx.changes)))) := by
  cases hready : db.failure with
  | some e =>
      rw [transaction_of_failure hemera ofStorage outcome hready] at h
      obtain ⟨rfl, rfl⟩ := Prod.mk.inj h
      cases hok
  | none =>
      cases hexecute : execute (.begin db.tables) with
      | error e =>
          rw [transaction_of_error hemera ofStorage outcome hready hexecute] at h
          obtain ⟨rfl, rfl⟩ := Prod.mk.inj h
          cases hok
      | ok result =>
          obtain ⟨value', tx⟩ := result
          by_cases hempty : tx.changes = ∅
          · rw [transaction_of_unchanged hemera ofStorage outcome hready hexecute hempty] at h
            obtain ⟨rfl, rfl⟩ := Prod.mk.inj h
            obtain rfl := Except.ok.inj hok
            exact ⟨tx, rfl, .inl ⟨hempty, rfl⟩⟩
          · have hisEmpty : tx.changes.entries.isEmpty = false := by
              rw [Bool.eq_false_iff]
              intro hnil
              exact hempty (AList.ext (List.isEmpty_iff.mp hnil))
            simp only [Database.transaction, hready, hexecute, hisEmpty] at h
            cases outcome with
            | done =>
                obtain ⟨rfl, rfl⟩ := Prod.mk.inj h
                obtain rfl := Except.ok.inj hok
                exact ⟨tx, rfl, .inr ⟨rfl, rfl⟩⟩
            | failed message =>
                obtain ⟨rfl, rfl⟩ := Prod.mk.inj h
                cases hok
            | unknown message written =>
                obtain ⟨rfl, rfl⟩ := Prod.mk.inj h
                cases hok

end Transactions

end LeanBbg.Storage
