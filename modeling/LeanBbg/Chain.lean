import LeanBbg.StoreSteps

/-! The history chain of a namespace: its head, history, content and receipts fit together. Publications keep
every chain, and a store on which an archive can be opened has only whole chains. -/

namespace LeanBbg.Storage

open Bytes Attempt

/-- The rows of a namespace form one chain: a head exactly when there is history, history from zero to the head
without a gap, content for every commit, and one receipt for each history row. -/
structure Chained (v : View) (s : Particle) : Prop where
  head_iff : v .heads s.toList ≠ none ↔ ∃ i, v .history (historyKey s i) ≠ none
  indices : ∀ row, v .heads s.toList = some row → ∃ head, row = encodeHead head ∧
    (∀ i : UInt64, v .history (historyKey s i) ≠ none ↔ i.toNat ≤ head.index.toNat) ∧
    v .history (historyKey s head.index) = some head.commit.toList
  content : ∀ i row, v .history (historyKey s i) = some row →
    ∃ commit : Particle, row = commit.toList ∧ v .content commit.toList ≠ none
  receipt : ∀ r row, v .requests (requestKey s r) = some row → ∃ fingerprint head,
    row = encodeRequest fingerprint head ∧ v .history (historyKey s head.index) = some head.commit.toList
  covered : ∀ i, v .history (historyKey s i) ≠ none → ∃ r fingerprint head,
    v .requests (requestKey s r) = some (encodeRequest fingerprint head) ∧ head.index = i
  unique : ∀ r r' fingerprint fingerprint' head head',
    v .requests (requestKey s r) = some (encodeRequest fingerprint head) →
    v .requests (requestKey s r') = some (encodeRequest fingerprint' head') → head.index = head'.index → r = r'

/-- Every row of the three tables is keyed by a namespace. -/
structure WellKeyed (v : View) : Prop where
  heads : ∀ k row, v .heads k = some row → ∃ (s : Particle) (head : Head), k = s.toList ∧ row = encodeHead head
  history : ∀ k, v .history k ≠ none → ∃ s i, k = historyKey s i
  requests : ∀ k, v .requests k ≠ none → ∃ s r, k = requestKey s r

/-- The five tables of a store on which nothing is staged. -/
structure Plain (v : View) : Prop where
  unstaged : ∀ manifest, v .migration (cursorKey manifest) = none
  keyed : WellKeyed v
  chained : ∀ s, Chained v s

/-- The chain of a namespace depends on its own rows, and on content that is only added. -/
theorem Chained.congr {v v' : View} {s : Particle} (h : Chained v s)
    (hheads : v' .heads s.toList = v .heads s.toList)
    (hhistory : ∀ i, v' .history (historyKey s i) = v .history (historyKey s i))
    (hrequests : ∀ r, v' .requests (requestKey s r) = v .requests (requestKey s r))
    (hcontent : ∀ k x, v .content k = some x → v' .content k = some x) : Chained v' s := by
  refine ⟨?_, ?_, ?_, ?_, ?_, ?_⟩
  · simpa only [hheads, hhistory] using h.head_iff
  · simpa only [hheads, hhistory] using h.indices
  · intro i row hrow
    rw [hhistory] at hrow
    obtain ⟨commit, rfl, hsome⟩ := h.content i row hrow
    obtain ⟨x, hx⟩ := Option.ne_none_iff_exists'.mp hsome
    exact ⟨commit, rfl, Option.ne_none_iff_exists'.mpr ⟨x, hcontent _ _ hx⟩⟩
  · simpa only [hrequests, hhistory] using h.receipt
  · simpa only [hrequests, hhistory] using h.covered
  · simpa only [hrequests] using h.unique

theorem Chained.history_eq_none {v : View} {s : Particle} (h : Chained v s) (hhead : v .heads s.toList = none)
    (i : UInt64) : v .history (historyKey s i) = none := by
  by_contra hrow
  exact h.head_iff.mpr ⟨i, hrow⟩ hhead

theorem Chained.requests_eq_none {v : View} {s : Particle} (h : Chained v s) (hhead : v .heads s.toList = none)
    (r : Particle) : v .requests (requestKey s r) = none := by
  by_contra hrow
  obtain ⟨row, hrow⟩ := Option.ne_none_iff_exists'.mp hrow
  obtain ⟨fingerprint, head, -, hhistory⟩ := h.receipt r row hrow
  rw [h.history_eq_none hhead] at hhistory
  cases hhistory

/-- The rows of the history before a publication are those below its index. -/
theorem Chained.history_lt {v : View} {write : Write} (h : Chained v write.space) (hadmitted : Admitted write v)
    (i : UInt64) : v .history (historyKey write.space i) ≠ none ↔ i.toNat < write.head.index.toNat := by
  have hhead := hadmitted.head
  have hnext := hadmitted.next
  cases hexpected : write.expected with
  | none =>
      rw [hexpected] at hhead hnext
      rw [← Except.ok.inj hnext, h.history_eq_none hhead]
      simp
  | some head =>
      rw [hexpected] at hhead hnext
      obtain ⟨head', heq, hindices, -⟩ := h.indices _ hhead
      obtain rfl := encodeHead_injective heq
      rw [nextIndex] at hnext
      split_ifs at hnext with hbound
      rw [hindices, ← Except.ok.inj hnext, UInt64.toNat_add, UInt64.toNat_one, Nat.mod_eq_of_lt hbound]
      omega

/-- A publication extends the chain of its namespace. -/
theorem Chained.publish {v v' : View} {write : Write} (h : Chained v write.space) (hadmitted : Admitted write v)
    (hpub : Published write v v') : Chained v' write.space := by
  have hlt := h.history_lt hadmitted
  have hhistory : ∀ i, v' .history (historyKey write.space i) =
      if i = write.head.index then some write.head.commit.toList else v .history (historyKey write.space i) := by
    intro i
    rw [hpub.history]
    congr 1
    exact propext ⟨fun heq => (historyKey_injective heq).2, fun heq => by rw [heq]⟩
  have hrequests : ∀ r, v' .requests (requestKey write.space r) =
      if r = write.request then some (encodeRequest write.fingerprint write.head)
      else v .requests (requestKey write.space r) := by
    intro r
    rw [hpub.requests]
    congr 1
    exact propext ⟨fun heq => (requestKey_injective heq).2, fun heq => by rw [heq]⟩
  have hhead : v' .heads write.space.toList = some (encodeHead write.head) := by rw [hpub.heads, if_pos rfl]
  have hrange : ∀ i, v' .history (historyKey write.space i) ≠ none ↔ i.toNat ≤ write.head.index.toNat := by
    intro i
    rw [hhistory]
    split_ifs with heq
    · simp [heq]
    · rw [hlt]
      have hne : i.toNat ≠ write.head.index.toNat := fun hnat => heq (UInt64.toNat_inj.mp hnat)
      omega
  -- The receipts of before carry indices below the new one.
  have hbelow : ∀ r fingerprint head, v .requests (requestKey write.space r) = some (encodeRequest fingerprint head) →
      head.index ≠ write.head.index ∧ v .history (historyKey write.space head.index) = some head.commit.toList := by
    intro r fingerprint head hrow
    obtain ⟨f, hd, heq, hrow'⟩ := h.receipt r _ hrow
    obtain ⟨rfl, rfl⟩ := encodeRequest_injective heq
    have hpos := (hlt head.index).mp (by rw [hrow']; nofun)
    refine ⟨fun hindex => ?_, hrow'⟩
    rw [hindex] at hpos
    omega
  refine ⟨⟨fun _ => ⟨write.head.index, (hrange _).mpr le_rfl⟩, fun _ => by rw [hhead]; nofun⟩, ?_, ?_, ?_, ?_, ?_⟩
  · intro row hrow
    rw [hhead] at hrow
    refine ⟨write.head, (Option.some_inj.mp hrow).symm, hrange, ?_⟩
    rw [hhistory, if_pos rfl]
  · intro i row hrow
    rw [hhistory] at hrow
    split_ifs at hrow with heq
    · refine ⟨write.head.commit, (Option.some_inj.mp hrow).symm, ?_⟩
      exact Option.isSome_iff_ne_none.mp hpub.committed
    · obtain ⟨commit, rfl, hsome⟩ := h.content i row hrow
      obtain ⟨x, hx⟩ := Option.ne_none_iff_exists'.mp hsome
      exact ⟨commit, rfl, Option.ne_none_iff_exists'.mpr ⟨x, hpub.content _ _ hx⟩⟩
  · intro r row hrow
    rw [hrequests] at hrow
    split_ifs at hrow with heq
    · refine ⟨write.fingerprint, write.head, (Option.some_inj.mp hrow).symm, ?_⟩
      rw [hhistory, if_pos rfl]
    · obtain ⟨fingerprint, head, rfl, -⟩ := h.receipt r row hrow
      obtain ⟨hne, hrow'⟩ := hbelow r fingerprint head hrow
      exact ⟨fingerprint, head, rfl, by rw [hhistory, if_neg hne, hrow']⟩
  · intro i hi
    rw [hhistory] at hi
    split_ifs at hi with heq
    · exact ⟨write.request, write.fingerprint, write.head, by rw [hrequests, if_pos rfl], heq.symm⟩
    · obtain ⟨r, fingerprint, head, hrow, hindex⟩ := h.covered i hi
      refine ⟨r, fingerprint, head, ?_, hindex⟩
      rw [hrequests, if_neg, hrow]
      rintro rfl
      rw [hadmitted.receipt] at hrow
      cases hrow
  · intro r r' fingerprint fingerprint' head head' hrow hrow' hindex
    rw [hrequests] at hrow hrow'
    split_ifs at hrow hrow' with heq heq' heq'
    · rw [heq, heq']
    · obtain ⟨-, rfl⟩ := encodeRequest_injective (Option.some_inj.mp hrow)
      exact absurd hindex.symm (hbelow r' fingerprint' head' hrow').1
    · obtain ⟨-, rfl⟩ := encodeRequest_injective (Option.some_inj.mp hrow')
      exact absurd hindex (hbelow r fingerprint head hrow).1
    · exact h.unique r r' fingerprint fingerprint' head head' hrow hrow' hindex

/-- A publication leaves the rows of the other namespaces. -/
theorem Published.other {v v' : View} {write : Write} (hpub : Published write v v') {s : Particle}
    (hne : s ≠ write.space) : v' .heads s.toList = v .heads s.toList ∧
      (∀ i, v' .history (historyKey s i) = v .history (historyKey s i)) ∧
      ∀ r, v' .requests (requestKey s r) = v .requests (requestKey s r) := by
  refine ⟨?_, fun i => ?_, fun r => ?_⟩
  · rw [hpub.heads, if_neg fun hkey => hne (Vector.toList_inj.mp hkey)]
  · rw [hpub.history, if_neg fun hkey => hne (historyKey_injective hkey).1]
  · rw [hpub.requests, if_neg fun hkey => hne (requestKey_injective hkey).1]

/-- A publication keeps the chains of all namespaces. -/
theorem Chained.publish_any {v v' : View} {write : Write} (hadmitted : Admitted write v) (hpub : Published write v v')
    (h : Chained v write.space) {s : Particle} (hs : Chained v s) : Chained v' s := by
  by_cases heq : s = write.space
  · rw [heq]
    exact h.publish hadmitted hpub
  · obtain ⟨hhead, hhistory, hrequests⟩ := hpub.other heq
    exact hs.congr hhead hhistory hrequests hpub.content

theorem WellKeyed.publish {v v' : View} {write : Write} (h : WellKeyed v) (hpub : Published write v v') :
    WellKeyed v' := by
  refine ⟨fun k row hrow => ?_, fun k hrow => ?_, fun k hrow => ?_⟩
  · rw [hpub.heads] at hrow
    split_ifs at hrow with hk
    · exact ⟨write.space, write.head, hk, (Option.some_inj.mp hrow).symm⟩
    · exact h.heads k row hrow
  · rw [hpub.history] at hrow
    split_ifs at hrow with hk
    · exact ⟨_, _, hk⟩
    · exact h.history k hrow
  · rw [hpub.requests] at hrow
    split_ifs at hrow with hk
    · exact ⟨_, _, hk⟩
    · exact h.requests k hrow

/-! ### Stores without staging -/

variable {hemera : List UInt8 → Bytes32} {db db' : Database}

theorem sealKey_length : sealKey.length = 18 := by decide

theorem cursorKey_ne_sealKey (manifest : Particle) : cursorKey manifest ≠ sealKey := by
  intro h
  have := congrArg List.length h
  rw [cursorKey_length, sealKey_length] at this
  omega

theorem fenceKey_ne_cursorKey (s manifest : Particle) : fenceKey s ≠ cursorKey manifest := by
  intro h
  have := congrArg List.length h
  rw [fenceKey_length, cursorKey_length] at this
  omega

theorem Plain.of_sealing {v v' : View} (h : Plain v) (hseal : Sealing v v') : Plain v' := by
  have hsame : ∀ t k, t ≠ .metadata → t ≠ .migration → v' t k = v t k := fun t k hmeta hmigration =>
    hseal.same t k hmeta fun heq => hmigration heq.1
  refine ⟨fun manifest => ?_, ⟨?_, ?_, ?_⟩, fun s => ?_⟩
  · rw [hseal.same .migration _ nofun, h.unstaged]
    rintro ⟨-, hk | hk⟩
    · exact cursorKey_ne_sealKey manifest hk
    · exact ne_statusKey_of_length (cursorKey_length manifest) hk
  · simpa only [hsame .heads _ nofun nofun] using h.keyed.heads
  · simpa only [hsame .history _ nofun nofun] using h.keyed.history
  · simpa only [hsame .requests _ nofun nofun] using h.keyed.requests
  · refine (h.chained s).congr (hsame _ _ nofun nofun) (fun i => hsame _ _ nofun nofun)
      (fun r => hsame _ _ nofun nofun) fun k x hx => ?_
    rw [hsame .content k nofun nofun, hx]

/-- Every step leaves a store promoted, or plain. -/
theorem promoted_or_plain_step {S : TransferSource → Prop} (h : Promoted db.view ∨ Plain db.view)
    (hstep : Step hemera S db db') : Promoted db'.view ∨ Plain db'.view := by
  rcases hstep.cases with htables | ⟨call, -, hpub⟩ | hseal | ⟨source, -, hreservation⟩ |
    ⟨source, table, cursor, next, rows, validate, links, -, -, -, -, hcopy⟩
  · have hview : db'.view = db.view := by
      unfold Database.view
      rw [htables]
    rwa [hview]
  · cases hpub.fencing with
    | fences hcall hsources hsame hpromoted => exact .inl hpromoted
    | none hsame =>
        rcases h with hpromoted | hplain
        · left
          rw [Promoted, hsame]
          exact hpromoted
        · right
          refine ⟨fun manifest => by rw [hsame, hplain.unstaged], hplain.keyed.publish hpub.published, fun s => ?_⟩
          exact Chained.publish_any hpub.admitted hpub.published (hplain.chained _) (hplain.chained s)
  · exact .inr ((h.resolve_left hseal.unpromoted).of_sealing hseal)
  · exact .inl hreservation.promoted
  · rcases h with hpromoted | hplain
    · left
      have hstatus := hcopy.same .migration statusKey Table.noConfusion
        (fun _ heq => ne_statusKey_of_length (cursorKey_length _) heq.symm)
      by_cases htable : Table.migration = table
      · have hkept := hcopy.kept
        rw [← htable] at hkept
        exact hpromoted.imp (hkept _ _) (hkept _ _)
      · rw [Promoted, hstatus fun heq => absurd heq htable]
        exact hpromoted
    · have hstored := hcopy.stored
      rw [hplain.unstaged] at hstored
      cases hstored

theorem plain_empty : Plain Database.empty.view := by
  refine ⟨fun _ => rfl, ⟨nofun, fun k hk => absurd rfl hk, fun k hk => absurd rfl hk⟩, fun s => ?_⟩
  refine ⟨⟨fun h => absurd rfl h, fun ⟨i, hi⟩ => absurd rfl hi⟩, nofun, nofun, nofun, fun i hi => absurd rfl hi, ?_⟩
  intro r r' f f' head head' hrow
  cases hrow

theorem promoted_or_plain {S : TransferSource → Prop}
    (h : Relation.ReflTransGen (Step hemera S) Database.empty db) : Promoted db.view ∨ Plain db.view := by
  induction h with
  | refl => exact .inr plain_empty
  | tail _ hstep ih => exact promoted_or_plain_step ih hstep

/-! ### Sources -/

/-- Two views of one open source: only its validation rows may have changed between them. -/
structure TransferSource.Alike (source opened : TransferSource) : Prop where
  manifest : source.manifest = opened.manifest
  target : source.target = opened.target
  sources : source.sources = opened.sources
  sealed : source.store.view .migration sealKey = opened.store.view .migration sealKey
  tables : ∀ t ∈ TABLES, source.store.tables t = opened.store.tables t

variable (hemera) in
/-- The source comes from an archive opened and sealed on a store of `R`. -/
def OpenedFrom (R : Database → Prop) (source : TransferSource) : Prop :=
  ∃ db archive target key outcome opened, R db ∧ ApplicationArchive.open hemera db = .ok archive ∧
    (TransferSource.fromArchive hemera archive target key outcome).1 = .ok opened ∧ source.Alike opened

variable (hemera) in
/-- Stores that are reached with sources from stores of fewer levels. -/
def ReachableAt : Nat → Database → Prop
  | 0 => fun _ => False
  | n + 1 => Relation.ReflTransGen (Step hemera (OpenedFrom hemera (ReachableAt n))) Database.empty

variable (hemera) in
/-- The source comes from a store that calls, stagers with such sources, and sealings reach. -/
def Opened (source : TransferSource) : Prop := ∃ n, OpenedFrom hemera (ReachableAt hemera n) source

end LeanBbg.Storage
