import LeanBbg.LinkRuns

/-! What `validate_links` accepts: the stores whose namespaces are whole chains. The passes are read row by row, and
the reverse index that the receipts leave is what the history is checked against. -/

namespace LeanBbg.Storage

open Bytes Attempt

variable {db : Database} {v : View}

theorem mem_rowsAfter_none {table : Table} {row : RawEntry} :
    row ∈ rowsAfter db.tables table none ↔ db.view table row.1 = some row.2 := by
  rw [rowsAfter, List.mem_filter]
  constructor
  · rintro ⟨hmem, -⟩
    exact (OrdMap.mem_toList _).mp hmem
  · intro hrow
    exact ⟨(OrdMap.mem_toList _).mpr hrow, rfl⟩

theorem WellFormed.valid (hw : WellFormed db.view) {table : Table} (ht : table ∈ TABLES) :
    ∀ row ∈ rowsAfter db.tables table none, validateRecord table row = .ok () :=
  fun row hrow => hw table ht row.1 row.2 (mem_rowsAfter_none.mp hrow)

theorem take_requestKey (s r : Particle) : (requestKey s r).take 32 = s.toList := by
  rw [requestKey]
  exact List.take_left' (by simp)

theorem drop_requestKey (s r : Particle) : (requestKey s r).drop 32 = r.toList := by
  rw [requestKey]
  exact List.drop_left' (by simp)

theorem take_historyKey (s : Particle) (i : UInt64) : (historyKey s i).take 32 = s.toList := by
  rw [historyKey]
  exact List.take_left' (by simp)

theorem drop_historyKey (s : Particle) (i : UInt64) : (historyKey s i).drop 32 = u64BeBytes i := by
  rw [historyKey]
  exact List.drop_left' (by simp)

theorem u64FromBe_u64BeBytes (i : UInt64) : u64FromBe (u64BeBytes i) = i := by
  rw [u64FromBe, u64BeBytes, List.reverse_reverse, u64FromLe_u64LeBytes]

/-! ### Heads and receipts -/

theorem rowAccepted_head {s : Particle} {head : Head} :
    RowAccepted v .heads (s.toList, encodeHead head) ↔ Linked v s head := by
  have hspace : particle ((s.toList, encodeHead head).1.take 32) = .ok s := by
    rw [List.take_of_length_le (by simp), particle_toList]
  have hnamed : linkedHead .heads none s (s.toList, encodeHead head) = .ok (head, none) := by
    rw [linkedHead, decodeHead_encodeHead]
    rfl
  constructor
  · rintro ⟨s', head', hspace', hnamed', hlinked, -⟩
    obtain rfl := Except.ok.inj (hspace.symm.trans hspace')
    obtain ⟨rfl, -⟩ := Prod.mk.inj (Except.ok.inj (hnamed.symm.trans hnamed'))
    exact hlinked
  · intro hlinked
    exact ⟨s, head, hspace, hnamed, hlinked, nofun⟩

theorem rowAccepted_receipt {s r fingerprint : Particle} {head : Head} :
    RowAccepted v .requests (requestKey s r, encodeRequest fingerprint head) ↔ Linked v s head := by
  have hspace : particle ((requestKey s r, encodeRequest fingerprint head).1.take 32) = .ok s := by
    rw [take_requestKey, particle_toList]
  have hnamed : linkedHead .requests none s (requestKey s r, encodeRequest fingerprint head) = .ok (head, none) := by
    rw [linkedHead, decodeRequest_encodeRequest]
    rfl
  constructor
  · rintro ⟨s', head', hspace', hnamed', hlinked, -⟩
    obtain rfl := Except.ok.inj (hspace.symm.trans hspace')
    obtain ⟨rfl, -⟩ := Prod.mk.inj (Except.ok.inj (hnamed.symm.trans hnamed'))
    exact hlinked
  · intro hlinked
    exact ⟨s, head, hspace, hnamed, hlinked, nofun⟩

theorem heads_accepted (hw : WellFormed db.view) :
    (∀ row ∈ rowsAfter db.tables .heads none, RowAccepted db.view .heads row) ↔
      ∀ s head, db.view .heads s.toList = some (encodeHead head) → Linked db.view s head := by
  constructor
  · intro h s head hrow
    exact rowAccepted_head.mp (h (s.toList, encodeHead head) (mem_rowsAfter_none.mpr hrow))
  · intro h row hrow
    obtain ⟨k, x⟩ := row
    obtain ⟨s, head, rfl, rfl⟩ := hw.head (mem_rowsAfter_none.mp hrow)
    exact rowAccepted_head.mpr (h s head (mem_rowsAfter_none.mp hrow))

theorem receipts_accepted (hw : WellFormed db.view) :
    (∀ row ∈ rowsAfter db.tables .requests none, RowAccepted db.view .requests row) ↔
      ∀ s r fingerprint head, db.view .requests (requestKey s r) = some (encodeRequest fingerprint head) →
        Linked db.view s head := by
  constructor
  · intro h s r fingerprint head hrow
    exact rowAccepted_receipt.mp (h (requestKey s r, encodeRequest fingerprint head) (mem_rowsAfter_none.mpr hrow))
  · intro h row hrow
    obtain ⟨k, x⟩ := row
    obtain ⟨s, r, fingerprint, head, rfl, rfl⟩ := hw.receipt (mem_rowsAfter_none.mp hrow)
    exact rowAccepted_receipt.mpr (h s r fingerprint head (mem_rowsAfter_none.mp hrow))

theorem receiptIndex_injective {s s' : Particle} {i i' : UInt64}
    (h : receiptIndex s.toList i = receiptIndex s'.toList i') : s = s' ∧ i = i' :=
  historyKey_injective (List.cons.inj h).2

theorem receiptOf_receipt (s r fingerprint : Particle) (head : Head) :
    receiptOf (requestKey s r, encodeRequest fingerprint head) =
      some (receiptIndex s.toList head.index, r.toList) := by
  rw [receiptOf_eq (decodeRequest_encodeRequest fingerprint head), take_requestKey, drop_requestKey]

theorem receipts_compatible (hw : WellFormed db.view) :
    Compatible (rowsAfter db.tables .requests none) ↔ ∀ s r r' fingerprint fingerprint' head head',
      db.view .requests (requestKey s r) = some (encodeRequest fingerprint head) →
      db.view .requests (requestKey s r') = some (encodeRequest fingerprint' head') → head.index = head'.index → r = r' := by
  constructor
  · intro h s r r' fingerprint fingerprint' head head' hrow hrow' hindex
    have hreceipt' := receiptOf_receipt s r' fingerprint' head'
    rw [← hindex] at hreceipt'
    exact Vector.toList_inj.mp (h _ (mem_rowsAfter_none.mpr hrow) _ (mem_rowsAfter_none.mpr hrow') _ _ _
      (receiptOf_receipt s r fingerprint head) hreceipt')
  · intro h row hrow row' hrow' k x x' hreceipt hreceipt'
    obtain ⟨key, value⟩ := row
    obtain ⟨key', value'⟩ := row'
    have hfound := mem_rowsAfter_none.mp hrow
    have hfound' := mem_rowsAfter_none.mp hrow'
    obtain ⟨s, r, fingerprint, head, rfl, rfl⟩ := hw.receipt hfound
    obtain ⟨s', r', fingerprint', head', rfl, rfl⟩ := hw.receipt hfound'
    rw [receiptOf_receipt] at hreceipt hreceipt'
    obtain ⟨rfl, rfl⟩ := Prod.mk.inj (Option.some.inj hreceipt)
    obtain ⟨hkey, rfl⟩ := Prod.mk.inj (Option.some.inj hreceipt')
    obtain ⟨rfl, hindex⟩ := receiptIndex_injective hkey
    rw [h s' r r' fingerprint fingerprint' head head' hfound hfound' hindex.symm]

/-- The index of all receipts has the indices that some receipt is for. -/
theorem IndexHolds.covers (hw : WellFormed db.view) {v' : View}
    (h : IndexHolds v' (rowsAfter db.tables .requests none)) (s : Particle) (i : UInt64) :
    v' .migration (receiptIndex s.toList i) ≠ none ↔ ∃ r fingerprint head,
      db.view .requests (requestKey s r) = some (encodeRequest fingerprint head) ∧ head.index = i := by
  constructor
  · intro hne
    obtain ⟨x, hx⟩ := Option.ne_none_iff_exists'.mp hne
    obtain ⟨⟨key, value⟩, hrow, hreceipt⟩ := (h _ x ⟨_, rfl⟩).mp hx
    have hfound := mem_rowsAfter_none.mp hrow
    obtain ⟨s', r, fingerprint, head, rfl, rfl⟩ := hw.receipt hfound
    rw [receiptOf_receipt] at hreceipt
    obtain ⟨hkey, -⟩ := Prod.mk.inj (Option.some.inj hreceipt)
    obtain ⟨rfl, rfl⟩ := receiptIndex_injective hkey
    exact ⟨r, fingerprint, head, hfound, rfl⟩
  · rintro ⟨r, fingerprint, head, hrow, rfl⟩
    have hfound : v' .migration (receiptIndex s.toList head.index) = some r.toList :=
      (h _ r.toList ⟨_, rfl⟩).mpr ⟨_, mem_rowsAfter_none.mpr hrow, receiptOf_receipt s r fingerprint head⟩
    rw [hfound]
    nofun

/-! ### History -/

/-- The row of the history for a place and a commit. -/
def historyRow (entry : (Particle × UInt64) × Particle) : RawEntry := (historyKey entry.1.1 entry.1.2, entry.2.toList)

theorem linkedHead_historyRow {previous next : Option (Particle × UInt64)} {s : Particle} {i : UInt64} {commit : Particle}
    {head : Head} : linkedHead .history previous s (historyRow ((s, i), commit)) = .ok (head, next) ↔
      expectedIndex previous s = .ok i ∧ head = ⟨i, commit⟩ ∧ next = some (s, i) := by
  have hlen : ¬((historyRow ((s, i), commit)).1.drop 32).length ≠ 8 := by
    rw [historyRow, drop_historyKey]
    simp
  have hindex : u64FromBe ((historyRow ((s, i), commit)).1.drop 32) = i := by
    rw [historyRow, drop_historyKey, u64FromBe_u64BeBytes]
  rw [linkedHead, refuse_of_not hlen, hindex]
  change (expectedIndex previous s >>= _) = _ ↔ _
  cases hexpected : expectedIndex previous s with
  | error e =>
      constructor
      · intro h
        cases h
      · rintro ⟨h, -⟩
        cases h
  | ok expected =>
      change (refuse (i ≠ expected) Error.corrupt >>= _) = _ ↔ _
      by_cases heq : i = expected
      · subst heq
        rw [refuse_of_not (not_not.mpr rfl)]
        change (particle commit.toList >>= _) = _ ↔ _
        rw [particle_toList]
        constructor
        · intro h
          obtain ⟨rfl, rfl⟩ := Prod.mk.inj (Except.ok.inj h)
          exact ⟨rfl, rfl, rfl⟩
        · rintro ⟨-, rfl, rfl⟩
          rfl
      · rw [refuse, if_pos heq]
        constructor
        · intro h
          cases h
        · exact fun h => absurd (Except.ok.inj h.1).symm heq

theorem space_historyRow (entry : (Particle × UInt64) × Particle) :
    particle ((historyRow entry).1.take 32) = .ok entry.1.1 := by
  rw [historyRow, take_historyKey, particle_toList]

/-- The pass over the history accepts rows in sequence, each of them linked and with a receipt. -/
theorem history_fold (hready : db.failure = none) (hfits : Fits db.view)
    (hindex : ∀ k x, IsReceiptIndex k → db.view .migration k = some x → x.length ≤ 32)
    (entries : List ((Particle × UInt64) × Particle)) (previous : Option (Particle × UInt64)) :
    (∃ last, (entries.map historyRow).foldlM (checkLink db .history) previous = .ok last) ↔
      InSequence previous (entries.map Prod.fst) ∧ ∀ entry ∈ entries, Linked db.view entry.1.1 ⟨entry.1.2, entry.2⟩ ∧
        db.view .migration (receiptIndex entry.1.1.toList entry.1.2) ≠ none := by
  induction entries generalizing previous with
  | nil => exact ⟨fun _ => ⟨trivial, nofun⟩, fun _ => ⟨previous, rfl⟩⟩
  | cons entry entries ih =>
      obtain ⟨⟨s, i⟩, commit⟩ := entry
      rw [List.map_cons, List.map_cons, List.forall_mem_cons]
      constructor
      · rintro ⟨last, hlast⟩
        rw [List.foldlM_cons] at hlast
        obtain ⟨next, hrow, hlast⟩ := exists_of_bind_ok hlast
        obtain ⟨s', head, hspace, hnamed, hlinked, hreceipt⟩ := rowLinked_of_checkLink hrow
        obtain rfl := Except.ok.inj ((space_historyRow _).symm.trans hspace)
        obtain ⟨hexpected, rfl, rfl⟩ := linkedHead_historyRow.mp hnamed
        obtain ⟨hsequence, hrest⟩ := (ih _).mp ⟨last, hlast⟩
        exact ⟨⟨hexpected, hsequence⟩, ⟨hlinked, hreceipt rfl⟩, hrest⟩
      · rintro ⟨⟨hexpected, hsequence⟩, ⟨hlinked, hreceipt⟩, hrest⟩
        obtain ⟨last, hlast⟩ := (ih _).mpr ⟨hsequence, hrest⟩
        refine ⟨last, ?_⟩
        have hrow : RowLinked db.view .history previous (historyRow ((s, i), commit)) s ⟨i, commit⟩ (some (s, i)) :=
          ⟨space_historyRow _, linkedHead_historyRow.mpr ⟨hexpected, rfl, rfl⟩, hlinked, fun _ => hreceipt⟩
        rw [List.foldlM_cons, checkLink_of_rowLinked hready hfits hindex hrow]
        exact hlast

/-- The rows of a well formed history, in key order. -/
theorem WellFormed.entries (hw : WellFormed db.view) : ∃ entries : List ((Particle × UInt64) × Particle),
    rowsAfter db.tables .history none = entries.map historyRow ∧ (entries.map Prod.fst).Pairwise Before ∧
      ∀ s i (commit : Particle), ((s, i), commit) ∈ entries ↔ db.view .history (historyKey s i) = some commit.toList := by
  have hrows : ∀ row ∈ rowsAfter db.tables .history none, ∃ entry, historyRow entry = row := by
    rintro ⟨k, x⟩ hrow
    obtain ⟨s, i, commit, rfl, rfl⟩ := hw.recorded (mem_rowsAfter_none.mp hrow)
    exact ⟨((s, i), commit), rfl⟩
  obtain ⟨entries, hentries⟩ : ∃ entries : List ((Particle × UInt64) × Particle),
      rowsAfter db.tables .history none = entries.map historyRow := (exists_map_eq hrows).imp fun _ => Eq.symm
  refine ⟨entries, hentries, ?_, fun s i commit => ?_⟩
  · have hincreasing : Increasing (rowsAfter db.tables .history none) := (increasing_toList _).filter _
    rw [hentries] at hincreasing
    have hkeys := List.pairwise_map.mp hincreasing
    exact List.pairwise_map.mpr hkeys
  · constructor
    · intro hmem
      have hrow : historyRow ((s, i), commit) ∈ rowsAfter db.tables .history none := by
        rw [hentries]
        exact List.mem_map_of_mem hmem
      exact mem_rowsAfter_none.mp hrow
    · intro hfound
      have hrow : historyRow ((s, i), commit) ∈ rowsAfter db.tables .history none := mem_rowsAfter_none.mpr hfound
      rw [hentries] at hrow
      obtain ⟨⟨⟨s', i'⟩, commit'⟩, hmem, heq⟩ := List.mem_map.mp hrow
      obtain ⟨hkey, hvalue⟩ := Prod.mk.inj heq
      obtain ⟨rfl, rfl⟩ := historyKey_injective hkey
      obtain rfl := Vector.toList_inj.mp hvalue
      exact hmem

/-- The places of the entries are those of the history. -/
theorem mem_places (hw : WellFormed db.view) {entries : List ((Particle × UInt64) × Particle)}
    (hentries : ∀ s i (commit : Particle), ((s, i), commit) ∈ entries ↔
      db.view .history (historyKey s i) = some commit.toList) (s : Particle) (i : UInt64) :
    (s, i) ∈ entries.map Prod.fst ↔ db.view .history (historyKey s i) ≠ none := by
  constructor
  · intro hmem
    obtain ⟨⟨place, commit⟩, hmem, rfl⟩ := List.mem_map.mp hmem
    rw [(hentries s i commit).mp hmem]
    nofun
  · intro hne
    obtain ⟨x, hx⟩ := Option.ne_none_iff_exists'.mp hne
    obtain ⟨s', i', commit, hkey, rfl⟩ := hw.recorded hx
    exact List.mem_map.mpr ⟨((s, i), commit), (hentries s i commit).mpr hx, rfl⟩

/-- A history in key order is in sequence when every row but the first of a namespace has its predecessor. -/
theorem inSequence_iff (hw : WellFormed db.view) {entries : List ((Particle × UInt64) × Particle)}
    (hsorted : (entries.map Prod.fst).Pairwise Before)
    (hentries : ∀ s i (commit : Particle), ((s, i), commit) ∈ entries ↔
      db.view .history (historyKey s i) = some commit.toList) :
    InSequence none (entries.map Prod.fst) ↔
      ∀ s i, db.view .history (historyKey s i) ≠ none → i ≠ 0 → db.view .history (historyKey s (i - 1)) ≠ none := by
  have hplace := mem_places hw hentries
  constructor
  · intro h s i hne hi
    rcases predecessors_of_inSequence h s i ((hplace s i).mpr hne) hi with hmem | hnone
    · exact (hplace s (i - 1)).mp hmem
    · cases hnone
  · intro h
    refine inSequence_of_predecessors hsorted nofun fun s i hmem hi => .inl ?_
    exact (hplace s (i - 1)).mpr (h s i ((hplace s i).mp hmem) hi)

/-- What the pass over a well formed history accepts. -/
theorem history_accepted (hready : db.failure = none) (hfits : Fits db.view) (hshort : ShortIndex db.view)
    (hw : WellFormed db.view) : PassAccepts db .history none (rowsAfter db.tables .history none) ↔
      (∀ s i, db.view .history (historyKey s i) ≠ none → i ≠ 0 → db.view .history (historyKey s (i - 1)) ≠ none) ∧
      (∀ s i (commit : Particle), db.view .history (historyKey s i) = some commit.toList → Linked db.view s ⟨i, commit⟩) ∧
      ∀ s i, db.view .history (historyKey s i) ≠ none → db.view .migration (receiptIndex s.toList i) ≠ none := by
  obtain ⟨entries, hrows, hsorted, hentries⟩ := hw.entries
  have hfold := history_fold hready hfits (fun k x hk hx => (hshort k x hk hx).1) entries none
  have hsequence := inSequence_iff hw hsorted hentries
  have hvalid := hw.valid (by decide : Table.history ∈ TABLES)
  rw [PassAccepts, hrows, hfold, hsequence, ← hrows]
  constructor
  · rintro ⟨-, hsteps, hlinked⟩
    refine ⟨hsteps, fun s i commit hrow => (hlinked _ ((hentries s i commit).mpr hrow)).1, fun s i hne => ?_⟩
    obtain ⟨x, hx⟩ := Option.ne_none_iff_exists'.mp hne
    obtain ⟨s', i', commit, hkey, rfl⟩ := hw.recorded hx
    exact (hlinked _ ((hentries s i commit).mpr hx)).2
  · rintro ⟨hsteps, hlinked, hreceipt⟩
    refine ⟨hvalid, hsteps, fun entry hentry => ?_⟩
    obtain ⟨⟨s, i⟩, commit⟩ := entry
    have hrow := (hentries s i commit).mp hentry
    exact ⟨hlinked s i commit hrow, hreceipt s i (by rw [hrow]; exact Option.some_ne_none _)⟩

/-! ### The verdict -/

variable {hemera : List UInt8 → Bytes32}

theorem Frame.wellFormed {v v' : View} (h : Frame v v') (hw : WellFormed v) : WellFormed v' := by
  intro t ht k x hx
  rw [h.rows ht] at hx
  exact hw t ht k x hx

/-- No row of the reverse index stands in a store. -/
def Clean (v : View) : Prop := ∀ k, IsReceiptIndex k → v .migration k = none

theorem Clean.short (h : Clean v) : ShortIndex v := by
  intro k x hk hx
  rw [h k hk] at hx
  cases hx

theorem Clean.holds (h : Clean v) : IndexHolds v [] := by
  intro k x hk
  rw [h k hk]
  exact ⟨nofun, fun h => nomatch h⟩

/-- A store after the pass over the receipts: they are in the reverse index, and the rest is as it was. -/
structure Indexed (db db₁ : Database) : Prop where
  ready : db₁.failure = none
  frame : Frame db.view db₁.view
  holds : IndexHolds db₁.view (rowsAfter db.tables .requests none)

/-- What the three passes accept. -/
structure PassesAccept (db db₁ : Database) : Prop where
  heads : PassAccepts db .heads none (rowsAfter db.tables .heads none)
  receipts : ReceiptsAccepted db.view [] (rowsAfter db.tables .requests none)
  indexed : Indexed db db₁
  history : PassAccepts db₁ .history none (rowsAfter db₁.tables .history none)

/-- What one of the three passes refuses. -/
def PassRefuses (db : Database) : Prop :=
  ¬PassAccepts db .heads none (rowsAfter db.tables .heads none) ∨
    ¬ReceiptsAccepted db.view [] (rowsAfter db.tables .requests none) ∨
    ∃ db₁, Indexed db db₁ ∧ ¬PassAccepts db₁ .history none (rowsAfter db₁.tables .history none)

/-- A whole run of `validate_links` ends: it accepts what the passes accept and leaves the store as it was, or one of
the passes refuses. -/
theorem links_leads (hready : db.failure = none) (hfits : Fits db.view) (hclean : Clean db.view) :
    (∃ db₁ db', PassesAccept db db₁ ∧ Links.Leads hemera (.start, db) (.done (.ok ()), db') ∧
      Frame db.view db'.view ∧ Clean db'.view) ∨
    (PassRefuses db ∧ ∃ e db', Links.Leads hemera (.start, db) (.done (.error e), db')) := by
  rcases @pass_leads db hemera hready hfits .heads (by decide) (by decide) [.requests, .history] none none nofun with
    ⟨hheads, hlead⟩ | ⟨hrefuses, e, hlead⟩
  · rcases @requests_leads hemera db hready hfits [.history] [] nofun hclean.holds none nofun with
      ⟨hreceipts, db₁, hlead', hready₁, hframe₁, hholds₁⟩ | ⟨hrefuses, e, db₁, hlead'⟩
    · rw [List.nil_append] at hholds₁
      have hindexed : Indexed db db₁ := ⟨hready₁, hframe₁, hholds₁⟩
      have hshort₁ : ShortIndex db₁.view :=
        hholds₁.short fun row hrow => (receipt_of_valid (hreceipts.1 row hrow)).1
      rcases @pass_leads db₁ hemera hready₁ (hframe₁.fits hfits) .history (by decide) (by decide) [] none none nofun with
        ⟨hhistory, hlead''⟩ | ⟨hrefuses, e, hlead''⟩
      · obtain ⟨db₂, hclear, -, hframe₂, hclean₂⟩ := @clear_leads hemera db₁ hready₁ hshort₁
        refine .inl ⟨db₁, db₂, ⟨hheads, hreceipts, hindexed, hhistory⟩, ?_, hframe₁.trans hframe₂, hclean₂⟩
        exact ((hlead.trans hlead').trans hlead'').trans (.head rfl hclear)
      · exact .inr ⟨.inr (.inr ⟨db₁, hindexed, hrefuses⟩), e, db₁, (hlead.trans hlead').trans hlead''⟩
    · exact .inr ⟨.inr (.inl hrefuses), e, db₁, hlead.trans hlead'⟩
  · exact .inr ⟨.inl hrefuses, e, db, hlead⟩

theorem heads_pass (hready : db.failure = none) (hfits : Fits db.view) (hclean : Clean db.view)
    (hw : WellFormed db.view) : PassAccepts db .heads none (rowsAfter db.tables .heads none) ↔
      ∀ s head, db.view .heads s.toList = some (encodeHead head) → Linked db.view s head := by
  rw [PassAccepts, accepted_fold hready hfits (fun k x hk hx => (hclean.short k x hk hx).1) (by decide),
    heads_accepted hw]
  exact and_iff_right (hw.valid (by decide))

theorem receipts_pass (hw : WellFormed db.view) :
    ReceiptsAccepted db.view [] (rowsAfter db.tables .requests none) ↔
      (∀ s r r' fingerprint fingerprint' head head',
        db.view .requests (requestKey s r) = some (encodeRequest fingerprint head) →
        db.view .requests (requestKey s r') = some (encodeRequest fingerprint' head') → head.index = head'.index →
          r = r') ∧
      ∀ s r fingerprint head, db.view .requests (requestKey s r) = some (encodeRequest fingerprint head) →
        Linked db.view s head := by
  rw [ReceiptsAccepted, List.nil_append, receipts_accepted hw, receipts_compatible hw]
  exact and_iff_right (hw.valid (by decide))

theorem Indexed.history_pass {db₁ : Database} (h : Indexed db db₁) (hfits : Fits db.view) (hw : WellFormed db.view) :
    PassAccepts db₁ .history none (rowsAfter db₁.tables .history none) ↔
      (∀ s i, db.view .history (historyKey s i) ≠ none → i ≠ 0 → db.view .history (historyKey s (i - 1)) ≠ none) ∧
      (∀ s i (commit : Particle), db.view .history (historyKey s i) = some commit.toList →
        Linked db.view s ⟨i, commit⟩) ∧
      ∀ s i, db.view .history (historyKey s i) ≠ none → ∃ r fingerprint head,
        db.view .requests (requestKey s r) = some (encodeRequest fingerprint head) ∧ head.index = i := by
  have hshort : ShortIndex db₁.view :=
    h.holds.short fun row hrow => (receipt_of_valid (hw.valid (by decide) row hrow)).1
  rw [history_accepted h.ready (h.frame.fits hfits) hshort (h.frame.wellFormed hw)]
  simp only [h.frame.rows (by decide : Table.history ∈ TABLES), h.frame.linked, h.holds.covers hw]

/-- On well formed rows the verdict of `validate_links` is that of the local checks. -/
theorem links_verdict (hready : db.failure = none) (hfits : Fits db.view) (hclean : Clean db.view)
    (hw : WellFormed db.view) :
    (∃ db', Links.Leads hemera (.start, db) (.done (.ok ()), db')) ↔ LocallyLinked db.view := by
  have hheads := heads_pass hready hfits hclean hw
  have hreceipts := receipts_pass hw
  rcases @links_leads db hemera hready hfits hclean with ⟨db₁, db', haccept, hlead, -, -⟩ | ⟨hrefuse, e, db', hlead⟩
  · refine iff_of_true ⟨db', hlead⟩ ?_
    obtain ⟨hunique, hlinked⟩ := hreceipts.mp haccept.receipts
    obtain ⟨hsteps, hrecorded, hcovered⟩ := (haccept.indexed.history_pass hfits hw).mp haccept.history
    exact ⟨hheads.mp haccept.heads, hlinked, hunique, hrecorded, hsteps, hcovered⟩
  · refine iff_of_false ?_ fun h => ?_
    · rintro ⟨db'', hlead'⟩
      cases (Links.Leads.done_unique hlead hlead').1
    · rcases hrefuse with hrefuse | hrefuse | ⟨db₁, hindexed, hrefuse⟩
      · exact hrefuse (hheads.mpr h.heads)
      · exact hrefuse (hreceipts.mpr ⟨h.unique, h.receipts⟩)
      · exact hrefuse ((hindexed.history_pass hfits hw).mpr ⟨h.steps, h.history, h.covered⟩)

/-- An accepting run leaves every row as it was, apart from the marker of the last transaction. -/
theorem links_preserve (hready : db.failure = none) (hfits : Fits db.view) (hclean : Clean db.view) {db' : Database}
    (h : Links.Leads hemera (.start, db) (.done (.ok ()), db')) {t : Table} {k : List UInt8}
    (hmarker : ¬(t = .metadata ∧ k = ascii "last_transaction")) : db'.view t k = db.view t k := by
  rcases @links_leads db hemera hready hfits hclean with ⟨db₁, db'', -, hlead, hframe, hclean''⟩ | ⟨-, e, db'', hlead⟩
  · obtain ⟨-, rfl⟩ := Links.Leads.done_unique hlead h
    by_cases hindex : t = .migration ∧ IsReceiptIndex k
    · obtain ⟨rfl, hindex⟩ := hindex
      rw [hclean'' k hindex, hclean k hindex]
    · exact hframe t k hindex hmarker
  · cases (Links.Leads.done_unique hlead h).1

end LeanBbg.Storage
