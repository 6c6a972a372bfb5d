import LeanBbg.Database

/-! The budgets of a transaction. Its byte count is the sum over what is staged, whatever was overwritten on the way,
and the room it leaves is enough for the two markers that a commit adds. -/

namespace LeanBbg.Storage

/-! ### One row of an association list -/

section Rows

variable {α : Type} {β : α → Type} [DecidableEq α]

/-- A sum over the rows is the sum over the others and the part of the row at a key. -/
theorem sum_kerase (w : Sigma β → Nat) (a : α) (rows : List (Sigma β)) :
    (rows.map w).sum = ((rows.kerase a).map w).sum + (rows.dlookup a).elim 0 fun b => w ⟨a, b⟩ := by
  induction rows with
  | nil => rfl
  | cons row rows ih =>
      obtain ⟨a', b⟩ := row
      by_cases heq : a = a'
      · subst heq
        have hkerase : List.kerase a (⟨a, b⟩ :: rows) = rows := List.kerase_cons_eq rfl
        rw [hkerase, List.dlookup_cons_eq, List.map_cons, List.sum_cons, Nat.add_comm]
        rfl
      · rw [List.kerase_cons_ne heq, List.dlookup_cons_ne _ _ heq, List.map_cons, List.sum_cons, List.map_cons,
          List.sum_cons, ih, Nat.add_assoc]

theorem length_kerase (a : α) (rows : List (Sigma β)) :
    rows.length = (rows.kerase a).length + (rows.dlookup a).elim 0 fun _ => 1 := by
  have hsum := sum_kerase (fun _ => 1) a rows
  simpa using hsum

end Rows

/-! ### Counting -/

/-- The bytes of a staged change: its key, and its value unless the row is removed. -/
def stagedBytes (change : Sigma fun _ : Table × List UInt8 => Option (List UInt8)) : Nat :=
  change.1.2.length + change.2.elim 0 List.length

/-- The bytes of a batch. -/
def Changes.total (changes : Changes) : Nat := (changes.entries.map stagedBytes).sum

/-- A batch within the limits of one transaction. -/
structure Changes.Within (changes : Changes) : Prop where
  keys : changes.entries.length ≤ MAX_TRANSACTION_KEYS
  bytes : changes.total ≤ MAX_TRANSACTION_BYTES

namespace Changes

variable {changes : Changes} {address : Table × List UInt8} {value : Option (List UInt8)}

/-- What an address has staged, in bytes. -/
def old (changes : Changes) (address : Table × List UInt8) : Nat :=
  (changes.lookup address).elim 0 fun v => address.2.length + v.elim 0 List.length

theorem old_le (changes : Changes) (address : Table × List UInt8) : changes.old address ≤ changes.total := by
  rw [total, sum_kerase stagedBytes address]
  exact Nat.le_add_left _ _

theorem total_insert (changes : Changes) (address : Table × List UInt8) (value : Option (List UInt8)) :
    Changes.total (changes.insert address value) =
      changes.total - changes.old address + address.2.length + value.elim 0 List.length := by
  have hsum : changes.total = _ := sum_kerase stagedBytes address changes.entries
  have hold : changes.old address = (changes.entries.dlookup address).elim 0 fun v => stagedBytes ⟨address, v⟩ := rfl
  have hnew : stagedBytes ⟨address, value⟩ = address.2.length + value.elim 0 List.length := rfl
  rw [total, AList.entries_insert, List.map_cons, List.sum_cons, hnew]
  omega

/-- An address that is overwritten takes no more keys. -/
theorem length_insert (changes : Changes) (address : Table × List UInt8) (value : Option (List UInt8)) :
    (changes.insert address value).entries.length =
      changes.entries.length + if (changes.lookup address).isNone then 1 else 0 := by
  have hlength := length_kerase address changes.entries
  rw [AList.entries_insert, List.length_cons, AList.lookup]
  cases hfound : changes.entries.dlookup address with
  | none =>
      rw [hfound, Option.elim_none] at hlength
      rw [Option.isNone_none, if_pos rfl]
      omega
  | some v =>
      rw [hfound, Option.elim_some] at hlength
      rw [Option.isNone_some, if_neg Bool.false_ne_true]
      omega

/-- One more row costs its bytes at most. -/
theorem total_insert_le (changes : Changes) (address : Table × List UInt8) (value : Option (List UInt8)) :
    Changes.total (changes.insert address value) ≤ changes.total + (address.2.length + value.elim 0 List.length) := by
  rw [total_insert]
  omega

end Changes

/-! ### Calls -/

/-- `Transaction::stage`, statement by statement: an error keeps the transaction as it is at that point. -/
def stageCall (table : Table) (key : List UInt8) (value : Option (List UInt8)) :
    EStateM StorageError Transaction Unit := do
  if key.length > 64 ∨ value.any (fun v => v.length > MAX_BYTES_VALUE) then
    throw (.limit "transaction record")
  let previous := (← get).changes.lookup (table, key)
  if previous.isNone ∧ (← get).changes.entries.length ≥ MAX_TRANSACTION_KEYS - 2 then
    throw (.limit "transaction key count")
  let old := previous.elim 0 fun v => key.length + v.elim 0 List.length
  let bytes := (← get).bytes - old + key.length + value.elim 0 List.length
  if bytes > MAX_TRANSACTION_BYTES - 91 then
    throw (.limit "transaction bytes")
  modify fun tx => { tx with changes := tx.changes.insert (table, key) value }
  modify fun tx => { tx with bytes := bytes }

/-- A call of a closure on its transaction. -/
inductive StageCall where
  | put (table : Table) (key value : List UInt8)
  | remove (table : Table) (key : List UInt8)

def StageCall.run : StageCall → EStateM StorageError Transaction Unit
  | put table key value => stageCall table key (some value)
  | remove table key => stageCall table key none

/-- The transaction after a call, which may have failed. -/
def StageCall.after (tx : Transaction) (call : StageCall) : Transaction :=
  match call.run tx with
  | .ok _ tx => tx
  | .error _ tx => tx

/-- The transaction after any calls. -/
def stageAll (tx : Transaction) (calls : List StageCall) : Transaction := calls.foldl StageCall.after tx

/-- A call either stages its change as a whole or leaves the transaction as it was. -/
theorem stageCall_eq (tx : Transaction) (table : Table) (key : List UInt8) (value : Option (List UInt8)) :
    stageCall table key value tx =
      match tx.stage table key value with
      | .ok tx' => .ok () tx'
      | .error e => .error e tx := by
  rw [Transaction.stage]
  dsimp only
  split_ifs with hrecord hkeys hbytes
  · rw [stageCall, if_pos hrecord]
    rfl
  · rw [stageCall, if_neg hrecord]
    change (if _ then _ else _ : EStateM StorageError Transaction Unit) tx = _
    rw [if_pos hkeys]
    rfl
  · rw [stageCall, if_neg hrecord]
    change (if _ then _ else _ : EStateM StorageError Transaction Unit) tx = _
    rw [if_neg hkeys]
    change (if _ then _ else _ : EStateM StorageError Transaction Unit) tx = _
    rw [if_pos hbytes]
    rfl
  · rw [stageCall, if_neg hrecord]
    change (if _ then _ else _ : EStateM StorageError Transaction Unit) tx = _
    rw [if_neg hkeys]
    change (if _ then _ else _ : EStateM StorageError Transaction Unit) tx = _
    rw [if_neg hbytes]
    rfl

/-! ### The budgets -/

/-- The counts of a transaction are those of what it has staged, with room for the markers. -/
structure Transaction.Counted (tx : Transaction) : Prop where
  exact : tx.bytes = Changes.total tx.changes
  keys : tx.changes.entries.length ≤ MAX_TRANSACTION_KEYS - 2
  bytes : tx.bytes ≤ MAX_TRANSACTION_BYTES - 91

theorem counted_begin (tables : Tables) : (Transaction.begin tables).Counted := ⟨rfl, Nat.zero_le _, Nat.zero_le _⟩

theorem Transaction.Counted.stage {tx tx' : Transaction} (h : tx.Counted) {table : Table} {key : List UInt8}
    {value : Option (List UInt8)} (hstage : tx.stage table key value = .ok tx') : tx'.Counted := by
  simp only [Transaction.stage] at hstage
  split_ifs at hstage with hrecord hkeys hbytes
  obtain rfl := Except.ok.inj hstage
  refine ⟨?_, ?_, Nat.not_lt.mp hbytes⟩
  · dsimp only
    rw [Changes.total_insert, h.exact]
    rfl
  · -- a new address is only staged while there is room, and an overwritten one takes none
    have hold := h.keys
    dsimp only
    rw [Changes.length_insert]
    split_ifs with hnew
    · have hlt := Nat.lt_of_not_le fun hfull => hkeys ⟨hnew, hfull⟩
      omega
    · exact hold

theorem Transaction.Counted.after {tx : Transaction} (h : tx.Counted) (call : StageCall) : (call.after tx).Counted := by
  have hcases : ∀ table key value, (match stageCall table key value tx with
      | .ok _ tx => tx
      | .error _ tx => tx).Counted := by
    intro table key value
    rw [stageCall_eq]
    cases hstage : tx.stage table key value with
    | ok tx' => exact h.stage hstage
    | error e => exact h
  cases call with
  | put table key value => exact hcases table key (some value)
  | remove table key => exact hcases table key none

theorem Transaction.Counted.stageAll {tx : Transaction} (h : tx.Counted) (calls : List StageCall) :
    (LeanBbg.Storage.stageAll tx calls).Counted := by
  induction calls generalizing tx with
  | nil => exact h
  | cons call calls ih => exact ih (h.after call)

/-- A call that fails leaves the transaction as it was. -/
theorem StageCall.unchanged {call : StageCall} {tx tx' : Transaction} {e : StorageError}
    (h : call.run tx = .error e tx') : tx' = tx := by
  have hcases : ∀ table key value, stageCall table key value tx = .error e tx' → tx' = tx := by
    intro table key value hcall
    rw [stageCall_eq] at hcall
    cases hstage : tx.stage table key value with
    | ok tx'' =>
        rw [hstage] at hcall
        cases hcall
    | error e' =>
        rw [hstage] at hcall
        cases hcall
        rfl
  cases call with
  | put table key value => exact hcases table key (some value) h
  | remove table key => exact hcases table key none h

/-- The two markers fit the room that is kept free for them. -/
theorem Transaction.Counted.within {tx : Transaction} (h : tx.Counted) (id : Bytes32) :
    (withMarkers tx.changes id).Within := by
  have hkeys := h.keys
  have hbytes := h.bytes
  rw [h.exact] at hbytes
  have hid : (some id.toList).elim 0 List.length = 32 := Vector.length_toList
  have hcommit : (ascii "last_commit").length = 11 := rfl
  have htransaction : (ascii "last_transaction").length = 16 := rfl
  have hlength : ∀ (changes : Changes) address value,
      (changes.insert address value).entries.length ≤ changes.entries.length + 1 := by
    intro changes address value
    rw [Changes.length_insert]
    split_ifs
    · exact Nat.le_refl _
    · exact Nat.le_succ _
  have hmarked : ∀ changes : Changes, changes.entries.length ≤ MAX_TRANSACTION_KEYS - 1 →
      Changes.total changes ≤ MAX_TRANSACTION_BYTES - 48 →
      Changes.Within (changes.insert (.metadata, ascii "last_transaction") (some id.toList)) := by
    intro changes hkeys hbytes
    have hcount := hlength changes (.metadata, ascii "last_transaction") (some id.toList)
    have htotal := Changes.total_insert_le changes (.metadata, ascii "last_transaction") (some id.toList)
    rw [hid, htransaction] at htotal
    rw [MAX_TRANSACTION_KEYS] at hkeys
    rw [MAX_TRANSACTION_BYTES] at hbytes
    refine ⟨?_, ?_⟩
    · rw [MAX_TRANSACTION_KEYS]
      omega
    · rw [MAX_TRANSACTION_BYTES]
      omega
  rw [withMarkers]
  rw [MAX_TRANSACTION_KEYS] at hkeys
  rw [MAX_TRANSACTION_BYTES] at hbytes
  split_ifs with hshards
  · have hcount := hlength tx.changes (.metadata, ascii "last_commit") (some id.toList)
    have htotal := Changes.total_insert_le tx.changes (.metadata, ascii "last_commit") (some id.toList)
    rw [hid, hcommit] at htotal
    refine hmarked _ ?_ ?_
    · rw [MAX_TRANSACTION_KEYS]
      omega
    · rw [MAX_TRANSACTION_BYTES]
      omega
  · refine hmarked _ ?_ ?_
    · rw [MAX_TRANSACTION_KEYS]
      omega
    · rw [MAX_TRANSACTION_BYTES]
      omega

/-- What holds of a transaction after any calls. -/
structure Accounted (hemera : List UInt8 → Bytes32) (tx : Transaction) : Prop where
  exact : tx.bytes = (tx.changes.entries.map fun change => change.1.2.length + change.2.elim 0 List.length).sum
  noUnderflow : ∀ table key, ((tx.changes.lookup (table, key)).elim 0 fun v => key.length + v.elim 0 List.length) ≤ tx.bytes
  keys : tx.changes.entries.length ≤ MAX_TRANSACTION_KEYS - 2
  bytes : tx.bytes ≤ MAX_TRANSACTION_BYTES - 91
  committed : (withMarkers tx.changes (changeId hemera tx.changes)).Within
  untouched : ∀ (call : StageCall) e tx', call.run tx = .error e tx' → tx'.changes = tx.changes ∧ tx'.bytes = tx.bytes

/-- The accounting of a transaction is exact after any sequence of calls, failed ones among them. -/
theorem stageAll_accounted (hemera : List UInt8 → Bytes32) (tables : Tables) (calls : List StageCall) :
    Accounted hemera (stageAll (.begin tables) calls) := by
  have h := (counted_begin tables).stageAll calls
  refine ⟨h.exact, fun table key => ?_, h.keys, h.bytes, h.within _, fun call e tx' hcall => ?_⟩
  · rw [h.exact]
    exact Changes.old_le _ (table, key)
  · rw [StageCall.unchanged hcall]
    exact ⟨rfl, rfl⟩

end LeanBbg.Storage
