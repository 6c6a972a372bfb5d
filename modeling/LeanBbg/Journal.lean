import LeanBbg.Marker

/-! The journal file. Batches are written behind each other; the reader returns them in order, checks each against
its end marker, and cuts the file behind the last whole batch. -/

namespace LeanBbg.Fjall

open Bytes Bytes.Scanner

structure Item where
  partition : String
  key : List UInt8
  value : List UInt8
  valueType : ValueType

/-- A new item asserts that its parts fit in the fields of a marker. -/
structure Item.Valid (item : Item) : Prop where
  partition_ne : utf8 item.partition ≠ []
  key_ne : item.key ≠ []
  partition_lt : (utf8 item.partition).length < 2 ^ 8
  key_lt : item.key.length < 2 ^ 16
  value_lt : item.value.length < 2 ^ 32

structure Batch where
  seqno : Nat
  items : List Item

variable [Coding] (xxh3 : List UInt8 → UInt64)

def Item.marker (item : Item) : Marker := .item item.partition item.key item.value item.valueType

/-! ### Writing -/

/-- `write_batch`: what it writes for a batch. An empty batch leaves no trace. -/
def Batch.bytes (batch : Batch) : List UInt8 :=
  if batch.items.length = 0 then []
  else
    let items := batch.items.flatMap fun item => item.marker.encodeInto
    (Marker.start batch.items.length batch.seqno Coding.none).encodeInto ++
      (items ++ (Marker.stop (xxh3 items)).encodeInto)

/-! ### Reading -/

structure JournalReader where
  file : List UInt8
  rest : List UInt8
  lastValidPos : Nat

def JournalReader.new (file : List UInt8) : JournalReader := ⟨file, file, 0⟩

/-- The next marker, or none when what is left is no marker; that is cut off the file. -/
def JournalReader.next (reader : JournalReader) : Except String (Option Marker) × JournalReader :=
  match Marker.decodeFrom reader.rest with
  | .ok (marker, rest) => (.ok (some marker), { reader with rest, lastValidPos := reader.file.length - rest.length })
  | .error (.error _) => (.ok none, { reader with file := reader.file.take reader.lastValidPos })
  | .error (.panic message) => (.error message, reader)

structure JournalBatchReader where
  reader : JournalReader
  items : List Item
  isInBatch : Bool
  batchCounter : Nat
  batchSeqno : Nat
  lastValidPos : Nat
  checksumBuilder : List UInt8

def JournalBatchReader.new (reader : JournalReader) : JournalBatchReader := ⟨reader, [], false, 0, 0, 0, []⟩

inductive RecoveryError where
  | insufficientLength
  | tooManyItems
  | checksumMismatch
  | panic (message : String)
  deriving DecidableEq

/-- One turn of the reader: it goes on, returns a batch, ends with the file as it leaves it, or fails. -/
inductive Turn where
  | again (reader : JournalBatchReader)
  | batch (batch : Batch) (reader : JournalBatchReader)
  | close (file : List UInt8)
  | fail (e : RecoveryError)

def JournalBatchReader.turn (r : JournalBatchReader) : Turn :=
  match r.reader.next with
  | (.error message, _) => .fail (.panic message)
  | (.ok none, reader) => .close (if r.isInBatch then reader.file.take r.lastValidPos else reader.file)
  | (.ok (some (.start itemCount seqno compression)), reader) =>
      if compression ≠ Coding.none then .fail (.panic "journal compression not supported")
      else if r.isInBatch then .close (reader.file.take r.lastValidPos)
      else .again { r with reader, isInBatch := true, batchCounter := itemCount, batchSeqno := seqno }
  | (.ok (some (.stop expectedChecksum)), reader) =>
      if r.batchCounter > 0 then .fail .insufficientLength
      else if ¬r.isInBatch then .close (reader.file.take r.lastValidPos)
      else if xxh3 r.checksumBuilder ≠ expectedChecksum then .fail .checksumMismatch
      else .batch ⟨r.batchSeqno, r.items⟩
        { r with reader, items := [], isInBatch := false, batchCounter := 0, lastValidPos := reader.lastValidPos,
                 checksumBuilder := [] }
  | (.ok (some (.item partition key value valueType)), reader) =>
      let item : Item := ⟨partition, key, value, valueType⟩
      if ¬r.isInBatch then .close (reader.file.take r.lastValidPos)
      else if r.batchCounter = 0 then .fail .tooManyItems
      else .again { r with reader, items := r.items ++ [item], batchCounter := r.batchCounter - 1,
                           checksumBuilder := r.checksumBuilder ++ item.marker.encodeInto }

/-- The batches of the file and the file as the reader leaves it, when the fuel lasts. -/
def readBatches : Nat → JournalBatchReader → Option (Except RecoveryError (List Batch × List UInt8))
  | 0, _ => none
  | fuel + 1, r =>
      match r.turn xxh3 with
      | .again r => readBatches fuel r
      | .batch batch r => (readBatches fuel r).map fun result => result.map fun read => (batch :: read.1, read.2)
      | .close file => some (.ok ([], file))
      | .fail e => some (.error e)

/-- All batches of a journal. Every marker has a byte, so the fuel lasts for the markers of the file. -/
def recoverJournal (file : List UInt8) : Option (Except RecoveryError (List Batch × List UInt8)) :=
  readBatches xxh3 (file.length + 2) (.new (.new file))

/-! ### The reader on a marker -/

structure Batch.Valid (batch : Batch) : Prop where
  items_ne : batch.items ≠ []
  items_lt : batch.items.length < 2 ^ 32
  seqno_lt : batch.seqno < 2 ^ 64
  items : ∀ item ∈ batch.items, item.Valid

theorem Item.Valid.marker {item : Item} (h : item.Valid) : item.marker.Valid := ⟨h.partition_lt, h.key_lt, h.value_lt⟩

variable [LawfulCoding] {xxh3}

theorem next_of_valid {marker : Marker} (h : marker.Valid) (file rest : List UInt8) (pos : Nat) :
    JournalReader.next ⟨file, marker.encodeInto ++ rest, pos⟩ =
      (.ok (some marker), ⟨file, rest, file.length - rest.length⟩) := by
  rw [JournalReader.next, reads_decodeFrom h]

/-- What is read of a torn marker: nothing, or what remains of it before zeros. -/
theorem next_of_torn {marker : Marker} (h : marker.Valid) {front : List UInt8} (hfront : front <+: marker.encodeInto)
    (hne : front ≠ marker.encodeInto) (n : Nat) (file : List UInt8) (pos : Nat) :
    JournalReader.next ⟨file, front ++ zeros n, pos⟩ = (.ok none, ⟨file.take pos, front ++ zeros n, pos⟩) ∨
      ∃ found k, marker.Remains found ∧ k ≤ (front ++ zeros n).length ∧
        JournalReader.next ⟨file, front ++ zeros n, pos⟩ = (.ok (some found), ⟨file, zeros k, file.length - k⟩) := by
  have htorn := onTorn_decodeFrom marker h front n hfront hne
  rw [JournalReader.next]
  dsimp only
  cases hread : Marker.decodeFrom (front ++ zeros n) with
  | error e =>
      rw [hread] at htorn
      obtain ⟨e, rfl⟩ := htorn
      exact .inl rfl
  | ok read =>
      rw [hread] at htorn
      obtain ⟨found, rest⟩ := read
      obtain ⟨hfound, k, rfl⟩ := htorn
      refine .inr ⟨found, k, hfound, ?_, by simp only [zeros_length]⟩
      obtain ⟨_, hlocal, -⟩ := local_decodeFrom _ _ _ hread
      rw [hlocal, List.length_append, zeros_length]
      exact Nat.le_add_left _ _

omit [LawfulCoding] in
theorem next_of_zeros (file : List UInt8) (n pos : Nat) :
    JournalReader.next ⟨file, zeros n, pos⟩ = (.ok none, ⟨file.take pos, zeros n, pos⟩) := by
  have hzeros := onZeros_decodeFrom n
  rw [JournalReader.next]
  dsimp only
  cases hread : Marker.decodeFrom (zeros n) with
  | error e =>
      rw [hread] at hzeros
      obtain ⟨e, rfl⟩ := hzeros
      rfl
  | ok read =>
      rw [hread] at hzeros
      exact hzeros.1.elim

/-! ### The reader on a batch -/

/-- What one turn of the reader does with a marker inside a batch. -/
theorem turn_item {file rest checks : List UInt8} {pos counter seqno valid : Nat} {items : List Item} {item : Item}
    (h : item.Valid) :
    JournalBatchReader.turn xxh3
        ⟨⟨file, item.marker.encodeInto ++ rest, pos⟩, items, true, counter + 1, seqno, valid, checks⟩ =
      .again ⟨⟨file, rest, file.length - rest.length⟩, items ++ [item], true, counter, seqno, valid,
        checks ++ item.marker.encodeInto⟩ := by
  rw [JournalBatchReader.turn, next_of_valid h.marker]
  rfl

theorem turn_stop {file rest checks : List UInt8} {pos seqno valid : Nat} {items : List Item} :
    JournalBatchReader.turn xxh3
        ⟨⟨file, (Marker.stop (xxh3 checks)).encodeInto ++ rest, pos⟩, items, true, 0, seqno, valid, checks⟩ =
      .batch ⟨seqno, items⟩
        ⟨⟨file, rest, file.length - rest.length⟩, [], false, 0, seqno, file.length - rest.length, []⟩ := by
  have hvalid : (Marker.stop (xxh3 checks)).Valid := trivial
  rw [JournalBatchReader.turn, next_of_valid hvalid]
  dsimp only
  rw [if_neg (Nat.lt_irrefl 0), if_neg (by simp), if_neg (by simp)]

theorem turn_start {file rest : List UInt8} {pos counter seqno seqno' valid : Nat} (hcounter : counter < 2 ^ 32)
    (hseqno : seqno < 2 ^ 64) :
    JournalBatchReader.turn xxh3
        ⟨⟨file, (Marker.start counter seqno Coding.none).encodeInto ++ rest, pos⟩, [], false, 0, seqno', valid, []⟩ =
      .again ⟨⟨file, rest, file.length - rest.length⟩, [], true, counter, seqno, valid, []⟩ := by
  have hvalid : (Marker.start counter seqno Coding.none).Valid := ⟨hcounter, hseqno, rfl⟩
  rw [JournalBatchReader.turn, next_of_valid hvalid]
  dsimp only
  rw [if_neg (by simp), if_neg (by simp)]

/-- The items of a batch and its end marker are read as the batch. -/
theorem readBatches_items {items : List Item} (hitems : ∀ item ∈ items, item.Valid) {file rest checks : List UInt8}
    {done : List Item} (fuel pos seqno valid : Nat) :
    readBatches xxh3 (fuel + (items.length + 1))
        ⟨⟨file, (items.flatMap fun item => item.marker.encodeInto) ++
          ((Marker.stop (xxh3 (checks ++ items.flatMap fun item => item.marker.encodeInto))).encodeInto ++ rest), pos⟩,
          done, true, items.length, seqno, valid, checks⟩ =
      (readBatches xxh3 fuel
        ⟨⟨file, rest, file.length - rest.length⟩, [], false, 0, seqno, file.length - rest.length, []⟩).map
        fun result => result.map fun read => (⟨seqno, done ++ items⟩ :: read.1, read.2) := by
  induction items generalizing done checks pos with
  | nil =>
      rw [List.flatMap_nil, List.append_nil, List.append_nil]
      change readBatches xxh3 (fuel + 1) _ = _
      rw [readBatches, List.nil_append, List.length_nil, turn_stop]
  | cons item items ih =>
      obtain ⟨hitem, hitems⟩ := List.forall_mem_cons.mp hitems
      have hrest := @ih hitems (checks ++ item.marker.encodeInto) (done ++ [item])
      rw [List.append_assoc, List.append_assoc, List.singleton_append] at hrest
      rw [List.flatMap_cons, List.append_assoc]
      change readBatches xxh3 (fuel + (items.length + 1) + 1) _ = _
      rw [readBatches, List.length_cons, turn_item hitem]
      exact hrest _

theorem readBatches_batch {batch : Batch} (h : batch.Valid) {file rest : List UInt8} (fuel pos seqno valid : Nat) :
    readBatches xxh3 (fuel + (batch.items.length + 2))
        ⟨⟨file, batch.bytes xxh3 ++ rest, pos⟩, [], false, 0, seqno, valid, []⟩ =
      (readBatches xxh3 fuel ⟨⟨file, rest, file.length - rest.length⟩, [], false, 0, batch.seqno,
        file.length - rest.length, []⟩).map fun result => result.map fun read => (batch :: read.1, read.2) := by
  have hitems := @readBatches_items _ xxh3 _ batch.items h.items file rest [] [] fuel
  rw [List.nil_append] at hitems
  rw [Batch.bytes, if_neg (fun hlen => h.items_ne (List.length_eq_zero_iff.mp hlen)), List.append_assoc,
    List.append_assoc]
  change readBatches xxh3 (fuel + (batch.items.length + 1) + 1) _ = _
  rw [readBatches, turn_start h.items_lt h.seqno_lt]
  exact hitems _ _ _

/-! ### The reader on a torn batch -/

omit [LawfulCoding] in
/-- Behind a marker that is not there the reader cuts the file behind the last whole batch. -/
theorem turn_zeros {file checks : List UInt8} {n pos counter seqno valid : Nat} {items : List Item}
    (hvalid : valid ≤ pos) :
    JournalBatchReader.turn xxh3 ⟨⟨file, zeros n, pos⟩, items, true, counter, seqno, valid, checks⟩ =
      .close (file.take valid) := by
  rw [JournalBatchReader.turn, next_of_zeros]
  dsimp only
  rw [if_pos rfl, List.take_take, min_eq_left hvalid]

/-- A torn marker ends the reading, at once or when the zeros behind it are read. -/
theorem readBatches_marker {marker : Marker} (h : marker.Valid) {front : List UInt8}
    (hfront : front <+: marker.encodeInto)
    (hne : front ≠ marker.encodeInto) {file checks : List UInt8} {n pos counter seqno valid : Nat} {items : List Item}
    (hvalid : valid ≤ pos) (hfile : valid + (front ++ zeros n).length ≤ file.length)
    (hitem : ∀ found, marker.Remains found → found.IsItem ∧ 0 < counter) :
    ∃ fuel ≤ 2, readBatches xxh3 fuel ⟨⟨file, front ++ zeros n, pos⟩, items, true, counter, seqno, valid, checks⟩ =
      some (.ok ([], file.take valid)) := by
  rcases next_of_torn h hfront hne n file pos with hnext | ⟨found, k, hfound, hk, hnext⟩
  · refine ⟨1, by omega, ?_⟩
    rw [readBatches, JournalBatchReader.turn, hnext]
    dsimp only
    rw [if_pos rfl, List.take_take, min_eq_left hvalid]
  · obtain ⟨hkind, hcounter⟩ := hitem found hfound
    refine ⟨2, Nat.le_refl _, ?_⟩
    cases found with
    | item partition key value valueType =>
        have hagain : JournalBatchReader.turn xxh3
            ⟨⟨file, front ++ zeros n, pos⟩, items, true, counter, seqno, valid, checks⟩ =
              .again
                ⟨⟨file, zeros k, file.length - k⟩, items ++ [⟨partition, key, value, valueType⟩], true, counter - 1,
                seqno, valid, checks ++ (Item.marker ⟨partition, key, value, valueType⟩).encodeInto⟩ := by
          rw [JournalBatchReader.turn, hnext]
          dsimp only
          rw [if_neg (by simp), if_neg (by omega)]
        rw [readBatches, hagain]
        dsimp only
        rw [readBatches, turn_zeros (by omega)]
    | start itemCount seqno compression => exact hkind.elim
    | stop checksum => exact hkind.elim

omit [LawfulCoding] in
theorem encodeInto_length_pos (marker : Marker) : 0 < marker.encodeInto.length := by
  cases marker with
  | start itemCount seqno compression => exact Nat.succ_pos _
  | item partition key value valueType => exact Nat.succ_pos _
  | stop checksum => exact Nat.succ_pos _

/-- A batch torn in its items or in its end marker is dropped. -/
theorem readBatches_tornItems {items : List Item} (hitems : ∀ item ∈ items, item.Valid) {front : List UInt8}
    {checksum : UInt64}
    (hfront : front <+: (items.flatMap fun item => item.marker.encodeInto) ++ (Marker.stop checksum).encodeInto)
    (hne : front ≠ (items.flatMap fun item => item.marker.encodeInto) ++ (Marker.stop checksum).encodeInto)
    {file checks : List UInt8} {n pos seqno valid : Nat} {done : List Item} (hvalid : valid ≤ pos)
    (hfile : valid + (front ++ zeros n).length ≤ file.length) :
    ∃ fuel ≤ front.length + 2,
      readBatches xxh3 fuel ⟨⟨file, front ++ zeros n, pos⟩, done, true, items.length, seqno, valid, checks⟩ =
        some (.ok ([], file.take valid)) := by
  induction items generalizing front done checks pos with
  | nil =>
      rw [List.flatMap_nil, List.nil_append] at hfront hne
      have hstop : (Marker.stop checksum).Valid := trivial
      obtain ⟨fuel, hfuel, hread⟩ :=
        @readBatches_marker _ xxh3 _ _ hstop front hfront hne file checks n pos 0 seqno valid
        done hvalid hfile fun _ hfound => hfound.elim
      exact ⟨fuel, hfuel.trans (Nat.le_add_left _ _), hread⟩
  | cons item items ih =>
      obtain ⟨hitem, hitems⟩ := List.forall_mem_cons.mp hitems
      rw [List.flatMap_cons, List.append_assoc] at hfront hne
      rcases proper_append hfront hne with ⟨hfront, hne⟩ | ⟨later, rfl, hlater, hne⟩
      · obtain ⟨fuel, hfuel, hread⟩ := @readBatches_marker _ xxh3 _ _ hitem.marker front hfront hne file checks n pos
          (items.length + 1) seqno valid done hvalid hfile fun _ hfound => ⟨hfound, Nat.succ_pos _⟩
        exact ⟨fuel, hfuel.trans (Nat.le_add_left _ _), hread⟩
      · have hpos := encodeInto_length_pos item.marker
        rw [List.append_assoc, List.length_append] at hfile
        obtain ⟨fuel, hfuel, hread⟩ := @ih hitems later hlater hne (checks ++ item.marker.encodeInto)
          (file.length - (later ++ zeros n).length) (done ++ [item]) (by omega) (by omega)
        refine ⟨fuel + 1, ?_, ?_⟩
        · rw [List.length_append]
          omega
        · rw [List.append_assoc, readBatches, List.length_cons, turn_item hitem]
          exact hread

/-- A batch whose end was not written is dropped, and the file is cut where the batch began. -/
theorem readBatches_torn {batch : Batch} (h : batch.Valid) {front : List UInt8} (hfront : front <+: batch.bytes xxh3)
    (hne : front ≠ batch.bytes xxh3) {file : List UInt8} {n pos seqno : Nat}
    (hfile : pos + (front ++ zeros n).length ≤ file.length) :
    ∃ fuel ≤ front.length + 2, readBatches xxh3 fuel ⟨⟨file, front ++ zeros n, pos⟩, [], false, 0, seqno, pos, []⟩ =
      some (.ok ([], file.take pos)) := by
  rw [Batch.bytes, if_neg (fun hlen => h.items_ne (List.length_eq_zero_iff.mp hlen))] at hfront hne
  have hstart : (Marker.start batch.items.length batch.seqno Coding.none).Valid := ⟨h.items_lt, h.seqno_lt, rfl⟩
  rcases proper_append hfront hne with ⟨hfront, hne⟩ | ⟨later, rfl, hlater, hne⟩
  · rcases next_of_torn hstart hfront hne n file pos with hnext | ⟨found, k, hfound, hk, hnext⟩
    · refine ⟨1, by omega, ?_⟩
      rw [readBatches, JournalBatchReader.turn, hnext]
      rfl
    · refine ⟨2, by omega, ?_⟩
      cases found with
      | start itemCount seqno' compression =>
          obtain rfl : compression = Coding.none := hfound
          have hagain : JournalBatchReader.turn xxh3 ⟨⟨file, front ++ zeros n, pos⟩, [], false, 0, seqno, pos, []⟩ =
              .again ⟨⟨file, zeros k, file.length - k⟩, [], true, itemCount, seqno', pos, []⟩ := by
            rw [JournalBatchReader.turn, hnext]
            dsimp only
            rw [if_neg (by simp), if_neg (by simp)]
          rw [readBatches, hagain]
          dsimp only
          rw [readBatches, turn_zeros (by omega)]
      | item partition key value valueType => exact hfound.elim
      | stop checksum => exact hfound.elim
  · have hpos := encodeInto_length_pos (.start batch.items.length batch.seqno Coding.none)
    rw [List.append_assoc, List.length_append] at hfile
    obtain ⟨fuel, hfuel, hread⟩ := @readBatches_tornItems _ xxh3 _ _ h.items later _ hlater hne file [] n
      (file.length - (later ++ zeros n).length) batch.seqno pos [] (by omega) (by omega)
    refine ⟨fuel + 1, ?_, ?_⟩
    · rw [List.length_append]
      omega
    · rw [List.append_assoc, readBatches, turn_start h.items_lt h.seqno_lt]
      exact hread

omit [LawfulCoding] in
/-- More fuel reads the same. -/
theorem readBatches_mono {fuel more : Nat} (hmore : fuel ≤ more) {r : JournalBatchReader}
    {result : Except RecoveryError (List Batch × List UInt8)} (h : readBatches xxh3 fuel r = some result) :
    readBatches xxh3 more r = some result := by
  induction fuel generalizing more r result with
  | zero => cases h
  | succ fuel ih =>
      obtain ⟨more, rfl⟩ := Nat.exists_eq_add_of_le' hmore
      rw [readBatches] at h
      change readBatches xxh3 (more + fuel + 1) r = _
      rw [readBatches]
      cases hturn : r.turn xxh3 with
      | again r' =>
          rw [hturn] at h
          exact ih (Nat.le_add_left _ _) h
      | batch batch r' =>
          rw [hturn] at h
          obtain ⟨rest, hrest, hresult⟩ := Option.map_eq_some_iff.mp h
          exact Option.map_eq_some_iff.mpr ⟨rest, ih (Nat.le_add_left _ _) hrest, hresult⟩
      | close file =>
          rw [hturn] at h
          exact h
      | fail e =>
          rw [hturn] at h
          exact h

/-- What a crash leaves behind the whole batches: a proper beginning of a batch, and zeros. -/
def TornTail (xxh3 : List UInt8 → UInt64) (tail : List UInt8) : Prop :=
  ∃ batch front n, Batch.Valid batch ∧ front <+: batch.bytes xxh3 ∧ front ≠ batch.bytes xxh3 ∧ tail = front ++ zeros n

omit [LawfulCoding] in
theorem bytes_length_ge {batch : Batch} (h : batch.Valid) : batch.items.length + 2 ≤ (batch.bytes xxh3).length := by
  have hitems : ∀ items : List Item, items.length ≤ (items.flatMap fun item => item.marker.encodeInto).length := by
    intro items
    induction items with
    | nil => exact Nat.le_refl _
    | cons item items ih =>
        have := encodeInto_length_pos item.marker
        rw [List.flatMap_cons, List.length_append, List.length_cons]
        omega
  have hstart := encodeInto_length_pos (.start batch.items.length batch.seqno Coding.none)
  have hstop := encodeInto_length_pos
    (.stop (xxh3 (batch.items.flatMap fun item => item.marker.encodeInto)))
  have := hitems batch.items
  rw [Batch.bytes, if_neg (fun hlen => h.items_ne (List.length_eq_zero_iff.mp hlen)), List.length_append,
    List.length_append]
  omega

omit [LawfulCoding] in
/-- Zeros behind the batches, as in a file that is longer than what was written. -/
theorem tornTail_zeros (n : Nat) : TornTail xxh3 (zeros n) := by
  have hvalid : Batch.Valid ⟨0, [⟨"a", [0], [], .value⟩]⟩ := by
    refine ⟨List.cons_ne_nil _ _, by decide, by decide, fun item hitem => ?_⟩
    rw [List.mem_singleton.mp hitem]
    exact ⟨by decide, List.cons_ne_nil _ _, by decide, by decide, by decide⟩
  refine ⟨_, [], n, hvalid, List.nil_prefix, fun h => ?_, (List.nil_append _).symm⟩
  have hlen := @bytes_length_ge _ xxh3 _ hvalid
  rw [← h, List.length_nil] at hlen
  omega

theorem readBatches_batches {batches : List Batch} (h : ∀ batch ∈ batches, batch.Valid) {tail : List UInt8}
    (htail : TornTail xxh3 tail) {file : List UInt8} {pos seqno : Nat}
    (hfile : pos + (batches.flatMap (Batch.bytes xxh3) ++ tail).length = file.length) :
    ∃ fuel ≤ (batches.flatMap (Batch.bytes xxh3) ++ tail).length + 2,
      readBatches xxh3 fuel ⟨⟨file, batches.flatMap (Batch.bytes xxh3) ++ tail, pos⟩, [], false, 0, seqno, pos, []⟩ =
        some (.ok (batches, file.take (pos + (batches.flatMap (Batch.bytes xxh3)).length))) := by
  induction batches generalizing pos seqno with
  | nil =>
      obtain ⟨batch, front, n, hbatch, hfront, hne, rfl⟩ := htail
      obtain ⟨fuel, hfuel, hread⟩ := @readBatches_torn _ xxh3 _ _ hbatch _ hfront hne file n pos seqno hfile.le
      refine ⟨fuel, hfuel.trans ?_, hread⟩
      rw [List.flatMap_nil, List.nil_append, List.length_append]
      omega
  | cons batch batches ih =>
      obtain ⟨hbatch, hbatches⟩ := List.forall_mem_cons.mp h
      rw [List.flatMap_cons, List.append_assoc, List.length_append] at hfile
      have hpos : file.length - (batches.flatMap (Batch.bytes xxh3) ++ tail).length =
          pos + (batch.bytes xxh3).length := by omega
      obtain ⟨fuel, hfuel, hread⟩ := @ih hbatches (pos + (batch.bytes xxh3).length) batch.seqno (by omega)
      have hlen := @bytes_length_ge _ xxh3 _ hbatch
      refine ⟨fuel + (batch.items.length + 2), ?_, ?_⟩
      · rw [List.flatMap_cons, List.append_assoc, List.length_append]
        omega
      · rw [List.flatMap_cons, List.append_assoc, readBatches_batch hbatch, hpos, hread, List.length_append,
          ← Nat.add_assoc]
        rfl

/-- Of whole batches and a torn tail the whole batches are recovered, and the file is cut behind them. -/
theorem recoverJournal_torn {batches : List Batch} (h : ∀ batch ∈ batches, batch.Valid) {tail : List UInt8}
    (htail : TornTail xxh3 tail) : recoverJournal xxh3 (batches.flatMap (Batch.bytes xxh3) ++ tail) =
      some (.ok (batches, batches.flatMap (Batch.bytes xxh3))) := by
  obtain ⟨fuel, hfuel, hread⟩ := @readBatches_batches _ xxh3 _ batches h tail htail
    (batches.flatMap (Batch.bytes xxh3) ++ tail) 0 0 (Nat.zero_add _)
  rw [Nat.zero_add, List.take_left] at hread
  exact readBatches_mono hfuel hread

end LeanBbg.Fjall
