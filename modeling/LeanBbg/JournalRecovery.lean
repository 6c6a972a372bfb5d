import LeanBbg.LibFrames
import LeanBbg.LsmTree

/-! Recovery of any journal file. A journal cut anywhere is recovered as the batches before the cut. Of bytes of any
other origin the reader makes an end too, and what it leaves of the file it reads again as the same batches, so that
a crash after recovery and before the next write loses nothing. -/

namespace LeanBbg.Fjall

open Bytes Bytes.Scanner

section Recovery

variable [Coding] [LawfulCoding] {xxh3 : List UInt8 → UInt64}

/-- A journal that is cut after some bytes, and has zeros behind them, is recovered as its batches before the cut. -/
theorem recoverJournal_take {batches : List Batch} (h : ∀ batch ∈ batches, batch.Valid) (k n : Nat) :
    ∃ m ≤ batches.length, ((batches.take m).flatMap (Batch.bytes xxh3)).length ≤ k ∧
      (∀ d ≤ batches.length, ((batches.take d).flatMap (Batch.bytes xxh3)).length ≤ k → d ≤ m) ∧
      recoverJournal xxh3 ((batches.flatMap (Batch.bytes xxh3)).take k ++ zeros n) =
        some (.ok (batches.take m, (batches.take m).flatMap (Batch.bytes xxh3))) := by
  obtain ⟨m, hm, front, htake, hfront, hwhole⟩ := exists_take_flatMap (Batch.bytes xxh3) batches k
  have hlen : ((batches.take m).flatMap (Batch.bytes xxh3)).length ≤ k := by
    have hprefix := congrArg List.length htake
    rw [List.length_take, List.length_append] at hprefix
    omega
  have htail : TornTail xxh3 (front ++ zeros n) := by
    rcases hfront with rfl | ⟨batch, hbatch, hproper, hne⟩
    · exact tornTail_zeros n
    · exact ⟨batch, front, n, h batch hbatch, hproper, hne, rfl⟩
  refine ⟨m, hm, hlen, hwhole, ?_⟩
  rw [htake, List.append_assoc]
  exact recoverJournal_torn (fun batch hbatch => h batch (List.mem_of_mem_take hbatch)) htail

/-! ### Any bytes -/

namespace JournalBatchReader

/-- The reader behind some bytes of a file and before the rest of them. -/
def ahead (r : JournalBatchReader) (done rest : List UInt8) : JournalBatchReader :=
  { r with reader := ⟨done ++ rest, rest, done.length⟩ }

/-- The last valid position is behind no byte that was not read, and between batches it is where the reader is. -/
structure Placed (r : JournalBatchReader) (done : List UInt8) : Prop where
  le : r.lastValidPos ≤ done.length
  between : r.isInBatch = false → r.lastValidPos = done.length

variable {r : JournalBatchReader} {done rest : List UInt8}

omit [LawfulCoding] in
theorem turn_of_error (h : r.Placed done) {e : DecodeError} (hread : Marker.decodeFrom rest = .error (.error e)) :
    (r.ahead done rest).turn xxh3 = .close (done.take r.lastValidPos) := by
  have hnext : JournalReader.next ⟨done ++ rest, rest, done.length⟩ = (.ok none, ⟨done, rest, done.length⟩) := by
    rw [JournalReader.next]
    dsimp only
    rw [hread, List.take_left]
  rw [turn, ahead, hnext]
  dsimp only
  split_ifs with hin
  · rfl
  · rw [h.between (Bool.eq_false_of_not_eq_true hin), List.take_length]

variable (xxh3 rest) in
/-- One turn: it takes a marker off the rest whatever is behind it, or it ends the reading at the last valid position
or with an error. -/
theorem turn_ahead (h : r.Placed done) :
    (r.ahead done rest).turn xxh3 = .close (done.take r.lastValidPos) ∨
    (∃ e, (r.ahead done rest).turn xxh3 = .fail e) ∨
    ∃ front later, ∃ r' : JournalBatchReader, rest = front ++ later ∧ front ≠ [] ∧ r'.Placed (done ++ front) ∧
      ((r'.lastValidPos = r.lastValidPos ∧
          ∀ later, (r.ahead done (front ++ later)).turn xxh3 = .again (r'.ahead (done ++ front) later)) ∨
        r'.isInBatch = false ∧ ∃ batch,
          ∀ later, (r.ahead done (front ++ later)).turn xxh3 = .batch batch (r'.ahead (done ++ front) later)) := by
  have hle : r.lastValidPos ≤ (done ++ rest).length := h.le.trans (by rw [List.length_append]; omega)
  have hcut : ∀ later : List UInt8, (done ++ later).take r.lastValidPos = done.take r.lastValidPos :=
    fun later => List.take_append_of_le_length h.le
  cases hread : Marker.decodeFrom rest with
  | error e =>
      cases e with
      | error e => exact .inl (turn_of_error h hread)
      | panic message =>
          refine .inr (.inl ⟨.panic message, ?_⟩)
          rw [turn, ahead, JournalReader.next]
          dsimp only
          rw [hread]
  | ok read =>
      obtain ⟨marker, later⟩ := read
      obtain ⟨front, rfl, hreads⟩ := local_decodeFrom _ _ _ hread
      have hne := ne_nil_of_reads_decodeFrom hreads
      have hnext : ∀ later : List UInt8, JournalReader.next ⟨done ++ (front ++ later), front ++ later, done.length⟩ =
          (.ok (some marker), ⟨done ++ front ++ later, later, (done ++ front).length⟩) := by
        intro later
        have hpos : (done ++ (front ++ later)).length - later.length = (done ++ front).length := by
          rw [← List.append_assoc, List.length_append, Nat.add_sub_cancel]
        rw [JournalReader.next]
        dsimp only
        rw [hreads, ← hpos, List.append_assoc]
      have hplaced : r.lastValidPos ≤ (done ++ front).length := h.le.trans (by rw [List.length_append]; omega)
      have hclosed : done ++ front ++ later = done ++ (front ++ later) := List.append_assoc _ _ _
      cases marker with
      | start itemCount seqno compression =>
          by_cases hcompression : compression = Coding.none
          · by_cases hin : r.isInBatch = true
            · refine .inl ?_
              rw [turn, ahead, hnext]
              dsimp only
              rw [if_neg (not_not.mpr hcompression), if_pos hin, hclosed, hcut]
            · refine .inr (.inr ⟨front, later,
                ⟨r.reader, r.items, true, itemCount, seqno, r.lastValidPos, r.checksumBuilder⟩, rfl, hne,
                ⟨hplaced, fun hfalse => by cases hfalse⟩, .inl ⟨rfl, fun later => ?_⟩⟩)
              rw [turn, ahead, hnext]
              dsimp only
              rw [if_neg (not_not.mpr hcompression), if_neg hin]
              rfl
          · refine .inr (.inl ⟨.panic "journal compression not supported", ?_⟩)
            rw [turn, ahead, hnext]
            dsimp only
            rw [if_pos hcompression]
      | stop checksum =>
          by_cases hcounter : r.batchCounter > 0
          · refine .inr (.inl ⟨.insufficientLength, ?_⟩)
            rw [turn, ahead, hnext]
            dsimp only
            rw [if_pos hcounter]
          by_cases hin : r.isInBatch = true
          · by_cases hchecksum : xxh3 r.checksumBuilder = checksum
            · refine .inr (.inr ⟨front, later,
                ⟨r.reader, [], false, 0, r.batchSeqno, (done ++ front).length, []⟩, rfl, hne,
                ⟨Nat.le_refl _, fun _ => rfl⟩, .inr ⟨rfl, ⟨r.batchSeqno, r.items⟩, fun later => ?_⟩⟩)
              rw [turn, ahead, hnext]
              dsimp only
              rw [if_neg hcounter, if_neg (not_not.mpr hin), if_neg (not_not.mpr hchecksum)]
              rfl
            · refine .inr (.inl ⟨.checksumMismatch, ?_⟩)
              rw [turn, ahead, hnext]
              dsimp only
              rw [if_neg hcounter, if_neg (not_not.mpr hin), if_pos hchecksum]
          · refine .inl ?_
            rw [turn, ahead, hnext]
            dsimp only
            rw [if_neg hcounter, if_pos hin, hclosed, hcut]
      | item partition key value valueType =>
          by_cases hin : r.isInBatch = true
          · by_cases hcounter : r.batchCounter = 0
            · refine .inr (.inl ⟨.tooManyItems, ?_⟩)
              rw [turn, ahead, hnext]
              dsimp only
              rw [if_neg (not_not.mpr hin), if_pos hcounter]
            · refine .inr (.inr ⟨front, later,
                ⟨r.reader, r.items ++ [⟨partition, key, value, valueType⟩], r.isInBatch, r.batchCounter - 1,
                  r.batchSeqno, r.lastValidPos,
                  r.checksumBuilder ++ (Item.marker ⟨partition, key, value, valueType⟩).encodeInto⟩,
                rfl, hne,
                ⟨hplaced, fun hfalse => absurd (hin.symm.trans hfalse) (by decide)⟩, .inl ⟨rfl, fun later => ?_⟩⟩)
              rw [turn, ahead, hnext]
              dsimp only
              rw [if_neg (not_not.mpr hin), if_neg hcounter]
              rfl
          · refine .inl ?_
            rw [turn, ahead, hnext]
            dsimp only
            rw [if_pos hin, hclosed, hcut]

end JournalBatchReader

open JournalBatchReader

variable {r : JournalBatchReader} {done rest : List UInt8}

/-- Every turn but the last takes a byte, so the reading ends. -/
theorem exists_readBatches {fuel : Nat} (hfuel : rest.length < fuel) (h : r.Placed done) :
    ∃ result, readBatches xxh3 fuel (r.ahead done rest) = some result := by
  induction fuel generalizing r done rest with
  | zero => exact absurd hfuel (Nat.not_lt_zero _)
  | succ fuel ih =>
      rw [readBatches]
      rcases turn_ahead xxh3 rest h with
        hturn | ⟨e, hturn⟩ | ⟨front, later, r', rfl, hne, hplaced, ⟨-, hturn⟩ | ⟨-, batch, hturn⟩⟩
      · exact ⟨_, by rw [hturn]⟩
      · exact ⟨_, by rw [hturn]⟩
      · have hlen := List.length_pos_of_ne_nil hne
        rw [List.length_append] at hfuel
        rw [hturn]
        exact ih (by omega) hplaced
      · have hlen := List.length_pos_of_ne_nil hne
        rw [List.length_append] at hfuel
        obtain ⟨result, hresult⟩ := @ih r' (done ++ front) later (by omega) hplaced
        rw [hturn]
        dsimp only
        rw [hresult]
        exact ⟨_, rfl⟩

/-- The reading returns no batch and cuts the file at the last valid position, or it cuts the file behind its last
batch, and what is before the cut reads the same. -/
theorem readBatches_ahead {fuel : Nat} (h : r.Placed done) {batches : List Batch} {kept : List UInt8}
    (hread : readBatches xxh3 fuel (r.ahead done rest) = some (.ok (batches, kept))) :
    (batches = [] ∧ kept = done.take r.lastValidPos) ∨
    ∃ whole, whole <+: rest ∧ kept = done ++ whole ∧
      readBatches xxh3 fuel (r.ahead done whole) = some (.ok (batches, kept)) := by
  induction fuel generalizing r done rest batches with
  | zero => cases hread
  | succ fuel ih =>
      rw [readBatches] at hread
      rcases turn_ahead xxh3 rest h with
        hturn | ⟨e, hturn⟩ | ⟨front, later, r', rfl, hne, hplaced, ⟨hvalid, hturn⟩ | ⟨hbetween, batch, hturn⟩⟩
      · rw [hturn] at hread
        obtain ⟨rfl, rfl⟩ := Prod.mk.inj (Except.ok.inj (Option.some_inj.mp hread))
        exact .inl ⟨rfl, rfl⟩
      · rw [hturn] at hread
        cases hread
      · rw [hturn] at hread
        rcases ih hplaced hread with ⟨rfl, rfl⟩ | ⟨whole, hwhole, rfl, hagain⟩
        · refine .inl ⟨rfl, ?_⟩
          rw [hvalid, List.take_append_of_le_length h.le]
        · refine .inr ⟨front ++ whole, (List.prefix_append_right_inj front).mpr hwhole,
          List.append_assoc _ _ _, ?_⟩
          rw [readBatches, hturn]
          exact hagain
      · rw [hturn] at hread
        obtain ⟨result, hresult, hmap⟩ := Option.map_eq_some_iff.mp hread
        cases result with
        | error e => cases hmap
        | ok result =>
            obtain ⟨more, kept'⟩ := result
            obtain ⟨rfl, rfl⟩ := Prod.mk.inj (Except.ok.inj hmap)
            rcases ih hplaced hresult with ⟨rfl, rfl⟩ | ⟨whole, hwhole, rfl, hagain⟩
            · -- the batch is the last one, and nothing is left behind it
              have hkept : (done ++ front).take r'.lastValidPos = done ++ front := by
                rw [hplaced.between hbetween, List.take_length]
              refine .inr ⟨front ++ [], ?_, ?_, ?_⟩
              · rw [List.append_nil]
                exact List.prefix_append front later
              · rw [hkept, List.append_nil]
              · cases fuel with
                | zero => cases hresult
                | succ fuel =>
                    have hend : Marker.decodeFrom [] = .error (.error .unexpectedEof) := rfl
                    rw [readBatches, hturn]
                    dsimp only
                    rw [readBatches, turn_of_error hplaced hend]
                    rfl
            · refine .inr ⟨front ++ whole, (List.prefix_append_right_inj front).mpr hwhole,
              List.append_assoc _ _ _, ?_⟩
              rw [readBatches, hturn]
              dsimp only
              rw [hagain]
              rfl

/-- Of any file recovery makes an end; what it leaves is a beginning of the file that is recovered as the same batches
and not cut again. -/
theorem recoverJournal_again (file : List UInt8) : ∃ result, recoverJournal xxh3 file = some result ∧
    ∀ batches kept, result = .ok (batches, kept) →
      kept <+: file ∧ recoverJournal xxh3 kept = some (.ok (batches, kept)) := by
  have hnew : JournalBatchReader.Placed (.new (.new [])) [] := ⟨Nat.le_refl _, fun _ => rfl⟩
  have hends : ∀ file : List UInt8, ∃ result, recoverJournal xxh3 file = some result :=
    fun file => exists_readBatches (Nat.lt_succ_of_lt (Nat.lt_succ_self file.length)) hnew
  obtain ⟨result, hresult⟩ := hends file
  refine ⟨result, hresult, ?_⟩
  rintro batches kept rfl
  rcases readBatches_ahead hnew hresult with ⟨rfl, rfl⟩ | ⟨whole, hwhole, hkept, hagain⟩
  · exact ⟨List.nil_prefix, rfl⟩
  · rw [List.nil_append] at hkept
    subst hkept
    -- the cut file is read with the fuel of the file, which is more than its own
    obtain ⟨result, hresult⟩ := hends kept
    have hmore := readBatches_mono (Nat.add_le_add_right hwhole.length_le 2) hresult
    refine ⟨hwhole, ?_⟩
    rw [hresult]
    exact hmore.symm.trans hagain

end Recovery

/-- Half of an item behind an empty batch, as only another program would write it. -/
theorem recoverJournal_again_torn :
    let empty : Batch := ⟨7, []⟩
    let file : List UInt8 := (Marker.start empty.items.length empty.seqno Coding.none).encodeInto ++
      (Marker.stop 0).encodeInto ++ [2, 0, 1]
    ∃ result, recoverJournal (fun _ => 0) file = some result ∧ ∀ batches kept, result = .ok (batches, kept) →
      kept <+: file ∧ recoverJournal (fun _ => 0) kept = some (.ok (batches, kept)) :=
  recoverJournal_again _

/-- Two batches of which the second is cut within its items: the first one is recovered. -/
theorem recoverJournal_take_torn :
    let first : Batch := ⟨3, [⟨"heads", [1], [2], .value⟩]⟩
    let second : Batch := ⟨4, [⟨"heads", [1], [3], .value⟩, ⟨"history", [9], [7], .value⟩]⟩
    recoverJournal (fun _ => 5) (([first, second].flatMap (Batch.bytes fun _ => 5)).take 80 ++ zeros 9) =
      some (.ok ([first], first.bytes fun _ => 5)) := by
  intro first second
  have hvalid : ∀ batch ∈ [first, second], batch.Valid := by
    refine List.forall_mem_cons.mpr ⟨⟨List.cons_ne_nil _ _, by decide, by decide, ?_⟩,
      List.forall_mem_singleton.mpr ⟨List.cons_ne_nil _ _, by decide, by decide, ?_⟩⟩
    · exact List.forall_mem_singleton.mpr ⟨by decide, List.cons_ne_nil _ _, by decide, by decide, by decide⟩
    · exact List.forall_mem_cons.mpr ⟨⟨by decide, List.cons_ne_nil _ _, by decide, by decide, by decide⟩,
        List.forall_mem_singleton.mpr ⟨by decide, List.cons_ne_nil _ _, by decide, by decide, by decide⟩⟩
  obtain ⟨m, hm, hle, hmost, hrecovered⟩ := @recoverJournal_take _ _ (fun _ => 5) _ hvalid 80 9
  have hone : 1 ≤ m := hmost 1 (by decide) (by decide +kernel)
  have htwo : m ≠ 2 := by
    rintro rfl
    exact absurd hle (by decide +kernel)
  obtain rfl : m = 1 := by
    change m ≤ 2 at hm
    omega
  rw [hrecovered, List.take_succ_cons, List.take_zero, List.flatMap_singleton]

end LeanBbg.Fjall
