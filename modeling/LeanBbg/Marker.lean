import LeanBbg.LibScanner

/-! The markers of the engine's journal. A batch is a start marker, its items and an end marker; each is written as
bytes, and read back from what a crash leaves of them. -/

namespace LeanBbg.Fjall

open Bytes Bytes.Scanner

inductive ValueType where
  | value
  | tombstone
  | weakTombstone
  deriving DecidableEq

inductive DecodeError where
  | unexpectedEof
  | invalidTag (name : String) (tag : UInt8)
  | utf8
  | invalidTrailer
  deriving DecidableEq

/-- A read ends in an error that is returned, or in a failed assertion. -/
inductive Failure where
  | error (e : DecodeError)
  | panic (message : String)
  deriving DecidableEq

def Failure.Soft (failure : Failure) : Prop := ∃ e, failure = error e

/-- What the journal uses of the tree library: how it writes compressions and the types of values. -/
class Coding where
  Compression : Type
  [decidable : DecidableEq Compression]
  none : Compression
  encodeCompression : Compression → List UInt8
  decodeCompression : Scanner Failure Compression
  valueTypeByte : ValueType → UInt8
  valueTypeOf : UInt8 → Option ValueType

instance [coding : Coding] : DecidableEq coding.Compression := coding.decidable

/-- The coding is read back, and what is left of it after a crash is no other compression. -/
class LawfulCoding [Coding] : Prop where
  local_compression : Local Coding.decodeCompression
  reads_none : Reads Coding.decodeCompression (Coding.encodeCompression Coding.none) Coding.none
  onZeros_none : OnZeros Failure.Soft (fun compression => compression = Coding.none) Coding.decodeCompression
  onTorn_none : OnTorn Failure.Soft (fun compression => compression = Coding.none) Coding.decodeCompression
    (Coding.encodeCompression Coding.none)
  valueTypeOf_byte : ∀ valueType, Coding.valueTypeOf (Coding.valueTypeByte valueType) = some valueType

variable [Coding]

inductive Marker where
  | start (itemCount seqno : Nat) (compression : Coding.Compression)
  | item (partition : String) (key value : List UInt8) (valueType : ValueType)
  | stop (checksum : UInt64)

def MAGIC_BYTES : List UInt8 := [70, 74, 76, 2]

inductive Tag where
  | start
  | item
  | stop

def Tag.byte : Tag → UInt8
  | start => 1
  | item => 2
  | stop => 3

def Tag.tryFrom : UInt8 → Option Tag
  | 1 => some start
  | 2 => some item
  | 3 => some stop
  | _ => none

def utf8 (s : String) : List UInt8 := s.toByteArray.data.toList

def fromUtf8 (bytes : List UInt8) : Option String := String.fromUTF8? ⟨bytes.toArray⟩

/-- The low bytes of a number, most significant first. -/
def beBytes (n v : Nat) : List UInt8 := (leBytes n v).reverse

/-! ### Writing -/

/-- The lengths are truncated to the width of their fields. -/
def serializeMarkerItem (partition : String) (key value : List UInt8) (valueType : ValueType) : List UInt8 :=
  [Tag.item.byte] ++ ([Coding.valueTypeByte valueType] ++ ([UInt8.ofNat (utf8 partition).length] ++ (utf8 partition ++
    (beBytes 2 key.length ++ (key ++ (beBytes 4 value.length ++ value))))))

def Marker.encodeInto : Marker → List UInt8
  | start itemCount seqno compression =>
      [Tag.start.byte] ++ (beBytes 4 itemCount ++ (beBytes 8 seqno ++ Coding.encodeCompression compression))
  | item partition key value valueType => serializeMarkerItem partition key value valueType
  | stop checksum => [Tag.stop.byte] ++ (beBytes 8 checksum.toNat ++ MAGIC_BYTES)

/-! ### Reading -/

def eof : Failure := .error .unexpectedEof

def decodeStart : Scanner Failure Marker := do
  let itemCount ← number eof 4
  let seqno ← number eof 8
  let compression ← Coding.decodeCompression
  if compression = Coding.none then pure (.start itemCount seqno compression)
  else fail (.panic "invalid compression type")

def decodeItemOf (valueType : ValueType) (partition : String) : Scanner Failure Marker := do
  let keyLen ← number eof 2
  let key ← exact eof keyLen
  let valueLen ← number eof 4
  let value ← exact eof valueLen
  pure (.item partition key value valueType)

def decodeItem : Scanner Failure Marker := do
  let valueType ← byte eof
  match Coding.valueTypeOf valueType with
  | none => fail (.error (.invalidTag "ValueType" valueType))
  | some valueType => do
      let partitionLen ← byte eof
      let partition ← exact eof partitionLen.toNat
      match fromUtf8 partition with
      | none => fail (.error .utf8)
      | some partition => decodeItemOf valueType partition

def decodeStop : Scanner Failure Marker := do
  let checksum ← number eof 8
  let magic ← exact eof MAGIC_BYTES.length
  if magic = MAGIC_BYTES then pure (.stop (UInt64.ofNat checksum)) else fail (.error .invalidTrailer)

def Marker.decodeFrom : Scanner Failure Marker := do
  let tag ← byte eof
  match Tag.tryFrom tag with
  | none => fail (.error (.invalidTag "JournalMarkerTag" tag))
  | some .start => decodeStart
  | some .item => decodeItem
  | some .stop => decodeStop

theorem local_decodeFrom [LawfulCoding] : Local Marker.decodeFrom := by
  have hstart : Local decodeStart := by
    refine (local_number eof 4).bind fun _ => (local_number eof 8).bind fun _ => ?_
    refine LawfulCoding.local_compression.bind fun compression => ?_
    split_ifs
    · exact local_pure _
    · exact local_fail _
  have hitem : Local decodeItem := by
    refine (local_byte eof).bind fun valueType => ?_
    cases Coding.valueTypeOf valueType with
    | none => exact local_fail _
    | some valueType =>
        refine (local_byte eof).bind fun _ => (local_exact eof _).bind fun partition => ?_
        cases fromUtf8 partition with
        | none => exact local_fail _
        | some partition =>
            refine (local_number eof 2).bind fun _ => (local_exact eof _).bind fun _ => ?_
            exact (local_number eof 4).bind fun _ => (local_exact eof _).bind fun _ => local_pure _
  have hstop : Local decodeStop := by
    refine (local_number eof 8).bind fun _ => (local_exact eof _).bind fun magic => ?_
    split_ifs
    · exact local_pure _
    · exact local_fail _
  refine (local_byte eof).bind fun tag => ?_
  cases Tag.tryFrom tag with
  | none => exact local_fail _
  | some found =>
      cases found with
      | start => exact hstart
      | item => exact hitem
      | stop => exact hstop

/-- A marker takes at least its tag off the string. -/
theorem ne_nil_of_reads_decodeFrom {front : List UInt8} {marker : Marker} (h : Reads Marker.decodeFrom front marker) :
    front ≠ [] := by
  rintro rfl
  have hread := h []
  cases hread

/-! ### Reading back -/

omit [Coding] in
theorem fromUtf8_utf8 (s : String) : fromUtf8 (utf8 s) = some s := by
  rw [fromUtf8, utf8, Array.toArray_toList, String.fromUTF8?, dif_pos s.isValidUTF8]
  rfl

/-- A marker whose parts fit in their fields. -/
def Marker.Valid : Marker → Prop
  | start itemCount seqno compression => itemCount < 2 ^ 32 ∧ seqno < 2 ^ 64 ∧ compression = Coding.none
  | item partition key value _ => (utf8 partition).length < 2 ^ 8 ∧ key.length < 2 ^ 16 ∧ value.length < 2 ^ 32
  | stop _ => True

variable [LawfulCoding]

theorem reads_decodeFrom {marker : Marker} (h : marker.Valid) :
    Reads Marker.decodeFrom marker.encodeInto marker := by
  cases marker with
  | start itemCount seqno compression =>
      obtain ⟨hcount, hseqno, rfl⟩ := h
      refine (reads_byte eof Tag.start.byte).bind ?_
      refine (reads_number eof hcount).bind ((reads_number eof hseqno).bind ?_)
      intro rest
      rw [bind_apply, LawfulCoding.reads_none]
      dsimp only
      rw [if_pos rfl]
      rfl
  | item partition key value valueType =>
      obtain ⟨hpartition, hkey, hvalue⟩ := h
      refine (reads_byte eof Tag.item.byte).bind ((reads_byte eof _).bind ?_)
      rw [LawfulCoding.valueTypeOf_byte]
      refine (reads_byte eof _).bind ?_
      rw [UInt8.toNat_ofNat', Nat.mod_eq_of_lt hpartition]
      refine (reads_exact eof _).bind ?_
      rw [fromUtf8_utf8]
      refine (reads_number eof hkey).bind ((reads_exact eof key).bind ((reads_number eof hvalue).bind ?_))
      exact (reads_exact eof value).map _
  | stop checksum =>
      refine (reads_byte eof Tag.stop.byte).bind ((reads_number eof checksum.toNat_lt).bind ?_)
      intro rest
      rw [bind_apply, reads_exact]
      dsimp only
      rw [if_pos rfl, UInt64.ofNat_toNat]
      rfl

/-! ### What a crash leaves of a marker -/

def Marker.IsStart : Marker → Prop
  | start _ _ compression => compression = Coding.none
  | _ => False

def Marker.IsItem : Marker → Prop
  | item .. => True
  | _ => False

/-- What is read of a torn marker: of an end marker nothing, of another one a marker of its kind. -/
def Marker.Remains : Marker → Marker → Prop
  | start .. => IsStart
  | item .. => IsItem
  | stop _ => fun _ => False

omit [Coding] [LawfulCoding] in
theorem soft_eof : Failure.Soft eof := ⟨_, rfl⟩

omit [LawfulCoding] in
/-- No marker is read off zeros. -/
theorem onZeros_decodeFrom : OnZeros Failure.Soft (fun _ => False) Marker.decodeFrom := by
  refine (onZeros_byte soft_eof).bind fun tag htag => ?_
  subst htag
  exact onZeros_fail ⟨_, rfl⟩

omit [LawfulCoding] in
/-- A torn marker has its tag, and the body is torn, or it is read as zeros. -/
theorem onTorn_tag {tag : UInt8} {R : Marker → Prop} {body : Scanner Failure Marker} {bytes : List UInt8}
    (hreads : ∀ rest, Marker.decodeFrom (tag :: rest) = body rest) (h : OnTorn Failure.Soft R body bytes) :
    OnTorn Failure.Soft R Marker.decodeFrom ([tag] ++ bytes) := by
  intro front n hfront hne
  rcases List.prefix_cons_iff.mp hfront with rfl | ⟨rest, rfl, hrest⟩
  · exact (onZeros_decodeFrom n).imp fun _ hfalse => hfalse.elim
  · rw [List.cons_append, hreads]
    exact h rest n hrest fun heq => hne (by rw [heq]; rfl)

theorem onTorn_start {itemCount seqno : Nat} (hcount : itemCount < 2 ^ 32) (hseqno : seqno < 2 ^ 64) :
    OnTorn Failure.Soft Marker.IsStart decodeStart
      (beBytes 4 itemCount ++ (beBytes 8 seqno ++ Coding.encodeCompression Coding.none)) := by
  -- of the compression is left what decodes to the same compression
  have hbody : ∀ itemCount seqno compression, compression = Coding.none →
      OnZeros Failure.Soft Marker.IsStart (if compression = Coding.none then
        pure (.start itemCount seqno compression) else fail (.panic "invalid compression type")) := by
    rintro itemCount seqno _ rfl
    rw [if_pos rfl]
    exact onZeros_pure rfl
  refine (onTorn_number soft_eof 4 itemCount).bind (reads_number eof hcount) (fun itemCount' _ => ?_) ?_
  · refine (onZeros_number soft_eof 8).bind fun seqno' _ => ?_
    exact LawfulCoding.onZeros_none.bind fun compression => hbody itemCount' seqno' compression
  · refine (onTorn_number soft_eof 8 seqno).bind (reads_number eof hseqno) (fun seqno' _ => ?_) ?_
    · exact LawfulCoding.onZeros_none.bind fun compression => hbody itemCount seqno' compression
    · intro front n hfront hne
      exact (LawfulCoding.onTorn_none front n hfront hne).bind fun compression => hbody itemCount seqno compression

section Item

variable {valueType : ValueType} {partition : String} {key value : List UInt8}

omit [LawfulCoding] in
theorem onZeros_value : OnZeros Failure.Soft Marker.IsItem (do
    let valueLen ← number eof 4
    let value ← exact eof valueLen
    pure (.item partition key value valueType)) := by
  refine (onZeros_number soft_eof 4).bind fun valueLen _ => ?_
  exact (onZeros_exact soft_eof valueLen).bind fun _ _ => onZeros_pure trivial

omit [LawfulCoding] in
theorem onZeros_itemOf : OnZeros Failure.Soft Marker.IsItem (decodeItemOf valueType partition) := by
  refine (onZeros_number soft_eof 2).bind fun keyLen _ => ?_
  exact (onZeros_exact soft_eof keyLen).bind fun _ _ => onZeros_value

omit [LawfulCoding] in
theorem onZeros_partition (partition : List UInt8) :
    OnZeros Failure.Soft Marker.IsItem (match fromUtf8 partition with
      | none => fail (.error .utf8)
      | some partition => decodeItemOf valueType partition) := by
  cases fromUtf8 partition with
  | none => exact onZeros_fail ⟨_, rfl⟩
  | some partition => exact onZeros_itemOf

omit [LawfulCoding] in
theorem onZeros_named : OnZeros Failure.Soft Marker.IsItem (do
    let partitionLen ← byte eof
    let partition ← exact eof partitionLen.toNat
    match fromUtf8 partition with
    | none => fail (.error .utf8)
    | some partition => decodeItemOf valueType partition) := by
  refine (onZeros_byte soft_eof).bind fun partitionLen _ => ?_
  exact (onZeros_exact soft_eof partitionLen.toNat).bind fun partition _ => onZeros_partition partition

omit [LawfulCoding] in
theorem onTorn_itemOf (hkey : key.length < 2 ^ 16) (hvalue : value.length < 2 ^ 32) :
    OnTorn Failure.Soft Marker.IsItem (decodeItemOf valueType partition)
      (beBytes 2 key.length ++ (key ++ (beBytes 4 value.length ++ value))) := by
  refine (onTorn_number soft_eof 2 _).bind (reads_number eof hkey) (fun keyLen _ => ?_) ?_
  · exact (onZeros_exact soft_eof keyLen).bind fun _ _ => onZeros_value
  refine (onTorn_exact soft_eof key).bind (reads_exact eof key) (fun _ _ => onZeros_value) ?_
  refine (onTorn_number soft_eof 4 _).bind (reads_number eof hvalue) (fun valueLen _ => ?_) ?_
  · exact (onZeros_exact soft_eof valueLen).bind fun _ _ => onZeros_pure trivial
  · intro front n hfront hne
    exact (onTorn_exact soft_eof value front n hfront hne).bind fun _ _ => onZeros_pure trivial

theorem onTorn_item (hpartition : (utf8 partition).length < 2 ^ 8) (hkey : key.length < 2 ^ 16)
    (hvalue : value.length < 2 ^ 32) : OnTorn Failure.Soft Marker.IsItem decodeItem
      ([Coding.valueTypeByte valueType] ++ ([UInt8.ofNat (utf8 partition).length] ++ (utf8 partition ++
        (beBytes 2 key.length ++ (key ++ (beBytes 4 value.length ++ value)))))) := by
  have hlen : (UInt8.ofNat (utf8 partition).length).toNat = (utf8 partition).length := by
    rw [UInt8.toNat_ofNat', Nat.mod_eq_of_lt hpartition]
  refine (onTorn_byte soft_eof _).bind (reads_byte eof _) (fun valueType' _ => ?_) ?_
  · cases Coding.valueTypeOf valueType' with
    | none => exact onZeros_fail ⟨_, rfl⟩
    | some valueType => exact onZeros_named
  rw [LawfulCoding.valueTypeOf_byte]
  refine (onTorn_byte soft_eof _).bind (reads_byte eof _) (fun partitionLen _ => ?_) ?_
  · exact (onZeros_exact soft_eof partitionLen.toNat).bind fun partition _ => onZeros_partition partition
  rw [hlen]
  refine (onTorn_exact soft_eof (utf8 partition)).bind (reads_exact eof _) (fun name _ => onZeros_partition name) ?_
  rw [fromUtf8_utf8]
  exact onTorn_itemOf hkey hvalue

end Item

omit [LawfulCoding] in
/-- The last byte of the trailer is not zero, so no torn end marker has the trailer. -/
theorem onTorn_stop (checksum : UInt64) :
    OnTorn Failure.Soft (fun _ => False) decodeStop (beBytes 8 checksum.toNat ++ MAGIC_BYTES) := by
  have htrailer : ∀ (checksum : Nat) (magic : List UInt8), magic ≠ MAGIC_BYTES →
      OnZeros Failure.Soft (fun _ : Marker => False) (if magic = MAGIC_BYTES then
        pure (.stop (UInt64.ofNat checksum)) else fail (.error .invalidTrailer)) := by
    intro checksum magic hmagic
    rw [if_neg hmagic]
    exact onZeros_fail ⟨_, rfl⟩
  refine (onTorn_number soft_eof 8 _).bind (reads_number eof checksum.toNat_lt) (fun checksum' _ => ?_) ?_
  · refine (onZeros_exact soft_eof _).bind fun magic hmagic => htrailer checksum' magic ?_
    rw [hmagic]
    decide
  · intro front n hfront hne
    refine (onTorn_exact soft_eof MAGIC_BYTES front n hfront hne).bind fun magic hmagic => htrailer _ magic ?_
    obtain ⟨front', k, rfl, hfront', hne', hlen⟩ := hmagic
    rintro heq
    cases k with
    | zero => exact hne' ((List.append_nil front').symm.trans heq)
    | succ k =>
        have hlast := congrArg List.getLast? heq
        rw [zeros, List.replicate_succ', ← List.append_assoc, List.getLast?_concat] at hlast
        exact absurd hlast (by decide)

/-- What is read of a torn marker is an error that is returned, or the beginning of a marker before zeros. -/
theorem onTorn_decodeFrom (marker : Marker) (h : marker.Valid) :
    OnTorn Failure.Soft marker.Remains Marker.decodeFrom marker.encodeInto := by
  cases marker with
  | start itemCount seqno compression =>
      obtain ⟨hcount, hseqno, rfl⟩ := h
      exact onTorn_tag (fun _ => rfl) (onTorn_start hcount hseqno)
  | item partition key value valueType => exact onTorn_tag (fun _ => rfl) (onTorn_item h.1 h.2.1 h.2.2)
  | stop checksum => exact onTorn_tag (fun _ => rfl) (onTorn_stop checksum)

end LeanBbg.Fjall
