import LeanBbg.LibDecode
import LeanBbg.State

/-! The frames of the command line's log. A payload is a signal, an intent or nothing; the decoder walks it
with a cursor, refuses a count that the rest of the payload cannot hold before it reserves room, and takes
what follows the last record for granted. The tape that carries the frames is a parameter. -/

namespace LeanBbg.Frame

open Decode Decoder

/-! ### Cursor helpers -/

def take32 : Decoder Bytes32 := takeVector 32

def take64 : Decoder (Vector UInt8 64) := takeVector 64

def takeU64 : Decoder UInt64 := do
  let bytes ← takeVector 8
  pure (u64FromLe bytes.toList)

def takeU32 : Decoder UInt32 := do
  let bytes ← takeVector 4
  pure (UInt32.ofNat (Bytes.leValue bytes.toList))

def takeU8 : Decoder UInt8 := do
  let bytes ← takeVector 1
  pure bytes.head

/-! ### Signals -/

/-- The wire size of a link: from ‖ to ‖ token ‖ amount ‖ valence. -/
def LINK_BYTES : Nat := 32 + 32 + 32 + 8 + 1

/-- The wire size of the smallest box move: nullifier ‖ tag. -/
def MOVE_MIN_BYTES : Nat := 32 + 1

def serializeLink (link : Cyberlink) : List UInt8 :=
  link.source.toList ++ (link.target.toList ++ (link.token.toList ++ (u64LeBytes link.amount ++ [link.valence.toUInt8])))

def serializeMove (mv : BoxMove) : List UInt8 :=
  mv.nullifier.toList ++
    match mv.commitment with
    | some (point, value) => [1] ++ (point.toList ++ u64LeBytes value)
    | none => [0]

/-- neuron ‖ height ‖ links ‖ box moves. The counts are the lengths modulo 2³². -/
def serializeSignal (s : Signal) : List UInt8 :=
  s.neuron.toList ++ (u64LeBytes s.height ++ (Bytes.leBytes 4 s.links.length ++ (s.links.flatMap serializeLink ++
    (Bytes.leBytes 4 s.boxMoves.length ++ s.boxMoves.flatMap serializeMove))))

def takeLink : Decoder Cyberlink := do
  let source ← take32
  let target ← take32
  let token ← take32
  let amount ← takeU64
  let valence ← takeU8
  pure ⟨source, target, token, amount, valence.toInt8⟩

/-- The output of a box move, by its tag; every tag other than 1 means none. -/
def takeCommitment (tag : UInt8) : Decoder (Option (Particle × UInt64)) :=
  if tag = 1 then do
    let point ← take32
    let value ← takeU64
    pure (some (point, value))
  else pure none

def takeMove : Decoder BoxMove := do
  let nullifier ← take32
  let tag ← takeU8
  let commitment ← takeCommitment tag
  pure ⟨nullifier, commitment⟩

def takeSignal : Decoder Signal := do
  let neuron ← take32
  let height ← takeU64
  let nLinks ← takeU32
  let links ← records LINK_BYTES takeLink nLinks.toNat
  let nMoves ← takeU32
  let boxMoves ← records MOVE_MIN_BYTES takeMove nMoves.toNat
  pure ⟨neuron, links, boxMoves, height⟩

/-- What a decoder finds at the start of a payload. Bytes after it are not looked at. -/
def deserialize {α : Type} (d : Decoder α) (buf : List UInt8) : Except Fault (Option α) :=
  match d buf 0 with
  | .error e => .error e
  | .ok r => .ok (r.map Prod.fst)

def deserializeSignal (buf : List UInt8) : Except Fault (Option Signal) := deserialize takeSignal buf

/-! ### Intents -/

/-- neuron ‖ h0 ‖ scope hash ‖ signature. -/
def serializeIntent (i : IntentRecord) : List UInt8 :=
  i.neuron.toList ++ (u64LeBytes i.h0 ++ (i.scopeHash.toList ++ i.signature.toList))

def takeIntent : Decoder IntentRecord := do
  let neuron ← take32
  let h0 ← takeU64
  let scopeHash ← take32
  let signature ← take64
  pure ⟨neuron, h0, scopeHash, signature⟩

def deserializeIntent (buf : List UInt8) : Except Fault (Option IntentRecord) := deserialize takeIntent buf

/-! ### Events -/

/-- One replayable event of the log. -/
inductive Event where
  | signal (s : Signal)
  | intent (i : IntentRecord)
  | finalize

structure Chunk where
  sigil : UInt8
  render : UInt8
  payload : List UInt8
  deriving DecidableEq

/-- The tape: a frame's bytes, and the chunks its reader delivers from a stream until nothing is left. -/
structure Tape where
  encode : Chunk → List UInt8
  chunks : List UInt8 → List Chunk

/-- The reader returns concatenated frames in order. -/
def Tape.Delivers (tape : Tape) (frames : List Chunk) : Prop := tape.chunks (frames.flatMap tape.encode) = frames

/-- `!` -/
def ZAP : UInt8 := 0x21

/-- `^` -/
def KET : UInt8 := 0x5e

/-- `.`, a block boundary. -/
def SIG_FINALIZE : UInt8 := 0x2e

/-- `b` -/
def RENDER_BIN : UInt8 := 0x62

def Event.chunk : Event → Chunk
  | .signal s => ⟨ZAP, RENDER_BIN, serializeSignal s⟩
  | .intent i => ⟨KET, RENDER_BIN, serializeIntent i⟩
  | .finalize => ⟨SIG_FINALIZE, RENDER_BIN, []⟩

def encodeEvent (tape : Tape) (event : Event) : List UInt8 := tape.encode event.chunk

/-- The event of a chunk; payloads that do not decode and unknown sigils are skipped. -/
def decodeChunk (c : Chunk) : Except Fault (Option Event) :=
  if c.sigil = ZAP then (deserializeSignal c.payload).map (Option.map .signal)
  else if c.sigil = KET then (deserializeIntent c.payload).map (Option.map .intent)
  else if c.sigil = SIG_FINALIZE then .ok (some .finalize)
  else .ok none

def decodeChunks : List Chunk → Except Fault (List Event)
  | [] => .ok []
  | c :: chunks =>
      match decodeChunk c with
      | .error e => .error e
      | .ok event => (decodeChunks chunks).map (event.toList ++ ·)

/-- Every event of a concatenated tape stream, in order. -/
def decodeEvents (tape : Tape) (bytes : List UInt8) : Except Fault (List Event) := decodeChunks (tape.chunks bytes)

/-! ### The helpers read their fields back -/

theorem reads_take32 (v : Bytes32) : Reads take32 v.toList v := reads_takeVector v

theorem reads_takeU64 (v : UInt64) : Reads takeU64 (u64LeBytes v) v := by
  have h := (reads_takeVector (⟨(u64LeBytes v).toArray, by simp [u64LeBytes]⟩ : Vector UInt8 8)).map
    fun bytes => u64FromLe bytes.toList
  have hvalue : u64FromLe (u64LeBytes v) = v := by
    rw [u64FromLe, u64LeBytes, Bytes.leValue_leBytes_of_lt v.toNat_lt, UInt64.ofNat_toNat]
  change Reads takeU64 (u64LeBytes v) (u64FromLe (u64LeBytes v)) at h
  rwa [hvalue] at h

theorem reads_takeU32 {n : Nat} (hn : n < 2 ^ 32) : Reads takeU32 (Bytes.leBytes 4 n) (UInt32.ofNat n) := by
  have h := (reads_takeVector (⟨(Bytes.leBytes 4 n).toArray, by simp⟩ : Vector UInt8 4)).map
    fun bytes => UInt32.ofNat (Bytes.leValue bytes.toList)
  change Reads takeU32 (Bytes.leBytes 4 n) (UInt32.ofNat (Bytes.leValue (Bytes.leBytes 4 n))) at h
  rwa [Bytes.leValue_leBytes_of_lt (by omega)] at h

theorem reads_takeU8 (v : UInt8) : Reads takeU8 [v] v := (reads_takeVector #v[v]).map fun bytes => bytes.head

theorem local_takeU64 : Local takeU64 := (local_takeVector 8).bind fun _ => local_pure _

theorem local_takeU32 : Local takeU32 := (local_takeVector 4).bind fun _ => local_pure _

theorem local_takeU8 : Local takeU8 := (local_takeVector 1).bind fun _ => local_pure _

theorem safe_takeU64 : Safe takeU64 := (safe_takeVector (by decide)).bind (local_takeVector 8) fun _ => safe_pure _

theorem safe_takeU32 : Safe takeU32 := (safe_takeVector (by decide)).bind (local_takeVector 4) fun _ => safe_pure _

theorem safe_takeU8 : Safe takeU8 := (safe_takeVector (by decide)).bind (local_takeVector 1) fun _ => safe_pure _

/-! ### Records -/

theorem reads_takeLink (link : Cyberlink) : Reads takeLink (serializeLink link) link := by
  refine (reads_take32 link.source).bind ((reads_take32 link.target).bind ((reads_take32 link.token).bind
    ((reads_takeU64 link.amount).bind ?_)))
  have h := (reads_takeU8 link.valence.toUInt8).map
    fun valence => (⟨link.source, link.target, link.token, link.amount, valence.toInt8⟩ : Cyberlink)
  rwa [Int8.toInt8_toUInt8] at h

theorem local_takeLink : Local takeLink :=
  (local_takeVector 32).bind fun _ => (local_takeVector 32).bind fun _ => (local_takeVector 32).bind fun _ =>
    local_takeU64.bind fun _ => local_takeU8.bind fun _ => local_pure _

theorem safe_takeLink : Safe takeLink :=
  (safe_takeVector (by decide)).bind (local_takeVector 32) fun _ =>
    (safe_takeVector (by decide)).bind (local_takeVector 32) fun _ =>
      (safe_takeVector (by decide)).bind (local_takeVector 32) fun _ =>
        safe_takeU64.bind local_takeU64 fun _ => safe_takeU8.bind local_takeU8 fun _ => safe_pure _

theorem length_serializeLink (link : Cyberlink) : (serializeLink link).length = LINK_BYTES := by
  simp [serializeLink, LINK_BYTES, u64LeBytes]

theorem reads_takeMove (mv : BoxMove) : Reads takeMove (serializeMove mv) mv := by
  obtain ⟨nullifier, commitment⟩ := mv
  refine (reads_take32 nullifier).bind ?_
  cases commitment with
  | none =>
      have h : Reads (takeU8 >>= fun tag => takeCommitment tag >>= fun c => pure (BoxMove.mk nullifier c)) ([0] ++ [])
          ⟨nullifier, none⟩ := (reads_takeU8 0).bind ((reads_pure none).map (BoxMove.mk nullifier))
      exact h
  | some output =>
      obtain ⟨point, value⟩ := output
      refine (reads_takeU8 1).bind ?_
      exact ((reads_take32 point).bind ((reads_takeU64 value).map fun value => some (point, value))).map
        (BoxMove.mk nullifier)

theorem local_takeCommitment (tag : UInt8) : Local (takeCommitment tag) := by
  rw [takeCommitment]
  split_ifs
  · exact (local_takeVector 32).bind fun _ => local_takeU64.bind fun _ => local_pure _
  · exact local_pure _

theorem safe_takeCommitment (tag : UInt8) : Safe (takeCommitment tag) := by
  rw [takeCommitment]
  split_ifs
  · exact (safe_takeVector (by decide)).bind (local_takeVector 32) fun _ =>
      safe_takeU64.bind local_takeU64 fun _ => safe_pure _
  · exact safe_pure _

theorem local_takeMove : Local takeMove :=
  (local_takeVector 32).bind fun _ => local_takeU8.bind fun tag => (local_takeCommitment tag).bind fun _ => local_pure _

theorem safe_takeMove : Safe takeMove :=
  (safe_takeVector (by decide)).bind (local_takeVector 32) fun _ =>
    safe_takeU8.bind local_takeU8 fun tag =>
      (safe_takeCommitment tag).bind (local_takeCommitment tag) fun _ => safe_pure _

theorem length_serializeMove_ge (mv : BoxMove) : MOVE_MIN_BYTES ≤ (serializeMove mv).length := by
  obtain ⟨nullifier, commitment⟩ := mv
  cases commitment with
  | none => simp [serializeMove, MOVE_MIN_BYTES]
  | some output => simp [serializeMove, MOVE_MIN_BYTES]

theorem length_serializeMove_le (mv : BoxMove) : (serializeMove mv).length ≤ 73 := by
  obtain ⟨nullifier, commitment⟩ := mv
  cases commitment with
  | none => simp [serializeMove]
  | some output => simp [serializeMove, u64LeBytes]

/-! ### Payloads -/

/-- The counts of a signal fit in their fields. -/
def Countable (s : Signal) : Prop := s.links.length < 2 ^ 32 ∧ s.boxMoves.length < 2 ^ 32

theorem reads_takeSignal {s : Signal} (hs : Countable s) : Reads takeSignal (serializeSignal s) s := by
  obtain ⟨hlinks, hmoves⟩ := hs
  have hcount : ∀ {n : Nat}, n < 2 ^ 32 → (UInt32.ofNat n).toNat = n := fun hn => by
    rw [UInt32.toNat_ofNat', Nat.mod_eq_of_lt hn]
  refine (reads_take32 s.neuron).bind ((reads_takeU64 s.height).bind ((reads_takeU32 hlinks).bind ?_))
  rw [hcount hlinks]
  refine (Reads.records (fun link _ => reads_takeLink link) (by decide)
    fun link _ => (length_serializeLink link).ge).bind ((reads_takeU32 hmoves).bind ?_)
  rw [hcount hmoves]
  exact (Reads.records (fun mv _ => reads_takeMove mv) (by decide) fun mv _ => length_serializeMove_ge mv).map
    fun moves => (⟨s.neuron, s.links, moves, s.height⟩ : Signal)

theorem local_takeSignal : Local takeSignal :=
  (local_takeVector 32).bind fun _ => local_takeU64.bind fun _ => local_takeU32.bind fun _ =>
    (local_takeLink.records _ _).bind fun _ => local_takeU32.bind fun _ =>
      (local_takeMove.records _ _).bind fun _ => local_pure _

theorem safe_takeSignal : Safe takeSignal :=
  (safe_takeVector (by decide)).bind (local_takeVector 32) fun _ =>
    safe_takeU64.bind local_takeU64 fun _ => safe_takeU32.bind local_takeU32 fun n =>
      (safe_takeLink.records local_takeLink (by decide) n.toNat).bind (local_takeLink.records _ _) fun _ =>
        safe_takeU32.bind local_takeU32 fun m =>
          (safe_takeMove.records local_takeMove (by decide) m.toNat).bind (local_takeMove.records _ _) fun _ => safe_pure _

theorem reads_takeIntent (i : IntentRecord) : Reads takeIntent (serializeIntent i) i :=
  (reads_take32 i.neuron).bind ((reads_takeU64 i.h0).bind ((reads_take32 i.scopeHash).bind
    ((reads_takeVector i.signature).map fun signature => (⟨i.neuron, i.h0, i.scopeHash, signature⟩ : IntentRecord))))

theorem local_takeIntent : Local takeIntent :=
  (local_takeVector 32).bind fun _ => local_takeU64.bind fun _ => (local_takeVector 32).bind fun _ =>
    (local_takeVector 64).bind fun _ => local_pure _

theorem safe_takeIntent : Safe takeIntent :=
  (safe_takeVector (by decide)).bind (local_takeVector 32) fun _ => safe_takeU64.bind local_takeU64 fun _ =>
    (safe_takeVector (by decide)).bind (local_takeVector 32) fun _ =>
      (safe_takeVector (by decide)).bind (local_takeVector 64) fun _ => safe_pure _

theorem length_serializeIntent (i : IntentRecord) : (serializeIntent i).length = 136 := by
  simp [serializeIntent, u64LeBytes]

theorem length_serializeSignal_le (s : Signal) :
    (serializeSignal s).length ≤ 48 + s.links.length * LINK_BYTES + s.boxMoves.length * 73 := by
  have hlinks := length_flatMap_le (l := s.links) fun link _ => (length_serializeLink link).le
  have hmoves := length_flatMap_le (l := s.boxMoves) fun mv _ => length_serializeMove_le mv
  simp only [serializeSignal, List.length_append, Vector.length_toList, u64LeBytes, Bytes.leBytes_length]
  omega

theorem length_serializeSignal_lt {s : Signal} (hs : Countable s) : (serializeSignal s).length < 2 ^ 63 := by
  have hle := length_serializeSignal_le s
  obtain ⟨hlinks, hmoves⟩ := hs
  rw [LINK_BYTES] at hle
  omega

/-! ### Decoding inverts encoding -/

section

variable {α : Type} {d : Decoder α} {bytes : List UInt8} {a : α}

theorem deserialize_append (hd : Reads d bytes a) (hlen : bytes.length < 2 ^ 64) (t : List UInt8) :
    deserialize d (bytes ++ t) = .ok (some a) := by
  have h := hd [] t hlen
  rw [List.nil_append, List.length_nil] at h
  rw [deserialize, h]
  rfl

theorem deserialize_short (hd : Reads d bytes a) (hlocal : Local d) (hsafe : Safe d) (hlen : bytes.length < 2 ^ 63)
    {short : List UInt8} (hshort : short <+: bytes) (hne : short ≠ bytes) : deserialize d short = .ok none := by
  rw [deserialize, hd.reject hlocal hsafe hlen hshort hne]
  rfl

theorem exists_deserialize (hsafe : Safe d) {buf : List UInt8} (hbuf : buf.length < 2 ^ 63) :
    ∃ r, deserialize d buf = .ok r := by
  obtain ⟨r, hr⟩ := hsafe buf 0 hbuf (Nat.zero_le _)
  rw [deserialize, hr]
  exact ⟨_, rfl⟩

end

theorem deserializeSignal_append {s : Signal} (hs : Countable s) (t : List UInt8) :
    deserializeSignal (serializeSignal s ++ t) = .ok (some s) :=
  deserialize_append (reads_takeSignal hs) ((length_serializeSignal_lt hs).trans (by decide)) t

theorem deserializeIntent_append (i : IntentRecord) (t : List UInt8) :
    deserializeIntent (serializeIntent i ++ t) = .ok (some i) :=
  deserialize_append (reads_takeIntent i) (by rw [length_serializeIntent]; decide) t

/-- The signals of an event have counts that fit in their fields. -/
def Event.Countable : Event → Prop
  | .signal s => Frame.Countable s
  | _ => True

theorem decodeChunk_chunk {event : Event} (h : event.Countable) : decodeChunk event.chunk = .ok (some event) := by
  cases event with
  | signal s =>
      have hread := deserializeSignal_append h []
      rw [List.append_nil] at hread
      rw [decodeChunk, Event.chunk, if_pos rfl, hread]
      rfl
  | intent i =>
      have hread := deserializeIntent_append i []
      rw [List.append_nil] at hread
      rw [decodeChunk, Event.chunk, if_neg (show ¬KET = ZAP by decide), if_pos rfl, hread]
      rfl
  | finalize => rfl

theorem decodeChunks_map {events : List Event} (h : ∀ event ∈ events, event.Countable) :
    decodeChunks (events.map Event.chunk) = .ok events := by
  induction events with
  | nil => rfl
  | cons event events ih =>
      obtain ⟨hevent, hevents⟩ := List.forall_mem_cons.mp h
      rw [List.map_cons, decodeChunks, decodeChunk_chunk hevent]
      dsimp only
      rw [ih hevents]
      rfl

theorem decodeEvents_flatMap {tape : Tape} {events : List Event} (htape : tape.Delivers (events.map Event.chunk))
    (h : ∀ event ∈ events, event.Countable) : decodeEvents tape (events.flatMap (encodeEvent tape)) = .ok events := by
  have hbytes : events.flatMap (encodeEvent tape) = (events.map Event.chunk).flatMap tape.encode := by
    rw [List.flatMap_map]
    rfl
  rw [decodeEvents, hbytes, htape]
  exact decodeChunks_map h

/-- Payloads decode to what was encoded whatever follows them, every strict prefix of a payload is rejected,
and no payload makes the decoder overflow its cursor or reserve records that the payload cannot hold; and
the events of a log come back in order. -/
theorem frames_exact :
    (∀ s : Signal, s.links.length < 2 ^ 32 → s.boxMoves.length < 2 ^ 32 →
      (∀ t, deserializeSignal (serializeSignal s ++ t) = .ok (some s)) ∧
      ∀ short, short <+: serializeSignal s → short ≠ serializeSignal s → deserializeSignal short = .ok none) ∧
    (∀ i : IntentRecord, (∀ t, deserializeIntent (serializeIntent i ++ t) = .ok (some i)) ∧
      ∀ short, short <+: serializeIntent i → short ≠ serializeIntent i → deserializeIntent short = .ok none) ∧
    (∀ buf : List UInt8, buf.length < 2 ^ 63 →
      (∃ r, deserializeSignal buf = .ok r) ∧ ∃ r, deserializeIntent buf = .ok r) ∧
    ∀ (tape : Tape) (events : List Event), tape.Delivers (events.map Event.chunk) →
      (∀ event ∈ events, event.Countable) → decodeEvents tape (events.flatMap (encodeEvent tape)) = .ok events := by
  refine ⟨fun s hlinks hmoves => ?_, fun i => ?_, fun buf hbuf => ?_, fun tape events htape h => decodeEvents_flatMap htape h⟩
  · have hs : Countable s := ⟨hlinks, hmoves⟩
    exact ⟨deserializeSignal_append hs, fun short hshort hne =>
      deserialize_short (reads_takeSignal hs) local_takeSignal safe_takeSignal (length_serializeSignal_lt hs) hshort hne⟩
  · exact ⟨deserializeIntent_append i, fun short hshort hne =>
      deserialize_short (reads_takeIntent i) local_takeIntent safe_takeIntent
        (by rw [length_serializeIntent]; decide) hshort hne⟩
  · exact ⟨exists_deserialize safe_takeSignal hbuf, exists_deserialize safe_takeIntent hbuf⟩

/-! ### A tape for witnesses

A frame is the marker, the sigil, the render byte, every payload byte behind a flag, and an end flag. -/

namespace FlagTape

def payloadBytes (payload : List UInt8) : List UInt8 := payload.flatMap (fun byte => [1, byte]) ++ [0]

def readPayload : List UInt8 → Option (List UInt8 × List UInt8)
  | 0 :: rest => some ([], rest)
  | 1 :: byte :: rest => (readPayload rest).map fun r => (byte :: r.1, r.2)
  | _ => none

def readChunks : Nat → List UInt8 → List Chunk
  | n + 1, 0x1f :: sigil :: render :: rest =>
      match readPayload rest with
      | some (payload, rest) => ⟨sigil, render, payload⟩ :: readChunks n rest
      | none => []
  | _, _ => []

def tape : Tape := ⟨fun c => 0x1f :: c.sigil :: c.render :: payloadBytes c.payload, fun bytes => readChunks bytes.length bytes⟩

theorem readPayload_append (payload rest : List UInt8) : readPayload (payloadBytes payload ++ rest) = some (payload, rest) := by
  induction payload with
  | nil => rfl
  | cons byte payload ih =>
      change (readPayload (payloadBytes payload ++ rest)).map (fun r => (byte :: r.1, r.2)) = _
      rw [ih]
      rfl

theorem readChunks_flatMap {n : Nat} {frames : List Chunk} (hn : frames.length ≤ n) :
    readChunks n (frames.flatMap tape.encode) = frames := by
  induction frames generalizing n with
  | nil => cases n <;> rfl
  | cons c frames ih =>
      obtain ⟨n, rfl⟩ : ∃ m, n = m + 1 := Nat.exists_eq_add_one_of_ne_zero (by rintro rfl; cases hn)
      change readChunks (n + 1) (0x1f :: c.sigil :: c.render :: (payloadBytes c.payload ++ frames.flatMap tape.encode)) = _
      rw [readChunks, readPayload_append]
      dsimp only
      rw [ih (Nat.le_of_succ_le_succ hn)]

theorem delivers (frames : List Chunk) : tape.Delivers frames := by
  refine readChunks_flatMap ?_
  have hlen : frames.length * 1 ≤ (frames.flatMap tape.encode).length := length_flatMap_ge fun c _ => by simp [tape]
  omega

end FlagTape

/-- A log of a signal with a link and a box move, an intent and a block boundary. -/
theorem frames_exact_threeEvents : decodeEvents FlagTape.tape
    ([Event.signal ⟨Vector.replicate 32 1, [⟨Vector.replicate 32 2, Vector.replicate 32 3, Vector.replicate 32 0, 4, -1⟩],
        [⟨Vector.replicate 32 5, some (Vector.replicate 32 6, 9)⟩], 7⟩,
      .intent ⟨Vector.replicate 32 9, 3, Vector.replicate 32 5, Vector.replicate 64 0⟩, .finalize].flatMap
        (encodeEvent FlagTape.tape)) =
    .ok [Event.signal ⟨Vector.replicate 32 1, [⟨Vector.replicate 32 2, Vector.replicate 32 3, Vector.replicate 32 0, 4, -1⟩],
        [⟨Vector.replicate 32 5, some (Vector.replicate 32 6, 9)⟩], 7⟩,
      .intent ⟨Vector.replicate 32 9, 3, Vector.replicate 32 5, Vector.replicate 64 0⟩, .finalize] := by
  refine frames_exact.2.2.2 FlagTape.tape _ (FlagTape.delivers _) ?_
  simp only [List.forall_mem_cons]
  exact ⟨⟨by decide, by decide⟩, trivial, trivial, nofun⟩

end LeanBbg.Frame
