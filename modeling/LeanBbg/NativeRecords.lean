import LeanBbg.Footprint

/-! Persistent records: byte keys of a domain and an entity, the encoding of every record type, and the
decoder of the snapshots that this encoding makes. -/

set_option linter.unusedSectionVars false

namespace LeanBbg

open Bytes Cells

variable {F : Type} [Hemera F] [DecidableEq F]

/-! ### Addresses -/

/-- An address that a preparation selects: the metadata record or a cell. -/
inductive Addr where
  | metadata
  | cell (c : Cell)
  deriving DecidableEq

/-- `u64::to_be_bytes`. -/
def u64BeBytes (v : UInt64) : List UInt8 := (u64LeBytes v).reverse

def u32LeBytes (v : UInt32) : List UInt8 := leBytes 4 v.toNat

/-- `records::key`. -/
def recordKey (domain : UInt8) (entity : List UInt8) : List UInt8 := domain :: entity

namespace Cell

def domain : Cell → UInt8
  | particle _ => 1
  | axonsOut _ => 2
  | axonsIn _ => 3
  | neuron _ => 4
  | time _ => 9
  | signal _ => 10
  | commitment _ => 11
  | nullifier _ => 12
  | balance _ => 13
  | intent _ => 14
  | axonEdge _ => 15
  | lastTouched _ => 16

def entity : Cell → List UInt8
  | particle k | axonsOut k | axonsIn k | neuron k | signal k | commitment k | nullifier k | balance k | intent k
  | axonEdge k | lastTouched k => k.toList
  | time h => u64BeBytes h

theorem eq_of_domain_entity {c c' : Cell} (hdomain : c.domain = c'.domain) (hentity : c.entity = c'.entity) :
    c = c' := by
  cases c <;> cases c' <;> simp [domain] at hdomain ⊢
  all_goals first
    | exact Vector.toList_inj.mp hentity
    | exact u64LeBytes_injective (List.reverse_injective hentity)

theorem domain_ne_zero (c : Cell) : c.domain ≠ 0 := by cases c <;> simp [domain]

end Cell

namespace Addr

def key : Addr → List UInt8
  | metadata => recordKey 0 []
  | cell c => recordKey c.domain c.entity

theorem key_injective : Function.Injective key := by
  intro a a' h
  cases a with
  | metadata =>
      cases a' with
      | metadata => rfl
      | cell c => exact absurd (List.cons.inj h).1.symm c.domain_ne_zero
  | cell c =>
      cases a' with
      | metadata => exact absurd (List.cons.inj h).1 c.domain_ne_zero
      | cell c' => exact congrArg cell (Cell.eq_of_domain_entity (List.cons.inj h).1 (List.cons.inj h).2)

/-- Addresses are ordered by their byte keys. -/
instance : Ord Addr := ⟨fun a a' => compare a.key a'.key⟩

instance : Std.TransOrd Addr where
  eq_swap {a a'} := @Std.OrientedCmp.eq_swap _ compare _ a.key a'.key
  isLE_trans {a a' a''} h h' := @Std.TransCmp.isLE_trans _ compare _ a.key a'.key a''.key h h'

instance : Std.LawfulEqOrd Addr where
  compare_self {a} := @Std.ReflCmp.compare_self _ compare _ a.key
  eq_of_compare h := key_injective (@Std.LawfulEqCmp.eq_of_compare _ compare _ _ _ h)

end Addr

/-! ### Encoders -/

def integers (values : List UInt64) : List UInt8 := values.flatMap u64LeBytes

def adjacencyBytes (entries : List Particle) : List UInt8 :=
  integers [UInt64.ofNat entries.length] ++ entries.flatMap Vector.toList

def signalBytes (s : SignalRecord) : List UInt8 :=
  s.neuron.toList ++ (s.network.toList ++ (u32LeBytes s.linkCount ++ (u64LeBytes s.blockHeight ++
    (s.proofHash.toList ++ u64LeBytes s.step))))

def intentBytes (i : IntentRecord) : List UInt8 :=
  i.neuron.toList ++ (u64LeBytes i.h0 ++ (i.scopeHash.toList ++ i.signature.toList))

def locationBytes (l : LocationRecord) : List UInt8 := u32LeBytes l.lat.toUInt32 ++ u32LeBytes l.lon.toUInt32

def cardBytes (c : CardRecord) : List UInt8 :=
  c.owner.toList ++ (c.particle.toList ++ (c.author.toList ++ (c.valence.byte :: u64LeBytes c.since)))

def fileBytes (f : FileRecord) : List UInt8 := (if f.available then 1 else 0) :: u32LeBytes f.chunkCount

/-- The encoding of a record of a cell. -/
def Cell.encode : (c : Cell) → c.Val F → List UInt8
  | particle _, p => integers p.words
  | axonsOut _, l => adjacencyBytes l.axons
  | axonsIn _, l => adjacencyBytes l.axons
  | neuron _, n => integers n.words
  | time _, root => Vector.toList root
  | signal _, s => signalBytes s
  | commitment _, v => integers [Nebu.asU64 (F := F) v]
  | nullifier _, _ => []
  | balance _, v => integers [v]
  | intent _, i => intentBytes i
  | axonEdge _, e => Vector.toList e.1 ++ Vector.toList e.2
  | lastTouched _, epoch => integers [epoch]

def metadata [Brakedown F] (b : Bbg F) : List UInt8 :=
  u32LeBytes 1 ++ u64LeBytes b.state.height ++ b.state.root.toList ++ u64LeBytes b.checkpoint.height ++
    b.checkpoint.root.toList ++ [if b.state.diameterOverride.isSome then 1 else 0] ++
    b.state.diameterOverride.toList.flatMap u64LeBytes ++ u64LeBytes b.pruneConfig.maxBytes ++
    [b.pruneConfig.rankFloorPct] ++ u64LeBytes b.pruneConfig.halfLifeEpochs

/-- Reads one selected address, without a graph scan. -/
def read [Brakedown F] (b : Bbg F) : Addr → Option (List UInt8)
  | .metadata => some (metadata b)
  | .cell c => (Cells.get c b).map c.encode

/-! ### The decoder -/

/-- A reader of bytes; `none` is the panic on bytes that are no snapshot. -/
abbrev Reader := StateT (List UInt8) Option

namespace Reader

def array (n : Nat) : Reader (Vector UInt8 n) := fun bytes =>
  if h : n ≤ bytes.length then some (⟨(bytes.take n).toArray, by simp [h]⟩, bytes.drop n) else none

def u64 : Reader UInt64 := do
  let bytes ← array 8
  pure (UInt64.ofNat (leValue bytes.toList))

def u32 : Reader UInt32 := do
  let bytes ← array 4
  pure (UInt32.ofNat (leValue bytes.toList))

def arrays : Nat → Reader (List Particle)
  | 0 => pure []
  | n + 1 => do
      let first ← array 32
      let rest ← arrays n
      pure (first :: rest)

theorem bind_apply {α β : Type} (x : Reader α) (f : α → Reader β) (bytes : List UInt8) :
    (x >>= f) bytes = (x bytes).bind fun r => f r.1 r.2 := rfl

theorem map_apply {α β : Type} (f : α → β) (x : Reader α) (bytes : List UInt8) :
    (f <$> x) bytes = (x bytes).bind fun r => some (f r.1, r.2) := rfl

theorem pure_apply {α : Type} (x : α) (bytes : List UInt8) : (pure x : Reader α) bytes = some (x, bytes) := rfl

theorem array_append {n : Nat} (v : Vector UInt8 n) (rest : List UInt8) :
    array n (v.toList ++ rest) = some (v, rest) := by
  have hlen : n ≤ (v.toList ++ rest).length := by simp
  rw [array, dif_pos hlen]
  have htake : (v.toList ++ rest).take n = v.toList := List.take_left' (by simp)
  have hdrop : (v.toList ++ rest).drop n = rest := List.drop_left' (by simp)
  rw [hdrop]
  congr 2
  apply Vector.toList_inj.mp
  exact htake

theorem array_self {n : Nat} (v : Vector UInt8 n) : array n v.toList = some (v, []) := by
  have := array_append v []
  rwa [List.append_nil] at this

theorem u64_append (v : UInt64) (rest : List UInt8) : u64 (u64LeBytes v ++ rest) = some (v, rest) := by
  have harray := array_append (n := 8) ⟨(u64LeBytes v).toArray, by simp⟩ rest
  change array 8 (u64LeBytes v ++ rest) = _ at harray
  rw [u64, bind_apply, harray, Option.bind_some, pure_apply]
  change some (UInt64.ofNat (leValue (leBytes 8 v.toNat)), rest) = _
  rw [leValue_leBytes_of_lt v.toNat_lt, UInt64.ofNat_toNat]

theorem u64_self (v : UInt64) : u64 (u64LeBytes v) = some (v, []) := by
  have := u64_append v []
  rwa [List.append_nil] at this

theorem u32_append (v : UInt32) (rest : List UInt8) : u32 (u32LeBytes v ++ rest) = some (v, rest) := by
  have harray := array_append (n := 4) ⟨(u32LeBytes v).toArray, by simp [u32LeBytes]⟩ rest
  change array 4 (u32LeBytes v ++ rest) = _ at harray
  rw [u32, bind_apply, harray, Option.bind_some, pure_apply]
  change some (UInt32.ofNat (leValue (leBytes 4 v.toNat)), rest) = _
  rw [leValue_leBytes_of_lt v.toNat_lt, UInt32.ofNat_toNat]

theorem arrays_flatMap (l : List Particle) : arrays l.length (l.flatMap Vector.toList) = some (l, []) := by
  induction l with
  | nil => rfl
  | cons a l ih =>
      rw [List.length_cons, arrays, bind_apply, List.flatMap_cons, array_append, Option.bind_some, bind_apply, ih]
      rfl

end Reader

open Reader in
/-- The record of a cell from its bytes. A list goes through the insertion of the index. -/
def Cell.decode : (c : Cell) → Reader (Option (c.Val F))
  | particle _ => do
      let energy ← u64
      let piStar ← u64
      let weight ← u64
      let sYes ← u64
      let sNo ← u64
      let metaScore ← u64
      pure (some (⟨energy, piStar, weight, sYes, sNo, metaScore⟩ : ParticleRecord))
  | axonsOut _ => do
      let count ← u64
      let entries ← arrays count.toNat
      pure (AxonList.ofList entries)
  | axonsIn _ => do
      let count ← u64
      let entries ← arrays count.toNat
      pure (AxonList.ofList entries)
  | neuron _ => do
      let focus ← u64
      let karma ← u64
      let stake ← u64
      let nonce ← u64
      pure (some (⟨focus, karma, stake, nonce⟩ : NeuronRecord))
  | time _ => some <$> array 32
  | signal _ => do
      let neuron ← array 32
      let network ← array 32
      let linkCount ← u32
      let blockHeight ← u64
      let proofHash ← array 32
      let step ← u64
      pure (some (⟨neuron, network, linkCount, blockHeight, proofHash, step⟩ : SignalRecord))
  | commitment _ => do
      let v ← u64
      pure (some (new v : F))
  | nullifier _ => pure (some ())
  | balance _ => some <$> u64
  | intent _ => do
      let neuron ← array 32
      let h0 ← u64
      let scopeHash ← array 32
      let signature ← array 64
      pure (some (⟨neuron, h0, scopeHash, signature⟩ : IntentRecord))
  | axonEdge _ => do
      let source ← array 32
      let target ← array 32
      pure (some (source, target))
  | lastTouched _ => some <$> u64

/-- A field element is the reduction of its own representative. -/
class NebuRoundTrip (F : Type) [Nebu F] : Prop where
  new_asU64 : ∀ v : F, Nebu.new (Nebu.asU64 v) = v

/-- The list of an adjacency cell is short enough for its length to fit. -/
def Cell.Short : (c : Cell) → c.Val F → Prop
  | axonsOut _, l => (AxonList.axons l).length < 2 ^ 64
  | axonsIn _, l => (AxonList.axons l).length < 2 ^ 64
  | _, _ => True

open Reader in
theorem decode_adjacency (l : AxonList) (hl : l.axons.length < 2 ^ 64) :
    (do
      let count ← u64
      let entries ← arrays count.toNat
      pure (AxonList.ofList entries) : Reader (Option AxonList)) (adjacencyBytes l.axons) = some (some l, []) := by
  have hcount : (UInt64.ofNat l.axons.length).toNat = l.axons.length := by
    rw [UInt64.toNat_ofNat', Nat.mod_eq_of_lt hl]
  rw [adjacencyBytes, integers, List.flatMap_singleton, bind_apply, u64_append, Option.bind_some, hcount, bind_apply,
    arrays_flatMap, Option.bind_some, pure_apply, AxonList.ofList_self]

open Reader in
theorem decode_word (v : UInt64) : (some <$> u64 : Reader (Option UInt64)) (integers [v]) = some (some v, []) := by
  rw [integers, List.flatMap_singleton, map_apply, u64_self]
  rfl

open Reader in
theorem decode_particle (v : Particle) :
    (some <$> array 32 : Reader (Option Particle)) v.toList = some (some v, []) := by
  rw [map_apply, array_self]
  rfl

open Reader in
theorem decode_element [NebuRoundTrip F] (v : F) :
    (do
      let word ← u64
      pure (some (new word : F)) : Reader (Option F)) (integers [Nebu.asU64 v]) = some (some v, []) := by
  have hnew : (new (Nebu.asU64 v) : F) = v := NebuRoundTrip.new_asU64 v
  rw [integers, List.flatMap_singleton, bind_apply, u64_self, Option.bind_some, pure_apply, hnew]

open Reader in
/-- The decoder inverts the encoder. -/
theorem Cell.decode_encode [NebuRoundTrip F] (c : Cell) (v : c.Val F) (hshort : c.Short v) :
    c.decode (c.encode v) = some (some v, []) := by
  cases c with
  | axonsOut p => exact decode_adjacency v hshort
  | axonsIn p => exact decode_adjacency v hshort
  | particle p =>
      simp only [decode, encode, integers, ParticleRecord.words, List.flatMap_cons, List.flatMap_nil, bind_apply,
        u64_append, Option.bind_some, pure_apply]
      rfl
  | neuron id =>
      simp only [decode, encode, integers, NeuronRecord.words, List.flatMap_cons, List.flatMap_nil, bind_apply,
        u64_append, Option.bind_some, pure_apply]
      rfl
  | time h => exact decode_particle v
  | signal k =>
      simp only [decode, encode, signalBytes, bind_apply, array_append, u32_append, u64_append, u64_self,
        Option.bind_some, pure_apply]
      rfl
  | commitment k => exact decode_element (F := F) v
  | nullifier k => rfl
  | balance k => exact decode_word v
  | intent k =>
      simp only [decode, encode, intentBytes, bind_apply, array_append, array_self, u64_append, Option.bind_some,
        pure_apply]
      rfl
  | axonEdge a =>
      simp only [decode, encode, bind_apply, array_append, array_self, Option.bind_some, pure_apply]
      rfl
  | lastTouched a => exact decode_word v

end LeanBbg
