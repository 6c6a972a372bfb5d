import LeanBbg.Adjacency

/-! The record types of the state and their leaf fields. Every type has one number of fields, and a record
is determined by its fields: u64 values are two limbs, 32-byte strings eight. -/

namespace LeanBbg

variable {F : Type} [Hemera F]

structure ParticleRecord where
  energy : UInt64
  piStar : UInt64
  weight : UInt64
  sYes : UInt64
  sNo : UInt64
  metaScore : UInt64
  deriving DecidableEq

def ParticleRecord.zero : ParticleRecord := ⟨0, 0, 0, 0, 0, 0⟩

structure NeuronRecord where
  focus : UInt64
  karma : UInt64
  stake : UInt64
  nonce : UInt64
  deriving DecidableEq

structure LocationRecord where
  lat : Int32
  lon : Int32
  deriving DecidableEq

structure CoinRecord where
  totalSupply : UInt64
  deriving DecidableEq

inductive Valence where
  | against
  | neutral
  | «for»
  deriving DecidableEq

/-- The stored byte `v + 1`. -/
def Valence.byte : Valence → UInt8
  | .against => 0
  | .neutral => 1
  | .for => 2

structure CardRecord where
  owner : Bytes32
  particle : Particle
  author : NeuronId
  valence : Valence
  since : UInt64
  deriving DecidableEq

structure FileRecord where
  available : Bool
  chunkCount : UInt32
  deriving DecidableEq

structure SignalRecord where
  neuron : NeuronId
  network : Particle
  linkCount : UInt32
  blockHeight : UInt64
  proofHash : Particle
  step : UInt64
  deriving DecidableEq

structure IntentRecord where
  neuron : NeuronId
  h0 : UInt64
  scopeHash : Particle
  signature : Vector UInt8 64
  deriving DecidableEq

/-! ### Leaf fields -/

def scalarFields (values : List UInt64) : List F := values.flatMap u64Limbs

theorem scalarFields_length (values : List UInt64) : (scalarFields values : List F).length = 2 * values.length := by
  induction values with
  | nil => rfl
  | cons v values ih =>
      rw [scalarFields, List.flatMap_cons, List.length_append, List.length_cons]
      change 2 + (scalarFields values : List F).length = _
      rw [ih]
      omega

theorem scalarFields_injective (hs : Symbolic F) {xs ys : List UInt64}
    (h : (scalarFields xs : List F) = scalarFields ys) : xs = ys := by
  induction xs generalizing ys with
  | nil =>
      have hlen := congrArg List.length h
      rw [scalarFields_length, scalarFields_length, List.length_nil] at hlen
      exact (List.eq_nil_of_length_eq_zero (by omega)).symm
  | cons x xs ih =>
      cases ys with
      | nil =>
          have hlen := congrArg List.length h
          rw [scalarFields_length, scalarFields_length, List.length_cons, List.length_nil] at hlen
          omega
      | cons y ys =>
          obtain ⟨hhead, htail⟩ := List.append_inj h rfl
          rw [u64Limbs_injective hs hhead, ih htail]

/-- `false` is 0 and `true` is 1. -/
def boolWord (b : Bool) : UInt64 := if b then 1 else 0

theorem boolWord_injective : Function.Injective boolWord := by decide

theorem Valence.byte_injective : Function.Injective fun v : Valence => v.byte.toUInt64 := by
  intro v w h
  cases v <;> cases w <;> first | rfl | exact absurd h (by decide)

/-- An i32 as a u64 through its bits. -/
def i32Word (v : Int32) : UInt64 := v.toUInt32.toUInt64

theorem i32Word_injective : Function.Injective i32Word := by
  intro v w h
  have h32 : v.toUInt32 = w.toUInt32 := UInt32.toUInt64_inj.mp h
  cases v
  cases w
  exact congrArg Int32.ofUInt32 h32

def ParticleRecord.words (p : ParticleRecord) : List UInt64 :=
  [p.energy, p.piStar, p.weight, p.sYes, p.sNo, p.metaScore]

def NeuronRecord.words (n : NeuronRecord) : List UInt64 := [n.focus, n.karma, n.stake, n.nonce]

def LocationRecord.words (l : LocationRecord) : List UInt64 := [i32Word l.lat, i32Word l.lon]

def FileRecord.words (f : FileRecord) : List UInt64 := [boolWord f.available, f.chunkCount.toUInt64]

instance : LeafValue F ParticleRecord := ⟨fun p => scalarFields p.words⟩

instance : LeafValue F NeuronRecord := ⟨fun n => scalarFields n.words⟩

instance : LeafValue F LocationRecord := ⟨fun l => scalarFields l.words⟩

instance : LeafValue F CoinRecord := ⟨fun c => u64Limbs c.totalSupply⟩

instance : LeafValue F CardRecord :=
  ⟨fun c => bytes32Limbs c.owner ++ (bytes32Limbs c.particle ++ (bytes32Limbs c.author ++
    (u64Limbs c.valence.byte.toUInt64 ++ u64Limbs c.since)))⟩

instance : LeafValue F FileRecord := ⟨fun f => scalarFields f.words⟩

instance : LeafValue F SignalRecord :=
  ⟨fun s => bytes32Limbs s.neuron ++ (bytes32Limbs s.network ++ (u64Limbs s.linkCount.toUInt64 ++
    (u64Limbs s.blockHeight ++ (bytes32Limbs s.proofHash ++ u64Limbs s.step))))⟩

/-- Records made of u64 words only. -/
theorem scalarFields_lawful {V : Type} (words : V → List UInt64) (hlen : ∀ v w, (words v).length = (words w).length)
    (hinj : Function.Injective words) :
    (∀ v w, (scalarFields (words v) : List F).length = (scalarFields (words w) : List F).length) ∧
      (Symbolic F → Function.Injective fun v => (scalarFields (words v) : List F)) :=
  ⟨fun v w => by rw [scalarFields_length, scalarFields_length, hlen v w],
    fun hs _ _ h => hinj (scalarFields_injective hs h)⟩

theorem ParticleRecord.words_injective : Function.Injective ParticleRecord.words := by
  rintro ⟨⟩ ⟨⟩ h
  simpa [words] using h

theorem NeuronRecord.words_injective : Function.Injective NeuronRecord.words := by
  rintro ⟨⟩ ⟨⟩ h
  simpa [words] using h

theorem LocationRecord.words_injective : Function.Injective LocationRecord.words := by
  rintro ⟨lat, lon⟩ ⟨lat', lon'⟩ h
  simp only [words, List.cons.injEq, and_true] at h
  rw [i32Word_injective h.1, i32Word_injective h.2]

theorem FileRecord.words_injective : Function.Injective FileRecord.words := by
  rintro ⟨available, count⟩ ⟨available', count'⟩ h
  simp only [words, List.cons.injEq, and_true] at h
  rw [boolWord_injective h.1, UInt32.toUInt64_inj.mp h.2]

instance : LawfulLeafValue F ParticleRecord where
  length_eq := (scalarFields_lawful ParticleRecord.words (fun _ _ => rfl) ParticleRecord.words_injective).1
  injective := (scalarFields_lawful ParticleRecord.words (fun _ _ => rfl) ParticleRecord.words_injective).2

instance : LawfulLeafValue F NeuronRecord where
  length_eq := (scalarFields_lawful NeuronRecord.words (fun _ _ => rfl) NeuronRecord.words_injective).1
  injective := (scalarFields_lawful NeuronRecord.words (fun _ _ => rfl) NeuronRecord.words_injective).2

instance : LawfulLeafValue F LocationRecord where
  length_eq := (scalarFields_lawful LocationRecord.words (fun _ _ => rfl) LocationRecord.words_injective).1
  injective := (scalarFields_lawful LocationRecord.words (fun _ _ => rfl) LocationRecord.words_injective).2

instance : LawfulLeafValue F FileRecord where
  length_eq := (scalarFields_lawful FileRecord.words (fun _ _ => rfl) FileRecord.words_injective).1
  injective := (scalarFields_lawful FileRecord.words (fun _ _ => rfl) FileRecord.words_injective).2

instance : LawfulLeafValue F CoinRecord where
  length_eq _ _ := rfl
  injective hs := by
    rintro ⟨a⟩ ⟨b⟩ h
    exact congrArg CoinRecord.mk (u64Limbs_injective hs h)

instance : LawfulLeafValue F CardRecord where
  length_eq v w := by simp [leafVals, u64Limbs]
  injective hs := by
    rintro ⟨owner, particle, author, valence, since⟩ ⟨owner', particle', author', valence', since'⟩ h
    obtain ⟨howner, h⟩ := List.append_inj h (by simp)
    obtain ⟨hparticle, h⟩ := List.append_inj h (by simp)
    obtain ⟨hauthor, h⟩ := List.append_inj h (by simp)
    obtain ⟨hvalence, hsince⟩ := List.append_inj h rfl
    exact (CardRecord.mk.injEq ..).mpr ⟨bytes32Limbs_injective hs howner, bytes32Limbs_injective hs hparticle,
      bytes32Limbs_injective hs hauthor, Valence.byte_injective (u64Limbs_injective hs hvalence),
      u64Limbs_injective hs hsince⟩

instance : LawfulLeafValue F SignalRecord where
  length_eq v w := by simp [leafVals, u64Limbs]
  injective hs := by
    rintro ⟨neuron, network, count, height, hash, step⟩ ⟨neuron', network', count', height', hash', step'⟩ h
    obtain ⟨hneuron, h⟩ := List.append_inj h (by simp)
    obtain ⟨hnetwork, h⟩ := List.append_inj h (by simp)
    obtain ⟨hcount, h⟩ := List.append_inj h rfl
    obtain ⟨hheight, h⟩ := List.append_inj h rfl
    obtain ⟨hhash, hstep⟩ := List.append_inj h (by simp)
    exact (SignalRecord.mk.injEq ..).mpr ⟨bytes32Limbs_injective hs hneuron, bytes32Limbs_injective hs hnetwork,
      UInt32.toUInt64_inj.mp (u64Limbs_injective hs hcount), u64Limbs_injective hs hheight,
      bytes32Limbs_injective hs hhash, u64Limbs_injective hs hstep⟩

end LeanBbg
