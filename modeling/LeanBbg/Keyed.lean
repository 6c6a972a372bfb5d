import LeanBbg.TrieOverflow

/-! Committed dimension maps: a map for reads, a trie for the v2 commitment that is brought up to date
lazily from the set of touched keys, and a cache of the v1 commitment. A guard (`get_mut`, `entry`)
writes through to the map and records the key when it drops; here the write is a function applied to
the record. The mutex is exclusive access, and the type of v1 commitments is a parameter. -/

namespace LeanBbg

variable {F C K V : Type} [Hemera F] [DecidableEq F]

/-- A key of a committed dimension: its 32-byte trie path. -/
class TrieKey (K : Type) [Ord K] where
  keyBytes : K → Bytes32

/-- Keys are ordered, and distinct keys have distinct paths. -/
class LawfulTrieKey (K : Type) [Ord K] [TrieKey K] : Prop extends Std.TransOrd K, Std.LawfulEqOrd K where
  keyBytes_injective : Function.Injective (TrieKey.keyBytes : K → Bytes32)

/-- A committed record: its leaf fields in frozen order. -/
class LeafValue (F V : Type) where
  leafVals : V → List F

export TrieKey (keyBytes)
export LeafValue (leafVals)

/-- Records of one type have one number of fields, and the fields determine the record. -/
class LawfulLeafValue (F V : Type) [Hemera F] [LeafValue F V] : Prop where
  length_eq : ∀ v w : V, (leafVals v : List F).length = (leafVals w : List F).length
  injective : Symbolic F → Function.Injective (leafVals : V → List F)

instance : TrieKey Bytes32 := ⟨id⟩

instance : LawfulTrieKey Bytes32 where
  keyBytes_injective := fun _ _ h => h

/-- Heights: little-endian in the first 8 bytes. -/
instance : TrieKey UInt64 :=
  ⟨fun height => ⟨(Bytes.leBytes 8 height.toNat ++ List.replicate 24 0).toArray, by simp⟩⟩

instance : LawfulTrieKey UInt64 where
  keyBytes_injective := by
    intro a b h
    have hlist : Bytes.leBytes 8 a.toNat ++ List.replicate 24 0 =
        Bytes.leBytes 8 b.toNat ++ (List.replicate 24 0 : List UInt8) := by
      have := congrArg Vector.toList h
      simpa [keyBytes, Vector.toList] using this
    exact UInt64.toNat_inj.mp
      (Bytes.leBytes_injective a.toNat_lt b.toNat_lt (List.append_cancel_right hlist))

instance : LeafValue F UInt64 := ⟨u64Limbs⟩

instance : LawfulLeafValue F UInt64 where
  length_eq _ _ := rfl
  injective hs _ _ h := u64Limbs_injective hs h

instance : LeafValue F F := ⟨fun v => [v]⟩

instance : LawfulLeafValue F F where
  length_eq _ _ := rfl
  injective _ _ _ h := List.singleton_injective h

instance : LeafValue F Bytes32 := ⟨bytes32Limbs⟩

instance : LawfulLeafValue F Bytes32 where
  length_eq v w := by
    change (bytes32Limbs v).length = (bytes32Limbs w).length
    rw [bytes32Limbs_length, bytes32Limbs_length]
  injective hs _ _ h := bytes32Limbs_injective hs h

instance : LeafValue F Unit := ⟨fun _ => []⟩

instance : LawfulLeafValue F Unit where
  length_eq _ _ := rfl
  injective _ _ _ _ := rfl

structure Keyed (F C K V : Type) [Ord K] where
  map : OrdMap K V
  trie : Trie F
  /-- The keys whose leaves the trie has not seen yet. -/
  dirty : OrdMap K Unit
  /-- The cached v1 commitment. -/
  legacy : Option C

namespace Trie

/-- Set or remove a key, whichever its record asks for. -/
def put (T : Trie F) (key : Bytes32) : Option (Digest F) → Option (Trie F)
  | some digest => (T.set key digest).map Prod.snd
  | none => (T.remove key).map Prod.snd

end Trie

namespace Keyed

variable [Ord K] [TrieKey K] [LawfulTrieKey K] [LeafValue F V]

def new : Keyed F C K V := ⟨∅, Trie.empty, ∅, none⟩

/-- The leaf digest a record carries under its key. -/
def leaf (key : K) (value : V) : Digest F := leafDigest (keyBytes key) (leafVals value)

def touched (m : Keyed F C K V) (key : K) : Keyed F C K V :=
  { m with legacy := none, dirty := m.dirty.insert key () }

/-- Bring the trie up to date with every touched record. -/
def flush (m : Keyed F C K V) : Option (Keyed F C K V) := do
  let trie ← m.dirty.keys.foldlM (fun trie key => trie.put (keyBytes key) (m.map[key]?.map (leaf key))) m.trie
  some { m with trie, dirty := ∅ }

def insert (m : Keyed F C K V) (key : K) (value : V) : Option V × Keyed F C K V :=
  (m.map[key]?, { m with map := m.map.insert key value }.touched key)

def remove (m : Keyed F C K V) (key : K) : Option V × Keyed F C K V :=
  match m.map[key]? with
  | none => (none, m)
  | some old => (some old, { m with map := m.map.erase key }.touched key)

def clear (_ : Keyed F C K V) : Keyed F C K V := new

/-- Write a record through its guard, which records the key when it drops. -/
def guardWrite (m : Keyed F C K V) (key : K) (write : V → V) : Keyed F C K V :=
  { m with map := m.map.modify key write }.touched key

/-- `get_mut`: no guard for an absent key. -/
def getMut (m : Keyed F C K V) (key : K) (write : V → V) : Bool × Keyed F C K V :=
  if m.map.contains key then (true, m.guardWrite key write) else (false, m)

/-- `entry(key).or_insert_with(default)`, then a write through the guard. -/
def orInsertWith (m : Keyed F C K V) (key : K) (default : Unit → V) (write : V → V) : Keyed F C K V :=
  if m.map.contains key then m.guardWrite key write
  else { m with map := m.map.insert key (default ()) }.guardWrite key write

def orInsert (m : Keyed F C K V) (key : K) (default : V) (write : V → V) : Keyed F C K V :=
  m.orInsertWith key (fun _ => default) write

def orDefault [Inhabited V] (m : Keyed F C K V) (key : K) (write : V → V) : Keyed F C K V :=
  m.orInsertWith key (fun _ => Inhabited.default) write

/-- The v2 commitment: the trie root. -/
def commitment (m : Keyed F C K V) : Option (Digest F × Keyed F C K V) := do
  let m ← m.flush
  let (d, trie) ← m.trie.root
  some (d, { m with trie })

/-- The v1 commitment, computed by `f` over the map and cached until the next mutation. -/
def legacyCommitment (m : Keyed F C K V) (f : OrdMap K V → C) : C × Keyed F C K V :=
  match m.legacy with
  | some c => (c, m)
  | none => (f m.map, { m with legacy := some (f m.map) })

/-- An inclusion or non-inclusion proof against the commitment. -/
def prove (m : Keyed F C K V) (key : K) : Option (TrieProof F × Keyed F C K V) := do
  let m ← m.flush
  let (p, trie) ← m.trie.prove (keyBytes key)
  some (p, { m with trie })

end Keyed

end LeanBbg
