import LeanBbg.Key
import LeanBbg.LibBytes
import LeanBbg.LibChain

/-! Field elements, digests and the two node digests of the keyed trie. The field (`nebu`) and the
hash (`hemera`) are not part of the repository: they are the classes `Nebu` and `Hemera`, with the
contract that hash outputs are four canonical limbs. Results that treat `compress4` symbolically take
the hypothesis `Symbolic`. -/

namespace LeanBbg

open Bytes

/-- The Goldilocks modulus. -/
def P : Nat := 2 ^ 64 - 2 ^ 32 + 1

/-- The field elements of `nebu`: `Goldilocks::new` and `as_u64`. -/
class Nebu (F : Type) where
  new : UInt64 → F
  asU64 : F → UInt64

/-- `[Goldilocks; 4]`. -/
abbrev Digest (F : Type) := Vector F 4

/-- Limb `i` of a 32-byte string: eight bytes, little-endian. -/
def limbValue (bytes : Bytes32) (i : Nat) : Nat := leValue ((bytes.toList.drop (8 * i)).take 8)

/-- Every limb of the string is a canonical field representative. -/
def CanonicalDigest (bytes : Bytes32) : Prop := ∀ i < 4, limbValue bytes i < P

theorem toNat_mod_lt (v : UInt64) : v.toNat % P < P := Nat.mod_lt _ (by decide)

theorem canonicalDigest_zero (_message : List UInt8) : CanonicalDigest (Vector.replicate 32 0) := by
  unfold CanonicalDigest
  decide

/-- The permutation and the hash of `hemera`; a hash is 32 bytes of canonical limbs. -/
class Hemera (F : Type) extends Nebu F where
  permute : Vector F 16 → Vector F 16
  hash : List UInt8 → Bytes32
  hash_canonical : ∀ message, CanonicalDigest (hash message)

section Digests

variable {F : Type} [Hemera F]

/-- `Goldilocks::new`. -/
def new (v : UInt64) : F := Nebu.new v

/-- `Goldilocks::ZERO`. -/
def zero : F := new 0

/-- One hemera compression: the first four elements of the permutation of `[a ‖ b ‖ 0⁸]`. -/
def compress4 (a b : Digest F) : Digest F :=
  let state : Vector F 16 := Hemera.permute (a ++ b ++ Vector.replicate 8 (zero : F))
  Vector.ofFn fun i : Fin 4 => state.get ⟨i, by omega⟩

/-- `u64::from_le_bytes`. -/
def u64FromLe (bytes : List UInt8) : UInt64 := UInt64.ofNat (leValue bytes)

/-- `"bbg-leaf"` as a little-endian u64. -/
def LEAF_TAG : UInt64 := u64FromLe [0x62, 0x62, 0x67, 0x2d, 0x6c, 0x65, 0x61, 0x66]

/-- `"bbg-node"` as a little-endian u64. -/
def BRANCH_TAG : UInt64 := u64FromLe [0x62, 0x62, 0x67, 0x2d, 0x6e, 0x6f, 0x64, 0x65]

/-- `"bbg-root"` as a little-endian u64. -/
def ROOT_TAG : UInt64 := u64FromLe [0x62, 0x62, 0x67, 0x2d, 0x72, 0x6f, 0x6f, 0x74]

def DIMENSION_VERSION : UInt64 := 4

/-- The digest of the empty trie. -/
def EMPTY : Digest F := #v[zero, zero, zero, zero]

/-- A u64 as two 32-bit limbs, low limb first. -/
def u64Limbs (v : UInt64) : List F := [new (v &&& 0xffffffff), new (v >>> 32)]

/-- A 32-byte string as eight 32-bit limbs. -/
def bytes32Limbs (bytes : Bytes32) : List F :=
  (List.range 8).map fun i => new (UInt64.ofNat (leValue ((bytes.toList.drop (4 * i)).take 4)))

/-- `chunks(4)`, the last chunk zero-padded. -/
def blocks : List F → List (Digest F)
  | [] => []
  | [a] => [#v[a, zero, zero, zero]]
  | [a, b] => [#v[a, b, zero, zero]]
  | [a, b, c] => [#v[a, b, c, zero]]
  | a :: b :: c :: d :: rest => #v[a, b, c, d] :: blocks rest

def leafIv (len : Nat) : Digest F := #v[new LEAF_TAG, new (UInt64.ofNat len), new DIMENSION_VERSION, zero]

def branchIv (bit : UInt16) : Digest F := #v[new BRANCH_TAG, new bit.toUInt64, zero, zero]

def rootIv : Digest F := #v[new ROOT_TAG, zero, zero, zero]

/-- `leaf(k, v)`: the digest of one record. -/
def leafDigest (key : Bytes32) (vals : List F) : Digest F :=
  (blocks vals).foldl compress4 ((blocks (bytes32Limbs key)).foldl compress4 (leafIv vals.length))

/-- `branch(i, l, r)`: the digest of a branch deciding on key bit `i`. -/
def branchDigest (bit : UInt16) (left right : Digest F) : Digest F :=
  compress4 (compress4 (branchIv bit) left) right

/-- `node(S)` of the specification. -/
def node (S : List (Bytes32 × Digest F)) : Digest F :=
  Patricia.node bit 256 (fun i => branchDigest (UInt16.ofNat i)) EMPTY S

/-- `node` depends on the records only, not on their order. -/
theorem node_of_perm {S S' : List (Bytes32 × Digest F)} (hnodup : (S.map Prod.fst).Nodup) (hperm : S.Perm S') :
    node S = node S' :=
  Patricia.node_perm bit 256 _ EMPTY separates_bit hnodup hperm

/-- An initial value of a leaf, branch or root chain. -/
def IsIv (d : Digest F) : Prop := (∃ len, d = leafIv len) ∨ (∃ bit, d = branchIv bit) ∨ d = rootIv

variable (F) in
/-- `compress4` as an injective symbolic compression that outputs neither an initial value nor
`EMPTY`, over a field whose canonical representatives are distinct elements. -/
structure Symbolic : Prop where
  new_injective : ∀ a b : UInt64, a.toNat < P → b.toNat < P → (new a : F) = new b → a = b
  free : Chain.Free (compress4 : Digest F → Digest F → Digest F) IsIv
  notEmpty : ∀ a b : Digest F, compress4 a b ≠ EMPTY

theorem leafDigest_eq_foldl (key : Bytes32) (vals : List F) :
    leafDigest key vals =
      (blocks (bytes32Limbs key) ++ blocks vals).foldl compress4 (leafIv vals.length) := by
  rw [leafDigest, List.foldl_append]

theorem branchDigest_eq_foldl (bit : UInt16) (left right : Digest F) :
    branchDigest bit left right = [left, right].foldl compress4 (branchIv bit) := rfl

@[simp] theorem bytes32Limbs_length (bytes : Bytes32) : (bytes32Limbs bytes : List F).length = 8 := by
  simp [bytes32Limbs]

theorem blocks_bytes32Limbs_length (bytes : Bytes32) :
    (blocks (bytes32Limbs bytes : List F)).length = 2 := rfl

/-- Zero-padded chunking is injective on lists of one length. -/
theorem blocks_injective {xs ys : List F} (hlen : xs.length = ys.length) (h : blocks xs = blocks ys) :
    xs = ys := by
  induction xs using blocks.induct generalizing ys with
  | case1 => exact (List.eq_nil_of_length_eq_zero hlen.symm).symm
  | case2 a =>
      obtain ⟨a', rfl⟩ := List.length_eq_one_iff.mp hlen.symm
      simpa [blocks] using h
  | case3 a b =>
      obtain ⟨a', b', rfl⟩ := List.length_eq_two.mp hlen.symm
      simpa [blocks] using h
  | case4 a b c =>
      obtain ⟨a', b', c', rfl⟩ := List.length_eq_three.mp hlen.symm
      simpa [blocks] using h
  | case5 a b c d rest ih =>
      match ys, hlen with
      | a' :: b' :: c' :: d' :: rest', hlen =>
          simp only [blocks, List.cons.injEq] at h
          have hrest : rest = rest' := ih (by simpa using hlen) h.2
          have hblock : a = a' ∧ b = b' ∧ c = c' ∧ d = d' := by simpa using h.1
          rw [hblock.1, hblock.2.1, hblock.2.2.1, hblock.2.2.2, hrest]

section Symbolic

variable (hs : Symbolic F)

include hs

theorem u64Limbs_injective {v v' : UInt64} (h : (u64Limbs v : List F) = u64Limbs v') : v = v' := by
  have hlow : ∀ x : UInt64, (x &&& 0xffffffff).toNat = x.toNat % 2 ^ 32 := by
    intro x
    rw [UInt64.toNat_and]
    exact Nat.and_two_pow_sub_one_eq_mod x.toNat 32
  have hhigh : ∀ x : UInt64, (x >>> 32).toNat = x.toNat / 2 ^ 32 := by
    intro x
    rw [UInt64.toNat_shiftRight]
    exact Nat.shiftRight_eq_div_pow x.toNat 32
  have hsmall : ∀ x : UInt64, (x &&& 0xffffffff).toNat < P ∧ (x >>> 32).toNat < P := by
    intro x
    have := x.toNat_lt
    rw [hlow, hhigh, P]
    omega
  simp only [u64Limbs, List.cons.injEq, and_true] at h
  have h₁ := congrArg UInt64.toNat (hs.new_injective _ _ (hsmall v).1 (hsmall v').1 h.1)
  have h₂ := congrArg UInt64.toNat (hs.new_injective _ _ (hsmall v).2 (hsmall v').2 h.2)
  rw [hlow, hlow] at h₁
  rw [hhigh, hhigh] at h₂
  apply UInt64.toNat_inj.mp
  omega

theorem bytes32Limbs_injective {b b' : Bytes32} (h : (bytes32Limbs b : List F) = bytes32Limbs b') :
    b = b' := by
  have hchunk : ∀ i < 8, (b.toList.drop (4 * i)).take 4 = (b'.toList.drop (4 * i)).take 4 := by
    intro i hi
    have hlen : ∀ c : Bytes32, ((c.toList.drop (4 * i)).take 4).length = 4 := by
      intro c
      rw [List.length_take, List.length_drop, Vector.length_toList]
      omega
    have hlt : ∀ c : Bytes32, leValue ((c.toList.drop (4 * i)).take 4) < 2 ^ 32 := by
      intro c
      have := leValue_lt ((c.toList.drop (4 * i)).take 4)
      rw [hlen c] at this
      omega
    have hsmall : ∀ c : Bytes32, (UInt64.ofNat (leValue ((c.toList.drop (4 * i)).take 4))).toNat < P := by
      intro c
      have := hlt c
      rw [UInt64.toNat_ofNat', P]
      omega
    have hget := List.map_inj_left.mp h i (List.mem_range.mpr hi)
    have hval := congrArg UInt64.toNat (hs.new_injective _ _ (hsmall b) (hsmall b') hget)
    rw [UInt64.toNat_ofNat', UInt64.toNat_ofNat', Nat.mod_eq_of_lt (by have := hlt b; omega),
      Nat.mod_eq_of_lt (by have := hlt b'; omega)] at hval
    exact leValue_injective (by rw [hlen, hlen]) hval
  apply Vector.ext
  intro m hm
  have hget := congrArg (fun l : List UInt8 => l[m % 4]?) (hchunk (m / 4) (by omega))
  have hidx : 4 * (m / 4) + m % 4 = m := by omega
  simp only [List.getElem?_take_of_lt (show m % 4 < 4 by omega), List.getElem?_drop, hidx,
    List.getElem?_eq_getElem (show m < b.toList.length by rw [Vector.length_toList]; exact hm),
    List.getElem?_eq_getElem (show m < b'.toList.length by rw [Vector.length_toList]; exact hm),
    Vector.getElem_toList, Option.some_inj] at hget
  exact hget

theorem leafIv_ne_branchIv (len : Nat) (bit : UInt16) : (leafIv len : Digest F) ≠ branchIv bit := by
  intro h
  have htag : (new LEAF_TAG : F) = new BRANCH_TAG := by
    have := congrArg (fun d : Digest F => d[0]) h
    simpa [leafIv, branchIv] using this
  exact absurd (hs.new_injective _ _ (by decide) (by decide) htag) (by decide)

/-- A leaf digest determines the key, whatever the number of fields. -/
theorem leafDigest_key {k k' : Bytes32} {vals vals' : List F} (h : leafDigest k vals = leafDigest k' vals') :
    k = k' := by
  rw [leafDigest_eq_foldl, leafDigest_eq_foldl] at h
  obtain ⟨-, hblocks⟩ := hs.free.foldl_injective (.inl ⟨_, rfl⟩) (.inl ⟨_, rfl⟩) h
  obtain ⟨hkey, -⟩ := List.append_inj hblocks
    (by rw [blocks_bytes32Limbs_length, blocks_bytes32Limbs_length])
  exact bytes32Limbs_injective hs (blocks_injective (by simp) hkey)

/-- A leaf digest determines the key and, at one length, the fields. -/
theorem leafDigest_injective {k k' : Bytes32} {vals vals' : List F} (hlen : vals.length = vals'.length)
    (h : leafDigest k vals = leafDigest k' vals') : k = k' ∧ vals = vals' := by
  rw [leafDigest_eq_foldl, leafDigest_eq_foldl] at h
  obtain ⟨-, hblocks⟩ := hs.free.foldl_injective (.inl ⟨_, rfl⟩) (.inl ⟨_, rfl⟩) h
  obtain ⟨hkey, hvals⟩ := List.append_inj hblocks
    (by rw [blocks_bytes32Limbs_length, blocks_bytes32Limbs_length])
  exact ⟨bytes32Limbs_injective hs (blocks_injective (by simp) hkey), blocks_injective hlen hvals⟩

theorem leafDigest_ne_branchDigest (k : Bytes32) (vals : List F) (bit : UInt16) (l r : Digest F) :
    leafDigest k vals ≠ branchDigest bit l r := by
  intro h
  rw [leafDigest_eq_foldl, branchDigest_eq_foldl] at h
  exact leafIv_ne_branchIv hs _ _ (hs.free.foldl_injective (.inl ⟨_, rfl⟩) (.inr (.inl ⟨_, rfl⟩)) h).1

theorem branchDigest_injective {bit bit' : UInt16} {l r l' r' : Digest F}
    (h : branchDigest bit l r = branchDigest bit' l' r') : bit = bit' ∧ l = l' ∧ r = r' := by
  rw [branchDigest_eq_foldl, branchDigest_eq_foldl] at h
  obtain ⟨hiv, hblocks⟩ := hs.free.foldl_injective (.inr (.inl ⟨_, rfl⟩)) (.inr (.inl ⟨_, rfl⟩)) h
  have hbit : (new bit.toUInt64 : F) = new bit'.toUInt64 := by
    have := congrArg (fun d : Digest F => d[1]) hiv
    simpa [branchIv] using this
  have hsmall : ∀ b : UInt16, b.toUInt64.toNat < P := by
    intro b
    have := b.toNat_lt
    rw [UInt16.toNat_toUInt64, P]
    omega
  have hsame := congrArg UInt64.toNat (hs.new_injective _ _ (hsmall bit) (hsmall bit') hbit)
  rw [UInt16.toNat_toUInt64, UInt16.toNat_toUInt64] at hsame
  simp only [List.cons.injEq, and_true] at hblocks
  exact ⟨UInt16.toNat_inj.mp hsame, hblocks⟩

theorem leafDigest_ne_empty (k : Bytes32) (vals : List F) : leafDigest k vals ≠ EMPTY := by
  rw [leafDigest_eq_foldl]
  rcases List.eq_nil_or_concat (blocks (bytes32Limbs k) ++ blocks vals) with hnil | ⟨front, last, hlast⟩
  · have := congrArg List.length hnil
    rw [List.length_append, blocks_bytes32Limbs_length] at this
    simp at this
  · rw [hlast, List.concat_eq_append, List.foldl_append]
    exact hs.notEmpty _ _

end Symbolic

end Digests

end LeanBbg
