import LeanBbg.LibPatriciaNode

/-! Trie keys: 32-byte strings, their bits from the most significant one, and the first bit on
which two of them differ. -/

namespace LeanBbg

/-- `[u8; 32]`: a particle, neuron or axon id, a nullifier, or any other trie key. -/
abbrev Bytes32 := Vector UInt8 32

abbrev Particle := Bytes32

abbrev NeuronId := Bytes32

instance : Std.TransOrd Bytes32 := inferInstance

instance : LawfulBEq Bytes32 := inferInstance

/-- The size check of `<[u8; 32]>::try_from`. -/
theorem size_toArray_of_length {bytes : List UInt8} (h : bytes.length = 32) : bytes.toArray.size = 32 := by
  simpa using h

/-- Bit `n < 8` of a byte, most significant first. -/
def byteBit (byte n : UInt8) : Bool := (byte >>> (7 - n)) &&& 1 == 1

/-- Bit `i` of a key, most significant bit of byte 0 first. The index is untrusted in a proof:
`none` is the out-of-bounds panic of the source. -/
def keyBit (key : Bytes32) (i : UInt16) : Option Bool :=
  key[(i / 8).toNat]?.map fun byte => byteBit byte (i % 8).toUInt8

/-- Bit `i` of a key for the indices the trie uses, all below 256. -/
def bit (key : Bytes32) (i : Nat) : Bool := (keyBit key (UInt16.ofNat i)).getD false

/-- `u8::leading_zeros`. -/
def leadingZeros (d : UInt8) : Nat := d.toBitVec.clz.toNat

/-- The loop of `firstDiffBit`, from byte `i` on. -/
def firstDiffFrom : Nat → List UInt8 → List UInt8 → Option UInt16
  | i, x :: xs, y :: ys =>
      let d := x ^^^ y
      if d ≠ 0 then some (UInt16.ofNat i * 8 + UInt16.ofNat (leadingZeros d))
      else firstDiffFrom (i + 1) xs ys
  | _, _, _ => none

/-- The first bit index on which two keys differ; `none` is the `unreachable!` on equal keys. -/
def firstDiffBit (a b : Bytes32) : Option UInt16 := firstDiffFrom 0 a.toList b.toList

theorem byteBit_eq (byte : UInt8) (n : Fin 8) :
    byteBit byte (UInt8.ofNat n) = byte.toNat.testBit (7 - n) := by
  have hall : ∀ x : Fin 256, ∀ n : Fin 8,
      byteBit (UInt8.ofNat x) (UInt8.ofNat n) = x.val.testBit (7 - n) := by decide +kernel
  simpa using hall ⟨byte.toNat, byte.toNat_lt⟩ n

theorem leadingZeros_spec {d : UInt8} (hd : d ≠ 0) : leadingZeros d < 8 ∧
    d.toNat.testBit (7 - leadingZeros d) = true ∧
      ∀ n, n < leadingZeros d → d.toNat.testBit (7 - n) = false := by
  have hall : ∀ x : Fin 256, x ≠ 0 → leadingZeros (UInt8.ofNat x) < 8 ∧
      x.val.testBit (7 - leadingZeros (UInt8.ofNat x)) = true ∧
        ∀ n : Fin 8, n < leadingZeros (UInt8.ofNat x) → x.val.testBit (7 - n) = false := by
    decide +kernel
  have hx : (⟨d.toNat, d.toNat_lt⟩ : Fin 256) ≠ 0 := by
    intro h
    exact hd (UInt8.toNat_inj.mp (by simpa using congrArg Fin.val h))
  obtain ⟨hlt, hone, hzero⟩ := hall _ hx
  simp only [UInt8.ofNat_toNat] at hlt hone hzero
  exact ⟨hlt, hone, fun n hn => hzero ⟨n, hn.trans hlt⟩ hn⟩

theorem keyBit_of_lt (key : Bytes32) {i : UInt16} (h : i.toNat < 256) :
    keyBit key i = some ((key[i.toNat / 8]).toNat.testBit (7 - i.toNat % 8)) := by
  have hdiv : (i / 8).toNat = i.toNat / 8 := by rw [UInt16.toNat_div]; rfl
  have hmod : (i % 8).toUInt8 = UInt8.ofNat (⟨i.toNat % 8, by omega⟩ : Fin 8) := by
    apply UInt8.toNat_inj.mp
    rw [UInt16.toNat_toUInt8, UInt16.toNat_mod, UInt8.toNat_ofNat']
    rfl
  rw [keyBit, hdiv, Vector.getElem?_eq_getElem (by omega), Option.map_some, hmod, byteBit_eq]

theorem keyBit_of_ge (key : Bytes32) {i : UInt16} (h : 256 ≤ i.toNat) : keyBit key i = none := by
  have hdiv : (i / 8).toNat = i.toNat / 8 := by rw [UInt16.toNat_div]; rfl
  rw [keyBit, hdiv, Vector.getElem?_eq_none (by omega), Option.map_none]

theorem toNat_ofNat_of_lt {i : Nat} (h : i < 256) : (UInt16.ofNat i).toNat = i := by
  rw [UInt16.toNat_ofNat', Nat.mod_eq_of_lt (by omega)]

theorem bit_of_lt (key : Bytes32) {i : Nat} (h : i < 256) :
    bit key i = (key[i / 8]).toNat.testBit (7 - i % 8) := by
  have hi := toNat_ofNat_of_lt h
  simp only [bit, keyBit_of_lt key (i := UInt16.ofNat i) (by omega), hi, Option.getD_some]

/-- Inside the key, the indexed bit is the trie's. -/
theorem keyBit_eq_bit (key : Bytes32) {i : Nat} (h : i < 256) :
    keyBit key (UInt16.ofNat i) = some (bit key i) := by
  have hi := toNat_ofNat_of_lt h
  simp only [bit_of_lt key h, keyBit_of_lt key (i := UInt16.ofNat i) (by omega), hi]

theorem byte_ext {x y : UInt8} (h : ∀ n < 8, x.toNat.testBit (7 - n) = y.toNat.testBit (7 - n)) : x = y := by
  apply UInt8.toNat_inj.mp
  apply Nat.eq_of_testBit_eq
  intro n
  by_cases hn : n < 8
  · have := h (7 - n) (by omega)
    rwa [show 7 - (7 - n) = n by omega] at this
  · have hpow : 2 ^ 8 ≤ 2 ^ n := Nat.pow_le_pow_right (by decide) (by omega)
    rw [Nat.testBit_lt_two_pow (x.toNat_lt.trans_le hpow), Nat.testBit_lt_two_pow (y.toNat_lt.trans_le hpow)]

/-- A key is determined by its 256 bits. -/
theorem separates_bit : Patricia.Separates bit 256 := by
  intro k k' h
  apply Vector.ext
  intro m hm
  apply byte_ext
  intro n hn
  have hbits := h (8 * m + n) (by omega)
  have hdiv : (8 * m + n) / 8 = m := by omega
  have hmod : (8 * m + n) % 8 = n := by omega
  rw [bit_of_lt k (by omega), bit_of_lt k' (by omega)] at hbits
  simpa only [hdiv, hmod] using hbits

theorem firstDiffFrom_spec {xs ys : List UInt8} (hlen : xs.length = ys.length) (hne : xs ≠ ys) (i : Nat) :
    ∃ m x y, xs[m]? = some x ∧ ys[m]? = some y ∧ x ≠ y ∧ xs.take m = ys.take m ∧
      firstDiffFrom i xs ys = some (UInt16.ofNat (8 * (i + m) + leadingZeros (x ^^^ y))) := by
  induction xs generalizing ys i with
  | nil =>
      have : ys = [] := List.eq_nil_of_length_eq_zero hlen.symm
      exact absurd this.symm hne
  | cons x xs ih =>
      cases ys with
      | nil => cases hlen
      | cons y ys =>
          by_cases hxy : x = y
          · subst y
            have htail : xs ≠ ys := fun h => hne (by rw [h])
            obtain ⟨m, x', y', hx, hy, hneq, htake, hfirst⟩ := ih (Nat.succ.inj hlen) htail (i + 1)
            refine ⟨m + 1, x', y', hx, hy, hneq, ?_, ?_⟩
            · rw [List.take_succ_cons, List.take_succ_cons, htake]
            · simp only [firstDiffFrom, UInt8.xor_self, ne_eq, not_true_eq_false, if_false, hfirst]
              congr 2
              omega
          · refine ⟨0, x, y, rfl, rfl, hxy, rfl, ?_⟩
            have hxor : x ^^^ y ≠ 0 := fun h => hxy (UInt8.xor_eq_zero_iff.mp h)
            simp only [firstDiffFrom, ne_eq, hxor, not_false_eq_true, if_true, Nat.add_zero,
              UInt16.ofNat_add, UInt16.ofNat_mul]
            rw [mul_comm]
            rfl

/-- Distinct keys have a first differing bit, and it is the one the source computes. -/
theorem firstDiffBit_spec {a b : Bytes32} (hne : a ≠ b) :
    ∃ j, j < 256 ∧ firstDiffBit a b = some (UInt16.ofNat j) ∧ (∀ i < j, bit a i = bit b i) ∧
      bit a j ≠ bit b j := by
  have hlist : a.toList ≠ b.toList := fun h => hne (Vector.toList_inj.mp h)
  obtain ⟨m, x, y, hx, hy, hxy, htake, hfirst⟩ :=
    firstDiffFrom_spec (by rw [Vector.length_toList, Vector.length_toList]) hlist 0
  obtain ⟨hm, hxm⟩ := List.getElem?_eq_some_iff.mp hx
  obtain ⟨hm', hym⟩ := List.getElem?_eq_some_iff.mp hy
  rw [Vector.length_toList] at hm
  rw [Vector.getElem_toList] at hxm hym
  have hxor : x ^^^ y ≠ 0 := fun h => hxy (UInt8.xor_eq_zero_iff.mp h)
  obtain ⟨hz, hone, hzero⟩ := leadingZeros_spec hxor
  rw [UInt8.toNat_xor] at hone hzero
  simp only [Nat.testBit_xor] at hone hzero
  set z := leadingZeros (x ^^^ y) with hzdef
  have hdiv : (8 * m + z) / 8 = m := by omega
  have hmod : (8 * m + z) % 8 = z := by omega
  refine ⟨8 * m + z, by omega, ?_, ?_, ?_⟩
  · rw [firstDiffBit, hfirst, Nat.zero_add]
  · intro i hi
    rw [bit_of_lt a (by omega), bit_of_lt b (by omega)]
    by_cases hbyte : i / 8 < m
    · have hsame : a[i / 8] = b[i / 8] := by
        have hget := congrArg (fun l : List UInt8 => l[i / 8]?) htake
        simp only [List.getElem?_take_of_lt hbyte] at hget
        rw [List.getElem?_eq_getElem (by rw [Vector.length_toList]; omega),
          List.getElem?_eq_getElem (by rw [Vector.length_toList]; omega)] at hget
        simpa only [Vector.getElem_toList, Option.some_inj] using hget
      rw [hsame]
    · have hsame : i / 8 = m := by omega
      have hbits := hzero (i % 8) (by omega)
      simp only [hsame, hxm, hym]
      simpa using hbits
  · rw [bit_of_lt a (by omega), bit_of_lt b (by omega)]
    simp only [hdiv, hmod, hxm, hym]
    simpa using hone

end LeanBbg
