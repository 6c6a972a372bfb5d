import LeanBbg.NativeRecords

/-! The numbers below the modulus as field elements, with constant hash and commitment, for results that
need no symbolic compression. -/

namespace LeanBbg

def Goldilocks := Fin P

namespace Goldilocks

instance : DecidableEq Goldilocks := inferInstanceAs (DecidableEq (Fin P))

instance : Hemera Goldilocks where
  new v := (⟨v.toNat % P, toNat_mod_lt v⟩ : Fin P)
  asU64 v := UInt64.ofNat (Fin.val (n := P) v)
  permute := id
  hash _ := Vector.replicate 32 0
  hash_canonical := canonicalDigest_zero

instance : Brakedown Goldilocks where
  commit _ := Vector.replicate 32 0
  commit_canonical _ := Hemera.hash_canonical (F := Goldilocks) []

instance : NebuRoundTrip Goldilocks where
  new_asU64 v := by
    have hlt : Fin.val (n := P) v < P := Fin.isLt (n := P) v
    have hP : P < 2 ^ 64 := by decide
    apply Fin.ext
    change (UInt64.ofNat (Fin.val (n := P) v)).toNat % P = Fin.val (n := P) v
    rw [UInt64.toNat_ofNat', Nat.mod_eq_of_lt (hlt.trans hP), Nat.mod_eq_of_lt hlt]

end Goldilocks

end LeanBbg
