import LeanBbg.Goldilocks

/-! The numbers below the modulus with a rolling hash of the message, for witnesses that need a hash without
collisions among a few messages. -/

namespace LeanBbg

open Bytes

def Rolling := Fin P

namespace Rolling

instance : DecidableEq Rolling := inferInstanceAs (DecidableEq (Fin P))

/-- Seven bytes of a number, as a canonical limb. -/
def limb (n : Nat) : List UInt8 := leBytes 7 n ++ [0]

theorem limb_length (n : Nat) : (limb n).length = 8 := by
  rw [limb, List.length_append, leBytes_length]
  rfl

/-- The message as a number in base 257, spread over the limbs. -/
def hash (message : List UInt8) : Bytes32 :=
  let n := message.foldl (fun n byte => n * 257 + byte.toNat + 1) 0
  ⟨(limb n ++ (limb (n / 256 ^ 7) ++ (limb (n / 256 ^ 14) ++ limb (n / 256 ^ 21)))).toArray, by
    simp [limb_length]⟩

theorem limb_lt (n : Nat) : leValue (limb n) < P := by
  have happend : ∀ bs : List UInt8, leValue (bs ++ [0]) = leValue bs := by
    intro bs
    induction bs with
    | nil => rfl
    | cons b bs ih => rw [List.cons_append, leValue, ih, leValue]
  have hlt := leValue_lt (leBytes 7 n)
  rw [leBytes_length] at hlt
  rw [limb, happend]
  exact hlt.trans (by decide)

theorem hash_canonical (message : List UInt8) : CanonicalDigest (hash message) := by
  intro i hi
  obtain ⟨m, hm⟩ : ∃ m, ((hash message).toList.drop (8 * i)).take 8 = limb m := by
    have hlist : (hash message).toList = _ := Vector.toList_mk
    rw [hlist]
    generalize message.foldl (fun n byte => n * 257 + byte.toNat + 1) 0 = n
    interval_cases i
    · exact ⟨n, List.take_left' (limb_length _)⟩
    · refine ⟨n / 256 ^ 7, ?_⟩
      rw [List.drop_left' (limb_length _)]
      exact List.take_left' (limb_length _)
    · refine ⟨n / 256 ^ 14, ?_⟩
      rw [← List.drop_drop (i := 8) (j := 8), List.drop_left' (limb_length _), List.drop_left' (limb_length _)]
      exact List.take_left' (limb_length _)
    · refine ⟨n / 256 ^ 21, ?_⟩
      rw [← List.drop_drop (i := 16) (j := 8), ← List.drop_drop (i := 8) (j := 8), List.drop_left' (limb_length _),
        List.drop_left' (limb_length _), List.drop_left' (limb_length _)]
      exact List.take_of_length_le (le_of_eq (limb_length _))
  rw [limbValue, hm]
  exact limb_lt m

instance : Hemera Rolling where
  new v := (⟨v.toNat % P, toNat_mod_lt v⟩ : Fin P)
  asU64 v := UInt64.ofNat (Fin.val (n := P) v)
  permute := id
  hash := hash
  hash_canonical := hash_canonical

instance : Brakedown Rolling where
  commit _ := Vector.replicate 32 0
  commit_canonical _ := by
    unfold CanonicalDigest
    decide

instance : NebuRoundTrip Rolling where
  new_asU64 v := by
    have hlt : Fin.val (n := P) v < P := Fin.isLt (n := P) v
    have hP : P < 2 ^ 64 := by decide
    apply Fin.ext
    change (UInt64.ofNat (Fin.val (n := P) v)).toNat % P = Fin.val (n := P) v
    rw [UInt64.toNat_ofNat', Nat.mod_eq_of_lt (hlt.trans hP), Nat.mod_eq_of_lt hlt]

end Rolling

end LeanBbg
