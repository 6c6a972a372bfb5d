import Mathlib

/-! Little-endian byte strings of natural numbers: fixed-width encoding, its value, and that the two
are inverse below the width. -/

namespace LeanBbg.Bytes

/-- The `n` low bytes of `v`, least significant first. -/
def leBytes : Nat → Nat → List UInt8
  | 0, _ => []
  | n + 1, v => UInt8.ofNat v :: leBytes n (v / 256)

/-- The number a little-endian byte string stands for. -/
def leValue : List UInt8 → Nat
  | [] => 0
  | b :: bs => b.toNat + 256 * leValue bs

@[simp] theorem leBytes_length (n v : Nat) : (leBytes n v).length = n := by
  induction n generalizing v with
  | zero => rfl
  | succ n ih => rw [leBytes, List.length_cons, ih]

theorem leValue_leBytes (n v : Nat) : leValue (leBytes n v) = v % 256 ^ n := by
  induction n generalizing v with
  | zero => simp [leBytes, leValue, Nat.mod_one]
  | succ n ih =>
      have hsplit : v % (256 * 256 ^ n) = v % 256 + 256 * (v / 256 % 256 ^ n) := Nat.mod_mul
      have hbyte : (UInt8.ofNat v).toNat = v % 256 := UInt8.toNat_ofNat'
      rw [leBytes, leValue, ih, hbyte, Nat.pow_succ' (m := 256), hsplit]

theorem leValue_leBytes_of_lt {n v : Nat} (h : v < 256 ^ n) : leValue (leBytes n v) = v := by
  rw [leValue_leBytes, Nat.mod_eq_of_lt h]

theorem leBytes_leValue (bs : List UInt8) : leBytes bs.length (leValue bs) = bs := by
  induction bs with
  | nil => rfl
  | cons b bs ih =>
      have hlt := b.toNat_lt
      rw [List.length_cons, leBytes, leValue]
      congr 1
      · apply UInt8.toNat_inj.mp
        rw [UInt8.toNat_ofNat', Nat.add_mul_mod_self_left, Nat.mod_eq_of_lt hlt]
      · rw [show (b.toNat + 256 * leValue bs) / 256 = leValue bs by omega]
        exact ih

theorem leValue_lt (bs : List UInt8) : leValue bs < 256 ^ bs.length := by
  induction bs with
  | nil => simp [leValue]
  | cons b bs ih =>
      have hlt := b.toNat_lt
      rw [leValue, List.length_cons, Nat.pow_succ']
      omega

theorem leValue_injective {bs bs' : List UInt8} (hlen : bs.length = bs'.length)
    (h : leValue bs = leValue bs') : bs = bs' := by
  rw [← leBytes_leValue bs, ← leBytes_leValue bs', hlen, h]

theorem leBytes_injective {n v v' : Nat} (hv : v < 256 ^ n) (hv' : v' < 256 ^ n)
    (h : leBytes n v = leBytes n v') : v = v' := by
  rw [← leValue_leBytes_of_lt hv, ← leValue_leBytes_of_lt hv', h]

/-- A list is determined by the concatenation of its elements' encodings, all of one positive length. -/
theorem flatMap_injective {α β : Type} {f : α → List β} {n : Nat} (hn : 0 < n) (hlen : ∀ a, (f a).length = n)
    (hinj : Function.Injective f) {l l' : List α} (h : l.flatMap f = l'.flatMap f) : l = l' := by
  have hne : ∀ a l, (f a ++ List.flatMap f l) ≠ [] := by
    intro a l hnil
    have hzero := congrArg List.length (List.append_eq_nil_iff.mp hnil).1
    rw [hlen, List.length_nil] at hzero
    omega
  induction l generalizing l' with
  | nil =>
      cases l' with
      | nil => rfl
      | cons a' l' => exact absurd h.symm (hne a' l')
  | cons a l ih =>
      cases l' with
      | nil => exact absurd h (hne a l)
      | cons a' l' =>
          obtain ⟨hhead, htail⟩ := List.append_inj h (by rw [hlen, hlen])
          rw [hinj hhead, ih htail]

end LeanBbg.Bytes
