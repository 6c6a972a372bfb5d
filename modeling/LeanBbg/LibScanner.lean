import LeanBbg.LibBytes

/-! Scanners that take bytes off the front of a string, and strings whose end was not written: a proper beginning of
an encoding with zeros behind it. What a scanner does on such a string is found part by part, since the string ends
inside one part, and the parts after it see zeros. -/

namespace LeanBbg.Bytes

/-- A scanner returns a value and the bytes after it, or an error. -/
def Scanner (ε α : Type) : Type := List UInt8 → Except ε (α × List UInt8)

variable {ε α β : Type}

namespace Scanner

def andThen (d : Scanner ε α) (f : α → Scanner ε β) : Scanner ε β := fun bytes =>
  match d bytes with
  | .error e => .error e
  | .ok (a, rest) => f a rest

instance : Monad (Scanner ε) where
  pure a := fun bytes => .ok (a, bytes)
  bind := andThen

def fail (e : ε) : Scanner ε α := fun _ => .error e

/-- The next `n` bytes, or the error for the end of the string. -/
def exact (eof : ε) (n : Nat) : Scanner ε (List UInt8) := fun bytes =>
  if n ≤ bytes.length then .ok (bytes.take n, bytes.drop n) else .error eof

/-- The next byte, or the error for the end of the string. -/
def byte (eof : ε) : Scanner ε UInt8
  | [] => .error eof
  | b :: bytes => .ok (b, bytes)

/-- A big-endian number of `n` bytes. -/
def number (eof : ε) (n : Nat) : Scanner ε Nat := do
  let bytes ← exact eof n
  pure (leValue bytes.reverse)

theorem bind_apply (d : Scanner ε α) (f : α → Scanner ε β) (bytes : List UInt8) :
    (d >>= f) bytes = match d bytes with
      | .error e => .error e
      | .ok (a, rest) => f a rest := rfl

/-! ### Reading an encoding back -/

/-- The scanner reads the value off its encoding, whatever is behind it. -/
def Reads (d : Scanner ε α) (bytes : List UInt8) (a : α) : Prop := ∀ rest, d (bytes ++ rest) = .ok (a, rest)

theorem reads_pure (a : α) : Reads (pure a : Scanner ε α) [] a := fun _ => rfl

theorem Reads.bind {d : Scanner ε α} {f : α → Scanner ε β} {bytes bytes' : List UInt8} {a : α} {b : β}
    (h : Reads d bytes a) (h' : Reads (f a) bytes' b) : Reads (d >>= f) (bytes ++ bytes') b := by
  intro rest
  rw [bind_apply, List.append_assoc, h]
  exact h' rest

theorem Reads.map {d : Scanner ε α} {bytes : List UInt8} {a : α} (h : Reads d bytes a) (f : α → β) :
    Reads (d >>= fun a => pure (f a)) bytes (f a) := by
  intro rest
  rw [bind_apply, h]
  rfl

theorem reads_byte (eof : ε) (b : UInt8) : Reads (byte eof) [b] b := fun _ => rfl

theorem reads_exact (eof : ε) (bytes : List UInt8) : Reads (exact eof bytes.length) bytes bytes := by
  intro rest
  rw [exact, if_pos (by rw [List.length_append]; omega), List.take_left, List.drop_left]

theorem reads_number (eof : ε) {n v : Nat} (hv : v < 256 ^ n) : Reads (number eof n) (leBytes n v).reverse v := by
  have h := (reads_exact eof (leBytes n v).reverse).map fun bytes => leValue bytes.reverse
  rw [List.length_reverse, leBytes_length, List.reverse_reverse, leValue_leBytes_of_lt hv] at h
  exact h

/-! ### What is behind a value is not looked at -/

/-- The scanner takes a front off the string and reads the same of it whatever is behind it. -/
def Local (d : Scanner ε α) : Prop :=
  ∀ bytes a rest, d bytes = .ok (a, rest) → ∃ front, bytes = front ++ rest ∧ Reads d front a

theorem local_pure (a : α) : Local (pure a : Scanner ε α) := by
  intro bytes a' rest h
  cases h
  exact ⟨[], rfl, reads_pure a⟩

theorem local_fail (e : ε) : Local (fail e : Scanner ε α) := by
  intro bytes a rest h
  cases h

theorem Local.bind {d : Scanner ε α} {f : α → Scanner ε β} (h : Local d) (hf : ∀ a, Local (f a)) : Local (d >>= f) := by
  intro bytes b rest hread
  rw [bind_apply] at hread
  cases hd : d bytes with
  | error e =>
      rw [hd] at hread
      cases hread
  | ok read =>
      rw [hd] at hread
      obtain ⟨a, middle⟩ := read
      obtain ⟨front, rfl, hreads⟩ := h bytes a middle hd
      obtain ⟨later, rfl, hreads'⟩ := hf a middle b rest hread
      exact ⟨front ++ later, (List.append_assoc _ _ _).symm, hreads.bind hreads'⟩

theorem local_byte (eof : ε) : Local (byte eof) := by
  intro bytes a rest h
  cases bytes with
  | nil => cases h
  | cons b bytes =>
      cases h
      exact ⟨[a], rfl, reads_byte eof a⟩

theorem local_exact (eof : ε) (n : Nat) : Local (exact eof n) := by
  intro bytes a rest h
  rw [exact] at h
  split_ifs at h with hle
  cases h
  refine ⟨bytes.take n, (List.take_append_drop n bytes).symm, ?_⟩
  have hreads := reads_exact eof (bytes.take n)
  rwa [List.length_take_of_le hle] at hreads

theorem local_number (eof : ε) (n : Nat) : Local (number eof n) := (local_exact eof n).bind fun _ => local_pure _

/-! ### Strings whose end was not written -/

def zeros (n : Nat) : List UInt8 := List.replicate n 0

/-- A result on a torn string: an error of the allowed kind, or a value of the allowed kind before zeros. -/
def Torn (Soft : ε → Prop) (P : α → Prop) : Except ε (α × List UInt8) → Prop
  | .error e => Soft e
  | .ok (a, rest) => P a ∧ ∃ n, rest = zeros n

variable {Soft : ε → Prop} {P Q : α → Prop} {R : β → Prop}

/-- The scanner stands any number of zeros. -/
def OnZeros (Soft : ε → Prop) (P : α → Prop) (d : Scanner ε α) : Prop := ∀ n, Torn Soft P (d (zeros n))

/-- The scanner stands every proper beginning of the encoding with zeros behind it. -/
def OnTorn (Soft : ε → Prop) (P : α → Prop) (d : Scanner ε α) (bytes : List UInt8) : Prop :=
  ∀ front n, front <+: bytes → front ≠ bytes → Torn Soft P (d (front ++ zeros n))

theorem Torn.bind {d : Scanner ε α} {f : α → Scanner ε β} {bytes : List UInt8} (h : Torn Soft P (d bytes))
    (hf : ∀ a, P a → OnZeros Soft R (f a)) : Torn Soft R ((d >>= f) bytes) := by
  rw [bind_apply]
  cases hread : d bytes with
  | error e =>
      rw [hread] at h
      exact h
  | ok r =>
      rw [hread] at h
      obtain ⟨a, rest⟩ := r
      obtain ⟨ha, n, rfl⟩ := h
      exact hf a ha n

theorem Torn.imp {x : Except ε (α × List UInt8)} (h : Torn Soft P x) (hPQ : ∀ a, P a → Q a) : Torn Soft Q x := by
  cases x with
  | error e => exact h
  | ok r => exact ⟨hPQ r.1 h.1, h.2⟩

theorem onZeros_pure {a : α} (ha : P a) : OnZeros Soft P (pure a : Scanner ε α) := fun n => ⟨ha, n, rfl⟩

theorem onZeros_fail {e : ε} (he : Soft e) : OnZeros Soft P (fail e : Scanner ε α) := fun _ => he

theorem OnZeros.bind {d : Scanner ε α} {f : α → Scanner ε β} (h : OnZeros Soft P d)
    (hf : ∀ a, P a → OnZeros Soft R (f a)) : OnZeros Soft R (d >>= f) := fun n => (h n).bind hf

/-- A proper beginning of two parts ends in the first or in the second. -/
theorem proper_append {front bytes bytes' : List UInt8} (h : front <+: bytes ++ bytes')
    (hne : front ≠ bytes ++ bytes') :
    (front <+: bytes ∧ front ≠ bytes) ∨ ∃ later, front = bytes ++ later ∧ later <+: bytes' ∧ later ≠ bytes' := by
  obtain ⟨rest, hrest⟩ := h
  rcases List.append_eq_append_iff.mp hrest with ⟨more, rfl, rfl⟩ | ⟨later, rfl, rfl⟩
  · by_cases hmore : more = []
    · subst hmore
      rw [List.append_nil] at hne ⊢
      exact .inr ⟨[], (List.append_nil _).symm, List.nil_prefix, fun h => hne (by rw [← h, List.append_nil])⟩
    · exact .inl ⟨List.prefix_append _ _, fun h => hmore (List.self_eq_append_right.mp h)⟩
  · exact .inr ⟨later, rfl, List.prefix_append _ _, fun h => hne (by rw [← h])⟩

/-- The string ends in the first part, and the second sees zeros, or it ends in the second part. -/
theorem OnTorn.bind {d : Scanner ε α} {f : α → Scanner ε β} {bytes bytes' : List UInt8} {a : α}
    (h : OnTorn Soft P d bytes) (hreads : Reads d bytes a) (hzeros : ∀ a, P a → OnZeros Soft R (f a))
    (hf : OnTorn Soft R (f a) bytes') : OnTorn Soft R (d >>= f) (bytes ++ bytes') := by
  intro front n hfront hne
  rcases proper_append hfront hne with ⟨hfront, hne⟩ | ⟨later, rfl, hlater, hne⟩
  · exact (h front n hfront hne).bind hzeros
  · rw [bind_apply, List.append_assoc, hreads]
    exact hf later n hlater hne

theorem onTorn_nil (d : Scanner ε α) : OnTorn Soft P d [] := by
  intro front n hfront hne
  exact absurd (List.prefix_nil.mp hfront) hne

theorem zeros_length (n : Nat) : (zeros n).length = n := List.length_replicate

theorem onZeros_byte {eof : ε} (heof : Soft eof) : OnZeros Soft (fun b => b = 0) (byte eof) := by
  intro n
  cases n with
  | zero => exact heof
  | succ n => exact ⟨rfl, n, rfl⟩

/-- A byte that was not written is read as zero. -/
theorem onTorn_byte {eof : ε} (heof : Soft eof) (b : UInt8) : OnTorn Soft (fun b => b = 0) (byte eof) [b] := by
  intro front n hfront hne
  rcases List.prefix_cons_iff.mp hfront with rfl | ⟨rest, rfl, hrest⟩
  · exact onZeros_byte heof n
  · exact absurd (by rw [List.prefix_nil.mp hrest]) hne

/-- Bytes are read off zeros as zeros, and off a torn string as its beginning and zeros. -/
theorem torn_exact {P : List UInt8 → Prop} {eof : ε} (heof : Soft eof) {n : Nat} {front : List UInt8}
    (hfront : front.length ≤ n) (m : Nat)
    (hP : ∀ k, front.length + k = n → P (front ++ zeros k)) : Torn Soft P (exact eof n (front ++ zeros m)) := by
  rw [exact, List.length_append, zeros_length]
  split_ifs with h
  · refine ⟨?_, m - (n - front.length), ?_⟩
    · rw [List.take_append, List.take_of_length_le hfront, zeros, List.take_replicate, min_eq_left (by omega)]
      exact hP _ (by omega)
    · rw [List.drop_append, List.drop_of_length_le hfront, zeros, List.drop_replicate, List.nil_append]
      rfl
  · exact heof

theorem onZeros_exact {eof : ε} (heof : Soft eof) (n : Nat) :
    OnZeros Soft (fun bytes => bytes = zeros n) (exact eof n) := by
  intro m
  have hnil : ([] : List UInt8).length ≤ n := Nat.zero_le n
  refine torn_exact heof hnil m fun k hk => ?_
  rw [List.nil_append, ← hk, List.length_nil, Nat.zero_add]

/-- What is read of bytes whose end was not written. -/
theorem onTorn_exact {eof : ε} (heof : Soft eof) (bytes : List UInt8) :
    OnTorn Soft (fun read => ∃ front k, read = front ++ zeros k ∧ front <+: bytes ∧ front ≠ bytes ∧
        read.length = bytes.length)
      (exact eof bytes.length) bytes := by
  intro front m hfront hne
  refine torn_exact heof hfront.length_le m fun k hk => ⟨front, k, rfl, hfront, hne, ?_⟩
  rw [List.length_append, zeros_length, hk]

theorem onZeros_number {eof : ε} (heof : Soft eof) (n : Nat) : OnZeros Soft (fun _ => True) (number eof n) :=
  (onZeros_exact heof n).bind fun _ _ => onZeros_pure trivial

theorem onTorn_number {eof : ε} (heof : Soft eof) (n v : Nat) :
    OnTorn Soft (fun _ => True) (number eof n) (leBytes n v).reverse := by
  have hlen : (leBytes n v).reverse.length = n := by rw [List.length_reverse, leBytes_length]
  intro front m hfront hne
  have h := onTorn_exact heof (leBytes n v).reverse front m hfront hne
  rw [hlen] at h
  exact h.bind fun _ _ => onZeros_pure trivial

end Scanner

end LeanBbg.Bytes
