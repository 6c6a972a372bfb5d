import Mathlib

/-! Decoders with a cursor into a byte string. Every read is bounded by the string and moves the cursor; the
arithmetic of the cursor and the reservations for counted records are watched, and go wrong as a fault. A
decoder is judged by three properties: it has no fault on any string, a longer string does not change what it
reads, and it reads back a given encoding wherever that stands. -/

namespace LeanBbg.Decode

inductive Fault where
  | indexOverflow
  | overReserved
  deriving DecidableEq

/-- A decoder reads from a string at a cursor. It may fault, reject, or return a value and the next cursor. -/
def Decoder (α : Type) : Type := List UInt8 → Nat → Except Fault (Option (α × Nat))

variable {α β : Type}

namespace Decoder

/-- The second decoder goes on at the cursor of the first, if that returns. -/
def andThen (d : Decoder α) (f : α → Decoder β) : Decoder β := fun buf p =>
  match d buf p with
  | .error e => .error e
  | .ok none => .ok none
  | .ok (some (a, q)) => f a buf q

instance : Monad Decoder where
  pure a := fun _ p => .ok (some (a, p))
  bind := andThen

/-- The next `n` bytes, if the string has them. The end of the range is an index of 64 bits. -/
def take (n : Nat) : Decoder (List UInt8) := fun buf p =>
  if 2 ^ 64 ≤ p + n then .error .indexOverflow
  else if p + n ≤ buf.length then .ok (some ((buf.drop p).take n, p + n))
  else .ok none

/-- Bytes as an array of a fixed length. -/
def toVector (n : Nat) (bytes : List UInt8) : Decoder (Vector UInt8 n) := fun _ p =>
  if h : bytes.length = n then .ok (some (⟨bytes.toArray, by simpa using h⟩, p)) else .ok none

def takeVector (n : Nat) : Decoder (Vector UInt8 n) := do
  let bytes ← take n
  toVector n bytes

/-- Reject a count of records of at least `size` bytes that do not fit in the rest, then reserve room for them. -/
def withCapacity (count size : Nat) : Decoder Unit := fun buf p =>
  if (buf.length - p) / size < count then .ok none
  else if buf.length - p < count * size then .error .overReserved
  else .ok (some ((), p))

/-- A number of records, one after the other. -/
def many (d : Decoder α) : Nat → Decoder (List α)
  | 0 => pure []
  | n + 1 => do
      let a ← d
      let l ← many d n
      pure (a :: l)

/-- A counted list of records of at least `size` bytes. -/
def records (size : Nat) (d : Decoder α) (count : Nat) : Decoder (List α) := do
  withCapacity count size
  many d count

theorem pure_apply (a : α) (buf : List UInt8) (p : Nat) : (pure a : Decoder α) buf p = .ok (some (a, p)) := rfl

theorem bind_of_ok {d : Decoder α} {f : α → Decoder β} {buf : List UInt8} {p q : Nat} {a : α}
    (h : d buf p = .ok (some (a, q))) : (d >>= f) buf p = f a buf q := by
  change andThen d f buf p = _
  rw [andThen, h]

/-- A sequence ends in what its first part faults or rejects with, or in its second part. -/
theorem bind_cases (d : Decoder α) (f : α → Decoder β) (buf : List UInt8) (p : Nat) :
    (∃ e, d buf p = .error e ∧ (d >>= f) buf p = .error e) ∨
      (d buf p = .ok none ∧ (d >>= f) buf p = .ok none) ∨
      ∃ a q, d buf p = .ok (some (a, q)) ∧ (d >>= f) buf p = f a buf q := by
  cases hd : d buf p with
  | error e =>
      refine .inl ⟨e, rfl, ?_⟩
      change andThen d f buf p = _
      rw [andThen, hd]
  | ok r =>
      cases r with
      | none =>
          refine .inr (.inl ⟨rfl, ?_⟩)
          change andThen d f buf p = _
          rw [andThen, hd]
      | some r => exact .inr (.inr ⟨r.1, r.2, rfl, bind_of_ok hd⟩)

theorem exists_of_bind {d : Decoder α} {f : α → Decoder β} {buf : List UInt8} {p : Nat} {r : β × Nat}
    (h : (d >>= f) buf p = .ok (some r)) : ∃ a q, d buf p = .ok (some (a, q)) ∧ f a buf q = .ok (some r) := by
  rcases bind_cases d f buf p with ⟨e, -, hbind⟩ | ⟨-, hbind⟩ | ⟨a, q, hd, hbind⟩
  · cases hbind.symm.trans h
  · cases hbind.symm.trans h
  · exact ⟨a, q, hd, hbind.symm.trans h⟩

/-! ### The cursor moves forward, and a longer string reads the same -/

/-- The cursor moves forward within the string, and bytes after the string do not change a result. -/
def Local (d : Decoder α) : Prop :=
  ∀ (buf t : List UInt8) (p : Nat) (a : α) (q : Nat), p ≤ buf.length → d buf p = .ok (some (a, q)) →
    p ≤ q ∧ q ≤ buf.length ∧ d (buf ++ t) p = .ok (some (a, q))

theorem local_pure (a : α) : Local (pure a : Decoder α) := by
  intro buf t p a' q hp h
  obtain ⟨rfl, rfl⟩ := Prod.mk.inj (Option.some_inj.mp (Except.ok.inj h))
  exact ⟨le_refl _, hp, rfl⟩

theorem Local.bind {d : Decoder α} {f : α → Decoder β} (hd : Local d) (hf : ∀ a, Local (f a)) : Local (d >>= f) := by
  intro buf t p b r hp h
  obtain ⟨a, q, hread, hrest⟩ := exists_of_bind h
  obtain ⟨hpq, hq, hlong⟩ := hd buf t p a q hp hread
  obtain ⟨hqr, hr, hlong'⟩ := hf a buf t q b r hq hrest
  exact ⟨hpq.trans hqr, hr, (bind_of_ok hlong).trans hlong'⟩

theorem local_take (n : Nat) : Local (take n) := by
  intro buf t p bytes q hp h
  rw [take] at h
  split_ifs at h with hover hfits
  · obtain ⟨rfl, rfl⟩ := Prod.mk.inj (Option.some_inj.mp (Except.ok.inj h))
    refine ⟨Nat.le_add_right _ _, hfits, ?_⟩
    have hlong : p + n ≤ (buf ++ t).length := by
      rw [List.length_append]
      omega
    rw [take, if_neg hover, if_pos hlong, List.drop_append_of_le_length hp,
      List.take_append_of_le_length (by rw [List.length_drop]; omega)]
  · cases h

theorem local_toVector (n : Nat) (bytes : List UInt8) : Local (toVector n bytes) := by
  intro buf t p a q hp h
  rw [toVector] at h
  split_ifs at h with hlen
  · obtain ⟨rfl, rfl⟩ := Prod.mk.inj (Option.some_inj.mp (Except.ok.inj h))
    refine ⟨le_refl _, hp, ?_⟩
    rw [toVector, dif_pos hlen]
  · cases h

theorem local_takeVector (n : Nat) : Local (takeVector n) := (local_take n).bind (local_toVector n)

theorem local_withCapacity (count size : Nat) : Local (withCapacity count size) := by
  intro buf t p a q hp h
  rw [withCapacity] at h
  split_ifs at h with hcount hroom
  · cases h
  · obtain ⟨-, rfl⟩ := Prod.mk.inj (Option.some_inj.mp (Except.ok.inj h))
    have hmono : buf.length - p ≤ (buf ++ t).length - p := by
      rw [List.length_append]
      omega
    refine ⟨le_refl _, hp, ?_⟩
    rw [withCapacity, if_neg, if_neg]
    · omega
    · have := Nat.div_le_div_right (c := size) hmono
      omega

theorem Local.many {d : Decoder α} (hd : Local d) (n : Nat) : Local (many d n) := by
  induction n with
  | zero => exact local_pure []
  | succ n ih => exact hd.bind fun a => ih.bind fun l => local_pure (a :: l)

theorem Local.records {d : Decoder α} (hd : Local d) (size count : Nat) : Local (records size d count) :=
  (local_withCapacity count size).bind fun _ => hd.many count

/-! ### No fault -/

/-- No fault on any string that fits in memory, from any cursor within it. -/
def Safe (d : Decoder α) : Prop :=
  ∀ (buf : List UInt8) (p : Nat), buf.length < 2 ^ 63 → p ≤ buf.length → ∃ r, d buf p = .ok r

theorem safe_pure (a : α) : Safe (pure a : Decoder α) := fun _ _ _ _ => ⟨_, rfl⟩

theorem Safe.bind {d : Decoder α} {f : α → Decoder β} (hd : Safe d) (hlocal : Local d) (hf : ∀ a, Safe (f a)) :
    Safe (d >>= f) := by
  intro buf p hbuf hp
  rcases bind_cases d f buf p with ⟨e, hread, -⟩ | ⟨-, hbind⟩ | ⟨a, q, hread, hbind⟩
  · obtain ⟨r, hr⟩ := hd buf p hbuf hp
    cases hread.symm.trans hr
  · exact ⟨_, hbind⟩
  · obtain ⟨r, hr⟩ := hf a buf q hbuf (hlocal buf [] p a q hp hread).2.1
    exact ⟨r, hbind.trans hr⟩

theorem safe_take {n : Nat} (hn : n < 2 ^ 63) : Safe (take n) := by
  intro buf p hbuf hp
  rw [take, if_neg (by omega)]
  split_ifs
  · exact ⟨_, rfl⟩
  · exact ⟨_, rfl⟩

theorem safe_toVector (n : Nat) (bytes : List UInt8) : Safe (toVector n bytes) := by
  intro buf p _ _
  rw [toVector]
  split_ifs
  · exact ⟨_, rfl⟩
  · exact ⟨_, rfl⟩

theorem safe_takeVector {n : Nat} (hn : n < 2 ^ 63) : Safe (takeVector n) :=
  (safe_take hn).bind (local_take n) (safe_toVector n)

/-- What is not rejected fits in the rest of the string. -/
theorem safe_withCapacity (count : Nat) {size : Nat} (hsize : 0 < size) : Safe (withCapacity count size) := by
  intro buf p _ _
  rw [withCapacity]
  split_ifs with hcount hroom
  · exact ⟨_, rfl⟩
  · exact absurd ((Nat.le_div_iff_mul_le hsize).mp (not_lt.mp hcount)) (not_le.mpr hroom)
  · exact ⟨_, rfl⟩

theorem Safe.many {d : Decoder α} (hd : Safe d) (hlocal : Local d) (n : Nat) : Safe (many d n) := by
  induction n with
  | zero => exact safe_pure []
  | succ n ih => exact hd.bind hlocal fun a => ih.bind (hlocal.many n) fun l => safe_pure (a :: l)

theorem Safe.records {d : Decoder α} (hd : Safe d) (hlocal : Local d) {size : Nat} (hsize : 0 < size) (count : Nat) :
    Safe (records size d count) :=
  (safe_withCapacity count hsize).bind (local_withCapacity count size) fun _ => hd.many hlocal count

/-! ### Encodings are read back -/

/-- The decoder reads the bytes as the value and stops after them, wherever they stand. -/
def Reads (d : Decoder α) (bytes : List UInt8) (a : α) : Prop :=
  ∀ before after : List UInt8, (before ++ bytes).length < 2 ^ 64 →
    d (before ++ (bytes ++ after)) before.length = .ok (some (a, (before ++ bytes).length))

theorem reads_pure (a : α) : Reads (pure a : Decoder α) [] a := by
  intro before after _
  rw [List.append_nil]
  rfl

theorem Reads.bind {d : Decoder α} {f : α → Decoder β} {bytes bytes' : List UInt8} {a : α} {b : β}
    (hd : Reads d bytes a) (hf : Reads (f a) bytes' b) : Reads (d >>= f) (bytes ++ bytes') b := by
  intro before after hlen
  rw [← List.append_assoc] at hlen
  have hfirst := hd before (bytes' ++ after) (by rw [List.length_append] at hlen; omega)
  have hsecond := hf (before ++ bytes) after hlen
  rw [List.append_assoc before bytes] at hsecond
  rw [List.append_assoc bytes, bind_of_ok hfirst, hsecond, List.append_assoc]

/-- A last step that reads nothing. -/
theorem Reads.map {d : Decoder α} {bytes : List UInt8} {a : α} (hd : Reads d bytes a) (f : α → β) :
    Reads (d >>= fun a => pure (f a)) bytes (f a) := by
  have h := Reads.bind (f := fun a => pure (f a)) hd (reads_pure (f a))
  rwa [List.append_nil] at h

theorem reads_take (bytes : List UInt8) : Reads (take bytes.length) bytes bytes := by
  intro before after hlen
  rw [List.length_append] at hlen
  rw [take, if_neg (by omega), if_pos (by simp), List.drop_left, List.take_left, List.length_append]

theorem reads_takeVector {n : Nat} (v : Vector UInt8 n) : Reads (takeVector n) v.toList v := by
  have hlen : v.toList.length = n := by simp
  have hvector : Reads (toVector n v.toList) [] v := by
    intro before after _
    rw [toVector, dif_pos hlen, List.append_nil]
    have hself : (⟨v.toList.toArray, by simp⟩ : Vector UInt8 n) = v := Vector.toList_inj.mp rfl
    rw [hself]
  have h := (hlen ▸ reads_take v.toList).bind hvector
  rwa [List.append_nil] at h

theorem Reads.many {d : Decoder α} {encode : α → List UInt8} {l : List α} (hd : ∀ a ∈ l, Reads d (encode a) a) :
    Reads (many d l.length) (l.flatMap encode) l := by
  induction l with
  | nil => exact reads_pure []
  | cons a l ih =>
      rw [List.flatMap_cons]
      refine (hd a List.mem_cons_self).bind ?_
      exact (ih fun a' ha => hd a' (List.mem_cons_of_mem _ ha)).map (a :: ·)

theorem length_flatMap_ge {encode : α → List UInt8} {size : Nat} {l : List α} (h : ∀ a ∈ l, size ≤ (encode a).length) :
    l.length * size ≤ (l.flatMap encode).length := by
  rw [List.length_flatMap]
  have hsum := List.card_nsmul_le_sum (l.map fun a => (encode a).length) size fun n hn => by
    obtain ⟨a, ha, rfl⟩ := List.mem_map.mp hn
    exact h a ha
  rwa [List.length_map, smul_eq_mul] at hsum

theorem length_flatMap_le {encode : α → List UInt8} {size : Nat} {l : List α} (h : ∀ a ∈ l, (encode a).length ≤ size) :
    (l.flatMap encode).length ≤ l.length * size := by
  rw [List.length_flatMap]
  have hsum := List.sum_le_card_nsmul (l.map fun a => (encode a).length) size fun n hn => by
    obtain ⟨a, ha, rfl⟩ := List.mem_map.mp hn
    exact h a ha
  rwa [List.length_map, smul_eq_mul] at hsum

/-- A counted list is not rejected, for its records are there. -/
theorem Reads.records {d : Decoder α} {encode : α → List UInt8} {l : List α} (hd : ∀ a ∈ l, Reads d (encode a) a)
    {size : Nat} (hsize : 0 < size) (hmin : ∀ a ∈ l, size ≤ (encode a).length) :
    Reads (records size d l.length) (l.flatMap encode) l := by
  intro before after hlen
  have hbytes := length_flatMap_ge hmin
  have hrest : l.length * size ≤ (before ++ (l.flatMap encode ++ after)).length - before.length := by
    rw [List.length_append, List.length_append]
    omega
  have hcapacity : withCapacity l.length size (before ++ (l.flatMap encode ++ after)) before.length =
      .ok (some ((), before.length)) := by
    rw [withCapacity, if_neg (not_lt.mpr ((Nat.le_div_iff_mul_le hsize).mpr hrest)), if_neg (not_lt.mpr hrest)]
  rw [Decoder.records, bind_of_ok hcapacity]
  exact Reads.many hd before after hlen

/-- Every strict prefix of an encoding is rejected. -/
theorem Reads.reject {d : Decoder α} {bytes : List UInt8} {a : α} (hd : Reads d bytes a) (hlocal : Local d)
    (hsafe : Safe d) (hlen : bytes.length < 2 ^ 63) {short : List UInt8} (hshort : short <+: bytes)
    (hne : short ≠ bytes) : d short 0 = .ok none := by
  obtain ⟨t, rfl⟩ := hshort
  rw [List.length_append] at hlen
  obtain ⟨r, hr⟩ := hsafe short 0 (by omega) (Nat.zero_le _)
  cases r with
  | none => exact hr
  | some r =>
      obtain ⟨-, hend, hlong⟩ := hlocal short t 0 r.1 r.2 (Nat.zero_le _) hr
      have hfull := hd [] [] (by simp; omega)
      rw [List.append_nil, List.nil_append] at hfull
      obtain ⟨-, hcursor⟩ := Prod.mk.inj (Option.some_inj.mp (Except.ok.inj (hlong.symm.trans hfull)))
      rw [hcursor, List.length_append] at hend
      have ht : t = [] := List.length_eq_zero_iff.mp (by omega)
      rw [ht, List.append_nil] at hne
      exact absurd rfl hne

end Decoder

end LeanBbg.Decode
