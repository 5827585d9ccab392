import SqliteGraph.Lib.Bytes

/-! The exclusive or of a byte string, and byte strings with one byte changed. -/
namespace SqliteGraph.Lib

def byteXor : Bytes → UInt8
  | [] => 0
  | b :: bs => b ^^^ byteXor bs

variable {bs : Bytes} {off n i : Nat} {b : UInt8}

@[simp] theorem byteXor_nil : byteXor [] = 0 := rfl

@[simp] theorem byteXor_cons (b : UInt8) (bs : Bytes) :
    byteXor (b :: bs) = b ^^^ byteXor bs := rfl

@[simp] theorem byteXor_append (as bs : Bytes) :
    byteXor (as ++ bs) = byteXor as ^^^ byteXor bs := by
  induction as with
  | nil => simp
  | cons a as ih => rw [List.cons_append, byteXor_cons, ih, byteXor_cons, UInt8.xor_assoc]

@[simp] theorem byteXor_replicate_zero (n : Nat) : byteXor (List.replicate n 0) = 0 := by
  induction n with
  | zero => rfl
  | succ n ih => simp [List.replicate_succ, ih]

theorem byteXor_set (h : i < bs.length) : byteXor (bs.set i b) = byteXor bs ^^^ (bs[i] ^^^ b) := by
  induction bs generalizing i with
  | nil => exact absurd h (Nat.not_lt_zero i)
  | cons a bs ih =>
    cases i with
    | zero =>
      rw [List.set_cons_zero, byteXor_cons, byteXor_cons, List.getElem_cons_zero]
      rw [UInt8.xor_comm a, UInt8.xor_assoc, ← UInt8.xor_assoc a, UInt8.xor_self, UInt8.zero_xor,
        UInt8.xor_comm]
    | succ i =>
      have hi : i < bs.length := Nat.lt_of_succ_lt_succ h
      rw [List.set_cons_succ, byteXor_cons, byteXor_cons, ih hi, UInt8.xor_assoc,
        List.getElem_cons_succ]

/-- A change elsewhere does not show in the slice. -/
theorem slice_set_of_not_mem (h : i < off ∨ off + n ≤ i) :
    slice (bs.set i b) off n = slice bs off n := by
  rw [slice, slice, List.drop_set]
  split
  · rfl
  · rw [List.take_set, List.set_eq_of_length_le]
    rw [List.length_take]
    omega

theorem slice_set_of_mem (h₁ : off ≤ i) :
    slice (bs.set i b) off n = (slice bs off n).set (i - off) b := by
  rw [slice, slice, List.drop_set, if_neg (by omega), List.take_set]

theorem byteXor_slice_set (h₁ : off ≤ i) (h₂ : i < off + n) (hi : i < bs.length) :
    byteXor (slice (bs.set i b) off n) = byteXor (slice bs off n) ^^^ (bs[i] ^^^ b) := by
  have hlen : i - off < (slice bs off n).length := by
    rw [slice, List.length_take, List.length_drop]
    omega
  have hget : (slice bs off n)[i - off] = bs[i] := by
    simp only [slice, List.getElem_take, List.getElem_drop]
    congr 1
    omega
  rw [slice_set_of_mem h₁, byteXor_set hlen, hget]

theorem byteXor_slice_set_ne (h₁ : off ≤ i) (h₂ : i < off + n) (hi : i < bs.length)
    (hb : bs[i] ≠ b) : byteXor (slice (bs.set i b) off n) ≠ byteXor (slice bs off n) := by
  rw [byteXor_slice_set h₁ h₂ hi]
  intro h
  have hzero : byteXor (slice bs off n) ^^^ (bs[i] ^^^ b) = byteXor (slice bs off n) ^^^ 0 := by
    rw [h, UInt8.xor_zero]
  exact hb (UInt8.xor_eq_zero_iff.mp (UInt8.xor_right_inj _ |>.mp hzero))

theorem slice_one (h : i < bs.length) : slice bs i 1 = [bs[i]] := by
  rw [slice, List.drop_eq_getElem_cons h]
  rfl

theorem slice_two (h : i + 1 < bs.length) : slice bs i 2 = [bs[i], bs[i + 1]] := by
  rw [slice, List.drop_eq_getElem_cons (Nat.lt_of_succ_lt h), List.drop_eq_getElem_cons h]
  rfl

theorem slice_add (bs : Bytes) (off m n : Nat) :
    slice bs off (m + n) = slice bs off m ++ slice bs (off + m) n := by
  rw [slice, slice, slice, ← List.drop_drop, List.take_add]

end SqliteGraph.Lib
