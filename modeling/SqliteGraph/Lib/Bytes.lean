import Mathlib

/-! Fixed-width integers as bytes, and reading a byte string field by field. -/
namespace SqliteGraph.Lib

abbrev Bytes : Type := List UInt8

/-- `to_le_bytes` at width `n`. -/
def leBytes : Nat → Nat → Bytes
  | 0, _ => []
  | n + 1, v => UInt8.ofNat v :: leBytes n (v / 256)

/-- `from_le_bytes`. -/
def leNat : Bytes → Nat
  | [] => 0
  | b :: bs => b.toNat + 256 * leNat bs

def beBytes (n v : Nat) : Bytes := (leBytes n v).reverse
def beNat (bs : Bytes) : Nat := leNat bs.reverse

/-- `&bytes[off..off + n]`, short when the bytes are. -/
def slice (bs : Bytes) (off n : Nat) : Bytes := (bs.drop off).take n

variable {n v off : Nat} {bs x rest : Bytes}

@[simp] theorem length_leBytes : (leBytes n v).length = n := by
  induction n generalizing v with
  | zero => rfl
  | succ n ih => simp [leBytes, ih]

@[simp] theorem length_beBytes : (beBytes n v).length = n := by simp [beBytes]

theorem leNat_leBytes_mod : leNat (leBytes n v) = v % 256 ^ n := by
  induction n generalizing v with
  | zero => simp [leBytes, leNat, Nat.mod_one]
  | succ n ih =>
    rw [leBytes, leNat, ih, UInt8.toNat_ofNat', pow_succ' 256 n, Nat.mod_mul]

theorem leNat_leBytes (h : v < 256 ^ n) : leNat (leBytes n v) = v := by
  rw [leNat_leBytes_mod, Nat.mod_eq_of_lt h]

theorem beNat_beBytes_mod : beNat (beBytes n v) = v % 256 ^ n := by
  rw [beNat, beBytes, List.reverse_reverse, leNat_leBytes_mod]

theorem beNat_beBytes (h : v < 256 ^ n) : beNat (beBytes n v) = v := by
  rw [beNat_beBytes_mod, Nat.mod_eq_of_lt h]

theorem leNat_lt : leNat bs < 256 ^ bs.length := by
  induction bs with
  | nil => simp [leNat]
  | cons b bs ih =>
    have := b.toNat_lt
    simp only [leNat, List.length_cons, pow_succ]
    omega

theorem leBytes_leNat : leBytes bs.length (leNat bs) = bs := by
  induction bs with
  | nil => rfl
  | cons b bs ih =>
    have hb := b.toNat_lt
    have hlow : UInt8.ofNat (leNat (b :: bs)) = b := by
      apply UInt8.toNat.inj
      rw [UInt8.toNat_ofNat', leNat]
      omega
    have hhigh : leNat (b :: bs) / 256 = leNat bs := by
      rw [leNat]
      omega
    rw [List.length_cons, leBytes, hlow, hhigh, ih]

/-- A field at the front of what is left. -/
theorem slice_of_drop (h : bs.drop off = x ++ rest) (hx : x.length = n) : slice bs off n = x := by
  rw [slice, h, ← hx, List.take_left]

/-- Stepping over that field. -/
theorem drop_of_drop (h : bs.drop off = x ++ rest) (hx : x.length = n) :
    bs.drop (off + n) = rest := by
  rw [← List.drop_drop, h, ← hx, List.drop_left]

/-- There is room for that field. -/
theorem le_of_drop (h : bs.drop off = x ++ rest) (hx : x ≠ []) : off + x.length ≤ bs.length := by
  have hlen := congrArg List.length h
  have := List.length_pos_of_ne_nil hx
  rw [List.length_drop, List.length_append] at hlen
  omega

theorem slice_append_right {a b : Bytes} (h : a.length ≤ off) :
    slice (a ++ b) off n = slice b (off - a.length) n := by
  rw [slice, slice, List.drop_append, List.drop_eq_nil_of_le h, List.nil_append]

theorem slice_append_left {a b : Bytes} (h : a.length = n) : slice (a ++ b) 0 n = a := by
  rw [slice, List.drop_zero, ← h, List.take_left]

theorem slice_append_within {a b : Bytes} (h : off + n ≤ a.length) :
    slice (a ++ b) off n = slice a off n := by
  rw [slice, slice, List.drop_append_of_le_length (by omega), List.take_append_of_le_length]
  rw [List.length_drop]
  omega

theorem slice_self {a : Bytes} (h : a.length = n) : slice a 0 n = a := by
  rw [slice, List.drop_zero, ← h, List.take_length]

theorem length_slice (h : off + n ≤ bs.length) : (slice bs off n).length = n := by
  rw [slice, List.length_take, List.length_drop]
  omega

/-- A reader that goes on has succeeded so far. -/
theorem except_bind_eq_ok {ε α β : Type} {x : Except ε α} {f : α → Except ε β} {b : β}
    (h : x >>= f = .ok b) : ∃ a, x = .ok a ∧ f a = .ok b := by
  cases x with
  | error e => cases h
  | ok a => exact ⟨a, rfl, h⟩

/-- `read_exact` of `n` bytes from a cursor: the bytes, and what is left. -/
def readExact (n : Nat) (bs : Bytes) : Option (Bytes × Bytes) :=
  if n ≤ bs.length then some (bs.take n, bs.drop n) else none

@[simp] theorem readExact_append (h : x.length = n) : readExact n (x ++ rest) = some (x, rest) := by
  subst h
  simp [readExact]

theorem readExact_length (h : readExact n bs = some (x, rest)) : x.length = n := by
  unfold readExact at h
  split at h
  · cases h
    rw [List.length_take]
    omega
  · cases h

end SqliteGraph.Lib
