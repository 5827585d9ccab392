import SqliteGraph.Lib.Bytes
import SqliteGraph.V3.Error

/-! Variable-length integers: seven bits a byte, lowest first, the high bit on all but the last. -/
namespace SqliteGraph.V3
open Lib

def maxVarintBytes : Nat := 10

/-- The `while remaining > 0` loop; a `u64` leaves it within `maxVarintBytes` rounds. -/
def encodeVarintLoop : Nat → Nat → Bytes
  | 0, _ => []
  | fuel + 1, remaining =>
    if remaining = 0 then []
    else
      let byte := remaining &&& 0x7F
      let rest := remaining >>> 7
      UInt8.ofNat (if 0 < rest then byte ||| 0x80 else byte) :: encodeVarintLoop fuel rest

def encodeVarint (value : Nat) : Bytes :=
  if value = 0 then [0] else encodeVarintLoop maxVarintBytes value

/-- The loop over the bytes, from index `i` on; `result |= data << shift` drops the bits past 64. -/
def decodeVarintLoop : Bytes → Nat → Nat → Except NativeBackendError (Nat × Nat)
  | [], i, _ =>
    .error (.invalidHeader "varint" s!"Incomplete varint: expected {i + 1} bytes, found {i}")
  | byte :: bytes, i, result =>
    if maxVarintBytes ≤ i then
      .error (.invalidHeader "varint"
        s!"Varint too long: maximum {maxVarintBytes} bytes, found {i + 1}")
    else
      let result := result ||| ((byte.toNat &&& 0x7F) <<< (7 * i)) % 2 ^ 64
      if byte.toNat &&& 0x80 = 0 then .ok (result, i + 1)
      else if 64 ≤ 7 * (i + 1) then
        .error (.invalidHeader "varint"
          s!"Varint overflow: shift {7 * (i + 1)} exceeds u64 capacity")
      else decodeVarintLoop bytes (i + 1) result

def decodeVarint (bytes : Bytes) : Except NativeBackendError (Nat × Nat) :=
  if bytes.isEmpty then .error (.invalidHeader "varint" "Cannot decode varint from empty input")
  else decodeVarintLoop bytes 0 0

def varintSizeLoop : Nat → Nat → Nat
  | 0, _ => 0
  | fuel + 1, remaining => if remaining = 0 then 0 else varintSizeLoop fuel (remaining >>> 7) + 1

def varintSize (value : Nat) : Nat :=
  if value = 0 then 1 else varintSizeLoop maxVarintBytes value

variable {v r i : Nat} {rest : Bytes}

theorem and_7F : v &&& 0x7F = v % 128 := Nat.and_two_pow_sub_one_eq_mod v 7

theorem or_80 (h : r < 128) : r ||| 0x80 = r + 128 := by
  rw [Nat.or_comm, ← Nat.two_pow_add_eq_or_of_lt (i := 7) h 1, Nat.add_comm]

theorem and_80 (h : v < 256) : v &&& 0x80 = 0 ↔ v < 128 := by
  have : ∀ v < 256, v &&& 0x80 = 0 ↔ v < 128 := by decide +kernel
  exact this v h

/-- The next seven bits go above the bits already there. -/
theorem or_group (hr : r < 2 ^ (7 * i)) (hv : v * 2 ^ (7 * i) < 2 ^ 64) :
    r ||| (v <<< (7 * i)) % 2 ^ 64 = r + v * 2 ^ (7 * i) := by
  rw [Nat.shiftLeft_eq, Nat.mod_eq_of_lt hv, Nat.or_comm, Nat.mul_comm,
    ← Nat.two_pow_add_eq_or_of_lt hr, Nat.add_comm]

theorem two_pow_seven_succ : 2 ^ (7 * (i + 1)) = 128 * 2 ^ (7 * i) := by
  rw [Nat.mul_add, Nat.pow_add, Nat.mul_comm]

/-- From index `i` on the reader adds the value that the writer emits there. -/
theorem decodeVarintLoop_encode {fuel : Nat} (hf : i + fuel = maxVarintBytes) (hv : 0 < v)
    (hr : r < 2 ^ (7 * i)) (hlt : v * 2 ^ (7 * i) < 2 ^ 64) :
    decodeVarintLoop (encodeVarintLoop fuel v ++ rest) i r =
      .ok (r + v * 2 ^ (7 * i), i + (encodeVarintLoop fuel v).length) := by
  induction fuel generalizing v r i with
  | zero =>
    have hi : i = 10 := by simpa [maxVarintBytes] using hf
    subst hi
    omega
  | succ fuel ih =>
    have hi : ¬maxVarintBytes ≤ i := by omega
    have hmod : v % 128 < 128 := Nat.mod_lt _ (by decide)
    rw [encodeVarintLoop, if_neg hv.ne', Nat.shiftRight_eq_div_pow, and_7F]
    by_cases hlast : v < 128
    · have hdiv : v / 2 ^ 7 = 0 := Nat.div_eq_of_lt hlast
      have hbyte : (UInt8.ofNat v).toNat = v := by
        rw [UInt8.toNat_ofNat']
        omega
      have hnil : encodeVarintLoop fuel 0 = [] := by cases fuel <;> rfl
      have hstop : v &&& 0x80 = 0 := (and_80 (by omega)).mpr hlast
      simp only [hdiv, Nat.mod_eq_of_lt hlast, Nat.lt_irrefl, if_false, List.cons_append, hnil,
        decodeVarintLoop, if_neg hi, hbyte, and_7F, or_group hr hlt, hstop, if_true,
        List.length_singleton]
    · have hdiv : 0 < v / 2 ^ 7 := Nat.div_pos (by omega) (by decide)
      have hbyte : (UInt8.ofNat (v % 128 + 128)).toNat = v % 128 + 128 := by
        rw [UInt8.toNat_ofNat']
        omega
      have hdata : (v % 128 + 128) % 128 = v % 128 := by omega
      have hmore : ¬(v % 128 + 128) &&& 0x80 = 0 := by
        intro h
        have := (and_80 (by omega)).mp h
        omega
      have hsplit : v % 128 * 2 ^ (7 * i) + v / 2 ^ 7 * 2 ^ (7 * (i + 1)) = v * 2 ^ (7 * i) := by
        calc v % 128 * 2 ^ (7 * i) + v / 128 * 2 ^ (7 * (i + 1))
            = (v % 128 + 128 * (v / 128)) * 2 ^ (7 * i) := by
              rw [two_pow_seven_succ, Nat.add_mul, Nat.mul_left_comm, ← Nat.mul_assoc]
          _ = v * 2 ^ (7 * i) := by rw [Nat.mod_add_div]
      have hroom : ¬64 ≤ 7 * (i + 1) := by
        intro h
        have hbig : 2 ^ 64 ≤ 2 ^ (7 * (i + 1)) := Nat.pow_le_pow_right (by decide) h
        have := Nat.mul_le_mul_right (2 ^ (7 * (i + 1))) hdiv
        omega
      have hr' : r + v % 128 * 2 ^ (7 * i) < 2 ^ (7 * (i + 1)) := by
        have : v % 128 * 2 ^ (7 * i) ≤ 127 * 2 ^ (7 * i) := Nat.mul_le_mul_right _ (by omega)
        rw [two_pow_seven_succ]
        omega
      simp only [if_pos hdiv, or_80 hmod, List.cons_append, decodeVarintLoop, if_neg hi, hbyte,
        and_7F, hdata, if_neg hmore, if_neg hroom]
      rw [or_group hr (by omega), ih (by omega) hdiv hr' (by omega)]
      simp only [List.length_cons, Nat.add_assoc, hsplit, Nat.add_comm 1]

/-- Reading back what was written consumes just its bytes. -/
theorem decodeVarint_encodeVarint (h : v < 2 ^ 64) :
    decodeVarint (encodeVarint v ++ rest) = .ok (v, (encodeVarint v).length) := by
  by_cases h0 : v = 0
  · subst h0
    rfl
  · have hloop : decodeVarintLoop (encodeVarintLoop maxVarintBytes v ++ rest) 0 0 =
        .ok (0 + v * 2 ^ (7 * 0), 0 + (encodeVarintLoop maxVarintBytes v).length) :=
      decodeVarintLoop_encode (Nat.zero_add _) (Nat.pos_of_ne_zero h0) (by decide) (by omega)
    rw [encodeVarint, if_neg h0, decodeVarint, if_neg, hloop]
    · simp
    · simp [maxVarintBytes, encodeVarintLoop, h0]

theorem encodeVarint_ne_nil : encodeVarint v ≠ [] := by
  by_cases h0 : v = 0 <;> simp [encodeVarint, encodeVarintLoop, maxVarintBytes, h0]

theorem length_encodeVarintLoop {fuel : Nat} :
    (encodeVarintLoop fuel v).length = varintSizeLoop fuel v := by
  induction fuel generalizing v with
  | zero => rfl
  | succ fuel ih =>
    rw [encodeVarintLoop, varintSizeLoop]
    split
    · rfl
    · rw [List.length_cons, ih]

theorem length_encodeVarint : (encodeVarint v).length = varintSize v := by
  unfold encodeVarint varintSize
  split
  · rfl
  · exact length_encodeVarintLoop

end SqliteGraph.V3
