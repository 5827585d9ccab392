import SqliteGraph.V3.Varint

/-! Which number a varint denotes, and when the decoder returns it. -/
namespace SqliteGraph.V3
open Lib

/-- The number that the varint at the front denotes, whatever its size, and the bytes it takes. -/
def varintValue : Bytes → Option (Nat × Nat)
  | [] => none
  | byte :: bytes =>
    if byte.toNat < 128 then some (byte.toNat, 1)
    else (varintValue bytes).map fun (v, n) => (byte.toNat % 128 + 128 * v, n + 1)

/-- After `room` bytes that go on, a byte that ends the varint has no more than its lowest bit. -/
def LastByteFits : Nat → Bytes → Prop
  | _, [] => True
  | 0, byte :: _ => byte.toNat ≤ 1 ∨ 128 ≤ byte.toNat
  | room + 1, byte :: bytes => 128 ≤ byte.toNat → LastByteFits room bytes

/-- The tenth byte, if the varint ends there, has no bit that a `u64` has no place for. -/
def TenthByteFits (bytes : Bytes) : Prop := LastByteFits 9 bytes

variable {bytes : Bytes} {byte : UInt8} {r i room v n : Nat}

/-- One round of the decoder before the tenth byte. -/
theorem decodeVarintLoop_cons (hi : i < 9) (hr : r < 2 ^ (7 * i)) :
    decodeVarintLoop (byte :: bytes) i r =
      if byte.toNat < 128 then .ok (r + byte.toNat % 128 * 2 ^ (7 * i), i + 1)
      else decodeVarintLoop bytes (i + 1) (r + byte.toNat % 128 * 2 ^ (7 * i)) := by
  have hfits : byte.toNat % 128 * 2 ^ (7 * i) < 2 ^ 64 := by
    have hmod : byte.toNat % 128 ≤ 127 := by omega
    have hpow : 2 ^ (7 * i) ≤ 2 ^ 56 := Nat.pow_le_pow_right (by decide) (by omega)
    have := Nat.mul_le_mul hmod hpow
    omega
  have hmore : ¬ 64 ≤ 7 * (i + 1) := by omega
  simp only [decodeVarintLoop, maxVarintBytes, if_neg (show ¬ 10 ≤ i by omega), and_7F,
    or_group hr hfits, and_80 byte.toNat_lt, if_neg hmore]

theorem group_lt (hr : r < 2 ^ (7 * i)) (v : Nat) : r + v % 128 * 2 ^ (7 * i) < 2 ^ (7 * (i + 1)) := by
  have hmod : v % 128 ≤ 127 := by omega
  have := Nat.mul_le_mul_right (2 ^ (7 * i)) hmod
  rw [two_pow_seven_succ]
  omega

/-- The tenth byte gives its lowest bit only. -/
theorem decodeVarintLoop_tenth (hr : r < 2 ^ 63) :
    decodeVarintLoop (byte :: bytes) 9 r =
      if byte.toNat < 128 then .ok (r + byte.toNat % 2 * 2 ^ 63, 10)
      else .error (.invalidHeader "varint" s!"Varint overflow: shift {70} exceeds u64 capacity") := by
  have hcut : ((byte.toNat % 128) <<< (7 * 9)) % 2 ^ 64 = ((byte.toNat % 2) <<< (7 * 9)) % 2 ^ 64 := by
    rw [Nat.shiftLeft_eq, Nat.shiftLeft_eq]
    omega
  have hor : r ||| ((byte.toNat % 2) <<< (7 * 9)) % 2 ^ 64 = r + byte.toNat % 2 * 2 ^ (7 * 9) :=
    or_group hr (by omega)
  simp only [decodeVarintLoop, maxVarintBytes, if_neg (show ¬ 10 ≤ 9 by omega), and_7F, hcut, hor,
    and_80 byte.toNat_lt, if_pos (show 64 ≤ 7 * (9 + 1) by omega)]

/-- From index `i` on the decoder returns the number denoted, as long as no bit of it is dropped. -/
theorem decodeVarintLoop_sound_iff (hi : i + room = 9) (hr : r < 2 ^ (7 * i)) :
    (∀ v n, decodeVarintLoop bytes i r = .ok (v, n) →
      ∃ w k, varintValue bytes = some (w, k) ∧ v = r + w * 2 ^ (7 * i) ∧ n = i + k) ↔
    LastByteFits room bytes := by
  induction room generalizing bytes i r with
  | zero =>
    obtain rfl : i = 9 := by omega
    cases bytes with
    | nil => simp [decodeVarintLoop, LastByteFits]
    | cons byte bytes =>
      rw [decodeVarintLoop_tenth hr]
      by_cases hlast : byte.toNat < 128
      · simp only [varintValue, if_pos hlast, LastByteFits, Except.ok.injEq, Prod.mk.injEq,
          Option.some.injEq]
        constructor
        · intro h
          obtain ⟨w, k, ⟨rfl, rfl⟩, hv, -⟩ := h _ _ ⟨rfl, rfl⟩
          omega
        · rintro hfits v n ⟨rfl, rfl⟩
          exact ⟨_, _, ⟨rfl, rfl⟩, by omega, rfl⟩
      · simp only [if_neg hlast, LastByteFits, reduceCtorEq, false_implies, implies_true, true_iff]
        omega
  | succ room ih =>
    cases bytes with
    | nil => simp [decodeVarintLoop, LastByteFits]
    | cons byte bytes =>
      rw [decodeVarintLoop_cons (by omega) hr]
      by_cases hlast : byte.toNat < 128
      · simp only [varintValue, if_pos hlast, LastByteFits, Except.ok.injEq, Prod.mk.injEq,
          Option.some.injEq, Nat.not_le.mpr hlast, false_implies, iff_true]
        rintro v n ⟨rfl, rfl⟩
        exact ⟨_, _, ⟨rfl, rfl⟩, by rw [Nat.mod_eq_of_lt hlast], rfl⟩
      · have hgo : 128 ≤ byte.toNat := by omega
        have hvalue : ∀ w, r + byte.toNat % 128 * 2 ^ (7 * i) + w * 2 ^ (7 * (i + 1)) =
            r + (byte.toNat % 128 + 128 * w) * 2 ^ (7 * i) := by
          intro w
          rw [two_pow_seven_succ]
          ring
        simp only [varintValue, if_neg hlast, LastByteFits, hgo, true_implies]
        rw [← ih (by omega) (group_lt hr byte.toNat)]
        refine forall_congr' fun v => forall_congr' fun n => imp_congr_right fun _ => ?_
        constructor
        · rintro ⟨w, k, hw, rfl, rfl⟩
          obtain ⟨⟨w', k'⟩, hw', he⟩ := Option.map_eq_some_iff.mp hw
          cases he
          exact ⟨w', k', hw', (hvalue w').symm, by omega⟩
        · rintro ⟨w, k, hw, rfl, rfl⟩
          exact ⟨byte.toNat % 128 + 128 * w, k + 1, by simp [hw], hvalue w, by omega⟩

theorem decodeVarint_sound_iff (bytes : Bytes) :
    (∀ v n, decodeVarint bytes = .ok (v, n) → varintValue bytes = some (v, n)) ↔
      TenthByteFits bytes := by
  cases bytes with
  | nil => simp [decodeVarint, TenthByteFits, LastByteFits]
  | cons byte bytes =>
    rw [TenthByteFits, ← decodeVarintLoop_sound_iff (i := 0) (r := 0) rfl (by decide)]
    refine forall_congr' fun v => forall_congr' fun n => imp_congr_right fun _ => ?_
    constructor
    · exact fun h => ⟨v, n, h, by simp, by simp⟩
    · rintro ⟨w, k, hw, rfl, rfl⟩
      simpa using hw

/-- Decoding is sound as far as the tenth byte allows it, and it inverts the encoder. -/
theorem varint_sound (bytes : Bytes) (value : UInt64) (suffix : Bytes) :
    ((∀ v n, decodeVarint bytes = .ok (v, n) → varintValue bytes = some (v, n)) ↔
      TenthByteFits bytes) ∧
    decodeVarint (encodeVarint value.toNat ++ suffix) =
      .ok (value.toNat, (encodeVarint value.toNat).length) ∧
    (encodeVarint value.toNat).length = varintSize value.toNat :=
  ⟨decodeVarint_sound_iff bytes, decodeVarint_encodeVarint value.toNat_lt, length_encodeVarint⟩

/-- Ten bytes that denote `2 ^ 64` are read as zero. -/
theorem not_varint_sound :
    ¬ ∀ (bytes : Bytes) v n, decodeVarint bytes = .ok (v, n) → varintValue bytes = some (v, n) := by
  intro h
  have hzero := h (List.replicate 9 0x80 ++ [2]) 0 10 (by decide +kernel)
  revert hzero
  decide +kernel

/-- A decoder that succeeds has met a byte that ends the varint. -/
theorem exists_lt_of_decodeVarint {p : Nat × Nat} (h : decodeVarint bytes = .ok p) :
    ∃ byte ∈ bytes, byte.toNat < 128 := by
  have hloop : ∀ (bytes : Bytes) (i r : Nat), decodeVarintLoop bytes i r = .ok p →
      ∃ byte ∈ bytes, byte.toNat < 128 := by
    intro bytes
    induction bytes with
    | nil => exact fun i r h => by cases h
    | cons byte bytes ih =>
      intro i r h
      by_cases hbyte : byte.toNat < 128
      · exact ⟨byte, List.mem_cons_self, hbyte⟩
      · have hgo : ¬ byte.toNat &&& 0x80 = 0 := fun hz => hbyte ((and_80 byte.toNat_lt).mp hz)
        simp only [decodeVarintLoop, if_neg hgo] at h
        split at h
        · cases h
        · split at h
          · cases h
          · obtain ⟨b, hb, hlt⟩ := ih _ _ h
            exact ⟨b, List.mem_cons_of_mem _ hb, hlt⟩
  rw [decodeVarint] at h
  split at h
  · cases h
  · exact hloop _ _ _ h

theorem mem_encodeVarintLoop_take {fuel m : Nat} (hm : m < (encodeVarintLoop fuel v).length)
    (hb : byte ∈ (encodeVarintLoop fuel v).take m) : 128 ≤ byte.toNat := by
  induction fuel generalizing v m with
  | zero => simp [encodeVarintLoop] at hm
  | succ fuel ih =>
    rw [encodeVarintLoop] at hm hb
    split at hm
    · simp at hm
    · rename_i hv
      rw [if_neg hv] at hb
      cases m with
      | zero => simp at hb
      | succ m =>
        rw [List.length_cons] at hm
        have hmore : 0 < v >>> 7 := by
          by_contra hzero
          rw [Nat.eq_zero_of_not_pos hzero] at hm
          cases fuel <;> simp [encodeVarintLoop] at hm
        rw [List.take_succ_cons, if_pos hmore, List.mem_cons] at hb
        rcases hb with rfl | hb
        · have hlow : v % 128 < 128 := Nat.mod_lt _ (by decide)
          rw [and_7F, or_80 hlow, UInt8.toNat_ofNat']
          omega
        · exact ih (by omega) hb

/-- Part of an encoding does not decode. -/
theorem length_le_of_decodeVarint_take {m : Nat} {p : Nat × Nat}
    (h : decodeVarint ((encodeVarint v).take m) = .ok p) : (encodeVarint v).length ≤ m := by
  by_contra hm
  obtain ⟨byte, hb, hlt⟩ := exists_lt_of_decodeVarint h
  rw [encodeVarint] at hb hm
  split at hb
  · rename_i hv
    rw [if_pos hv, List.length_singleton] at hm
    obtain rfl : m = 0 := by omega
    simp at hb
  · rename_i hv
    rw [if_neg hv] at hm
    have := mem_encodeVarintLoop_take (by omega) hb
    omega

end SqliteGraph.V3
