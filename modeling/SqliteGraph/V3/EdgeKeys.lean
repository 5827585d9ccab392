import SqliteGraph.V3.EdgeDelta
import SqliteGraph.V3.EdgeStore

/-! Which pairs of a node and a direction share a key in the index of the edges. -/
namespace SqliteGraph.V3
open Lib

variable {src src' : Int64} {dir dir' : Direction}

theorem getLsbD_keyMask {i : Nat} (hi : i < 64) :
    (0x3FFF_FFFF_FFFF_FFFF#64).getLsbD i = decide (i < 62) := by
  have hall : ∀ j : Fin 64, (0x3FFF_FFFF_FFFF_FFFF#64).getLsbD j = decide (j.val < 62) := by decide
  exact hall ⟨i, hi⟩

theorem getLsbD_directionBit {i : Nat} (hi : i < 64) :
    (0x4000_0000_0000_0000#64).getLsbD i = decide (i = 62) := by
  have hall : ∀ j : Fin 64, (0x4000_0000_0000_0000#64).getLsbD j = decide (j.val = 62) := by decide
  exact hall ⟨i, hi⟩

/-- Bit 62 is the direction, and below it are the low bits of the zigzag code. -/
theorem getLsbD_edgeKey (src : Int64) (dir : Direction) {i : Nat} (hi : i < 64) :
    (edgeKey src dir).toBitVec.getLsbD i =
      if i < 62 then (zigzagEncode src).toBitVec.getLsbD i else decide (i = 62 ∧ dir ≠ .outgoing) := by
  have hkey : (edgeKey src dir).toBitVec =
      (if dir = .outgoing then 0#64 else 0x4000_0000_0000_0000#64) |||
        ((zigzagEncode src).toBitVec &&& 0x3FFF_FFFF_FFFF_FFFF#64) := by
    by_cases hdir : dir = .outgoing
    · simp only [edgeKey, if_pos hdir]
      rfl
    · simp only [edgeKey, if_neg hdir]
      rfl
  rw [hkey, BitVec.getLsbD_or, BitVec.getLsbD_and, getLsbD_keyMask hi]
  by_cases hdir : dir = .outgoing
  · rw [if_pos hdir]
    by_cases hlow : i < 62 <;> simp [hdir, hlow]
  · rw [if_neg hdir, getLsbD_directionBit hi]
    by_cases hlow : i < 62
    · simp [hlow, show i ≠ 62 by omega]
    · simp [hlow, hdir]

/-- The sign comes first, then the low bits of the id. -/
theorem getLsbD_zigzagEncode (src : Int64) {i : Nat} (hi : i < 64) :
    (zigzagEncode src).toBitVec.getLsbD i =
      ((decide (0 < i) && src.toBitVec.getLsbD (i - 1)) ^^ src.toBitVec.msb) := by
  rw [BitVec.getLsbD_eq_getElem hi, getElem_zigzagEncode src hi]

theorem msb_eq_decide_neg (src : Int64) : src.toBitVec.msb = decide (src.toInt < 0) :=
  BitVec.msb_eq_toInt

theorem lowBits_iff : (∀ i < 61, src.toBitVec.getLsbD i = src'.toBitVec.getLsbD i) ↔
    src.toInt % 2 ^ 61 = src'.toInt % 2 ^ 61 := by
  have hmod : ∀ x : Int64, x.toInt % 2 ^ 61 = ((x.toBitVec.toNat % 2 ^ 61 : Nat) : Int) := by
    intro x
    rw [← Int64.toInt_toBitVec, BitVec.toInt_eq_toNat_cond]
    split <;> omega
  rw [hmod, hmod]
  constructor
  · intro hbits
    congr 1
    apply Nat.eq_of_testBit_eq
    intro i
    rw [Nat.testBit_mod_two_pow, Nat.testBit_mod_two_pow]
    by_cases hi : i < 61
    · have := hbits i hi
      rw [BitVec.getLsbD, BitVec.getLsbD] at this
      rw [this]
    · simp [hi]
  · intro hmod i hi
    have hnat : src.toBitVec.toNat % 2 ^ 61 = src'.toBitVec.toNat % 2 ^ 61 := by exact_mod_cast hmod
    have hbit : (src.toBitVec.toNat % 2 ^ 61).testBit i = (src'.toBitVec.toNat % 2 ^ 61).testBit i := by
      rw [hnat]
    rw [Nat.testBit_mod_two_pow, Nat.testBit_mod_two_pow, decide_eq_true hi, Bool.true_and,
      Bool.true_and] at hbit
    exact hbit

/-- Two pairs share a key just where they have the direction, the sign and the 61 low bits in common. -/
theorem edgeKey_eq_iff : edgeKey src dir = edgeKey src' dir' ↔
    dir = dir' ∧ (src.toInt < 0 ↔ src'.toInt < 0) ∧ src.toInt % 2 ^ 61 = src'.toInt % 2 ^ 61 := by
  have hdirs : dir = dir' ↔ (dir = .outgoing ↔ dir' = .outgoing) := by
    cases dir <;> cases dir' <;> simp
  rw [← lowBits_iff, hdirs]
  constructor
  · intro hkey
    have hbits : ∀ i < 64, (edgeKey src dir).toBitVec.getLsbD i = (edgeKey src' dir').toBitVec.getLsbD i :=
      fun i _ => by rw [hkey]
    have hzigzag : ∀ i < 62, (zigzagEncode src).toBitVec.getLsbD i =
        (zigzagEncode src').toBitVec.getLsbD i := by
      intro i hi
      have := hbits i (by omega)
      rwa [getLsbD_edgeKey _ _ (by omega), getLsbD_edgeKey _ _ (by omega), if_pos hi, if_pos hi] at this
    have hsign : src.toBitVec.msb = src'.toBitVec.msb := by
      have := hzigzag 0 (by omega)
      rw [getLsbD_zigzagEncode _ (by omega), getLsbD_zigzagEncode _ (by omega)] at this
      simpa using this
    refine ⟨?_, ?_, fun i hi => ?_⟩
    · have := hbits 62 (by omega)
      rw [getLsbD_edgeKey _ _ (by omega), getLsbD_edgeKey _ _ (by omega)] at this
      simpa using this
    · rw [msb_eq_decide_neg, msb_eq_decide_neg, decide_eq_decide] at hsign
      exact hsign
    · have := hzigzag (i + 1) (by omega)
      rw [getLsbD_zigzagEncode _ (by omega), getLsbD_zigzagEncode _ (by omega), hsign] at this
      simpa using this
  · rintro ⟨hdir, hsign, hlow⟩
    have hmsb : src.toBitVec.msb = src'.toBitVec.msb := by
      rw [msb_eq_decide_neg, msb_eq_decide_neg, decide_eq_decide]
      exact hsign
    apply Int64.toBitVec.inj
    apply BitVec.eq_of_getLsbD_eq
    intro i hi
    rw [getLsbD_edgeKey _ _ hi, getLsbD_edgeKey _ _ hi]
    by_cases hlt : i < 62
    · rw [if_pos hlt, if_pos hlt, getLsbD_zigzagEncode _ hi, getLsbD_zigzagEncode _ hi, hmsb]
      rcases Nat.eq_zero_or_pos i with rfl | hpos
      · simp
      · rw [hlow (i - 1) (by omega)]
    · simp only [if_neg hlt, Ne, hdir]

/-- Two different pairs have different keys just where they differ in one of these. -/
theorem edgeKey_injective_iff : (edgeKey src dir = edgeKey src' dir' → (src, dir) = (src', dir')) ↔
    (src, dir) = (src', dir') ∨ dir ≠ dir' ∨ ¬ (src.toInt < 0 ↔ src'.toInt < 0) ∨
      src.toInt % 2 ^ 61 ≠ src'.toInt % 2 ^ 61 := by
  rw [edgeKey_eq_iff]
  tauto

/-- Node 0 and node 2^61 share their keys. -/
theorem not_edgeKey_injective : ¬ ∀ src src' dir dir',
    edgeKey src dir = edgeKey src' dir' → (src, dir) = (src', dir') := by
  intro h
  have hpair := h 0 0x2000_0000_0000_0000 .outgoing .outgoing (by decide)
  exact absurd (congrArg Prod.fst hpair) (by decide)

/-- Ids below 2^61 in absolute value keep their keys apart. -/
theorem edgeKey_injOn : Set.InjOn (fun p : EdgeKey => edgeKey p.1 p.2)
    {p | -2 ^ 61 ≤ p.1.toInt ∧ p.1.toInt < 2 ^ 61} := by
  rintro ⟨src, dir⟩ ⟨hlo, hhi⟩ ⟨src', dir'⟩ ⟨hlo', hhi'⟩ hkey
  obtain ⟨rfl, hsign, hmod⟩ := edgeKey_eq_iff.mp hkey
  dsimp only at hlo hhi hlo' hhi' hsign hmod
  have heq : src.toInt = src'.toInt := by omega
  rw [Int64.toInt_inj.mp heq]

end SqliteGraph.V3
