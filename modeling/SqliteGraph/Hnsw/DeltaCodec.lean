import SqliteGraph.Hnsw.Error

/-! Neighbor lists as differences: the scalar encoder, the vectorised one and the decoder. -/
namespace SqliteGraph.Hnsw

/-- `a + b`, which traps when it overflows. -/
def checkedAdd (a b : UInt32) : Except HnswError UInt32 :=
  if a.toNat + b.toNat < 2 ^ 32 then .ok (a + b) else .error (.panic "attempt to add with overflow")

/-- `a - b`, which traps when it overflows. -/
def checkedSub (a b : UInt32) : Except HnswError UInt32 :=
  if b ≤ a then .ok (a - b) else .error (.panic "attempt to subtract with overflow")

/-- The loop over the values after `previous`, with `wrapping_sub`. -/
def encodeFrom (previous : UInt32) : List UInt32 → List UInt32
  | [] => []
  | value :: rest => (value - previous) :: encodeFrom value rest

def deltaEncodeScalar : List UInt32 → List UInt32
  | [] => []
  | first :: rest => first :: encodeFrom first rest

def decodeFrom (acc : UInt32) : List UInt32 → Except HnswError (List UInt32)
  | [] => .ok []
  | delta :: rest => do
    let acc ← checkedAdd acc delta
    return acc :: (← decodeFrom acc rest)

def deltaDecode (deltas : List UInt32) : Except HnswError (List UInt32) := decodeFrom 0 deltas

/-- Eight lanes at a time: the values from `i` on, less those from `i - 1` on. -/
def encodeChunks (values : List UInt32) : Nat → Nat → List UInt32
  | 0, _ => []
  | chunks + 1, i =>
    List.zipWith (· - ·) ((values.drop i).take 8) ((values.drop (i - 1)).take 8) ++
      encodeChunks values chunks (i + 8)

/-- The loop over what the chunks leave, whose subtraction is checked. -/
def encodeRemainder (previous : UInt32) : List UInt32 → Except HnswError (List UInt32)
  | [] => .ok []
  | value :: rest => do
    let delta ← checkedSub value previous
    return delta :: (← encodeRemainder value rest)

def deltaEncodeAvx2 (values : List UInt32) : Except HnswError (List UInt32) :=
  if values.length < 16 then .ok (deltaEncodeScalar values)
  else do
    let chunks := (values.length - 1) / 8
    let i := 1 + 8 * chunks
    let first ← index values 0
    let previous ← index values (i - 1)
    let remainder ← encodeRemainder previous (values.drop i)
    return first :: encodeChunks values chunks 1 ++ remainder

/-- No value is smaller than the one before it. -/
def Nondecreasing (values : List UInt32) : Prop := values.IsChain (· ≤ ·)

instance (values : List UInt32) : Decidable (Nondecreasing values) :=
  inferInstanceAs (Decidable (values.IsChain (· ≤ ·)))

/-- The codec keeps the list, both encoders agree, and nothing traps. -/
def DeltaCodecExact (values : List UInt32) : Prop :=
  deltaDecode (deltaEncodeScalar values) = .ok values ∧
    deltaEncodeAvx2 values = .ok (deltaEncodeScalar values)

instance (values : List UInt32) : Decidable (DeltaCodecExact values) :=
  inferInstanceAs (Decidable (_ ∧ _))

section Words
variable {a b : UInt32}

/-- Adding back what was subtracted overflows just when the subtraction wrapped. -/
theorem checkedAdd_sub : checkedAdd b (a - b) =
    if b ≤ a then .ok a else .error (.panic "attempt to add with overflow") := by
  have ha : a.toNat < 2 ^ 32 := a.toNat_lt
  have hb : b.toNat < 2 ^ 32 := b.toNat_lt
  have hsub : (a - b).toNat = (2 ^ 32 - b.toNat + a.toNat) % 2 ^ 32 := UInt32.toNat_sub a b
  have hback : b + (a - b) = a := by
    apply UInt32.toNat_inj.mp
    rw [UInt32.toNat_add, hsub]
    omega
  rw [checkedAdd, hback, hsub]
  by_cases hle : b.toNat ≤ a.toNat
  · rw [if_pos (by omega), if_pos (UInt32.le_iff_toNat_le.mpr hle)]
  · rw [if_neg (by omega), if_neg fun h => hle (UInt32.le_iff_toNat_le.mp h)]

end Words

section Lists
variable {previous : UInt32} {values l : List UInt32}

/-- The decoder undoes the encoder as long as the values do not decrease, and traps otherwise. -/
theorem decodeFrom_encodeFrom :
    decodeFrom previous (encodeFrom previous l) =
      if Nondecreasing (previous :: l) then .ok l
      else .error (.panic "attempt to add with overflow") := by
  induction l generalizing previous with
  | nil => simp [encodeFrom, decodeFrom, Nondecreasing]
  | cons value rest ih =>
    have hstep : Nondecreasing (previous :: value :: rest) ↔
        previous ≤ value ∧ Nondecreasing (value :: rest) := List.isChain_cons_cons
    rw [encodeFrom, decodeFrom, checkedAdd_sub]
    by_cases hle : previous ≤ value
    · by_cases hrest : Nondecreasing (value :: rest)
      · simp [hstep, hle, hrest, ih, bind, Except.bind, pure, Except.pure]
      · simp [hstep, hle, hrest, ih, bind, Except.bind]
    · simp [hstep, hle, bind, Except.bind]

theorem encodeRemainder_eq :
    encodeRemainder previous l =
      if Nondecreasing (previous :: l) then .ok (encodeFrom previous l)
      else .error (.panic "attempt to subtract with overflow") := by
  induction l generalizing previous with
  | nil => simp [encodeRemainder, encodeFrom, Nondecreasing]
  | cons value rest ih =>
    have hstep : Nondecreasing (previous :: value :: rest) ↔
        previous ≤ value ∧ Nondecreasing (value :: rest) := List.isChain_cons_cons
    rw [encodeRemainder, checkedSub, encodeFrom]
    by_cases hle : previous ≤ value
    · by_cases hrest : Nondecreasing (value :: rest)
      · simp [hstep, hle, hrest, ih, bind, Except.bind, pure, Except.pure]
      · simp [hstep, hle, hrest, ih, bind, Except.bind]
    · simp [hstep, hle, bind, Except.bind]

/-- A lane holds a value less the one before it. -/
theorem encodeFrom_eq_zipWith : encodeFrom previous l = List.zipWith (· - ·) l (previous :: l) := by
  induction l generalizing previous with
  | nil => rfl
  | cons value rest ih => rw [encodeFrom, List.zipWith_cons_cons, ih]

/-- From `i` on the differences are those of the whole list from there on. -/
theorem zipWith_drop (values : List UInt32) {i : Nat} (hi : 1 ≤ i) :
    List.zipWith (· - ·) (values.drop i) (values.drop (i - 1)) =
      (List.zipWith (· - ·) (values.drop 1) values).drop (i - 1) := by
  rw [List.drop_zipWith, List.drop_drop, Nat.add_sub_cancel' hi]

theorem encodeChunks_eq (values : List UInt32) (chunks : Nat) {i : Nat} (hi : 1 ≤ i) :
    encodeChunks values chunks i =
      ((List.zipWith (· - ·) (values.drop 1) values).drop (i - 1)).take (8 * chunks) := by
  induction chunks generalizing i with
  | zero => simp [encodeChunks]
  | succ chunks ih =>
    have hnext : i + 8 - 1 = i - 1 + 8 := by omega
    rw [encodeChunks, ih (by omega), ← List.take_zipWith, zipWith_drop values hi, hnext,
      Nat.mul_succ, Nat.add_comm (8 * chunks), List.take_add, List.drop_drop]

/-- The vectorised encoder traps on a decrease in what its chunks leave, and nowhere else. -/
theorem deltaEncodeAvx2_eq (hlen : 16 ≤ values.length) :
    deltaEncodeAvx2 values =
      if Nondecreasing (values.drop (8 * ((values.length - 1) / 8))) then .ok (deltaEncodeScalar values)
      else .error (.panic "attempt to subtract with overflow") := by
  obtain ⟨first, rest, rfl⟩ : ∃ first rest, values = first :: rest := by
    rcases values with _ | ⟨first, rest⟩
    · simp at hlen
    · exact ⟨first, rest, rfl⟩
  have hi : 8 * (((first :: rest).length - 1) / 8) < (first :: rest).length := by
    simp only [List.length_cons] at hlen ⊢
    omega
  rw [deltaEncodeAvx2, if_neg (by omega)]
  generalize ((first :: rest).length - 1) / 8 = chunks at hi ⊢
  have hdrop : (first :: rest).drop (8 * chunks) =
      (first :: rest)[8 * chunks] :: (first :: rest).drop (1 + 8 * chunks) := by
    rw [Nat.add_comm 1, List.drop_eq_getElem_cons hi]
  have hprevious : index (first :: rest) (1 + 8 * chunks - 1) = .ok (first :: rest)[8 * chunks] := by
    apply index_of_getElem?
    rw [Nat.add_sub_cancel_left, List.getElem?_eq_getElem hi]
  have hremainder : encodeFrom (first :: rest)[8 * chunks] ((first :: rest).drop (1 + 8 * chunks)) =
      (List.zipWith (· - ·) rest (first :: rest)).drop (8 * chunks) := by
    have h := zipWith_drop (first :: rest) (i := 1 + 8 * chunks) (by omega)
    rw [encodeFrom_eq_zipWith, ← hdrop]
    simpa using h
  have hchunks := encodeChunks_eq (first :: rest) chunks (le_refl 1)
  simp only [bind, Except.bind, hprevious, encodeRemainder_eq, ← hdrop, hchunks]
  by_cases hsorted : Nondecreasing ((first :: rest).drop (8 * chunks))
  · simp only [if_pos hsorted, hremainder]
    rw [deltaEncodeScalar, encodeFrom_eq_zipWith]
    simp [index, pure, Except.pure]
  · simp [hsorted, index]

end Lists

/-- The codec does what it says just when no value is smaller than the one before it. -/
theorem deltaCodecExact_iff (values : List UInt32) :
    DeltaCodecExact values ↔ Nondecreasing values := by
  have hdecode : deltaDecode (deltaEncodeScalar values) = .ok values ↔ Nondecreasing values := by
    rcases values with _ | ⟨first, rest⟩
    · simp [deltaDecode, deltaEncodeScalar, decodeFrom, Nondecreasing]
    · have hfirst : checkedAdd 0 first = .ok first := by
        have h := first.toNat_lt
        rw [checkedAdd, if_pos (by simpa using h), UInt32.zero_add]
      rw [deltaDecode, deltaEncodeScalar, decodeFrom, hfirst]
      simp only [bind, Except.bind, decodeFrom_encodeFrom]
      by_cases hsorted : Nondecreasing (first :: rest)
      · simp [hsorted, pure, Except.pure]
      · simp [hsorted]
  constructor
  · rintro ⟨h, -⟩
    exact hdecode.mp h
  · intro hsorted
    refine ⟨hdecode.mpr hsorted, ?_⟩
    by_cases hlen : values.length < 16
    · rw [deltaEncodeAvx2, if_pos hlen]
    · have hrest : Nondecreasing (values.drop (8 * ((values.length - 1) / 8))) :=
        List.IsChain.drop hsorted _
      rw [deltaEncodeAvx2_eq (by omega), if_pos hrest]

/-- One value smaller than the one before it: the decoder overflows. -/
theorem not_deltaCodecExact : ¬ DeltaCodecExact [100, 95] := by decide

end SqliteGraph.Hnsw
