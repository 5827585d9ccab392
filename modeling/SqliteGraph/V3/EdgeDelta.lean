import SqliteGraph.V3.Varint

/-! Neighbor ids as zigzag deltas; additions and subtractions wrap, as in a release build. -/
namespace SqliteGraph.V3
open Lib

def zigzagEncode (value : Int64) : UInt64 := ((value <<< 1) ^^^ (value >>> 63)).toUInt64

def zigzagDecode (value : UInt64) : Int64 := (value >>> 1).toInt64 ^^^ -(value &&& 1).toInt64

/-- The loop over the ids after `prevId`. -/
def compressFrom (prevId : Int64) : List Int64 → Bytes
  | [] => []
  | edgeId :: rest =>
    encodeVarint (zigzagEncode (edgeId - prevId)).toNat ++ compressFrom edgeId rest

def compressEdgeIds (edgeIds : List Int64) : Bytes := compressFrom 0 edgeIds

/-- What goes wrong in `decompress_edge_ids`, which reports it as text. -/
inductive DecompressError
  | insufficientData (count available : Nat)
  | varint (pos : Nat) (e : NativeBackendError)
  deriving DecidableEq

/-- The loop over the ids still to come, at position `pos`; `count` only goes into the error. -/
def decompressFrom (compressed : Bytes) (count : Nat) :
    Nat → Nat → Int64 → Except DecompressError (List Int64)
  | 0, _, _ => .ok []
  | n + 1, pos, prevId =>
    if compressed.length ≤ pos then .error (.insufficientData count compressed.length)
    else match decodeVarint (compressed.drop pos) with
      | .error e => .error (.varint pos e)
      | .ok (zigzag, bytesRead) =>
        let edgeId := prevId + zigzagDecode (UInt64.ofNat zigzag)
        match decompressFrom compressed count n (pos + bytesRead) edgeId with
        | .error e => .error e
        | .ok rest => .ok (edgeId :: rest)

def decompressEdgeIds (compressed : Bytes) (count : Nat) : Except DecompressError (List Int64) :=
  decompressFrom compressed count count 0 0

/-- The sign spread over all bits. -/
theorem getElem_sshiftRight_63 (x : BitVec 64) {i : Nat} (hi : i < 64) :
    (x.sshiftRight 63)[i] = x.msb := by
  rw [BitVec.getElem_sshiftRight]
  by_cases hz : i = 0
  · subst hz
    simp [BitVec.msb_eq_getLsbD_last]
  · rw [dif_neg (by omega)]

theorem getElem_neg_and_one (y : BitVec 64) {i : Nat} (hi : i < 64) :
    (-(y &&& 1#64))[i] = y[0] := by
  have hlow : y &&& 1#64 = if y[0] then 1#64 else 0#64 := by
    ext i hi
    by_cases hz : i = 0
    · subst hz
      cases h : y[0] <;> simp [h]
    · cases h : y[0] <;> simp [hz]
  rw [hlow]
  cases h : y[0]
  · simp
  · exact BitVec.getElem_allOnes i hi

theorem getElem_zigzagEncode (value : Int64) {i : Nat} (hi : i < 64) :
    (zigzagEncode value).toBitVec[i] =
      ((decide (0 < i) && value.toBitVec.getLsbD (i - 1)) ^^ value.toBitVec.msb) := by
  have h := getElem_sshiftRight_63 value.toBitVec hi
  have hl : i - 1 < 64 := by omega
  simp [zigzagEncode, h, Nat.pos_iff_ne_zero, BitVec.getLsbD_eq_getElem hl]

theorem getElem_zigzagDecode (value : UInt64) {i : Nat} (hi : i < 64) :
    (zigzagDecode value).toBitVec[i] =
      (value.toBitVec.getLsbD (i + 1) ^^ value.toBitVec[0]) := by
  have h := getElem_neg_and_one value.toBitVec hi
  simp [zigzagDecode, h, Nat.add_comm 1]

theorem zigzagDecode_zigzagEncode (value : Int64) : zigzagDecode (zigzagEncode value) = value := by
  apply Int64.toBitVec.inj
  ext i hi
  rw [getElem_zigzagDecode _ hi, getElem_zigzagEncode _ (by omega)]
  by_cases hlast : i + 1 < 64
  · rw [BitVec.getLsbD_eq_getElem hlast, getElem_zigzagEncode _ hlast]
    simp [BitVec.getLsbD_eq_getElem hi]
  · obtain rfl : i = 63 := by omega
    simp [BitVec.msb_eq_getLsbD_last]

variable {prevId : Int64} {ids : List Int64} {compressed rest : Bytes} {pos count : Nat}

/-- From any position the reader gets back the ids that the writer put there. -/
theorem decompressFrom_compressFrom (h : compressed.drop pos = compressFrom prevId ids ++ rest) :
    decompressFrom compressed count ids.length pos prevId = .ok ids := by
  induction ids generalizing prevId pos with
  | nil => rfl
  | cons edgeId ids ih =>
    rw [compressFrom, List.append_assoc] at h
    have hpos : ¬compressed.length ≤ pos := by
      intro hle
      rw [List.drop_eq_nil_of_le hle] at h
      exact encodeVarint_ne_nil (List.append_eq_nil_iff.mp h.symm).1
    have hid : prevId + zigzagDecode (UInt64.ofNat (zigzagEncode (edgeId - prevId)).toNat) =
        edgeId := by
      rw [UInt64.ofNat_toNat, zigzagDecode_zigzagEncode, Int64.add_comm, Int64.sub_add_cancel]
    simp only [List.length_cons, decompressFrom, if_neg hpos, h,
      decodeVarint_encodeVarint (UInt64.toNat_lt _), hid, ih (drop_of_drop h rfl)]

theorem decompressEdgeIds_compressEdgeIds :
    decompressEdgeIds (compressEdgeIds ids) ids.length = .ok ids :=
  decompressFrom_compressFrom (show (compressEdgeIds ids).drop 0 = compressFrom 0 ids ++ [] by
    rw [List.drop_zero, List.append_nil]; rfl)

def deltasSize (prevId : Int64) : List Int64 → Nat
  | [] => 0
  | edgeId :: rest => varintSize (zigzagEncode (edgeId - prevId)).toNat + deltasSize edgeId rest

theorem length_compressFrom : (compressFrom prevId ids).length = deltasSize prevId ids := by
  induction ids generalizing prevId with
  | nil => rfl
  | cons edgeId ids ih => rw [compressFrom, deltasSize, List.length_append, length_encodeVarint, ih]

/-- `a - b` and `a + b` in a build with overflow checks. -/
def checkedSub (a b : Int64) : Except NativeBackendError Int64 :=
  if -2 ^ 63 ≤ a.toInt - b.toInt ∧ a.toInt - b.toInt < 2 ^ 63 then .ok (a - b)
  else .error (.panic "attempt to subtract with overflow")

def checkedAdd (a b : Int64) : Except NativeBackendError Int64 :=
  if -2 ^ 63 ≤ a.toInt + b.toInt ∧ a.toInt + b.toInt < 2 ^ 63 then .ok (a + b)
  else .error (.panic "attempt to add with overflow")

/-- `compress_edge_ids` with overflow checks, after `prevId`. -/
def compressFromChecked (prevId : Int64) : List Int64 → Except NativeBackendError Bytes
  | [] => .ok []
  | edgeId :: rest => do
    let delta ← checkedSub edgeId prevId
    let compressed ← compressFromChecked edgeId rest
    .ok (encodeVarint (zigzagEncode delta).toNat ++ compressed)

def compressEdgeIdsChecked (edgeIds : List Int64) : Except NativeBackendError Bytes :=
  compressFromChecked 0 edgeIds

/-- `decompress_edge_ids` with overflow checks; what it reports itself is a result, not a panic. -/
def decompressFromChecked (compressed : Bytes) (count : Nat) : Nat → Nat → Int64 →
    Except NativeBackendError (Except DecompressError (List Int64))
  | 0, _, _ => .ok (.ok [])
  | n + 1, pos, prevId =>
    if compressed.length ≤ pos then .ok (.error (.insufficientData count compressed.length))
    else match decodeVarint (compressed.drop pos) with
      | .error e => .ok (.error (.varint pos e))
      | .ok (zigzag, bytesRead) => do
        let edgeId ← checkedAdd prevId (zigzagDecode (UInt64.ofNat zigzag))
        let rest ← decompressFromChecked compressed count n (pos + bytesRead) edgeId
        .ok (rest.map (edgeId :: ·))

def decompressEdgeIdsChecked (compressed : Bytes) (count : Nat) :
    Except NativeBackendError (Except DecompressError (List Int64)) :=
  decompressFromChecked compressed count count 0 0

/-- Each id is within an `i64` of the one before it. -/
def DeltasFit (prevId : Int64) : List Int64 → Prop
  | [] => True
  | edgeId :: rest =>
    (-2 ^ 63 ≤ edgeId.toInt - prevId.toInt ∧ edgeId.toInt - prevId.toInt < 2 ^ 63) ∧
      DeltasFit edgeId rest

theorem compressFromChecked_fits (h : DeltasFit prevId ids) :
    compressFromChecked prevId ids = .ok (compressFrom prevId ids) := by
  induction ids generalizing prevId with
  | nil => rfl
  | cons edgeId ids ih =>
    rw [compressFromChecked, checkedSub, if_pos h.1]
    simp [ih h.2, compressFrom, bind, Except.bind]

theorem compressFromChecked_ok (h : compressFromChecked prevId ids = .ok compressed) :
    DeltasFit prevId ids := by
  induction ids generalizing prevId compressed with
  | nil => trivial
  | cons edgeId ids ih =>
    rw [compressFromChecked, checkedSub] at h
    split at h
    · rename_i hfit
      cases hrest : compressFromChecked edgeId ids with
      | error e => simp [hrest, bind, Except.bind] at h
      | ok bytes => exact ⟨hfit, ih hrest⟩
    · cases h

theorem toInt_sub_of_fits {a b : Int64} (h : -2 ^ 63 ≤ a.toInt - b.toInt ∧ a.toInt - b.toInt < 2 ^ 63) :
    (a - b).toInt = a.toInt - b.toInt := by
  rw [Int64.toInt_sub]
  exact Int.bmod_eq_of_le (by omega) (by omega)

/-- What the writer put there is read back without an overflow. -/
theorem decompressFromChecked_compressFrom (hfit : DeltasFit prevId ids)
    (h : compressed.drop pos = compressFrom prevId ids ++ rest) :
    decompressFromChecked compressed count ids.length pos prevId = .ok (.ok ids) := by
  induction ids generalizing prevId pos with
  | nil => rfl
  | cons edgeId ids ih =>
    obtain ⟨hdelta, hrest⟩ := hfit
    rw [compressFrom, List.append_assoc] at h
    have hpos : ¬compressed.length ≤ pos := by
      intro hle
      rw [List.drop_eq_nil_of_le hle] at h
      exact encodeVarint_ne_nil (List.append_eq_nil_iff.mp h.symm).1
    have hadd : checkedAdd prevId (edgeId - prevId) = .ok edgeId := by
      have := edgeId.toInt_lt
      have := edgeId.le_toInt
      rw [checkedAdd, toInt_sub_of_fits hdelta, if_pos (by omega), Int64.add_comm,
        Int64.sub_add_cancel]
    simp only [List.length_cons, decompressFromChecked, if_neg hpos, h,
      decodeVarint_encodeVarint (UInt64.toNat_lt _), UInt64.ofNat_toNat, zigzagDecode_zigzagEncode,
      hadd, bind, Except.bind, ih hrest (drop_of_drop h rfl)]
    rfl

/-- The wrapping functions give every list back; with overflow checks it is the lists whose deltas fit
that get through. -/
theorem edge_ids_round_trip (edgeIds : List Int64) :
    decompressEdgeIds (compressEdgeIds edgeIds) edgeIds.length = .ok edgeIds ∧
    ((∃ compressed, compressEdgeIdsChecked edgeIds = .ok compressed ∧
      decompressEdgeIdsChecked compressed edgeIds.length = .ok (.ok edgeIds)) ↔
        DeltasFit 0 edgeIds) := by
  refine ⟨decompressEdgeIds_compressEdgeIds, ?_, fun h => ?_⟩
  · rintro ⟨compressed, hc, -⟩
    exact compressFromChecked_ok hc
  · refine ⟨compressEdgeIds edgeIds, compressFromChecked_fits h, ?_⟩
    refine decompressFromChecked_compressFrom h (show _ = compressFrom 0 edgeIds ++ [] from ?_)
    rw [List.drop_zero, List.append_nil]
    rfl

/-- From the largest id down to `-2` the difference is out of range. -/
theorem not_edge_ids_round_trip : ¬ ∀ edgeIds : List Int64,
    ∃ compressed, compressEdgeIdsChecked edgeIds = .ok compressed ∧
      decompressEdgeIdsChecked compressed edgeIds.length = .ok (.ok edgeIds) := by
  intro h
  obtain ⟨compressed, hc, -⟩ := h [Int64.maxValue, -2]
  have hpanic : compressEdgeIdsChecked [Int64.maxValue, -2] =
      .error (.panic "attempt to subtract with overflow") := by
    decide +kernel
  rw [hpanic] at hc
  cases hc

end SqliteGraph.V3
