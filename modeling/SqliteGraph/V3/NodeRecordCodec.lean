import SqliteGraph.V3.NodePageCodec

/-! The record format of its own: fixed metadata, then the inline data or the external offset. -/
namespace SqliteGraph.V3
open Lib

def fixedMetadataSize : Nat := 44

/-- `bytes[offset..offset + n]`, which panics when the bytes end before. -/
def sliceAt (bytes : Bytes) (offset n : Nat) : Except NativeBackendError Bytes :=
  if offset + n ≤ bytes.length then .ok (slice bytes offset n)
  else .error (.panic
    s!"range end index {offset + n} out of range for slice of length {bytes.length}")

namespace NodeRecordV3

/-- The fixed metadata; two reserved bytes stand behind the length. -/
def metadataBytes (r : NodeRecordV3) : Bytes :=
  beBytes 8 r.id.toUInt64.toNat ++ (beBytes 4 r.flags.toNat ++ (beBytes 2 r.kindOffset.toNat ++
    (beBytes 2 r.nameOffset.toNat ++ (beBytes 2 r.encodedDataLen.toNat ++ ([0, 0] ++
      (beBytes 8 r.outgoingClusterOffset.toNat ++ (beBytes 4 r.outgoingEdgeCount.toNat ++
        (beBytes 8 r.incomingClusterOffset.toNat ++ beBytes 4 r.incomingEdgeCount.toNat))))))))

def serialize (r : NodeRecordV3) : Except NativeBackendError Bytes :=
  if r.metadataBytes.length = fixedMetadataSize then .ok (r.metadataBytes ++ r.payload)
  else .error (.panic s!"Fixed metadata must be exactly {fixedMetadataSize} bytes")

/-- Where the flag is set, the offset is taken if anything is left after the metadata. -/
def deserializeData (encodedDataLen : UInt16) (bytes : Bytes) :
    Except NativeBackendError (Option Bytes × Option UInt64) :=
  if encodedDataLen &&& externalDataFlag != 0 then
    if fixedMetadataSize < bytes.length then do
      let offset ← sliceAt bytes fixedMetadataSize 8
      .ok (none, some (.ofNat (beNat offset)))
    else .ok (none, none)
  else .ok (some (bytes.drop fixedMetadataSize), none)

def deserialize (bytes : Bytes) : Except NativeBackendError NodeRecordV3 :=
  if bytes.length < fixedMetadataSize then
    .error (.invalidHeader "node_record"
      s!"insufficient bytes: expected at least {fixedMetadataSize}, found {bytes.length}")
  else do
    let id ← sliceAt bytes 0 8
    let flags ← sliceAt bytes 8 4
    let kindOffset ← sliceAt bytes 12 2
    let nameOffset ← sliceAt bytes 14 2
    let encodedDataLen ← sliceAt bytes 16 2
    let outgoingClusterOffset ← sliceAt bytes 20 8
    let outgoingEdgeCount ← sliceAt bytes 28 4
    let incomingClusterOffset ← sliceAt bytes 32 8
    let incomingEdgeCount ← sliceAt bytes 40 4
    let (dataInline, dataExternalOffset) ← deserializeData (.ofNat (beNat encodedDataLen)) bytes
    .ok ⟨(UInt64.ofNat (beNat id)).toInt64, .ofNat (beNat flags), .ofNat (beNat kindOffset),
      .ofNat (beNat nameOffset), .ofNat (beNat encodedDataLen), dataInline, dataExternalOffset,
      .ofNat (beNat outgoingClusterOffset), .ofNat (beNat outgoingEdgeCount),
      .ofNat (beNat incomingClusterOffset), .ofNat (beNat incomingEdgeCount)⟩

variable {r : NodeRecordV3} {bytes data : Bytes} {offset n : Nat}

theorem sliceAt_ok (h : offset + n ≤ bytes.length) : sliceAt bytes offset n = .ok (slice bytes offset n) :=
  if_pos h

@[simp] theorem length_metadataBytes : r.metadataBytes.length = fixedMetadataSize := by
  simp [metadataBytes, fixedMetadataSize]

theorem serialize_eq : r.serialize = .ok (r.metadataBytes ++ r.payload) := if_pos length_metadataBytes

/-- The length field of some bytes. -/
def lengthField (bytes : Bytes) : UInt16 := .ofNat (beNat (slice bytes 16 2))

/-- The record that the metadata of some bytes makes with its data. -/
def withData (bytes : Bytes) (data : Option Bytes × Option UInt64) : NodeRecordV3 :=
  ⟨(UInt64.ofNat (beNat (slice bytes 0 8))).toInt64, .ofNat (beNat (slice bytes 8 4)),
    .ofNat (beNat (slice bytes 12 2)), .ofNat (beNat (slice bytes 14 2)), lengthField bytes, data.1,
    data.2, .ofNat (beNat (slice bytes 20 8)), .ofNat (beNat (slice bytes 28 4)),
    .ofNat (beNat (slice bytes 32 8)), .ofNat (beNat (slice bytes 40 4))⟩

/-- With the metadata there, only reading the data can fail. -/
theorem deserialize_eq (h : fixedMetadataSize ≤ bytes.length) : deserialize bytes =
    (deserializeData (lengthField bytes) bytes).map (withData bytes) := by
  have hread : ∀ offset n, offset + n ≤ 44 → sliceAt bytes offset n = .ok (slice bytes offset n) :=
    fun _ _ hle => sliceAt_ok (Nat.le_trans hle h)
  rw [deserialize, if_neg (Nat.not_lt.mpr h)]
  simp only [hread 0 8 (by decide), hread 8 4 (by decide), hread 12 2 (by decide),
    hread 14 2 (by decide), hread 16 2 (by decide), hread 20 8 (by decide), hread 28 4 (by decide),
    hread 32 8 (by decide), hread 40 4 (by decide), bind, Except.bind]
  rw [lengthField]
  cases deserializeData (.ofNat (beNat (slice bytes 16 2))) bytes with
  | error e => rfl
  | ok data => rfl

/-- Every field is read where it was put. -/
theorem withData_metadataBytes (r : NodeRecordV3) (rest : Bytes) (data : Option Bytes × Option UInt64) :
    withData (r.metadataBytes ++ rest) data =
      { r with dataLenField := r.encodedDataLen, dataInline := data.1, dataExternalOffset := data.2 } := by
  have h16 : ∀ x : UInt16, UInt16.ofNat (beNat (beBytes 2 x.toNat)) = x := fun x => by
    rw [beNat_beBytes x.toNat_lt, UInt16.ofNat_toNat]
  have h32 : ∀ x : UInt32, UInt32.ofNat (beNat (beBytes 4 x.toNat)) = x := fun x => by
    rw [beNat_beBytes x.toNat_lt, UInt32.ofNat_toNat]
  have h64 : ∀ x : UInt64, UInt64.ofNat (beNat (beBytes 8 x.toNat)) = x := fun x => by
    rw [beNat_beBytes x.toNat_lt, UInt64.ofNat_toNat]
  simp only [withData, lengthField, metadataBytes, List.append_assoc, slice_append_right,
    slice_append_left, length_beBytes, List.length_cons, List.length_nil, Nat.reduceAdd,
    Nat.reduceLeDiff, Nat.reduceSub, le_refl, Nat.sub_self, h16, h32, h64]
  simp

theorem lengthField_metadataBytes (r : NodeRecordV3) (rest : Bytes) :
    lengthField (r.metadataBytes ++ rest) = r.encodedDataLen :=
  congrArg dataLenField (withData_metadataBytes r rest (none, none))

/-- What is read back of a record is decided by how its data is read. -/
theorem deserialize_serialize : r.serialize >>= deserialize =
    (deserializeData r.encodedDataLen (r.metadataBytes ++ r.payload)).map fun data =>
      { r with dataLenField := r.encodedDataLen, dataInline := data.1, dataExternalOffset := data.2 } := by
  have hlen : fixedMetadataSize ≤ (r.metadataBytes ++ r.payload).length := by
    rw [List.length_append, length_metadataBytes]
    exact Nat.le_add_right _ _
  rw [serialize_eq]
  change deserialize (r.metadataBytes ++ r.payload) = _
  rw [deserialize_eq hlen, lengthField_metadataBytes]
  congr 1
  funext data
  exact withData_metadataBytes r r.payload data

/-- The data is inline, or the flag tells that it is not. -/
def FlagTells (r : NodeRecordV3) : Prop :=
  (r.dataInline ≠ none ∧ r.isExternal = false) ∨
    (r.dataInline = none ∧ r.dataLenField &&& externalDataFlag ≠ 0)

/-- An external offset that the bytes end in the middle of. -/
def CutOffset (bytes : Bytes) : Prop :=
  lengthField bytes &&& externalDataFlag ≠ 0 ∧ fixedMetadataSize < bytes.length ∧
    bytes.length < fixedMetadataSize + 8

theorem deserializeData_inline {len : UInt16} (h : len &&& externalDataFlag = 0) :
    deserializeData len bytes = .ok (some (bytes.drop fixedMetadataSize), none) := by
  rw [deserializeData, if_neg]
  simp [h]

theorem deserializeData_bare {len : UInt16} (h : len &&& externalDataFlag ≠ 0)
    (hlen : bytes.length ≤ fixedMetadataSize) : deserializeData len bytes = .ok (none, none) := by
  rw [deserializeData, if_pos (bne_iff_ne.mpr h), if_neg (Nat.not_lt.mpr hlen)]

theorem deserializeData_external {len : UInt16} (h : len &&& externalDataFlag ≠ 0)
    (hlen : fixedMetadataSize + 8 ≤ bytes.length) : deserializeData len bytes =
      .ok (none, some (.ofNat (beNat (slice bytes fixedMetadataSize 8)))) := by
  rw [deserializeData, if_pos (bne_iff_ne.mpr h), if_pos (by omega), sliceAt_ok hlen]
  rfl

theorem deserializeData_cut {len : UInt16} (h : len &&& externalDataFlag ≠ 0)
    (hlo : fixedMetadataSize < bytes.length) (hhi : bytes.length < fixedMetadataSize + 8) :
    ∃ reason, deserializeData len bytes = .error (.panic reason) := by
  rw [deserializeData, if_pos (bne_iff_ne.mpr h), if_pos hlo, sliceAt, if_neg (by omega)]
  exact ⟨_, rfl⟩

/-- Reading panics on the bytes that end within the external offset, and on no others. -/
theorem deserialize_panics_iff :
    (∃ reason, deserialize bytes = .error (.panic reason)) ↔ CutOffset bytes := by
  by_cases hshort : bytes.length < fixedMetadataSize
  · rw [deserialize, if_pos hshort]
    constructor
    · rintro ⟨reason, h⟩
      cases h
    · rintro ⟨-, hlo, -⟩
      omega
  rw [deserialize_eq (Nat.not_lt.mp hshort)]
  by_cases hflag : lengthField bytes &&& externalDataFlag = 0
  · rw [deserializeData_inline hflag]
    constructor
    · rintro ⟨reason, h⟩
      cases h
    · rintro ⟨hset, -⟩
      exact absurd hflag hset
  by_cases hbare : bytes.length ≤ fixedMetadataSize
  · rw [deserializeData_bare hflag hbare]
    constructor
    · rintro ⟨reason, h⟩
      cases h
    · rintro ⟨-, hlo, -⟩
      omega
  by_cases hwhole : fixedMetadataSize + 8 ≤ bytes.length
  · rw [deserializeData_external hflag hwhole]
    constructor
    · rintro ⟨reason, h⟩
      cases h
    · rintro ⟨-, -, hhi⟩
      omega
  · obtain ⟨reason, hcut⟩ := deserializeData_cut hflag (Nat.not_le.mp hbare) (Nat.not_le.mp hwhole)
    rw [hcut]
    exact ⟨fun _ => ⟨hflag, Nat.not_le.mp hbare, Nat.not_le.mp hwhole⟩, fun _ => ⟨reason, rfl⟩⟩

/-- What comes back of an inline record without an external offset: the record. -/
theorem deserialize_inline (hd : r.dataInline = some data) (hx : r.isExternal = false) :
    r.serialize >>= deserialize = .ok r := by
  have hlen : r.encodedDataLen = r.dataLenField := by
    rw [encodedDataLen, hx]
    rfl
  simp only [isExternal, Bool.or_eq_false_iff, bne_eq_false_iff_eq, Option.isSome_eq_false_iff,
    Option.isNone_iff_eq_none] at hx
  have hpayload : r.payload = data := by rw [payload, hd]
  rw [deserialize_serialize, hlen, deserializeData_inline hx.2, hpayload,
    ← length_metadataBytes (r := r), List.drop_left, ← hd, ← hx.1]
  rfl

/-- And of a record without inline data whose flag is set, or whose offset sets it: all but the flag. -/
theorem deserialize_external (hd : r.dataInline = none) (hx : r.isExternal = true) :
    r.serialize >>= deserialize = .ok { r with dataLenField := r.encodedDataLen } := by
  have hflag : r.encodedDataLen &&& externalDataFlag ≠ 0 := by
    rw [encodedDataLen, if_pos hx]
    exact or_flag_ne _
  rw [deserialize_serialize]
  cases hoff : r.dataExternalOffset with
  | none =>
    have hpayload : r.payload = [] := by rw [payload, hd, hoff]
    rw [hpayload, List.append_nil, deserializeData_bare hflag (Nat.le_of_eq length_metadataBytes)]
    rw [← hd, ← hoff]
    rfl
  | some off =>
    have hpayload : r.payload = beBytes 8 off.toNat := by rw [payload, hd, hoff]
    have hlen : (r.metadataBytes ++ beBytes 8 off.toNat).length = fixedMetadataSize + 8 := by
      rw [List.length_append, length_metadataBytes, length_beBytes]
    have hread : slice (r.metadataBytes ++ beBytes 8 off.toNat) fixedMetadataSize 8 =
        beBytes 8 off.toNat := by
      rw [slice_append_right (Nat.le_of_eq length_metadataBytes), length_metadataBytes, Nat.sub_self,
        slice_self length_beBytes]
    rw [hpayload, deserializeData_external hflag (Nat.le_of_eq hlen.symm), hread,
      beNat_beBytes off.toNat_lt, UInt64.ofNat_toNat, ← hd, ← hoff]
    rfl

/-- A record that one of the constructors made comes back the same but for the flag. -/
theorem Built.deserialize_serialize (h : r.Built) :
    ∃ s, r.serialize >>= deserialize = .ok s ∧ Same r s := by
  cases hd : r.dataInline with
  | some data =>
    have hx : r.isExternal = false := h.exclusive (by rw [hd]; exact Option.some_ne_none data)
    exact ⟨r, deserialize_inline hd hx, ⟨rfl, rfl, rfl, rfl, rfl, rfl, rfl, rfl, rfl, rfl, rfl⟩⟩
  | none =>
    have hx : r.isExternal = true := by
      rcases h with ⟨_, _, _, _, data, _, _, _, _, h⟩ | ⟨_, _, _, _, _, _, _, _, _, _, h⟩
      · rw [newInline] at h
        split at h
        · cases h
          cases hd
        · cases h
      · rw [newExternal] at h
        split at h
        · cases h
          rfl
        · cases h
    have hread : r.readBack r.id = { r with dataLenField := r.encodedDataLen } := by
      rw [readBack, reachedId, if_pos (by omega)]
    refine ⟨_, deserialize_external hd hx, ?_⟩
    rw [← hread]
    exact same_readBack.mpr (by omega)

theorem deserializeData_flagged {len : UInt16} {data : Option Bytes × Option UInt64}
    (hflag : len &&& externalDataFlag ≠ 0) (h : deserializeData len bytes = .ok data) : data.1 = none := by
  rw [deserializeData, if_pos (bne_iff_ne.mpr hflag)] at h
  split at h
  · obtain ⟨offset, -, hdata⟩ := except_bind_eq_ok h
    cases hdata
    rfl
  · cases h
    rfl

/-- The record itself comes back exactly where its flag tells of its data, and reading stays within
all bytes but those that end in an external offset. -/
theorem deserialize_serialize_iff (r : NodeRecordV3) (bytes : Bytes) :
    (r.serialize >>= deserialize = .ok r ↔ r.FlagTells) ∧
      ((∃ reason, deserialize bytes = .error (.panic reason)) ↔ CutOffset bytes) := by
  refine ⟨?_, deserialize_panics_iff⟩
  constructor
  · intro h
    rw [deserialize_serialize] at h
    cases hdata : deserializeData r.encodedDataLen (r.metadataBytes ++ r.payload) with
    | error e =>
      rw [hdata] at h
      cases h
    | ok data =>
      rw [hdata] at h
      have hsame := Except.ok.inj h
      have hlen : r.encodedDataLen = r.dataLenField := congrArg dataLenField hsame
      have hinline : data.1 = r.dataInline := congrArg dataInline hsame
      have hoffset : data.2 = r.dataExternalOffset := congrArg dataExternalOffset hsame
      by_cases hflag : r.encodedDataLen &&& externalDataFlag = 0
      · left
        rw [deserializeData_inline hflag] at hdata
        cases hdata
        refine ⟨by rw [← hinline]; exact Option.some_ne_none _, ?_⟩
        rw [isExternal, ← hoffset, ← hlen, hflag]
        rfl
      · right
        rw [hlen] at hflag
        exact ⟨hinline ▸ deserializeData_flagged (hlen ▸ hflag) hdata, hflag⟩
  · rintro (⟨hd, hx⟩ | ⟨hd, hflag⟩)
    · obtain ⟨data, hdata⟩ := Option.ne_none_iff_exists'.mp hd
      exact deserialize_inline hdata hx
    · have hx : r.isExternal = true := by
        rw [isExternal, bne_iff_ne.mpr hflag, Bool.or_true]
      have hlen : r.encodedDataLen = r.dataLenField := by
        rw [encodedDataLen, if_pos hx]
        exact or_flag hflag
      rw [deserialize_external hd hx, hlen]

/-- An external record is not the one that comes back, and its first 48 bytes panic. -/
theorem not_deserialize_serialize : ∃ r bytes, newExternal 888888 0 10 20 7777 200 0 15 0 25 = .ok r ∧
    r.serialize = .ok bytes ∧ deserialize bytes = .ok { r with dataLenField := 0x80C8 } ∧
    { r with dataLenField := 0x80C8 } ≠ r ∧
    deserialize (bytes.take 48) =
      .error (.panic "range end index 52 out of range for slice of length 48") := by
  refine ⟨⟨888888, 0, 10, 20, 200, none, some 7777, 0, 15, 0, 25⟩, _, rfl, serialize_eq, ?_, ?_, ?_⟩
  · decide +kernel
  · decide
  · decide +kernel

end NodeRecordV3

end SqliteGraph.V3
