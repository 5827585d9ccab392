import SqliteGraph.V3.Varint

/-! Node records, and their packed form: a delta to the page's base id, then varint fields. -/
namespace SqliteGraph.V3
open Lib

/-- `MAX_DELTA`. -/
def maxDelta : Nat := 2 ^ 32 - 1

/-- A difference of two `i64`, saturating. -/
def saturatingSub (a b : Int64) : Int := max (-2 ^ 63) (min (2 ^ 63 - 1) (a.toInt - b.toInt))

def encodeIdDelta (nodeId baseId : Int64) : Nat :=
  let difference := saturatingSub nodeId baseId
  if difference < 0 then 0
  else if (maxDelta : Int) < difference then maxDelta
  else difference.toNat

def decodeIdDelta (delta : Nat) (baseId : Int64) : Except NativeBackendError Int64 :=
  if 2 ^ 63 ≤ baseId.toInt + delta then
    .error (.invalidHeader "id_delta"
      s!"Delta overflow: delta {delta} would overflow when added to base_id {baseId}")
  else .ok (.ofInt (baseId.toInt + delta))

/-- Set in a record's data length when its data is stored elsewhere. -/
def externalDataFlag : UInt16 := 0x8000

def maxDataLen : UInt16 := 0x7FFF
def maxInlineData : UInt16 := 64

/-- `NodeFlags::DELETED`. -/
def NodeFlags.deleted : UInt32 := 1

/-- `dataLenField` is the field `data_len`, which may carry the flag; `dataLen` is the method. -/
structure NodeRecordV3 where
  id : Int64
  flags : UInt32
  kindOffset : UInt16
  nameOffset : UInt16
  dataLenField : UInt16
  dataInline : Option Bytes
  dataExternalOffset : Option UInt64
  outgoingClusterOffset : UInt64
  outgoingEdgeCount : UInt32
  incomingClusterOffset : UInt64
  incomingEdgeCount : UInt32
  deriving DecidableEq

namespace NodeRecordV3

def newInline (id : Int64) (flags : UInt32) (kindOffset nameOffset : UInt16) (data : Bytes)
    (outgoingClusterOffset : UInt64) (outgoingEdgeCount : UInt32) (incomingClusterOffset : UInt64)
    (incomingEdgeCount : UInt32) : Except NativeBackendError NodeRecordV3 :=
  let dataLen := UInt16.ofNat data.length
  if dataLen ≤ maxInlineData then
    .ok ⟨id, flags, kindOffset, nameOffset, dataLen, some data, none, outgoingClusterOffset,
      outgoingEdgeCount, incomingClusterOffset, incomingEdgeCount⟩
  else .error (.panic "Inline data exceeds MAX_INLINE_DATA")

def newExternal (id : Int64) (flags : UInt32) (kindOffset nameOffset : UInt16)
    (dataExternalOffset : UInt64) (dataLen : UInt16) (outgoingClusterOffset : UInt64)
    (outgoingEdgeCount : UInt32) (incomingClusterOffset : UInt64) (incomingEdgeCount : UInt32) :
    Except NativeBackendError NodeRecordV3 :=
  if maxInlineData < dataLen then
    .ok ⟨id, flags, kindOffset, nameOffset, dataLen, none, some dataExternalOffset,
      outgoingClusterOffset, outgoingEdgeCount, incomingClusterOffset, incomingEdgeCount⟩
  else .error (.panic "External data must exceed MAX_INLINE_DATA")

def isExternal (r : NodeRecordV3) : Bool :=
  r.dataExternalOffset.isSome || r.dataLenField &&& externalDataFlag != 0

def dataLen (r : NodeRecordV3) : UInt16 := r.dataLenField &&& maxDataLen

/-- What follows the fields: the inline data, or the offset of external data. -/
def payload (r : NodeRecordV3) : Bytes :=
  match r.dataInline, r.dataExternalOffset with
  | some data, _ => data
  | none, some offset => beBytes 8 offset.toNat
  | none, none => []

/-- The length as it is packed. -/
def encodedDataLen (r : NodeRecordV3) : UInt16 :=
  if r.isExternal then r.dataLenField ||| externalDataFlag else r.dataLenField

/-- The part of `pack_nodes` that a single record takes. -/
def pack (baseId : Int64) (r : NodeRecordV3) : Bytes :=
  encodeVarint (encodeIdDelta r.id baseId) ++ (beBytes 4 r.flags.toNat ++
    (encodeVarint r.kindOffset.toNat ++ (encodeVarint r.nameOffset.toNat ++
      (encodeVarint r.encodedDataLen.toNat ++ (encodeVarint r.outgoingClusterOffset.toNat ++
        (encodeVarint r.outgoingEdgeCount.toNat ++ (encodeVarint r.incomingClusterOffset.toNat ++
          (encodeVarint r.incomingEdgeCount.toNat ++ r.payload))))))))

/-- The estimate that the page and the store have in common; it takes the length without the flag. -/
def estimatedSize (baseId : Int64) (r : NodeRecordV3) : Nat :=
  varintSize (encodeIdDelta r.id baseId) + 4 + varintSize r.kindOffset.toNat +
    varintSize r.nameOffset.toNat + varintSize r.dataLen.toNat +
    varintSize r.outgoingClusterOffset.toNat + varintSize r.outgoingEdgeCount.toNat +
    varintSize r.incomingClusterOffset.toNat + varintSize r.incomingEdgeCount.toNat +
    r.payload.length

/-- `estimate_compressed_size_with_base`, and with base 0 `estimate_node_size`. -/
def estimateCompressedSize (baseId : Int64) (r : NodeRecordV3) :
    Except NativeBackendError UInt16 :=
  if 65535 < r.estimatedSize baseId then
    .error (.invalidHeader "compressed_size"
      s!"compressed size {r.estimatedSize baseId} exceeds u16::MAX")
  else .ok (.ofNat (r.estimatedSize baseId))

/-- A varint at the front, whose own error is replaced; the reader's position is what is left. -/
def readVarint (limit : Nat) (field reason : String) (bytes : Bytes) :
    Except NativeBackendError (Nat × Bytes) :=
  match decodeVarint bytes with
  | .ok (value, bytesRead) =>
    if limit < value then .error (.invalidHeader field reason)
    else .ok (value, bytes.drop bytesRead)
  | .error _ => .error (.invalidHeader field reason)

/-- `decode_varint` and `decode_varint_u16`. -/
abbrev readVarint64 := readVarint (2 ^ 64 - 1)
abbrev readVarint16 := readVarint (2 ^ 16 - 1)

def readFlags (bytes : Bytes) : Except NativeBackendError (UInt32 × Bytes) :=
  match readExact 4 bytes with
  | some (flags, rest) => .ok (.ofNat (beNat flags), rest)
  | none => .error (.invalidHeader "node.flags" "insufficient bytes for flags")

/-- Which of the two kinds of data there is, is told by the flag alone. -/
def readPayload (encodedDataLen : UInt16) (bytes : Bytes) :
    Except NativeBackendError ((Option Bytes × Option UInt64) × Bytes) :=
  let dataLen := (encodedDataLen &&& maxDataLen).toNat
  if encodedDataLen &&& externalDataFlag != 0 then
    match readExact 8 bytes with
    | some (offset, rest) => .ok ((none, some (.ofNat (beNat offset))), rest)
    | none => .error (.invalidHeader "node.data_external_offset"
        s!"insufficient bytes for external offset: need 8, have {bytes.length}")
  else
    match readExact dataLen bytes with
    | some (data, rest) => .ok ((some data, none), rest)
    | none => .error (.invalidHeader "node.data_inline"
        s!"insufficient bytes for inline data: need {dataLen}, have {bytes.length}")

/-- The id, from a delta that is cut to 32 bits. -/
def decodeId (delta : Nat) (baseId : Int64) : Except NativeBackendError Int64 :=
  match decodeIdDelta (delta % 2 ^ 32) baseId with
  | .ok id => .ok id
  | .error _ => .error (.invalidHeader "node.id"
      s!"failed to reconstruct ID from delta {delta} and base_id {baseId}")

/-- One round of `unpack_nodes`. -/
def unpack (baseId : Int64) (bytes : Bytes) : Except NativeBackendError (NodeRecordV3 × Bytes) := do
  let (delta, bytes) ← readVarint64 "node.id_delta" "invalid varint encoding for ID delta" bytes
  let id ← decodeId delta baseId
  let (flags, bytes) ← readFlags bytes
  let (kindOffset, bytes) ←
    readVarint16 "node.kind_offset" "invalid varint encoding for kind_offset" bytes
  let (nameOffset, bytes) ←
    readVarint16 "node.name_offset" "invalid varint encoding for name_offset" bytes
  let (encodedDataLen, bytes) ←
    readVarint16 "node.data_len" "invalid varint encoding for data_len" bytes
  let (outgoingClusterOffset, bytes) ← readVarint64 "node.outgoing_cluster_offset"
    "invalid varint encoding for outgoing_cluster_offset" bytes
  let (outgoingEdgeCount, bytes) ← readVarint64 "node.outgoing_edge_count"
    "invalid varint encoding for outgoing_edge_count" bytes
  let (incomingClusterOffset, bytes) ← readVarint64 "node.incoming_cluster_offset"
    "invalid varint encoding for incoming_cluster_offset" bytes
  let (incomingEdgeCount, bytes) ← readVarint64 "node.incoming_edge_count"
    "invalid varint encoding for incoming_edge_count" bytes
  let ((dataInline, dataExternalOffset), bytes) ← readPayload (.ofNat encodedDataLen) bytes
  .ok (⟨id, flags, .ofNat kindOffset, .ofNat nameOffset, .ofNat encodedDataLen, dataInline,
    dataExternalOffset, .ofNat outgoingClusterOffset, .ofNat outgoingEdgeCount,
    .ofNat incomingClusterOffset, .ofNat incomingEdgeCount⟩, bytes)

/-- The data is as its length says, in the place the flag says. -/
structure Packed (r : NodeRecordV3) : Prop where
  inline : ∀ data, r.dataInline = some data → r.dataExternalOffset = none ∧
    r.dataLenField &&& externalDataFlag = 0 ∧ r.dataLenField.toNat = data.length
  external : r.dataInline = none → r.dataExternalOffset ≠ none ∧
    r.dataLenField &&& externalDataFlag ≠ 0

/-- The id is one that a delta to the base reaches. -/
def InReach (baseId id : Int64) : Prop := baseId.toInt ≤ id.toInt ∧ id.toInt ≤ baseId.toInt + maxDelta

instance (baseId id : Int64) : Decidable (InReach baseId id) :=
  inferInstanceAs (Decidable (_ ∧ _))

variable {r : NodeRecordV3} {baseId id : Int64} {rest : Bytes} {v limit : Nat}

theorem encodeIdDelta_eq (h : InReach baseId id) :
    encodeIdDelta id baseId = (id.toInt - baseId.toInt).toNat := by
  obtain ⟨hlo, hhi⟩ := h
  have := id.toInt_lt
  have := id.le_toInt
  have := baseId.toInt_lt
  have := baseId.le_toInt
  simp only [maxDelta] at hhi
  have hsat : saturatingSub id baseId = id.toInt - baseId.toInt := by
    simp only [saturatingSub]
    omega
  rw [encodeIdDelta, hsat, if_neg (by omega), if_neg (by simp only [maxDelta]; omega)]

/-- An id within reach is packed as a delta that leads back to it. -/
theorem decodeId_encodeIdDelta (h : InReach baseId id) :
    decodeId (encodeIdDelta id baseId) baseId = .ok id := by
  have hdelta := encodeIdDelta_eq h
  obtain ⟨hlo, hhi⟩ := h
  have := id.toInt_lt
  simp only [maxDelta] at hhi
  have hmod : encodeIdDelta id baseId % 2 ^ 32 = (id.toInt - baseId.toInt).toNat := by
    rw [hdelta]
    exact Nat.mod_eq_of_lt (by omega)
  have hsum : baseId.toInt + ((id.toInt - baseId.toInt).toNat : Int) = id.toInt := by omega
  rw [decodeId, hmod, decodeIdDelta, hsum, if_neg (by omega)]
  simp

theorem readVarint_encodeVarint {field reason : String} (hv : v ≤ limit) (hlimit : limit < 2 ^ 64) :
    readVarint limit field reason (encodeVarint v ++ rest) = .ok (v, rest) := by
  rw [readVarint, decodeVarint_encodeVarint (by omega)]
  simp [Nat.not_lt.mpr hv]

theorem readFlags_beBytes {flags : UInt32} :
    readFlags (beBytes 4 flags.toNat ++ rest) = .ok (flags, rest) := by
  rw [readFlags, readExact_append length_beBytes]
  have hflags : flags.toNat < 256 ^ 4 := flags.toNat_lt
  simp [beNat_beBytes hflags]

theorem flagBit : ∀ {i : Nat} (hi : i < 16), (0x8000#16)[i] = decide (i = 15) := by decide

theorem maskBit : ∀ {i : Nat} (hi : i < 16), (0x7FFF#16)[i] = decide (i ≠ 15) := by decide

theorem flagBit_set {x : BitVec 16} (h : x &&& 0x8000#16 ≠ 0#16) : x[15] = true := by
  by_contra hn
  apply h
  ext i hi
  rw [BitVec.getElem_and, flagBit hi, BitVec.getElem_zero]
  by_cases h15 : i = 15
  · subst h15
    simpa using hn
  · simp [h15]

/-- Setting the flag where it is set. -/
theorem or_flag {x : UInt16} (h : x &&& externalDataFlag ≠ 0) : x ||| externalDataFlag = x := by
  have hbit : x.toBitVec[15] = true := flagBit_set fun hz => h (UInt16.toBitVec_inj.mp hz)
  apply UInt16.toBitVec_inj.mp
  change x.toBitVec ||| 0x8000#16 = x.toBitVec
  ext i hi
  rw [BitVec.getElem_or, flagBit hi]
  by_cases h15 : i = 15
  · subst h15
    simp [hbit]
  · simp [h15]

theorem or_flag_ne (x : UInt16) : (x ||| externalDataFlag) &&& externalDataFlag ≠ 0 := by
  intro h
  have h15 : ((x.toBitVec ||| 0x8000#16) &&& 0x8000#16)[15] = false :=
    congrArg (fun v : BitVec 16 => v[15]) (congrArg UInt16.toBitVec h)
  rw [BitVec.getElem_and, BitVec.getElem_or, flagBit] at h15
  simp at h15

/-- The flag is not part of the length. -/
theorem or_flag_mask (x : UInt16) : (x ||| externalDataFlag) &&& maxDataLen = x &&& maxDataLen := by
  apply UInt16.toBitVec_inj.mp
  change (x.toBitVec ||| 0x8000#16) &&& 0x7FFF#16 = x.toBitVec &&& 0x7FFF#16
  ext i hi
  rw [BitVec.getElem_and, BitVec.getElem_and, BitVec.getElem_or, flagBit hi, maskBit hi]
  by_cases h15 : i = 15 <;> simp [h15]

theorem mask_of_flag {x : UInt16} (h : x &&& externalDataFlag = 0) : x &&& maxDataLen = x := by
  have hx : x.toBitVec &&& 0x8000#16 = 0#16 := congrArg UInt16.toBitVec h
  apply UInt16.toBitVec_inj.mp
  change x.toBitVec &&& 0x7FFF#16 = x.toBitVec
  ext i hi
  have hi' : (x.toBitVec &&& 0x8000#16)[i] = false := by
    rw [hx]
    simp
  rw [BitVec.getElem_and, flagBit hi] at hi'
  rw [BitVec.getElem_and, maskBit hi]
  by_cases h15 : i = 15 <;> simp_all

theorem flag_of_lt {x : UInt16} (h : x.toNat < 2 ^ 15) : x &&& externalDataFlag = 0 := by
  apply UInt16.toBitVec_inj.mp
  change x.toBitVec &&& 0x8000#16 = 0#16
  ext i hi
  rw [BitVec.getElem_and, flagBit hi, BitVec.getElem_zero]
  by_cases h15 : i = 15
  · subst h15
    have hbit : x.toBitVec[15] = false := by
      rw [BitVec.getElem_eq_testBit_toNat]
      exact Nat.testBit_lt_two_pow h
    simp [hbit]
  · simp [h15]

theorem encodedDataLen_eq (h : r.Packed) : r.encodedDataLen = r.dataLenField := by
  unfold encodedDataLen isExternal
  split
  · rename_i hx
    cases hd : r.dataInline with
    | some data =>
      obtain ⟨hoff, hflag, -⟩ := h.inline data hd
      simp [hoff, hflag] at hx
    | none => exact or_flag (h.external hd).2
  · rfl

end NodeRecordV3

end SqliteGraph.V3
