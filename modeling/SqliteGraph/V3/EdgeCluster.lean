import SqliteGraph.V3.EdgeDelta

/-! Edge clusters: the neighbors of one node in one direction, and their page image. -/
namespace SqliteGraph.V3
open Lib

inductive Direction
  | outgoing
  | incoming
  deriving DecidableEq, Repr

structure CompactEdgeRecord where
  neighborId : Int64
  edgeTypeOffset : Nat
  edgeData : Bytes
  deriving DecidableEq

/-- `edge_data.len() as u16`: lengths from 65536 on are cut short. -/
def CompactEdgeRecord.serialize (e : CompactEdgeRecord) : Bytes :=
  beBytes 8 e.neighborId.toUInt64.toNat ++ (beBytes 2 e.edgeTypeOffset ++
    (beBytes 2 e.edgeData.length ++ e.edgeData))

structure V3EdgeCluster where
  src : Int64
  edges : List CompactEdgeRecord
  direction : Direction
  formatVersion : Nat
  pageId : Nat
  deriving DecidableEq

namespace V3EdgeCluster

def new (src : Int64) (direction : Direction) (pageId : Nat) : V3EdgeCluster :=
  ⟨src, [], direction, 3, pageId⟩

/-- `[type_len: u8][type_bytes]`, or nothing without a type. -/
def encodeEdgeType : Option String → Bytes
  | some edgeType =>
    let bytes := edgeType.toUTF8.data.toList
    UInt8.ofNat bytes.length :: bytes
  | none => []

def addEdge (c : V3EdgeCluster) (dst : Int64) (edgeType : Option String) : V3EdgeCluster :=
  { c with edges := c.edges ++ [⟨dst, 0, encodeEdgeType edgeType⟩] }

def dsts (c : V3EdgeCluster) : List Int64 := c.edges.map CompactEdgeRecord.neighborId

def directionByte : Direction → UInt8
  | .outgoing => 0
  | .incoming => 1

/-- `type_offset`, `edge_data_len` and `edge_data` of the compressed format. -/
def metadataBytes (e : CompactEdgeRecord) : Bytes :=
  beBytes 2 e.edgeTypeOffset ++ (beBytes 2 e.edgeData.length ++ e.edgeData)

def serialize (c : V3EdgeCluster) : Bytes :=
  UInt8.ofNat c.formatVersion ::
    ((if 2 ≤ c.formatVersion then
        beBytes 8 c.src.toUInt64.toNat ++ [directionByte c.direction]
      else []) ++
    (beBytes 4 c.edges.length ++
      if 3 ≤ c.formatVersion then
        let compressedIds := compressEdgeIds c.dsts
        1 :: (beBytes 4 compressedIds.length ++ (compressedIds ++ c.edges.flatMap metadataBytes))
      else c.edges.flatMap CompactEdgeRecord.serialize))

/-- The error that every malformed page ends in. -/
def malformed (context : String) : NativeBackendError := .deserializationError context

/-- `edge_data`, from `pos` on. -/
def readEdgeData (bytes : Bytes) (pos dataLen : Nat) : Except NativeBackendError Bytes :=
  if 0 < dataLen then
    if bytes.length < pos + dataLen then .error (malformed "Edge data truncated")
    else .ok (slice bytes pos dataLen)
  else .ok []

/-- The metadata of the compressed format, for each id; also where the reading stops. -/
def readMetadata (bytes : Bytes) :
    List Int64 → Nat → Except NativeBackendError (List CompactEdgeRecord × Nat)
  | [], pos => .ok ([], pos)
  | neighborId :: rest, pos =>
    if bytes.length < pos + 4 then .error (malformed "Edge metadata truncated")
    else do
      let typeOffset := beNat (slice bytes pos 2)
      let dataLen := beNat (slice bytes (pos + 2) 2)
      let edgeData ← readEdgeData bytes (pos + 4) dataLen
      let (edges, pos) ← readMetadata bytes rest (pos + 4 + dataLen)
      .ok (⟨neighborId, typeOffset, edgeData⟩ :: edges, pos)

/-- The records of the formats without compression. -/
def readRecords (bytes : Bytes) : Nat → Nat → Except NativeBackendError (List CompactEdgeRecord)
  | 0, _ => .ok []
  | n + 1, pos =>
    if bytes.length < pos + 12 then .error (malformed "Edge data truncated")
    else do
      let neighborId := (UInt64.ofNat (beNat (slice bytes pos 8))).toInt64
      let typeOffset := beNat (slice bytes (pos + 8) 2)
      let dataLen := beNat (slice bytes (pos + 10) 2)
      let edgeData ← readEdgeData bytes (pos + 12) dataLen
      let edges ← readRecords bytes n (pos + 12 + dataLen)
      .ok (⟨neighborId, typeOffset, edgeData⟩ :: edges)

def decompressErrorText : DecompressError → String
  | .insufficientData count available =>
    s!"Insufficient data: expected {count} values, but only {available} bytes available"
  | .varint pos e => s!"Failed to decode varint at position {pos}: {repr e}"

/-- The compressed part, from its flag on; other flags leave the edges to the older format. -/
def readCompressed (bytes : Bytes) (count pos : Nat) :
    Except NativeBackendError (List CompactEdgeRecord × Nat) :=
  if bytes.length ≤ pos then .error (malformed "Missing compression flag")
  else if slice bytes pos 1 ≠ [1] then .ok ([], pos + 1)
  else if bytes.length < pos + 1 + 4 then .error (malformed "Missing compressed ID length")
  else
    let compressedLen := beNat (slice bytes (pos + 1) 4)
    if bytes.length < pos + 5 + compressedLen then .error (malformed "Compressed IDs truncated")
    else match decompressEdgeIds (slice bytes (pos + 5) compressedLen) count with
      | .error e => .error (malformed s!"Failed to decompress edge IDs: {decompressErrorText e}")
      | .ok neighborIds => readMetadata bytes neighborIds (pos + 5 + compressedLen)

/-- The edges of any format, `pos` being where the count stands. -/
def readEdges (bytes : Bytes) (formatVersion pos : Nat) :
    Except NativeBackendError (List CompactEdgeRecord) :=
  if bytes.length < pos + 4 then .error (malformed "Edge cluster truncated at edge count")
  else do
    let count := beNat (slice bytes pos 4)
    let (edges, pos) ←
      if 3 ≤ formatVersion then readCompressed bytes count (pos + 4) else .ok ([], pos + 4)
    if edges.isEmpty then readRecords bytes count pos else .ok edges

def deserialize (bytes : Bytes) (pageId : Nat) : Except NativeBackendError V3EdgeCluster :=
  if bytes.length < 5 then .error (malformed "Edge cluster bytes too short")
  else
    let formatVersion := beNat (slice bytes 0 1)
    if 3 < formatVersion then
      .error (malformed s!"Unknown edge cluster format version: {formatVersion}")
    else if 2 ≤ formatVersion then
      if bytes.length < 1 + 8 + 1 then .error (malformed "Edge cluster v2 header too short")
      else do
        let src := (UInt64.ofNat (beNat (slice bytes 1 8))).toInt64
        let direction := if slice bytes 9 1 = [1] then Direction.incoming else .outgoing
        let edges ← readEdges bytes formatVersion 10
        .ok ⟨src, edges, direction, formatVersion, pageId⟩
    else do
      let edges ← readEdges bytes formatVersion 1
      .ok ⟨0, edges, .outgoing, formatVersion, pageId⟩

/-- The fields are within their widths on the page. -/
structure Fits (c : V3EdgeCluster) : Prop where
  version : c.formatVersion = 3
  count : c.edges.length < 256 ^ 4
  compressed : (compressEdgeIds c.dsts).length < 256 ^ 4
  offset : ∀ e ∈ c.edges, e.edgeTypeOffset < 256 ^ 2
  data : ∀ e ∈ c.edges, e.edgeData.length < 256 ^ 2

variable {c : V3EdgeCluster} {bytes rest : Bytes} {pos n : Nat}

@[simp] theorem length_metadataBytes {e : CompactEdgeRecord} :
    (metadataBytes e).length = 4 + e.edgeData.length := by
  simp [metadataBytes]
  omega

theorem readEdgeData_ok {data : Bytes} (h : bytes.drop pos = data ++ rest) :
    readEdgeData bytes pos data.length = .ok data := by
  unfold readEdgeData
  split
  · rename_i hpos
    have := le_of_drop h (List.ne_nil_of_length_pos hpos)
    rw [if_neg (by omega), slice_of_drop h rfl]
  · rename_i hpos
    rw [List.eq_nil_of_length_eq_zero (Nat.eq_zero_of_not_pos hpos)]

/-- Reading the metadata back, record by record. -/
theorem readMetadata_metadata {edges : List CompactEdgeRecord}
    (h : bytes.drop pos = edges.flatMap metadataBytes ++ rest)
    (hoffset : ∀ e ∈ edges, e.edgeTypeOffset < 256 ^ 2)
    (hdata : ∀ e ∈ edges, e.edgeData.length < 256 ^ 2) :
    ∃ pos', readMetadata bytes (edges.map CompactEdgeRecord.neighborId) pos = .ok (edges, pos') := by
  induction edges generalizing pos with
  | nil => exact ⟨pos, rfl⟩
  | cons e edges ih =>
    rw [List.forall_mem_cons] at hoffset hdata
    rw [List.flatMap_cons, metadataBytes, List.append_assoc, List.append_assoc, List.append_assoc]
      at h
    have hlen := drop_of_drop h length_beBytes
    have hbody := drop_of_drop hlen length_beBytes
    have hroom : ¬bytes.length < pos + 4 := by
      have := le_of_drop hlen (List.ne_nil_of_length_pos (by simp))
      rw [length_beBytes] at this
      omega
    have ho : beNat (slice bytes pos 2) = e.edgeTypeOffset := by
      rw [slice_of_drop h length_beBytes, beNat_beBytes hoffset.1]
    have hl : beNat (slice bytes (pos + 2) 2) = e.edgeData.length := by
      rw [slice_of_drop hlen length_beBytes, beNat_beBytes hdata.1]
    obtain ⟨pos', hrest⟩ := ih (drop_of_drop hbody rfl) hoffset.2 hdata.2
    refine ⟨pos', ?_⟩
    rw [List.map_cons, readMetadata, if_neg hroom]
    simp only [ho, hl, readEdgeData_ok hbody, hrest]
    rfl

/-- The part of the image from the compression flag on. -/
def compressedBytes (c : V3EdgeCluster) : Bytes :=
  1 :: (beBytes 4 (compressEdgeIds c.dsts).length ++
    (compressEdgeIds c.dsts ++ c.edges.flatMap metadataBytes))

theorem readCompressed_ok (hf : c.Fits) (h : bytes.drop pos = c.compressedBytes ++ rest) :
    ∃ pos', readCompressed bytes c.edges.length pos = .ok (c.edges, pos') := by
  have hall := le_of_drop h (List.cons_ne_nil _ _)
  have htotal : c.compressedBytes.length =
      5 + (compressEdgeIds c.dsts).length + (c.edges.flatMap metadataBytes).length := by
    simp only [compressedBytes, List.length_cons, List.length_append, length_beBytes]
    omega
  have hflag : bytes.drop pos = [1] ++ (beBytes 4 (compressEdgeIds c.dsts).length ++
      (compressEdgeIds c.dsts ++ (c.edges.flatMap metadataBytes ++ rest))) := by
    simpa [compressedBytes] using h
  have hlen := drop_of_drop hflag List.length_singleton
  have hids := drop_of_drop hlen length_beBytes
  rw [Nat.add_assoc pos 1 4] at hids
  have hmeta := drop_of_drop hids rfl
  have hflagByte : slice bytes pos 1 = [1] := slice_of_drop hflag rfl
  have hl : beNat (slice bytes (pos + 1) 4) = (compressEdgeIds c.dsts).length := by
    rw [slice_of_drop hlen length_beBytes, beNat_beBytes hf.compressed]
  have hcount : c.edges.length = c.dsts.length := (List.length_map _).symm
  obtain ⟨pos', hread⟩ := readMetadata_metadata hmeta hf.offset hf.data
  refine ⟨pos', ?_⟩
  rw [readCompressed, if_neg (by omega), if_neg (not_not_intro hflagByte), if_neg (by omega)]
  simp only [hl, slice_of_drop hids rfl, hcount, decompressEdgeIds_compressEdgeIds]
  rw [if_neg (by omega)]
  exact hread

theorem readEdges_ok (hf : c.Fits)
    (h : bytes.drop pos = beBytes 4 c.edges.length ++ (c.compressedBytes ++ rest)) :
    readEdges bytes 3 pos = .ok c.edges := by
  have hroom := le_of_drop h (List.ne_nil_of_length_pos (by simp))
  rw [length_beBytes] at hroom
  have hcount : beNat (slice bytes pos 4) = c.edges.length := by
    rw [slice_of_drop h length_beBytes, beNat_beBytes hf.count]
  obtain ⟨pos', hread⟩ := readCompressed_ok hf (drop_of_drop h length_beBytes)
  rw [readEdges, if_neg (by omega)]
  simp only [hcount, le_refl, if_true, hread]
  cases hedges : c.edges with
  | nil => rfl
  | cons e edges => rfl

theorem serialize_ne_nil : c.serialize ≠ [] := List.cons_ne_nil _ _

theorem serialize_eq (h : c.formatVersion = 3) :
    c.serialize = [3] ++ (beBytes 8 c.src.toUInt64.toNat ++ ([directionByte c.direction] ++
      (beBytes 4 c.edges.length ++ c.compressedBytes))) := by
  simp [serialize, compressedBytes, h]

/-- What was written reads back, whatever follows it on the page. -/
theorem deserialize_serialize (h : c.Fits) (pageId : Nat) :
    deserialize (c.serialize ++ rest) pageId = .ok { c with pageId } := by
  have hv : (c.serialize ++ rest).drop 0 = [3] ++ (beBytes 8 c.src.toUInt64.toNat ++
      ([directionByte c.direction] ++ (beBytes 4 c.edges.length ++ (c.compressedBytes ++ rest)))) := by
    simp [serialize_eq h.version]
  have hs := drop_of_drop hv List.length_singleton
  have hd := drop_of_drop hs length_beBytes
  have he := drop_of_drop hd List.length_singleton
  have hroom := le_of_drop he (List.ne_nil_of_length_pos (by simp))
  rw [length_beBytes] at hroom
  simp only [Nat.zero_add] at hs hd he hroom
  have hversion : beNat (slice (c.serialize ++ rest) 0 1) = 3 := by
    rw [slice_of_drop hv List.length_singleton]
    rfl
  have hsrc : (UInt64.ofNat (beNat (slice (c.serialize ++ rest) 1 8))).toInt64 = c.src := by
    rw [slice_of_drop hs length_beBytes, beNat_beBytes c.src.toUInt64.toNat_lt]
    simp
  have hdir : (if slice (c.serialize ++ rest) 9 1 = [1] then Direction.incoming else .outgoing) =
      c.direction := by
    rw [slice_of_drop hd List.length_singleton]
    cases c.direction <;> rfl
  unfold deserialize
  rw [if_neg (by omega), hversion, if_neg (by decide), if_pos (by decide), if_neg (by omega), hsrc,
    hdir, readEdges_ok h he, ← h.version]
  rfl

/-- The cluster that a list of insertions builds up. -/
def accumulate (src : Int64) (direction : Direction) (pageId : Nat)
    (edges : List (Int64 × Option String)) : V3EdgeCluster :=
  edges.foldl (fun c e => c.addEdge e.1 e.2) (new src direction pageId)

def edgeTypeSize : Option String → Nat
  | some edgeType => 1 + edgeType.utf8ByteSize
  | none => 0

/-- What a list of edges takes on the page: the 19 bytes of header, count, flag and length, the id
deltas, and four bytes and the type for each edge. -/
def imageSize (edges : List (Int64 × Option String)) : Nat :=
  19 + deltasSize 0 (edges.map Prod.fst) + (edges.map fun e => 4 + edgeTypeSize e.2).sum

section Accumulate
variable {src : Int64} {direction : Direction} {pageId : Nat} {edges : List (Int64 × Option String)}

theorem foldl_addEdge (c : V3EdgeCluster) :
    edges.foldl (fun c e => c.addEdge e.1 e.2) c =
      { c with edges := c.edges ++ edges.map fun e => ⟨e.1, 0, encodeEdgeType e.2⟩ } := by
  induction edges generalizing c with
  | nil => simp
  | cons e edges ih =>
    rw [List.foldl_cons, ih]
    simp [addEdge]

theorem accumulate_eq : accumulate src direction pageId edges =
    ⟨src, edges.map fun e => ⟨e.1, 0, encodeEdgeType e.2⟩, direction, 3, pageId⟩ := by
  rw [accumulate, foldl_addEdge]
  rfl

theorem dsts_accumulate : (accumulate src direction pageId edges).dsts = edges.map Prod.fst := by
  simp [accumulate_eq, dsts, Function.comp_def]

theorem length_encodeEdgeType (edgeType : Option String) :
    (encodeEdgeType edgeType).length = edgeTypeSize edgeType := by
  cases edgeType with
  | none => rfl
  | some t =>
    rw [encodeEdgeType, List.length_cons, Array.length_toList, edgeTypeSize, Nat.add_comm]
    rfl

theorem length_flatMap_metadata (es : List CompactEdgeRecord) :
    (es.flatMap metadataBytes).length = (es.map fun e => 4 + e.edgeData.length).sum := by
  rw [List.length_flatMap]
  simp only [length_metadataBytes]

theorem length_serialize_accumulate :
    (accumulate src direction pageId edges).serialize.length = imageSize edges := by
  have hids : (compressEdgeIds (accumulate src direction pageId edges).dsts).length =
      deltasSize 0 (edges.map Prod.fst) := by
    rw [dsts_accumulate, compressEdgeIds, length_compressFrom]
  have hmeta : ((accumulate src direction pageId edges).edges.flatMap metadataBytes).length =
      (edges.map fun e => 4 + edgeTypeSize e.2).sum := by
    rw [length_flatMap_metadata, accumulate_eq, List.map_map]
    simp only [Function.comp_def, length_encodeEdgeType]
  rw [serialize_eq (by rw [accumulate_eq])]
  simp only [compressedBytes, List.length_append, List.length_cons, List.length_nil,
    length_beBytes, hids, hmeta, imageSize]
  omega

/-- A cluster that fits into a page has all its fields within their widths. -/
theorem accumulate_fits (h : imageSize edges < 256 ^ 2) :
    (accumulate src direction pageId edges).Fits := by
  have hcount : 4 * edges.length ≤ (edges.map fun e => 4 + edgeTypeSize e.2).sum := by
    simp [List.sum_map_add, Nat.mul_comm]
  have hdeltas : (compressEdgeIds (accumulate src direction pageId edges).dsts).length =
      deltasSize 0 (edges.map Prod.fst) := by
    rw [dsts_accumulate, compressEdgeIds, length_compressFrom]
  have hdata : ∀ e ∈ edges, edgeTypeSize e.2 < 256 ^ 2 := by
    intro e he
    have := List.le_sum_of_mem (List.mem_map_of_mem (f := fun e => 4 + edgeTypeSize e.2) he)
    rw [imageSize] at h
    omega
  rw [imageSize] at h
  refine ⟨by rw [accumulate_eq], ?_, ?_, ?_, ?_⟩
  · rw [accumulate_eq, List.length_map]
    omega
  · omega
  · rw [accumulate_eq, List.forall_mem_map]
    intro e _
    exact Nat.pow_pos (by decide)
  · rw [accumulate_eq, List.forall_mem_map]
    intro e he
    rw [length_encodeEdgeType]
    exact hdata e he

end Accumulate

end V3EdgeCluster

end SqliteGraph.V3
