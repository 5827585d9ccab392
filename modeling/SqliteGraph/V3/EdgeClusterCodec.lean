import SqliteGraph.Lib.Utf8
import SqliteGraph.V3.EdgeCluster
import SqliteGraph.V3.VarintSoundness

/-! The edge types that come back from a cluster's page image. -/
namespace SqliteGraph.V3
open Lib

namespace V3EdgeCluster

def extractEdgeType : Bytes → Option String
  | [] => none
  | typeLen :: bytes =>
    if bytes.length < typeLen.toNat then none else some (fromUtf8Lossy (bytes.take typeLen.toNat))

def edgesWithTypes (c : V3EdgeCluster) : List (Int64 × Option String) :=
  c.edges.map fun e => (e.neighborId, extractEdgeType e.edgeData)

/-- The length of the type fits its byte. -/
def TypeFits (edgeType : Option String) : Prop := ∀ t, edgeType = some t → t.utf8ByteSize < 256

instance (edgeType : Option String) : Decidable (TypeFits edgeType) :=
  match edgeType with
  | none => isTrue fun _ h => nomatch h
  | some t => decidable_of_iff (t.utf8ByteSize < 256)
      ⟨fun h _ he => Option.some.inj he ▸ h, fun h => h t rfl⟩

/-- The image gives the edges back. -/
def RoundTrips (src : Int64) (direction : Direction) (pageId : Nat)
    (edges : List (Int64 × Option String)) : Prop :=
  ∃ c, deserialize (accumulate src direction pageId edges).serialize pageId = .ok c ∧
    c.edgesWithTypes = edges

variable {edgeType : Option String} {bytes rest : Bytes} {pos m : Nat}

theorem encodeEdgeType_some (t : String) :
    encodeEdgeType (some t) = UInt8.ofNat t.utf8ByteSize :: utf8Bytes t := by
  rw [encodeEdgeType, ← length_utf8Bytes]
  rfl

theorem extractEdgeType_encodeEdgeType (h : TypeFits edgeType) :
    extractEdgeType (encodeEdgeType edgeType) = edgeType := by
  cases edgeType with
  | none => rfl
  | some t =>
    have hlen : (UInt8.ofNat t.utf8ByteSize).toNat = t.utf8ByteSize := by
      have := h t rfl
      rw [UInt8.toNat_ofNat']
      omega
    rw [encodeEdgeType_some, extractEdgeType, hlen, if_neg (by rw [length_utf8Bytes]; omega),
      List.take_of_length_le (by rw [length_utf8Bytes]), fromUtf8Lossy_utf8Bytes]

/-- A type that is too long for its length byte does not come back from any start of its data. -/
theorem typeFits_of_extractEdgeType
    (h : extractEdgeType ((encodeEdgeType edgeType).take m) = edgeType) : TypeFits edgeType := by
  rintro t rfl
  rw [encodeEdgeType_some] at h
  by_contra hlong
  cases m with
  | zero => simp [extractEdgeType] at h
  | succ m =>
    rw [List.take_succ_cons, extractEdgeType] at h
    split at h
    · cases h
    · have hlen : (UInt8.ofNat t.utf8ByteSize).toNat = t.utf8ByteSize % 256 := by
        rw [UInt8.toNat_ofNat']
      have hsize := utf8ByteSize_fromUtf8Lossy_take t (min (t.utf8ByteSize % 256) m)
      rw [hlen, List.take_take, Option.some.injEq] at h
      rw [h] at hsize
      omega

/-- The ids come back from no less than all of their bytes. -/
theorem length_le_of_decompressFrom {compressed : Bytes} {count k : Nat} {prevId : Int64}
    {ids ids' : List Int64} (h : compressed.drop pos = (compressFrom prevId ids).take k)
    (hd : decompressFrom compressed count ids.length pos prevId = .ok ids') :
    (compressFrom prevId ids).length ≤ k := by
  induction ids generalizing prevId pos k ids' with
  | nil => exact Nat.zero_le _
  | cons id ids ih =>
    rw [List.length_cons, decompressFrom] at hd
    rw [compressFrom, List.take_append] at h
    rw [compressFrom, List.length_append]
    split at hd
    · cases hd
    · by_cases hk : (encodeVarint (zigzagEncode (id - prevId)).toNat).length ≤ k
      · rw [List.take_of_length_le hk] at h
        have hid : prevId + (id - prevId) = id := by
          rw [Int64.add_comm, Int64.sub_add_cancel]
        rw [h, decodeVarint_encodeVarint (UInt64.toNat_lt _)] at hd
        simp only [UInt64.ofNat_toNat, zigzagDecode_zigzagEncode, hid] at hd
        split at hd
        · cases hd
        · rename_i rest hrest
          have := ih (drop_of_drop h rfl) hrest
          omega
      · rw [Nat.sub_eq_zero_of_le (by omega), List.take_zero, List.append_nil] at h
        split at hd
        · cases hd
        · rename_i zigzag bytesRead hdec
          rw [h] at hdec
          exact absurd (length_le_of_decodeVarint_take hdec) hk

theorem readEdgeData_take {data edgeData : Bytes} (h : bytes.drop pos = data ++ rest)
    (hm : m ≤ data.length) (hread : readEdgeData bytes pos m = .ok edgeData) :
    edgeData = data.take m := by
  rw [readEdgeData] at hread
  split at hread
  · split at hread
    · cases hread
    · cases hread
      rw [slice, h, List.take_append_of_le_length hm]
  · rename_i hzero
    cases hread
    rw [Nat.eq_zero_of_not_pos hzero, List.take_zero]

theorem length_encodeEdgeType_lt (h : TypeFits edgeType) :
    (encodeEdgeType edgeType).length < 256 ^ 2 := by
  rw [length_encodeEdgeType]
  cases edgeType with
  | none => decide
  | some t =>
    have := h t rfl
    rw [edgeTypeSize]
    omega

/-- One record of metadata that is read. -/
theorem readMetadata_cons_ok {id : Int64} {ids : List Int64} {es : List CompactEdgeRecord} {pos' : Nat}
    (h : readMetadata bytes (id :: ids) pos = .ok (es, pos')) :
    ∃ offset edgeData es',
      readEdgeData bytes (pos + 4) (beNat (slice bytes (pos + 2) 2)) = .ok edgeData ∧
      readMetadata bytes ids (pos + 4 + beNat (slice bytes (pos + 2) 2)) = .ok (es', pos') ∧
      es = ⟨id, offset, edgeData⟩ :: es' := by
  rw [readMetadata] at h
  split at h
  · cases h
  · obtain ⟨edgeData, hdata, h⟩ := except_bind_eq_ok h
    obtain ⟨⟨es', pos''⟩, hrest, h⟩ := except_bind_eq_ok h
    cases h
    exact ⟨_, edgeData, es', hdata, hrest, rfl⟩

/-- Metadata that are read with the types they were written with had types that fit. -/
theorem typesFit_of_readMetadata {edges : List (Int64 × Option String)}
    {es : List CompactEdgeRecord} {pos' : Nat}
    (h : bytes.drop pos =
      (edges.map fun e => ⟨e.1, 0, encodeEdgeType e.2⟩).flatMap metadataBytes ++ rest)
    (hread : readMetadata bytes (edges.map Prod.fst) pos = .ok (es, pos'))
    (htypes : es.map (fun e => extractEdgeType e.edgeData) = edges.map Prod.snd) :
    ∀ e ∈ edges, TypeFits e.2 := by
  induction edges generalizing pos es pos' with
  | nil => simp
  | cons e edges ih =>
    rw [List.map_cons, List.flatMap_cons, metadataBytes, List.append_assoc, List.append_assoc,
      List.append_assoc] at h
    have hlen := drop_of_drop h length_beBytes
    have hbody := drop_of_drop hlen length_beBytes
    have hl : beNat (slice bytes (pos + 2) 2) = (encodeEdgeType e.2).length % 256 ^ 2 := by
      rw [slice_of_drop hlen length_beBytes, beNat_beBytes_mod]
    obtain ⟨offset, edgeData, es', hdata, hrest, rfl⟩ := readMetadata_cons_ok hread
    rw [hl] at hdata hrest
    have htake := readEdgeData_take hbody (Nat.mod_le _ _) hdata
    rw [List.map_cons, List.map_cons, List.cons.injEq, htake] at htypes
    have hfits := typeFits_of_extractEdgeType htypes.1
    rw [Nat.mod_eq_of_lt (length_encodeEdgeType_lt hfits)] at hrest
    exact List.forall_mem_cons.mpr ⟨hfits, ih (drop_of_drop hbody rfl) hrest htypes.2⟩

theorem length_of_readMetadata {ids : List Int64} {es : List CompactEdgeRecord} {pos' : Nat}
    (h : readMetadata bytes ids pos = .ok (es, pos')) : es.length = ids.length := by
  induction ids generalizing pos es pos' with
  | nil =>
    cases h
    rfl
  | cons id ids ih =>
    obtain ⟨_, _, es', -, hrest, rfl⟩ := readMetadata_cons_ok h
    rw [List.length_cons, List.length_cons, ih hrest]

theorem length_of_decompressFrom {compressed : Bytes} {count k : Nat} {prevId : Int64}
    {ids : List Int64} (h : decompressFrom compressed count k pos prevId = .ok ids) :
    ids.length = k := by
  induction k generalizing pos prevId ids with
  | zero =>
    cases h
    rfl
  | succ k ih =>
    rw [decompressFrom] at h
    split at h
    · cases h
    · split at h
      · cases h
      · dsimp only at h
        split at h
        · cases h
        · rename_i rest hrest
          cases h
          rw [List.length_cons, ih hrest]

/-- All widths of the image are kept: of the types, of the count and of the deltas' length. -/
def WidthsFit (edges : List (Int64 × Option String)) : Prop :=
  (∀ e ∈ edges, TypeFits e.2) ∧ edges.length < 256 ^ 4 ∧ deltasSize 0 (edges.map Prod.fst) < 256 ^ 4

variable {src : Int64} {direction : Direction} {pageId : Nat} {edges : List (Int64 × Option String)}

theorem roundTrips_of_widthsFit (h : WidthsFit edges) : RoundTrips src direction pageId edges := by
  obtain ⟨htypes, hcount, hdeltas⟩ := h
  have hfits : (accumulate src direction pageId edges).Fits := by
    refine ⟨by rw [accumulate_eq], ?_, ?_, ?_, ?_⟩
    · rw [accumulate_eq, List.length_map]
      exact hcount
    · rw [dsts_accumulate, compressEdgeIds, length_compressFrom]
      exact hdeltas
    · rw [accumulate_eq, List.forall_mem_map]
      exact fun e _ => Nat.pow_pos (by decide)
    · rw [accumulate_eq, List.forall_mem_map]
      exact fun e he => length_encodeEdgeType_lt (htypes e he)
  have hread := @deserialize_serialize _ [] hfits pageId
  rw [List.append_nil] at hread
  refine ⟨_, hread, ?_⟩
  rw [accumulate_eq, edgesWithTypes, List.map_map]
  refine (List.map_congr_left fun e he => ?_).trans (List.map_id edges)
  exact Prod.ext rfl (extractEdgeType_encodeEdgeType (htypes e he))

/-- The count that is read is the one that was written, as far as four bytes hold it. -/
theorem readEdges_count {es : List CompactEdgeRecord} {count : Nat}
    (h : bytes.drop pos = beBytes 4 count ++ rest) (hread : readEdges bytes 3 pos = .ok es) :
    ∃ es' pos', readCompressed bytes (count % 256 ^ 4) (pos + 4) = .ok (es', pos') ∧
      (es'.isEmpty = true → readRecords bytes (count % 256 ^ 4) pos' = .ok es) ∧
      (es'.isEmpty = false → es = es') := by
  have hcount : beNat (slice bytes pos 4) = count % 256 ^ 4 := by
    rw [slice_of_drop h length_beBytes, beNat_beBytes_mod]
  rw [readEdges] at hread
  split at hread
  · cases hread
  · simp only [hcount, le_refl, if_true] at hread
    obtain ⟨⟨es', pos'⟩, hc, hread⟩ := except_bind_eq_ok hread
    refine ⟨es', pos', hc, fun he => ?_, fun he => ?_⟩
    · rwa [he, if_pos rfl] at hread
    · rw [he] at hread
      exact (Except.ok.inj hread).symm

/-- The compressed part is read as ids and metadata, cut to the length that four bytes hold. -/
theorem readCompressed_parts {c : V3EdgeCluster} {es : List CompactEdgeRecord} {count pos' : Nat}
    (h : bytes.drop pos = c.compressedBytes ++ rest)
    (hread : readCompressed bytes count pos = .ok (es, pos')) :
    ∃ ids, decompressEdgeIds ((compressEdgeIds c.dsts ++ (c.edges.flatMap metadataBytes ++ rest)).take
        ((compressEdgeIds c.dsts).length % 256 ^ 4)) count = .ok ids ∧
      readMetadata bytes ids (pos + 5 + (compressEdgeIds c.dsts).length % 256 ^ 4) = .ok (es, pos') := by
  have hflag : bytes.drop pos = [1] ++ (beBytes 4 (compressEdgeIds c.dsts).length ++
      (compressEdgeIds c.dsts ++ (c.edges.flatMap metadataBytes ++ rest))) := by
    simpa [compressedBytes] using h
  have hlen := drop_of_drop hflag List.length_singleton
  have hids := drop_of_drop hlen length_beBytes
  rw [Nat.add_assoc pos 1 4] at hids
  have hflagByte : slice bytes pos 1 = [1] := slice_of_drop hflag rfl
  have hl : beNat (slice bytes (pos + 1) 4) = (compressEdgeIds c.dsts).length % 256 ^ 4 := by
    rw [slice_of_drop hlen length_beBytes, beNat_beBytes_mod]
  rw [readCompressed] at hread
  split at hread
  · cases hread
  · rw [if_neg (not_not_intro hflagByte)] at hread
    split at hread
    · cases hread
    · have hslice (n : Nat) : slice bytes (pos + 5) n =
          (compressEdgeIds c.dsts ++ (c.edges.flatMap metadataBytes ++ rest)).take n := by
        rw [slice, hids]
      simp only [hl, hslice] at hread
      split at hread
      · cases hread
      · split at hread
        · cases hread
        · rename_i ids hd
          exact ⟨ids, hd, hread⟩

theorem drop_serialize {c : V3EdgeCluster} (hv : c.formatVersion = 3) :
    c.serialize.drop 10 = beBytes 4 c.edges.length ++ c.compressedBytes := by
  have hs : c.serialize.drop 1 = beBytes 8 c.src.toUInt64.toNat ++
      ([directionByte c.direction] ++ (beBytes 4 c.edges.length ++ c.compressedBytes)) := by
    rw [serialize_eq hv]
    rfl
  exact drop_of_drop (drop_of_drop hs length_beBytes) List.length_singleton

theorem drop_metadata {c : V3EdgeCluster} (hv : c.formatVersion = 3) :
    c.serialize.drop (10 + 4 + 5 + (compressEdgeIds c.dsts).length) =
      c.edges.flatMap metadataBytes := by
  have hflag : c.serialize.drop 14 = [1] ++ (beBytes 4 (compressEdgeIds c.dsts).length ++
      (compressEdgeIds c.dsts ++ c.edges.flatMap metadataBytes)) :=
    drop_of_drop (drop_serialize hv) length_beBytes
  change c.serialize.drop (14 + 1 + 4 + _) = _
  exact drop_of_drop (drop_of_drop (drop_of_drop hflag List.length_singleton) length_beBytes) rfl

theorem readEdges_of_deserialize {c d : V3EdgeCluster} (hv : c.formatVersion = 3)
    (h : deserialize c.serialize pageId = .ok d) : readEdges c.serialize 3 10 = .ok d.edges := by
  have hversion : beNat (slice c.serialize 0 1) = 3 := by
    rw [serialize_eq hv]
    rfl
  rw [deserialize, hversion] at h
  split at h
  · cases h
  · rw [if_neg (by decide), if_pos (by decide)] at h
    split at h
    · cases h
    · obtain ⟨es, hes, h⟩ := except_bind_eq_ok h
      cases h
      exact hes

theorem widthsFit_of_roundTrips (h : RoundTrips src direction pageId edges) : WidthsFit edges := by
  obtain ⟨d, hread, htypes⟩ := h
  have hacc : accumulate src direction pageId edges = _ := accumulate_eq
  generalize hc : accumulate src direction pageId edges = c at *
  have hversion : c.formatVersion = 3 := by rw [hacc]
  have hcount : c.edges.length = edges.length := by rw [hacc, List.length_map]
  have hdsts : c.dsts = edges.map Prod.fst := by rw [← hc, dsts_accumulate]
  have hdrop : c.serialize.drop 10 = beBytes 4 c.edges.length ++ (c.compressedBytes ++ []) := by
    rw [List.append_nil, drop_serialize hversion]
  obtain ⟨es, pos', hcompressed, hempty, hnonempty⟩ :=
    readEdges_count hdrop (readEdges_of_deserialize hversion hread)
  have hcut := drop_of_drop hdrop length_beBytes
  obtain ⟨ids, hids, hmeta⟩ := readCompressed_parts hcut hcompressed
  have hidsLen : ids.length = edges.length % 256 ^ 4 := by
    rw [← hcount]
    exact length_of_decompressFrom hids
  have hesLen : es.length = edges.length % 256 ^ 4 := by
    rw [length_of_readMetadata hmeta, hidsLen]
  -- What comes back is as long as what was read, in both formats.
  have hdLen : d.edges.length = edges.length := by
    have := congrArg List.length htypes
    rwa [edgesWithTypes, List.length_map] at this
  have hes : d.edges = es := by
    cases he : es.isEmpty with
    | false => exact hnonempty he
    | true =>
      have hzero : es = [] := List.isEmpty_iff.mp he
      subst hzero
      have hrecords := hempty rfl
      rw [hcount, ← hesLen] at hrecords
      exact (Except.ok.inj hrecords).symm
  have hsmall : edges.length < 256 ^ 4 := by
    rw [hes, hesLen] at hdLen
    rw [← hdLen]
    exact Nat.mod_lt _ (by decide)
  rw [hcount, Nat.mod_eq_of_lt hsmall, hdsts] at hids
  have hdeltas : deltasSize 0 (edges.map Prod.fst) < 256 ^ 4 := by
    rw [← length_compressFrom, ← compressEdgeIds]
    by_contra hbig
    have hle : (compressFrom 0 (edges.map Prod.fst)).length ≤
        (compressEdgeIds (edges.map Prod.fst)).length % 256 ^ 4 := by
      rw [← List.length_map Prod.fst] at hids
      refine length_le_of_decompressFrom ?_ hids
      rw [List.drop_zero, List.take_append_of_le_length (Nat.mod_le _ _)]
      rfl
    have := Nat.mod_lt (compressEdgeIds (edges.map Prod.fst)).length (show 0 < 256 ^ 4 by decide)
    rw [← compressEdgeIds] at hle
    omega
  refine ⟨?_, hsmall, hdeltas⟩
  have hcompressedLen : (compressEdgeIds (edges.map Prod.fst)).length % 256 ^ 4 =
      (compressEdgeIds (edges.map Prod.fst)).length := by
    rw [compressEdgeIds, length_compressFrom]
    exact Nat.mod_eq_of_lt hdeltas
  have hback : decompressEdgeIds (compressEdgeIds (edges.map Prod.fst))
      (edges.map Prod.fst).length = .ok (edges.map Prod.fst) := decompressEdgeIds_compressEdgeIds
  rw [List.length_map] at hback
  rw [hcompressedLen, List.take_left, hback, Except.ok.injEq] at hids
  rw [← hids, hdsts, hcompressedLen] at hmeta
  have hrest := drop_metadata hversion
  rw [hdsts] at hrest
  refine typesFit_of_readMetadata (show _ = _ ++ [] from ?_) hmeta ?_
  · rw [List.append_nil, hrest, hacc]
  · rw [← hes, ← htypes, edgesWithTypes, List.map_map]
    rfl

/-- The image of a cluster gives the edges back exactly when all of its widths are kept. -/
theorem edge_cluster_round_trip (src : Int64) (direction : Direction) (pageId : Nat)
    (edges : List (Int64 × Option String)) :
    RoundTrips src direction pageId edges ↔ WidthsFit edges :=
  ⟨widthsFit_of_roundTrips, roundTrips_of_widthsFit⟩

/-- A type of 256 bytes comes back empty. -/
theorem not_edge_cluster_round_trip :
    ¬ RoundTrips 1 .outgoing 0 [(2, some (String.ofList (List.replicate 256 (Char.ofNat 120))))] := by
  rw [edge_cluster_round_trip]
  rintro ⟨htypes, -⟩
  have hlt := htypes _ List.mem_cons_self _ rfl
  rw [utf8ByteSize_ofList] at hlt
  revert hlt
  decide +kernel

end V3EdgeCluster
end SqliteGraph.V3
