import SqliteGraph.Lib.ByteFile
import SqliteGraph.V3.EdgeCluster
import SqliteGraph.V3.Header

/-! The page of an edge cluster: where it is written, how much, and how it is loaded. -/
namespace SqliteGraph.V3
open Lib

/-- An edge store's page size, and whether its writes go through a file coordinator. -/
structure EdgePageIO where
  pageSize : Nat
  coordinated : Bool

/-- The coordinator and the node store place pages by the default page size. -/
def FileCoordinator.pageOffset (pageId : Nat) : Nat :=
  if pageId = 0 then 0 else V3.pageOffset defaultPageSize pageId

namespace EdgePageIO

/-- Where the store itself takes its pages to be. -/
def pageOffset (io : EdgePageIO) (pageId : Nat) : Nat :=
  if pageId = 0 then 0 else V3.pageOffset io.pageSize pageId

def writeOffset (io : EdgePageIO) (pageId : Nat) : Nat :=
  if io.coordinated then FileCoordinator.pageOffset pageId else io.pageOffset pageId

/-- Only a coordinated write is padded to the page size; neither is cut to it. -/
def pageData (io : EdgePageIO) (data : Bytes) : Bytes :=
  if io.coordinated then data ++ List.replicate (io.pageSize - data.length) 0 else data

def writePageToDisk (io : EdgePageIO) (file : ByteFile) (pageId : Nat) (data : Bytes) : ByteFile :=
  file.writeAt (io.writeOffset pageId) (io.pageData data)

/-- The part of `load_neighbors_from_disk` after the index lookup. The offset of page 0 wraps around
to one that no seek accepts, and every failure reads as no neighbors. -/
def loadNeighbors (io : EdgePageIO) (file : ByteFile) (pageId : Nat) : List Int64 :=
  if pageId = 0 then []
  else
    let bytes := file.read (V3.pageOffset io.pageSize pageId) io.pageSize
    if bytes.isEmpty then []
    else
      let buffer := bytes ++ List.replicate (io.pageSize - bytes.length) 0
      match V3EdgeCluster.deserialize buffer pageId with
      | .ok cluster => cluster.dsts
      | .error _ => []

variable {io : EdgePageIO} {file : ByteFile} {p : Nat} {data : Bytes} {c : V3EdgeCluster}

theorem pageData_eq (h : io.coordinated = false) : io.pageData data = data := by
  simp [pageData, h]

theorem length_pageData :
    (io.pageData data).length = if io.coordinated then max io.pageSize data.length else data.length := by
  unfold pageData
  split
  · rw [List.length_append, List.length_replicate]
    omega
  · rfl

theorem pageData_prefix (io : EdgePageIO) (data : Bytes) : ∃ rest, io.pageData data = data ++ rest := by
  unfold pageData
  split
  · exact ⟨_, rfl⟩
  · exact ⟨[], (List.append_nil _).symm⟩

theorem writeOffset_default (hs : io.pageSize = defaultPageSize) (hp : 0 < p) :
    io.writeOffset p = V3.pageOffset defaultPageSize p := by
  simp [writeOffset, FileCoordinator.pageOffset, pageOffset, hs, hp.ne']

theorem length_pageData_le (hs : io.pageSize = defaultPageSize) (hd : data.length ≤ defaultPageSize) :
    (io.pageData data).length ≤ defaultPageSize := by
  rw [length_pageData, hs]
  split
  · exact max_le (le_refl _) hd
  · exact hd

/-- A cluster that starts its page is loaded with all its neighbors. -/
theorem loadNeighbors_of_prefix (hc : c.Fits) (hp : 0 < p) (hsize : c.serialize.length ≤ io.pageSize)
    (hlen : V3.pageOffset io.pageSize p + c.serialize.length ≤ file.len)
    (h : file.bytesAt (V3.pageOffset io.pageSize p) c.serialize.length = c.serialize) :
    io.loadNeighbors file p = c.dsts := by
  obtain ⟨n, hn⟩ : ∃ n, min io.pageSize (file.len - V3.pageOffset io.pageSize p) =
      c.serialize.length + n := Nat.exists_eq_add_of_le (by omega)
  have hread : file.read (V3.pageOffset io.pageSize p) io.pageSize = c.serialize ++
      file.bytesAt (V3.pageOffset io.pageSize p + c.serialize.length) n := by
    rw [ByteFile.read, hn, ByteFile.bytesAt_add, h]
  have hne : ¬(c.serialize ++ file.bytesAt (V3.pageOffset io.pageSize p + c.serialize.length) n).isEmpty := by
    simp [V3EdgeCluster.serialize]
  rw [loadNeighbors, if_neg (Nat.pos_iff_ne_zero.mp hp), hread]
  simp only [if_neg hne, List.append_assoc, V3EdgeCluster.deserialize_serialize hc]
  rfl

/-- Flushing a cluster leaves the bytes outside its page alone, and loading the page afterwards gives
all its neighbors. -/
def FlushedAlone (io : EdgePageIO) (c : V3EdgeCluster) (file : ByteFile) : Prop :=
  let file' := io.writePageToDisk file c.pageId c.serialize
  (∀ i < file.len, ¬(io.pageOffset c.pageId ≤ i ∧ i < io.pageOffset c.pageId + io.pageSize) →
    file'.byte i = file.byte i) ∧
  io.loadNeighbors file' c.pageId = c.dsts

/-- The page sizes that the header's check lets through. -/
def ValidPageSize (io : EdgePageIO) : Prop :=
  PersistentHeaderV3.validate { PersistentHeaderV3.newV3 with pageSize := io.pageSize } = .ok ()

theorem validPageSize_iff :
    io.ValidPageSize ↔ io.pageSize = 4096 ∨ io.pageSize = 8192 ∨ io.pageSize = 16384 := by
  have hv : PersistentHeaderV3.validate { PersistentHeaderV3.newV3 with pageSize := io.pageSize } =
      if io.pageSize ≠ 4096 ∧ io.pageSize ≠ 8192 ∧ io.pageSize ≠ 16384 then
        .error (.invalidHeader "page_size" "must be 4096, 8192, or 16384")
      else .ok () := by
    simp [PersistentHeaderV3.validate, PersistentHeaderV3.newV3, defaultV3FeatureFlags,
      flagV2FramedRecords, flagV2AtomicCommit, flagV3BtreeIndex]
  rw [ValidPageSize, hv]
  split
  · constructor
    · intro h
      cases h
    · omega
  · constructor
    · omega
    · exact fun _ => rfl

theorem writeOffset_le (hs : io.ValidPageSize) : io.writeOffset p ≤ io.pageOffset p := by
  have hsize := validPageSize_iff.mp hs
  unfold writeOffset FileCoordinator.pageOffset pageOffset
  split
  · split
    · exact le_refl _
    · exact Nat.add_le_add_left (Nat.mul_le_mul_left _ (by simp only [defaultPageSize]; omega)) _
  · exact le_refl _

/-- Writer and reader agree where a page is. -/
theorem writeOffset_eq_iff (hp : 0 < p) :
    io.writeOffset p = io.pageOffset p ↔
      (io.coordinated = true → io.pageSize = defaultPageSize ∨ p = 1) := by
  unfold writeOffset FileCoordinator.pageOffset pageOffset
  rw [if_neg hp.ne', if_neg hp.ne']
  cases io.coordinated with
  | false => simp
  | true =>
    simp only [if_true, true_implies, V3.pageOffset, Nat.add_left_cancel_iff, mul_eq_mul_left_iff]
    omega

/-- A flush keeps to the cluster's page, in every file, and can be loaded back from there, exactly
when the cluster fits into the page and its writer and reader agree where the page is. -/
theorem flushedAlone_iff (io : EdgePageIO) (src : Int64) (dir : Direction) (pageId : Nat)
    (edges : List (Int64 × Option String)) (hs : io.ValidPageSize) (hp : 0 < pageId) :
    (∀ file, io.FlushedAlone (.accumulate src dir pageId edges) file) ↔
      V3EdgeCluster.imageSize edges ≤ io.pageSize ∧
        (io.coordinated = true → io.pageSize = defaultPageSize ∨ pageId = 1) := by
  have hsize := validPageSize_iff.mp hs
  have hle := writeOffset_le (p := pageId) hs
  have hlen : (V3EdgeCluster.accumulate src dir pageId edges).serialize.length =
      V3EdgeCluster.imageSize edges := V3EdgeCluster.length_serialize_accumulate
  have hid : (V3EdgeCluster.accumulate src dir pageId edges).pageId = pageId := by
    rw [V3EdgeCluster.accumulate_eq]
  generalize hc : V3EdgeCluster.accumulate src dir pageId edges = c at hlen hid ⊢
  obtain ⟨rest, hrest⟩ := pageData_prefix io c.serialize
  have hne : io.pageData c.serialize ≠ [] := by
    rw [hrest]
    exact List.append_ne_nil_of_left_ne_nil V3EdgeCluster.serialize_ne_nil _
  have hframe := ByteFile.writeAt_within_iff (io.writeOffset pageId) (io.pageOffset pageId)
    (io.pageOffset pageId + io.pageSize) hne
  rw [← writeOffset_eq_iff hp, ← hlen]
  constructor
  · intro h
    have hin := hframe.mp fun file => hid ▸ (h file).1
    have := congrArg List.length hrest
    rw [List.length_append] at this
    omega
  · rintro ⟨hfits, heq⟩ file
    have hdata : (io.pageData c.serialize).length ≤ io.pageSize := by
      rw [length_pageData]
      split <;> omega
    rw [FlushedAlone, hid]
    constructor
    · exact hframe.mpr ⟨heq.ge, by omega⟩ file
    · have hcf : c.Fits := hc ▸ V3EdgeCluster.accumulate_fits (by omega)
      have hoff : io.writeOffset pageId = V3.pageOffset io.pageSize pageId := by
        rw [heq, pageOffset, if_neg hp.ne']
      refine loadNeighbors_of_prefix hcf hp hfits ?_ ?_
      · rw [writePageToDisk, ByteFile.len_writeAt hne, hoff, hrest, List.length_append]
        omega
      · rw [writePageToDisk, hoff, hrest]
        exact ByteFile.bytesAt_writeAt_append

theorem flushedAlone_small :
    FlushedAlone ⟨4096, false⟩ (.accumulate 1 .outgoing 2 [(2, some "CALLS")])
      ⟨20000, fun _ => 255⟩ :=
  (flushedAlone_iff ⟨4096, false⟩ 1 .outgoing 2 [(2, some "CALLS")] (validPageSize_iff.mpr (.inl rfl))
    (by decide)).mpr ⟨by decide, by simp⟩ ⟨20000, fun _ => 255⟩

/-- A thousand edges from one node run over into the next page. -/
theorem not_flushedAlone_thousand :
    ¬FlushedAlone ⟨4096, false⟩ (.accumulate 1 .outgoing 2 (List.replicate 1000 (2, none)))
      ⟨20000, fun _ => 255⟩ := by
  have hbyte : (V3EdgeCluster.accumulate 1 .outgoing 2 (List.replicate 1000 (2, none))).serialize[4096]? =
      some 0 := by decide +kernel
  have hid : (V3EdgeCluster.accumulate 1 .outgoing 2 (List.replicate 1000 (2, none))).pageId = 2 := by
    rw [V3EdgeCluster.accumulate_eq]
  generalize V3EdgeCluster.accumulate 1 .outgoing 2 (List.replicate 1000 (2, none)) = c at hbyte hid
  rintro ⟨h, -⟩
  rw [hid] at h
  obtain ⟨hlt, hzero⟩ := List.getElem?_eq_some_iff.mp hbyte
  have hsame : (ByteFile.writeAt ⟨20000, fun _ => 255⟩ 4208 c.serialize).byte (4208 + 4096) = 255 :=
    h (4208 + 4096) (by decide) (by decide)
  rw [ByteFile.byte_writeAt_self hlt, hzero] at hsame
  exact absurd hsame (by decide)

end EdgePageIO

end SqliteGraph.V3
