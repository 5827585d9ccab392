import SqliteGraph.V3.Constants
import SqliteGraph.V3.Error

/-! The persistent header: its 112 bytes, and what opening a file checks in it. -/
namespace SqliteGraph.V3
open Lib

structure PersistentHeaderV3 where
  magic : Bytes
  version : Nat
  flags : Nat
  nodeCount : Nat
  edgeCount : Nat
  schemaVersion : Nat
  reserved : Nat
  nodeDataOffset : Nat
  edgeDataOffset : Nat
  outgoingClusterOffset : Nat
  incomingClusterOffset : Nat
  freeSpaceOffset : Nat
  rootIndexPage : Nat
  freePageListHead : Nat
  totalPages : Nat
  pageSize : Nat
  btreeHeight : Nat
  deriving DecidableEq, Repr

namespace PersistentHeaderV3

def newV3 : PersistentHeaderV3 where
  magic := v3Magic
  version := v3FormatVersion
  flags := defaultV3FeatureFlags
  nodeCount := 0
  edgeCount := 0
  schemaVersion := defaultSchemaVersion
  reserved := 0
  nodeDataOffset := 0
  edgeDataOffset := 0
  outgoingClusterOffset := 0
  incomingClusterOffset := 0
  freeSpaceOffset := 0
  rootIndexPage := 0
  freePageListHead := 0
  totalPages := 0
  pageSize := defaultPageSize
  btreeHeight := 0

def toBytes (h : PersistentHeaderV3) : Bytes :=
  h.magic ++ (beBytes 4 h.version ++ (beBytes 4 h.flags ++ (beBytes 8 h.nodeCount ++
  (beBytes 8 h.edgeCount ++ (beBytes 4 h.schemaVersion ++ (beBytes 4 h.reserved ++
  (beBytes 8 h.nodeDataOffset ++ (beBytes 8 h.edgeDataOffset ++
  (beBytes 8 h.outgoingClusterOffset ++ (beBytes 8 h.incomingClusterOffset ++
  (beBytes 8 h.freeSpaceOffset ++ (beBytes 8 h.rootIndexPage ++ (beBytes 8 h.freePageListHead ++
  (beBytes 8 h.totalPages ++ (beBytes 4 h.pageSize ++ beBytes 4 h.btreeHeight)))))))))))))))

def validate (h : PersistentHeaderV3) : Except NativeBackendError Unit :=
  if h.magic ≠ v3Magic then
    if h.magic = v2Magic then .error (.unsupportedVersion 2 3)
    else .error (.invalidMagic (beNat v3Magic) (beNat h.magic))
  else if h.version ≠ v3FormatVersion then .error (.unsupportedVersion h.version v3FormatVersion)
  else if h.flags &&& (flagV2FramedRecords ||| flagV2AtomicCommit) ≠
      flagV2FramedRecords ||| flagV2AtomicCommit then
    .error (.invalidHeader "flags" "missing required flags")
  else if h.flags &&& flagV3BtreeIndex ≠ flagV3BtreeIndex then
    .error (.invalidHeader "flags" "V3 files must have B+Tree index flag set")
  else if h.nodeDataOffset ≠ 0 ∧ h.nodeDataOffset < 1 then
    .error (.invalidHeader "node_data_offset" "must be 0 (uninitialized) or >= 1 (valid page ID)")
  else if h.edgeDataOffset ≠ 0 ∧ h.edgeDataOffset < 1 then
    .error (.invalidHeader "edge_data_offset" "must be 0 (uninitialized) or >= 1 (valid page ID)")
  else if 0 < h.outgoingClusterOffset ∧ h.outgoingClusterOffset < v3HeaderSize then
    .error (.invalidHeader "outgoing_cluster_offset" s!"must be 0 or >= header_size ({v3HeaderSize})")
  else if 0 < h.incomingClusterOffset ∧ h.incomingClusterOffset < h.outgoingClusterOffset then
    .error (.invalidHeader "incoming_cluster_offset" "must be >= outgoing_cluster_offset")
  else if 0 < h.freeSpaceOffset ∧ h.freeSpaceOffset < h.incomingClusterOffset then
    .error (.invalidHeader "free_space_offset" "must be >= incoming_cluster_offset")
  else if h.pageSize ≠ 4096 ∧ h.pageSize ≠ 8192 ∧ h.pageSize ≠ 16384 then
    .error (.invalidHeader "page_size" "must be 4096, 8192, or 16384")
  else if maxBtreeHeight < h.btreeHeight then
    .error (.invalidHeader "btree_height" s!"must be <= {maxBtreeHeight}")
  else .ok ()

def fromBytes (bytes : Bytes) : Except NativeBackendError PersistentHeaderV3 :=
  if bytes.length < v3HeaderSize then
    .error (.invalidHeader "bytes"
      s!"insufficient bytes: expected {v3HeaderSize}, found {bytes.length}")
  else .ok {
    magic := slice bytes 0 8
    version := beNat (slice bytes 8 4)
    flags := beNat (slice bytes 12 4)
    nodeCount := beNat (slice bytes 16 8)
    edgeCount := beNat (slice bytes 24 8)
    schemaVersion := beNat (slice bytes 32 4)
    reserved := beNat (slice bytes 36 4)
    nodeDataOffset := beNat (slice bytes 40 8)
    edgeDataOffset := beNat (slice bytes 48 8)
    outgoingClusterOffset := beNat (slice bytes 56 8)
    incomingClusterOffset := beNat (slice bytes 64 8)
    freeSpaceOffset := beNat (slice bytes 72 8)
    rootIndexPage := beNat (slice bytes 80 8)
    freePageListHead := beNat (slice bytes 88 8)
    totalPages := beNat (slice bytes 96 8)
    pageSize := beNat (slice bytes 104 4)
    btreeHeight := beNat (slice bytes 108 4) }

/-- Every field has room in its bytes. -/
structure Fits (h : PersistentHeaderV3) : Prop where
  magic : h.magic.length = 8
  version : h.version < 256 ^ 4
  flags : h.flags < 256 ^ 4
  nodeCount : h.nodeCount < 256 ^ 8
  edgeCount : h.edgeCount < 256 ^ 8
  schemaVersion : h.schemaVersion < 256 ^ 4
  reserved : h.reserved < 256 ^ 4
  nodeDataOffset : h.nodeDataOffset < 256 ^ 8
  edgeDataOffset : h.edgeDataOffset < 256 ^ 8
  outgoingClusterOffset : h.outgoingClusterOffset < 256 ^ 8
  incomingClusterOffset : h.incomingClusterOffset < 256 ^ 8
  freeSpaceOffset : h.freeSpaceOffset < 256 ^ 8
  rootIndexPage : h.rootIndexPage < 256 ^ 8
  freePageListHead : h.freePageListHead < 256 ^ 8
  totalPages : h.totalPages < 256 ^ 8
  pageSize : h.pageSize < 256 ^ 4
  btreeHeight : h.btreeHeight < 256 ^ 4

theorem length_toBytes {h : PersistentHeaderV3} (hm : h.magic.length = 8) :
    h.toBytes.length = v3HeaderSize := by
  simp [toBytes, hm, v3HeaderSize]

/-- A header that fits is read back as it was written. -/
theorem fromBytes_toBytes {h : PersistentHeaderV3} (hf : h.Fits) : fromBytes h.toBytes = .ok h := by
  have hlen := length_toBytes hf.magic
  rw [fromBytes, if_neg (by omega)]
  congr 1
  obtain ⟨m, ver, fl, nc, ec, sv, rs, nd, ed, oc, ic, fs, ri, fp, tp, ps, bh⟩ := h
  have hm : m.length = 8 := hf.magic
  -- each field is read where it was put
  simp only [toBytes, slice_append_right, slice_append_left, slice_self, hm, length_beBytes,
    Nat.reduceLeDiff, Nat.reduceSub, le_refl, Nat.sub_self, mk.injEq, true_and]
  exact ⟨beNat_beBytes hf.version, beNat_beBytes hf.flags, beNat_beBytes hf.nodeCount,
    beNat_beBytes hf.edgeCount, beNat_beBytes hf.schemaVersion, beNat_beBytes hf.reserved,
    beNat_beBytes hf.nodeDataOffset, beNat_beBytes hf.edgeDataOffset,
    beNat_beBytes hf.outgoingClusterOffset, beNat_beBytes hf.incomingClusterOffset,
    beNat_beBytes hf.freeSpaceOffset, beNat_beBytes hf.rootIndexPage,
    beNat_beBytes hf.freePageListHead, beNat_beBytes hf.totalPages, beNat_beBytes hf.pageSize,
    beNat_beBytes hf.btreeHeight⟩

end PersistentHeaderV3

end SqliteGraph.V3
