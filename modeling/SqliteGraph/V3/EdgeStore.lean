import SqliteGraph.Lib.HashOrder
import SqliteGraph.V3.Disk
import SqliteGraph.V3.EdgePage

/-! The edge store: neighbor lists in a cache, in clusters to be flushed, and on their pages. -/
namespace SqliteGraph.V3
open Lib

abbrev EdgeKey : Type := Int64 × Direction

/-- The index key of a node and a direction. -/
def edgeKey (src : Int64) (dir : Direction) : Int64 :=
  let dirBit : Int64 := if dir = .outgoing then 0 else 1
  let zigzagSrc := (src <<< 1) ^^^ (src >>> 63)
  (dirBit <<< 62) ||| (zigzagSrc &&& 0x3FFF_FFFF_FFFF_FFFF)

/-- Both maps are hash maps; `choices` gives the order in which a flush meets the dirty clusters. -/
structure V3EdgeStore where
  btree : IndexHandle
  cache : AList (fun _ : EdgeKey => List Int64)
  dirtyClusters : AList (fun _ : EdgeKey => V3EdgeCluster)
  io : EdgePageIO
  choices : Nat → Nat

/-- An edge store with what it works on; `sidecar` is the metadata file beside the database. -/
structure EdgeState where
  disk : Disk
  sidecar : Option Bytes
  store : V3EdgeStore

abbrev EdgeM (α : Type) : Type := StoreM EdgeState NativeBackendError α

/-- A panic, or a loop that goes on, is not an error value that a caller could drop. -/
def NativeBackendError.Aborts : NativeBackendError → Prop
  | .panic _ | .outOfFuel => True
  | _ => False

instance : DecidablePred NativeBackendError.Aborts := fun e => by
  cases e <;> unfold NativeBackendError.Aborts <;> infer_instance

namespace EdgeState

def manager (s : EdgeState) : BTreeManager TreeStore := s.store.btree.manager s.disk

def withManager (s : EdgeState) (t : BTreeManager TreeStore) : EdgeState :=
  { s with
    disk := (IndexHandle.ofManager t).2
    store := { s.store with btree := (IndexHandle.ofManager t).1 } }

@[simp] theorem manager_withManager (s : EdgeState) (t : BTreeManager TreeStore) :
    (s.withManager t).manager = t := rfl

end EdgeState

namespace V3EdgeStore

/-- Run the index on the shared disk. -/
def onIndex {α : Type} (x : BTreeM TreeStore α) : EdgeM α := fun s =>
  ((x s.manager).1, s.withManager (x s.manager).2)

/-- Run it, and hand its error over as a value. -/
def attemptIndex {α : Type} (x : BTreeM TreeStore α) : EdgeM (Except NativeBackendError α) :=
  fun s =>
    match onIndex x s with
    | (.ok a, s') => (.ok (.ok a), s')
    | (.error e, s') => if e.Aborts then (.error e, s') else (.ok (.error e), s')

/-- The allocator's result, an error included. -/
def attemptAllocate : EdgeM (Except NativeBackendError Nat) := fun s =>
  match s.disk.allocator.allocate with
  | .ok (pageId, allocator) => (.ok (.ok pageId), { s with disk := { s.disk with allocator } })
  | .error e => if e.Aborts then (.error e, s) else (.ok (.error e), s)

def new (btree : IndexHandle) (io : EdgePageIO) (choices : Nat → Nat) : V3EdgeStore :=
  ⟨btree, ∅, ∅, io, choices⟩

/-- `fuel` bounds the index's search along the leaves. -/
def lookupPage (fuel : Nat) (src : Int64) (dir : Direction) :
    EdgeM (Except NativeBackendError (Option Nat)) :=
  attemptIndex (BTreeManager.lookup treeStore fuel (edgeKey src dir))

def setCache (key : EdgeKey) (neighbors : List Int64) : EdgeM Unit :=
  .modify fun s => { s with store := { s.store with cache := s.store.cache.insert key neighbors } }

def setDirty (key : EdgeKey) (cluster : V3EdgeCluster) : EdgeM Unit :=
  .modify fun s => { s with
    store := { s.store with dirtyClusters := s.store.dirtyClusters.insert key cluster } }

def loadNeighborsFromDisk (fuel : Nat) (src : Int64) (dir : Direction) : EdgeM (List Int64) := do
  let r ← lookupPage fuel src dir
  let s ← .get
  match r with
  | .ok (some pageId) => pure (s.store.io.loadNeighbors s.disk.file pageId)
  | _ => pure []

def neighbors (fuel : Nat) (src : Int64) (dir : Direction) : EdgeM (List Int64) := do
  let s ← .get
  match s.store.cache.lookup (src, dir) with
  | some neighbors => pure neighbors
  | none => do
    let neighbors ← loadNeighborsFromDisk fuel src dir
    if neighbors.isEmpty then pure []
    else do
      setCache (src, dir) neighbors
      pure neighbors

/-- The page of a new cluster: the one that the index has, or a new one; 0 puts it off to the
flush. -/
def findOrAllocatePage (fuel : Nat) (src : Int64) (dir : Direction) : EdgeM Nat := do
  let r ← lookupPage fuel src dir
  match r with
  | .ok (some pageId) => pure pageId
  | _ => do
    let allocated ← attemptAllocate
    match allocated with
    | .ok pageId => pure pageId
    | .error _ => pure 0

/-- The cached list takes a destination once. -/
def cacheEdge (src dst : Int64) (dir : Direction) : EdgeM Unit := do
  let s ← .get
  match s.store.cache.lookup (src, dir) with
  | some neighbors =>
    if dst ∈ neighbors then pure () else setCache (src, dir) (neighbors ++ [dst])
  | none => setCache (src, dir) [dst]

/-- The dirty cluster takes every edge; a new one starts out empty, whatever its page holds. -/
def clusterEdge (fuel : Nat) (src dst : Int64) (dir : Direction) (edgeType : Option String) :
    EdgeM Unit := do
  let s ← .get
  match s.store.dirtyClusters.lookup (src, dir) with
  | some cluster => setDirty (src, dir) (cluster.addEdge dst edgeType)
  | none => do
    let pageId ← findOrAllocatePage fuel src dir
    setDirty (src, dir) ((V3EdgeCluster.new src dir pageId).addEdge dst edgeType)

def insertEdge (fuel : Nat) (src dst : Int64) (dir : Direction) (edgeType : Option String) :
    EdgeM Unit := do
  cacheEdge src dst dir
  clusterEdge fuel src dst dir edgeType

/-- A cluster whose page could not be allocated at insertion gets one now. -/
def clusterPage (key : EdgeKey) (cluster : V3EdgeCluster) : EdgeM Nat := do
  if cluster.pageId = 0 then do
    let allocated ← attemptAllocate
    match allocated with
    | .ok pageId => pure pageId
    | .error _ =>
      .throw (.ioError s!"Failed to allocate edge page for ({key.1}, {repr key.2})")
  else pure cluster.pageId

def writePage (pageId : Nat) (data : Bytes) : EdgeM Unit :=
  .modify fun s => { s with
    disk := { s.disk with file := s.store.io.writePageToDisk s.disk.file pageId data } }

/-- One cluster to its page and into the index, whose error is dropped. -/
def flushCluster (key : EdgeKey) (cluster : V3EdgeCluster) : EdgeM Unit := do
  let pageId ← clusterPage key cluster
  writePage pageId cluster.serialize
  let _ ← attemptIndex
    (BTreeManager.insert treeStore false maxTreeHeight (edgeKey key.1 key.2) pageId)
  pure ()

def flushClusters : List (Sigma fun _ : EdgeKey => V3EdgeCluster) → EdgeM Unit
  | [] => pure ()
  | ⟨key, cluster⟩ :: rest => do
    flushCluster key cluster
    flushClusters rest

def sidecarMagic : Bytes := [0x56, 0x33, 0x45, 0x44, 0x47, 0x45, 0, 0]

/-- The sum of the bytes, wrapping at 32 bits. -/
def byteSum (data : Bytes) : Nat := (data.map UInt8.toNat).sum % 2 ^ 32

def sidecarBytes (rootPageId treeHeight : Nat) : Bytes :=
  let data := sidecarMagic ++ (leBytes 8 rootPageId ++ leBytes 4 treeHeight)
  data ++ leBytes 4 (byteSum data)

def persistBtreeMetadata : EdgeM Unit :=
  .modify fun s => { s with
    sidecar := some (sidecarBytes s.store.btree.rootPageId s.store.btree.treeHeight) }

def clearDirty : EdgeM Unit :=
  .modify fun s => { s with store := { s.store with
    dirtyClusters := ∅
    choices := fun n => s.store.choices (n + s.store.dirtyClusters.entries.length) } }

def flush : EdgeM Unit := do
  let s ← .get
  if s.store.dirtyClusters.entries.isEmpty then pure ()
  else do
    flushClusters (drain s.store.choices s.store.dirtyClusters.entries)
    clearDirty
    persistBtreeMetadata

/-- The root and the height, if the sidecar is there and sound. -/
def recoverBtreeMetadata : Option Bytes → Option (Nat × Nat)
  | none => none
  | some data =>
    if data.length < 24 then none
    else if slice data 0 8 ≠ sidecarMagic then none
    else if leNat (slice data 20 4) ≠ byteSum (data.take 20) then none
    else some (leNat (slice data 8 8), leNat (slice data 16 4))

/-- The index of a store just opened: the header's root and height, or better the sidecar's. -/
def restoredIndex (header : PersistentHeaderV3) (sidecar : Option Bytes) (choices : Nat → Nat) :
    IndexHandle :=
  let pageCache := BTreePageCache.new defaultCacheCapacity choices
  match recoverBtreeMetadata sidecar with
  | some (rootPageId, treeHeight) => ⟨rootPageId, treeHeight, pageCache⟩
  | none => ⟨header.edgeDataOffset, header.btreeHeight, pageCache⟩

/-- `btree_root_page_id`. -/
def btreeRootPageId (x : V3EdgeStore) : Option Nat :=
  if x.btree.rootPageId ≠ 0 ∧ x.btree.rootPageId ≠ emptyTreeRoot then some x.btree.rootPageId
  else none

end V3EdgeStore

/-- The part of a `V3Backend` that an edge store depends on. -/
structure EdgeSession where
  header : PersistentHeaderV3
  state : EdgeState

abbrev SessionM (α : Type) : Type := StoreM EdgeSession NativeBackendError α

namespace EdgeSession
open V3EdgeStore

def onStore {α : Type} (x : EdgeM α) : SessionM α := fun s =>
  ((x s.state).1, { s with state := (x s.state).2 })

/-- `V3Backend::create`, which sets no file coordinator. -/
def create (pageSize : Nat) (choices cacheChoices : Nat → Nat) : EdgeSession :=
  let header := { PersistentHeaderV3.newV3 with pageSize }
  let btree := ⟨emptyTreeRoot, 0, .new defaultCacheCapacity cacheChoices⟩
  ⟨header, ⟨ByteFile.empty.writeAt 0 header.toBytes, .new header⟩, none,
    .new btree ⟨pageSize, false⟩ choices⟩

/-- `flush_to_disk`, as far as it concerns edges: flush, refresh the header, write it. -/
def flushToDisk : SessionM Unit := do
  onStore flush
  .modify fun s =>
    let header := { s.header with
      edgeDataOffset := s.state.store.btreeRootPageId.getD s.header.edgeDataOffset
      totalPages := s.state.disk.allocator.totalPages }
    let disk := { s.state.disk with file := s.state.disk.file.writeAt 0 header.toBytes }
    { s with header, state := { s.state with disk } }

def readHeader (file : ByteFile) : Except NativeBackendError PersistentHeaderV3 :=
  match file.readExact 0 v3HeaderSize with
  | none => .error (.ioError "Failed to read header")
  | some bytes => do
    let header ← PersistentHeaderV3.fromBytes bytes
    header.validate
    .ok header

/-- `V3Backend::open`: nothing but the file and the sidecar is left of the session before. -/
def reopened (s : EdgeSession) (header : PersistentHeaderV3) : EdgeSession :=
  let btree := restoredIndex header s.state.sidecar s.state.store.btree.pageCache.choices
  ⟨header, ⟨s.state.disk.file, .new header⟩, s.state.sidecar,
    .new btree ⟨header.pageSize, false⟩ s.state.store.choices⟩

/-- A close, which flushes, and an open. -/
def reopen : SessionM Unit := do
  flushToDisk
  let s ← .get
  let header ← .ofExcept (readHeader s.state.disk.file)
  .modify fun s => s.reopened header

end EdgeSession

end SqliteGraph.V3
