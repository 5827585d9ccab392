import SqliteGraph.Lib.HashOrder
import SqliteGraph.V3.Disk
import SqliteGraph.V3.NodePageSearch
import SqliteGraph.V3.PageLayout

/-! The node store: records on pages found through the index, the pages cached and, in a batch, staged. -/
namespace SqliteGraph.V3
open Lib

/-- `PAGE_CACHE_SIZE`. -/
def nodePageCacheSize : Nat := 64

/-- `max_preferred_pages_per_block`. -/
def maxPreferredPagesPerBlock : Nat := 3

/-- `MAX_ATTEMPTS`. -/
def maxInsertAttempts : Nat := 3

/-- The maps are hash maps; `choices` gives the order in which they are met. -/
structure NodeStore where
  btree : IndexHandle
  pageCache : AList (fun _ : Nat => Bytes)
  unpackedPageCache : AList (fun _ : Nat => NodePage)
  cacheCapacity : Nat
  blockPreferredPages : AList (fun _ : Int64 => List Nat)
  nextNodeId : Int64
  dirtyPages : AList (fun _ : Nat => NodePage)
  batchMode : Bool
  choices : Nat → Nat

/-- A node store with what it works on. -/
structure NodeState where
  disk : Disk
  store : NodeStore

abbrev NodeM (α : Type) : Type := StoreM NodeState NativeBackendError α

namespace NodeState

def manager (s : NodeState) : BTreeManager TreeStore := s.store.btree.manager s.disk

def withManager (s : NodeState) (t : BTreeManager TreeStore) : NodeState :=
  { s with
    disk := (IndexHandle.ofManager t).2
    store := { s.store with btree := (IndexHandle.ofManager t).1 } }

end NodeState

/-- The map without its first key once it has grown beyond the capacity. -/
def capped {β : Type} (choices : Nat → Nat) (capacity : Nat) (l : AList (fun _ : Nat => β)) :
    AList (fun _ : Nat => β) :=
  if capacity < l.keys.length then
    match (drain choices l.keys).head? with
    | some key => l.erase key
    | none => l
  else l

namespace NodeStore

/-- With a manager set, but no file coordinator and no write-ahead log. -/
def new (btree : IndexHandle) (cacheCapacity : Nat) (choices : Nat → Nat) : NodeStore :=
  ⟨btree, ∅, ∅, cacheCapacity, ∅, 1, ∅, false, choices⟩

def onIndex {α : Type} (x : BTreeM TreeStore α) : NodeM α := fun s =>
  ((x s.manager).1, s.withManager (x s.manager).2)

/-- The order in which a hash map gives out its entries this time. -/
def hashOrder {α : Type} (l : List α) : NodeM (List α) := fun s =>
  (.ok (drain s.store.choices l),
    { s with store := { s.store with choices := fun n => s.store.choices (n + l.length) } })

def pageCacheInsert (pageId : Nat) (data : Bytes) : NodeM Unit :=
  .modify fun s => { s with store := { s.store with
    unpackedPageCache := s.store.unpackedPageCache.erase pageId
    pageCache := capped s.store.choices s.store.cacheCapacity (s.store.pageCache.insert pageId data)
    choices := fun n => s.store.choices (n + 1) } }

def pageCacheInsertIfAbsent (pageId : Nat) (data : Bytes) : NodeM Unit :=
  .modify fun s =>
    if pageId ∈ s.store.pageCache then s
    else { s with store := { s.store with
      pageCache := capped s.store.choices s.store.cacheCapacity (s.store.pageCache.insert pageId data)
      choices := fun n => s.store.choices (n + 1) } }

def unpackedPageCacheInsert (pageId : Nat) (page : NodePage) : NodeM Unit :=
  .modify fun s => { s with store := { s.store with
    unpackedPageCache :=
      capped s.store.choices s.store.cacheCapacity (s.store.unpackedPageCache.insert pageId page)
    choices := fun n => s.store.choices (n + 1) } }

def writeBytes (pageId : Nat) (bytes : Bytes) : NodeM Unit :=
  .modify fun s => { s with disk := { s.disk with file := s.disk.file.writeAt (pageOffset pageId) bytes } }

/-- The read that `load_page_from_disk` and `load_page_cache_ro` have in common. -/
def readPage (pageId : Nat) : NodeM Bytes := do
  let s ← .get
  match s.disk.file.readExact (pageOffset pageId) defaultPageSize with
  | some buffer => pure buffer
  | none => .throw (.ioError s!"Failed to read page {pageId}")

def loadPageFromDisk (pageId : Nat) : NodeM Bytes := do
  let s ← .get
  match s.store.pageCache.lookup pageId with
  | some cached => pure cached
  | none => do
    let buffer ← readPage pageId
    pageCacheInsert pageId buffer
    pure buffer

def loadPageCacheRo (pageId : Nat) : NodeM Bytes := do
  let s ← .get
  match s.store.pageCache.lookup pageId with
  | some cached => pure cached
  | none => do
    let buffer ← readPage pageId
    pageCacheInsertIfAbsent pageId buffer
    pure buffer

def loadNodePage (pageId : Nat) : NodeM NodePage := do
  let s ← .get
  match s.store.dirtyPages.lookup pageId with
  | some page => pure page
  | none =>
    match s.store.pageCache.lookup pageId with
    | some cached => .ofExcept (NodePage.unpack cached)
    | none => do
      let bytes ← loadPageFromDisk pageId
      .ofExcept (NodePage.unpack bytes)

def writeNodePage (page : NodePage) : NodeM Unit := do
  let s ← .get
  if s.store.batchMode then
    .modify fun s => { s with store := { s.store with
      dirtyPages := s.store.dirtyPages.insert page.pageId.toNat page } }
  else do
    let bytes ← .ofExcept page.pack
    writeBytes page.pageId.toNat bytes

def allocatePage : NodeM Nat := fun s =>
  match s.disk.allocator.allocate with
  | .ok (pageId, allocator) => (.ok pageId, { s with disk := { s.disk with allocator } })
  | .error e => (.error e, s)

def allocateNodeId : NodeM Int64 := fun s =>
  (.ok s.store.nextNodeId, { s with store := { s.store with nextNodeId := s.store.nextNodeId + 1 } })

def estimateNodeSize (node : NodeRecordV3) : Except NativeBackendError UInt16 :=
  node.estimateCompressedSize 0

def hasRoom (nodeSize : UInt16) : Option NodePage → Bool
  | some page => decide (nodeSize ≤ page.capacity)
  | none => false

/-- A preferred page of the block, the latest first, that has room as it is staged or as it is
cached. -/
def preferredPage (x : NodeStore) (blockId : Int64) (nodeSize : UInt16) : Option Nat :=
  ((x.blockPreferredPages.lookup blockId).getD []).reverse.find? fun pageId =>
    hasRoom nodeSize (x.dirtyPages.lookup pageId) ||
      hasRoom nodeSize ((x.pageCache.lookup pageId).bind fun bytes => (NodePage.unpack bytes).toOption)

/-- A staged page with room. -/
def dirtyPageWithRoom (nodeSize : UInt16) : NodeM (Option Nat) := do
  let s ← .get
  let pages ← hashOrder s.store.dirtyPages.entries
  pure ((pages.find? fun e => hasRoom nodeSize (some e.2)).map Sigma.fst)

/-- A cached page with room that is not staged. -/
def cachedPageWithRoom (nodeSize : UInt16) : NodeM (Option Nat) := do
  let s ← .get
  let pages ← hashOrder s.store.pageCache.entries
  pure ((pages.find? fun e => decide (e.1 ∉ s.store.dirtyPages) &&
    hasRoom nodeSize (NodePage.unpack e.2).toOption).map Sigma.fst)

def associatePageWithBlock (pageId : Nat) (blockId : Int64) : NodeM Unit :=
  .modify fun s =>
    let pages := (s.store.blockPreferredPages.lookup blockId).getD []
    let pages :=
      if pageId ∈ pages then pages
      else (pages ++ [pageId]).drop (pages.length + 1 - maxPreferredPagesPerBlock)
    { s with store := { s.store with
      blockPreferredPages := s.store.blockPreferredPages.insert blockId pages } }

/-- An empty page, written at once, also in a batch. -/
def writeEmptyPage (pageId : Nat) : NodeM Bytes := do
  let bytes ← .ofExcept (NodePage.new (.ofNat pageId)).pack
  writeBytes pageId bytes
  pure bytes

def createPage (blockId : Int64) : NodeM Nat := do
  let pageId ← allocatePage
  associatePageWithBlock pageId blockId
  let bytes ← writeEmptyPage pageId
  pageCacheInsert pageId bytes
  pure pageId

def findOrCreatePageForNode (node : NodeRecordV3) : NodeM Nat := do
  let nodeSize ← .ofExcept (estimateNodeSize node)
  let blockId := nodeIdToBlock node.id
  let s ← .get
  match s.store.preferredPage blockId nodeSize with
  | some pageId => pure pageId
  | none => do
    let dirty ← dirtyPageWithRoom nodeSize
    match dirty with
    | some pageId => pure pageId
    | none => do
      let cached ← cachedPageWithRoom nodeSize
      match cached with
      | some pageId => pure pageId
      | none => createPage blockId

/-- The page of a retry, which is neither cached nor preferred. -/
def createRetryPage : NodeM Nat := do
  let pageId ← allocatePage
  let _ ← writeEmptyPage pageId
  pure pageId

/-- A page that has taken the record: written or staged, bound in the index, and then cached. -/
def commitInsertion (nodeId : Int64) (pageId : Nat) (page : NodePage) : NodeM Unit := do
  writeNodePage page
  onIndex (BTreeManager.insert treeStore false maxTreeHeight nodeId pageId)
  let s ← .get
  if s.store.batchMode then pure ()
  else do
    let bytes ← .ofExcept page.pack
    pageCacheInsert pageId bytes

/-- Only the first of the attempts that are left looks for a page that has room. -/
def pageForAttempt (node : NodeRecordV3) (left : Nat) : NodeM Nat :=
  if left = maxInsertAttempts then findOrCreatePageForNode node else createRetryPage

/-- A full page asks for another attempt, as long as there is one. -/
def afterAttempt (nodeId : Int64) (left : Nat) (retry : NodeM Int64) (pageId : Nat) :
    Except NativeBackendError Unit × NodePage → NodeM Int64
  | (.ok (), page) => do
    commitInsertion nodeId pageId page
    pure nodeId
  | (.error (.invalidHeader field reason), _) =>
    if field = "node_page" ∧ 0 < left then retry else .throw (.invalidHeader field reason)
  | (.error e, _) => .throw e

def insertLoop (node : NodeRecordV3) : Nat → NodeM Int64
  | 0 => .throw .outOfFuel
  | left + 1 => do
    let pageId ← pageForAttempt node (left + 1)
    let page ← loadNodePage pageId
    afterAttempt node.id left (insertLoop node left) pageId (page.addNode node)

def insertNode (node : NodeRecordV3) : NodeM Int64 := do
  let nodeId ← allocateNodeId
  insertLoop { node with id := nodeId } maxInsertAttempts

/-- `fuel` bounds the index's search along the leaves. -/
def lookupPage (fuel : Nat) (nodeId : Int64) : NodeM (Option Nat) :=
  onIndex (BTreeManager.lookup treeStore fuel nodeId)

/-- The estimates added up as `u16`, which a release build lets wrap. -/
def estimatedBytes (nodes : List NodeRecordV3) : Except NativeBackendError UInt16 :=
  nodes.foldlM (fun total node => (estimateNodeSize node).map (total + ·)) 0

/-- A changed page to its place and into the cache. -/
def rewritePage (pageId : Nat) (page : NodePage) : NodeM Unit := do
  writeNodePage page
  let bytes ← .ofExcept page.pack
  pageCacheInsert pageId bytes

def updateNode (fuel : Nat) (nodeId : Int64) (node : NodeRecordV3) : NodeM Unit := do
  let found ← lookupPage fuel nodeId
  match found with
  | none => .throw (.invalidHeader "update_node" s!"Node {nodeId} not found")
  | some pageId => do
    let page ← loadNodePage pageId
    match page.nodes.findIdx? fun r => decide (r.id = nodeId) with
    | none => .throw (.invalidHeader "update_node" s!"Node {nodeId} not found in page {pageId}")
    | some i => do
      let nodes := page.nodes.set i node
      let usedBytes ← .ofExcept (estimatedBytes nodes)
      rewritePage pageId { page with nodes, usedBytes }

/-- The record stays on its page as a tombstone; only the index forgets it. -/
def deleteNode (fuel : Nat) (nodeId : Int64) : NodeM Bool := do
  let found ← lookupPage fuel nodeId
  match found with
  | none => pure false
  | some pageId => do
    let page ← loadNodePage pageId
    match page.nodes.findIdx? fun r => decide (r.id = nodeId) with
    | none => pure false
    | some i => do
      let nodes := page.nodes.modify i fun r => { r with flags := NodeFlags.deleted }
      let page := { page with nodes }
      writeNodePage page
      let _ ← onIndex (BTreeManager.delete treeStore fuel nodeId)
      let bytes ← .ofExcept page.pack
      pageCacheInsert pageId bytes
      pure true

def lookupNode (fuel : Nat) (nodeId : Int64) : NodeM (Option NodeRecordV3) := do
  let found ← lookupPage fuel nodeId
  match found with
  | none => pure none
  | some pageId => do
    let page ← loadNodePage pageId
    pure (page.nodes.find? fun r => decide (r.id = nodeId))

/-- It does not look at staged pages. -/
def lookupNodeRo (fuel : Nat) (nodeId : Int64) : NodeM (Option NodeRecordV3) := do
  let found ← lookupPage fuel nodeId
  match found with
  | none => pure none
  | some pageId => do
    let s ← .get
    match s.store.unpackedPageCache.lookup pageId with
    | some page => pure (page.findNode nodeId)
    | none => do
      let data ← loadPageCacheRo pageId
      let page ← .ofExcept (NodePage.unpack data)
      unpackedPageCacheInsert pageId page
      pure (page.findNode nodeId)

def clearCache : NodeM Unit :=
  .modify fun s => { s with store := { s.store with pageCache := ∅ } }

def beginBatch : NodeM Unit :=
  .modify fun s => { s with store := { s.store with batchMode := true, dirtyPages := ∅ } }

/-- The pass that looks how long the file must get packs every page once. -/
def packAll : List (Sigma fun _ : Nat => NodePage) → NodeM Unit
  | [] => pure ()
  | e :: rest => do
    let _ ← .ofExcept e.2.pack
    packAll rest

def writeAll : List (Sigma fun _ : Nat => NodePage) → NodeM Unit
  | [] => pure ()
  | e :: rest => do
    let bytes ← .ofExcept e.2.pack
    writeBytes e.1 bytes
    pageCacheInsert e.1 bytes
    writeAll rest

def clearDirty : NodeM Unit :=
  .modify fun s => { s with store := { s.store with dirtyPages := ∅ } }

def endBatch : NodeM Unit :=
  .modify fun s => { s with store := { s.store with batchMode := false } }

def commitBatch : NodeM Nat := do
  let s ← .get
  if s.store.batchMode then do
    if 0 < s.store.dirtyPages.entries.length then do
      let pages ← hashOrder s.store.dirtyPages.entries
      packAll pages
      writeAll pages
      clearDirty
    else pure ()
    endBatch
    pure s.store.dirtyPages.entries.length
  else pure 0

def rollbackBatch : NodeM Unit := do
  clearDirty
  endBatch

end NodeStore

/-- The part of `V3Backend::create` that a node store depends on. -/
def NodeState.create (file : ByteFile) (header : PersistentHeaderV3) (cacheCapacity : Nat)
    (choices cacheChoices : Nat → Nat) : NodeState :=
  ⟨⟨file, .new header⟩,
    .new ⟨emptyTreeRoot, 0, .new defaultCacheCapacity cacheChoices⟩ cacheCapacity choices⟩

end SqliteGraph.V3
