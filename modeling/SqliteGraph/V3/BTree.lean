import SqliteGraph.Lib.StoreM
import SqliteGraph.V3.IndexPage

/-! The B+Tree manager: lookup, insertion with splits on the way down, and deletion. -/
namespace SqliteGraph.V3
open Lib

def maxTreeHeight : Nat := 10

/-- The root of a tree that has no page yet. -/
def emptyTreeRoot : Nat := 2 ^ 64 - 1

/-- The manager's own fields, beside the store it shares: allocator, page cache and file. -/
structure BTreeManager (σ : Type) where
  rootPageId : Nat
  treeHeight : Nat
  store : σ

abbrev BTreeM (σ α : Type) : Type := StoreM (BTreeManager σ) NativeBackendError α

abbrev IndexStore (σ : Type) : Type := PageStore σ NativeBackendError IndexPage

namespace BTreeManager
variable {σ : Type} (S : IndexStore σ)

def new (s : σ) : BTreeManager σ := ⟨emptyTreeRoot, 0, s⟩

def withRoot (s : σ) (rootPageId treeHeight : Nat) : BTreeManager σ := ⟨rootPageId, treeHeight, s⟩

def isEmpty (t : BTreeManager σ) : Bool :=
  decide (t.rootPageId = emptyTreeRoot) || decide (t.rootPageId = 0)

def onStore {α : Type} (x : StoreM σ NativeBackendError α) : BTreeM σ α := fun t =>
  ((x t.store).1, { t with store := (x t.store).2 })

def allocate : BTreeM σ Nat := onStore S.allocate
def loadPage (pageId : Nat) : BTreeM σ IndexPage := onStore (S.load pageId)
def writePage (page : IndexPage) : BTreeM σ Unit := onStore (S.write page)

def depthExceeded {α : Type} : BTreeM σ α :=
  .throw (.invalidHeader "btree_depth" s!"exceeded maximum depth {maxTreeHeight}")

def childOutOfBounds {α : Type} (childIdx : Nat) : BTreeM σ α :=
  .throw (.invalidHeader "btree_internal" s!"child index {childIdx} out of bounds")

/-- The loop of `lookup`: only a step to a child counts as depth, a step along the leaves does not. -/
def lookupLoop : Nat → Nat → Nat → Nat → BTreeM σ (Option Nat)
  | 0, _, _, _ => .throw .outOfFuel
  | fuel + 1, depth, current, key =>
    if depth < maxTreeHeight then do
      let page ← loadPage S current
      match page with
      | .leaf _ entries nextLeaf _ =>
        match IndexPage.binarySearchLeaf entries key with
        | .ok idx =>
          match entries[idx]? with
          | some e => pure (some e.2)
          | none => .throw (.invalidHeader "btree_leaf" "entry index out of bounds")
        | .error _ =>
          if nextLeaf = 0 then pure none else lookupLoop fuel depth nextLeaf key
      | .internal _ keys children _ =>
        let childIdx := IndexPage.findChildIndex keys key
        match children[childIdx]? with
        | some child => lookupLoop fuel (depth + 1) child key
        | none => childOutOfBounds childIdx
    else depthExceeded

def lookup (fuel : Nat) (key : Int64) : BTreeM σ (Option Nat) := do
  let t ← .get
  if t.isEmpty then pure none
  else lookupLoop S fuel 0 t.rootPageId key.toUInt64.toNat

/-- The loop of `find_leaf`. -/
def findLeafLoop : Nat → Nat → Nat → Nat → BTreeM σ Nat
  | 0, _, _, _ => .throw .outOfFuel
  | fuel + 1, depth, current, key =>
    if depth < maxTreeHeight then do
      let page ← loadPage S current
      match page with
      | .leaf _ _ _ _ => pure current
      | .internal _ keys children _ =>
        let childIdx := IndexPage.findChildIndex keys key
        match children[childIdx]? with
        | some child => findLeafLoop fuel (depth + 1) child key
        | none => childOutOfBounds childIdx
    else depthExceeded

def delete (fuel : Nat) (key : Int64) : BTreeM σ Bool := do
  let t ← .get
  if t.isEmpty then pure false
  else do
    let searchKey := key.toUInt64.toNat
    let leafPageId ← findLeafLoop S fuel 0 t.rootPageId searchKey
    let leafPage ← loadPage S leafPageId
    match leafPage with
    | .leaf pid entries nextLeaf isRoot =>
      match IndexPage.binarySearchLeaf entries searchKey with
      | .ok idx => do
        writePage S (.leaf pid (entries.eraseIdx idx) nextLeaf isRoot)
        pure true
      | .error _ => pure false
    | .internal _ _ _ _ => .throw (.invalidHeader "btree_delete" "expected leaf page")

def insertIntoEmptyTree (key value : Nat) : BTreeM σ Unit := do
  let pageId ← allocate S
  writePage S (.leaf pageId [(key, value)] 0 true)
  .modify fun t => { t with rootPageId := pageId, treeHeight := 1 }

/-- Write the two halves and the new root, and only then move the root. -/
def installRoot (lower sibling newRoot : IndexPage) : BTreeM σ Unit := do
  writePage S lower
  writePage S sibling
  writePage S newRoot
  .modify fun t =>
    { t with rootPageId := newRoot.pageId, treeHeight := t.treeHeight + 1 }

/-- Page contents always have one child more than keys, so the slices lie within the page. -/
def splitRoot : BTreeM σ Unit := do
  let t ← .get
  let oldRootId := t.rootPageId
  let oldRoot ← loadPage S oldRootId
  let newRootId ← allocate S
  let siblingId ← allocate S
  match oldRoot with
  | .internal _ keys children _ => do
    let splitIdx := (keys.length - 1) / 2
    let separatorKey ← .ofExcept (index keys splitIdx)
    installRoot S
      (.internal oldRootId (keys.take splitIdx) (children.take (splitIdx + 1)) false)
      (.internal siblingId (keys.drop (splitIdx + 1)) (children.drop (splitIdx + 1)) false)
      (.internal newRootId [separatorKey] [oldRootId, siblingId] true)
  | .leaf _ entries nextLeaf _ => do
    let splitIdx := entries.length / 2
    let separator ← .ofExcept (index entries splitIdx)
    -- the lower half keeps the root flag: it is rebuilt with `new_leaf_root`
    installRoot S
      (.leaf oldRootId (entries.take splitIdx) siblingId true)
      (.leaf siblingId (entries.drop splitIdx) nextLeaf false)
      (.internal newRootId [separator.1] [oldRootId, siblingId] true)

/-- The parent with the separator and the new child put in beside the split one. -/
def parentWithChild (parent : IndexPage) (childIdx separatorKey newPageId : Nat) : IndexPage :=
  match parent with
  | .internal p keys children r => .internal p (keys.insertIdx childIdx separatorKey)
      (children.insertIdx (childIdx + 1) newPageId) r
  | .leaf p entries nextLeaf r => .leaf p entries nextLeaf r

/-- Returns the new child and the separator. -/
def splitChild (parentId childIdx : Nat) : BTreeM σ (Nat × Nat) := do
  let parent ← loadPage S parentId
  match parent with
  | .leaf _ _ _ _ =>
    .throw (.invalidHeader "btree_split_child" "parent is not an internal node")
  | .internal _ _ siblings _ => do
    let childId ← .ofExcept (index siblings childIdx)
    let child ← loadPage S childId
    let newPageId ← allocate S
    match child with
    | .internal _ keys children _ => do
      let splitIdx := (keys.length - 1) / 2
      let separatorKey ← .ofExcept (index keys splitIdx)
      writePage S (.internal childId (keys.take splitIdx) (children.take (splitIdx + 1)) false)
      writePage S (.internal newPageId (keys.drop (splitIdx + 1)) (children.drop (splitIdx + 1))
        false)
      writePage S (parentWithChild parent childIdx separatorKey newPageId)
      pure (newPageId, separatorKey)
    | .leaf _ entries nextLeaf _ => do
      let splitIdx := entries.length / 2
      let separator ← .ofExcept (index entries splitIdx)
      writePage S (.leaf childId (entries.take splitIdx) newPageId false)
      writePage S (.leaf newPageId (entries.drop splitIdx) nextLeaf false)
      writePage S (parentWithChild parent childIdx separator.1 newPageId)
      pure (newPageId, separator.1)

/-- The leaf's entries with the key inserted, or its value replaced. -/
def updateEntries (entries : List (Nat × Nat)) (key value : Nat) : List (Nat × Nat) :=
  match IndexPage.binarySearchLeaf entries key with
  | .ok idx => entries.set idx (key, value)
  | .error idx => entries.insertIdx idx (key, value)

/-- `debugAssertions` tells whether the build runs `verify_invariants` on each page it meets. -/
def insertNonFull (debugAssertions : Bool) : Nat → Nat → Nat → Nat → BTreeM σ Unit
  | 0, _, _, _ => .throw .outOfFuel
  | fuel + 1, pageId, key, value => do
    let page ← loadPage S pageId
    .ofExcept (if debugAssertions then page.verifyInvariants else .ok ())
    match page with
    | .leaf pid entries nextLeaf isRoot =>
      writePage S (.leaf pid (updateEntries entries key value) nextLeaf isRoot)
    | .internal _ keys children _ => do
      let childIdx := IndexPage.findChildIndex keys key
      let childId ← .ofExcept (index children childIdx)
      let childPage ← loadPage S childId
      if childPage.needsSplitInternal || childPage.needsSplitLeaf then do
        let (_, separatorKey) ← splitChild S pageId childIdx
        let updatedParent ← loadPage S pageId
        let newChildIdx := if separatorKey ≤ key then childIdx + 1 else childIdx
        match updatedParent with
        | .internal _ _ newChildren _ => do
          let nextChildId ← .ofExcept (index newChildren newChildIdx)
          insertNonFull debugAssertions fuel nextChildId key value
        | .leaf _ _ _ _ => insertNonFull debugAssertions fuel childId key value
      else insertNonFull debugAssertions fuel childId key value

def insert (debugAssertions : Bool) (fuel : Nat) (key : Int64) (value : Nat) : BTreeM σ Unit := do
  let t ← .get
  let searchKey := key.toUInt64.toNat
  if t.isEmpty then insertIntoEmptyTree S searchKey value
  else do
    let rootPage ← loadPage S t.rootPageId
    if rootPage.needsSplitInternal || rootPage.needsSplitLeaf then splitRoot S else pure ()
    let t' ← .get
    insertNonFull S debugAssertions fuel t'.rootPageId searchKey value

end BTreeManager

end SqliteGraph.V3
