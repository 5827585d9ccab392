import SqliteGraph.Backend
import SqliteGraph.Lib.Search
import SqliteGraph.V3.EdgeStore

/-! Edge insertions and traversals of the native backend, over its edge store. -/
namespace SqliteGraph.V3
open Lib

/-- The edge store beside the ids of the nodes that can be found. -/
structure TraversalState where
  nodeIds : List Int64
  edges : EdgeState
  edgeCount : Nat

abbrev TraversalM (α : Type) : Type := StoreM TraversalState SqliteGraphError α

namespace V3Backend

/-- Run the edge store; its errors all become connection errors, of which no caller reads the text. -/
def onEdges {α : Type} (x : EdgeM α) : TraversalM α := fun s =>
  match x s.edges with
  | (.ok a, edges) => (.ok a, { s with edges })
  | (.error e, edges) =>
    (.error (if e.Aborts then .aborted e else .connectionError s!"{repr e}"), { s with edges })

/-- `fuel` bounds the index's search along the leaves, here and below. -/
def outgoing (fuel : Nat) (src : Int64) : TraversalM (List Int64) :=
  onEdges (V3EdgeStore.neighbors fuel src .outgoing)

def incoming (fuel : Nat) (src : Int64) : TraversalM (List Int64) :=
  onEdges (V3EdgeStore.neighbors fuel src .incoming)

def adjacency (fuel : Nat) (direction : BackendDirection) (node : Int64) : TraversalM (List Int64) :=
  match direction with
  | .outgoing => outgoing fuel node
  | .incoming => incoming fuel node

def insertEdgeInner (fuel : Nat) (edge : EdgeSpec) : TraversalM Nat := do
  let s ← .get
  if edge.fromId ∉ s.nodeIds ∨ edge.toId ∉ s.nodeIds then
    .throw (.invalidInput "edge endpoints must reference existing entities")
  else do
    let edgeType := if edge.edgeType.isEmpty then none else some edge.edgeType
    onEdges (V3EdgeStore.insertEdge fuel edge.fromId edge.toId .outgoing edgeType)
    onEdges (V3EdgeStore.insertEdge fuel edge.toId edge.fromId .incoming edgeType)
    .modify fun s => { s with edgeCount := s.edgeCount + 1 }
    let s ← .get
    pure s.edgeCount

def insertEdges (fuel : Nat) : List EdgeSpec → TraversalM Unit
  | [] => pure ()
  | edge :: edges => do
    let _ ← insertEdgeInner fuel edge
    insertEdges fuel edges

/-- The loop of `bfs` and `k_hop`, which differ in the direction and in the levels they list. -/
def hopLoop (lookupFuel : Nat) (direction : BackendDirection) (depth : Nat) (lists : Nat → Bool) :
    Nat → Finset Int64 → List (Int64 × Nat) → List Int64 → TraversalM (List Int64)
  | _, _, [], result => pure result
  | 0, _, _ :: _, _ => .throw .outOfFuel
  | fuel + 1, visited, (nodeId, currentDepth) :: queue, result =>
    if depth < currentDepth then hopLoop lookupFuel direction depth lists fuel visited queue result
    else do
      let result := if lists currentDepth then result ++ [nodeId] else result
      if currentDepth < depth then do
        let neighbors ← adjacency lookupFuel direction nodeId
        let (visited, queue) := neighbors.foldl
          (visit fun queue neighbor => queue ++ [(neighbor, currentDepth + 1)]) (visited, queue)
        hopLoop lookupFuel direction depth lists fuel visited queue result
      else hopLoop lookupFuel direction depth lists fuel visited queue result

def bfs (fuel : Nat) (start : Int64) (depth : Nat) : TraversalM (List Int64) :=
  hopLoop fuel .outgoing depth (fun _ => true) fuel {start} [(start, 0)] []

/-- The start is listed when the depth is 0, and not otherwise. -/
def kHop (fuel : Nat) (start : Int64) (depth : Nat) (direction : BackendDirection) :
    TraversalM (List Int64) :=
  hopLoop fuel direction depth (fun currentDepth => decide (0 < currentDepth ∨ depth = 0)) fuel
    {start} [(start, 0)] []

/-- The neighbors of all nodes of a list, one after the other. -/
def chainNext (fuel : Nat) (direction : BackendDirection) : List Int64 → TraversalM (List Int64)
  | [] => pure []
  | nodeId :: nodes => do
    let neighbors ← adjacency fuel direction nodeId
    let rest ← chainNext fuel direction nodes
    pure (neighbors ++ rest)

/-- The steps' edge types are not looked at. -/
def chainLoop (fuel : Nat) (currentNodes : List Int64) : List ChainStep → TraversalM (List Int64)
  | [] => pure currentNodes
  | step :: chain => do
    let nextNodes ← chainNext fuel step.direction currentNodes
    chainLoop fuel nextNodes chain

def chainQuery (fuel : Nat) (start : Int64) (chain : List ChainStep) : TraversalM (List Int64) :=
  chainLoop fuel [start] chain

/-- The nodes visited with their parents, the newest first; the start has none. -/
abbrev Visited : Type := List (Int64 × Option Int64)

/-- The neighbors of a node, up to the end of the path. -/
def visitNeighbors (nodeId finish : Int64) :
    List Int64 → Visited → List Int64 → Bool × Visited × List Int64
  | [], visited, queue => (false, visited, queue)
  | neighbor :: rest, visited, queue =>
    if (visited.lookup neighbor).isSome then visitNeighbors nodeId finish rest visited queue
    else
      let visited := (neighbor, some nodeId) :: visited
      if neighbor = finish then (true, visited, queue)
      else visitNeighbors nodeId finish rest visited (queue ++ [neighbor])

/-- From parent to parent, up to the node without one. -/
def reconstructPath (visited : Visited) : Nat → Int64 → List Int64 → Option (List Int64)
  | 0, _, _ => none
  | fuel + 1, current, path =>
    match visited.lookup current with
    | none => some path
    | some none => some (path ++ [current])
    | some (some parent) => reconstructPath visited fuel parent (path ++ [current])

/-- The loop of `shortest_path`. -/
def pathLoop (lookupFuel : Nat) (finish : Int64) :
    Nat → Visited → List Int64 → TraversalM (Option (List Int64))
  | _, _, [] => pure none
  | 0, _, _ :: _ => .throw .outOfFuel
  | fuel + 1, visited, nodeId :: queue => do
    let neighbors ← outgoing lookupFuel nodeId
    let (found, visited, queue) := visitNeighbors nodeId finish neighbors visited queue
    if found then
      match reconstructPath visited lookupFuel nodeId [finish] with
      | some path => pure (some path.reverse)
      | none => .throw .outOfFuel
    else pathLoop lookupFuel finish fuel visited queue

def shortestPath (fuel : Nat) (start finish : Int64) : TraversalM (Option (List Int64)) :=
  if start = finish then pure (some [start])
  else pathLoop fuel finish fuel [(start, none)] [start]

end V3Backend

end SqliteGraph.V3
