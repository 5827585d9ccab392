import SqliteGraph.Backend
import SqliteGraph.Lib.Search

/-! Traversals of the backend that keeps its graph in database tables. -/
namespace SqliteGraph.Sqlite
open Lib

/-- A row of `graph_edges` without its data; here `id` counts the insertions. -/
structure GraphEdge extends EdgeSpec where
  id : Int
  deriving DecidableEq, Repr

/-- The ids of `graph_entities`, and `graph_edges`. -/
structure Tables where
  entities : List Int64
  edges : List GraphEdge

def validateEdge (edge : EdgeSpec) : Except SqliteGraphError Unit :=
  if isBlank edge.edgeType then .error (.invalidInput "edge type must be set")
  else if edge.fromId ≤ 0 ∨ edge.toId ≤ 0 then
    .error (.invalidInput "edge endpoints must be positive ids")
  else .ok ()

def insertEdge (t : Tables) (edge : EdgeSpec) : Except SqliteGraphError Tables := do
  validateEdge edge
  if edge.fromId ∉ t.entities ∨ edge.toId ∉ t.entities then
    .error (.invalidInput "edge endpoints must reference existing entities")
  else .ok { t with edges := t.edges ++ [{ edge with id := t.edges.length + 1 }] }

def insertEdges (t : Tables) : List EdgeSpec → Except SqliteGraphError Tables
  | [] => .ok t
  | edge :: edges => do
    let t ← insertEdge t edge
    insertEdges t edges

/-- `ORDER BY neighbor, edge_type, id`. -/
def rowOrder (neighbor : GraphEdge → Int64) (a b : GraphEdge) : Bool :=
  decide (neighbor a < neighbor b ∨ neighbor a = neighbor b ∧
    (a.edgeType < b.edgeType ∨ a.edgeType = b.edgeType ∧ a.id ≤ b.id))

/-- The rows of the edges at one end of a node, in their order. -/
def selectRows (t : Tables) (node neighbor : GraphEdge → Int64) (id : Int64) : List GraphEdge :=
  (t.edges.filter fun e => node e = id).mergeSort (rowOrder neighbor)

def fetchOutgoing (t : Tables) (id : Int64) : List Int64 :=
  (selectRows t (·.fromId) (·.toId) id).map (·.toId)

def fetchIncoming (t : Tables) (id : Int64) : List Int64 :=
  (selectRows t (·.toId) (·.fromId) id).map (·.fromId)

/-- A neighbor is taken once for all its rows, which follow one another. -/
def filterRow (allowedTypes : List String) (neighbor : GraphEdge → Int64) (result : List Int64)
    (row : GraphEdge) : List Int64 :=
  if row.edgeType ∈ allowedTypes ∧ result.getLast? ≠ some (neighbor row) then
    result ++ [neighbor row]
  else result

def filterNeighbors (t : Tables) (node : Int64) (direction : BackendDirection)
    (allowedTypes : List String) : List Int64 :=
  if allowedTypes.isEmpty then []
  else match direction with
    | .outgoing =>
      (selectRows t (·.fromId) (·.toId) node).foldl (filterRow allowedTypes (·.toId)) []
    | .incoming =>
      (selectRows t (·.toId) (·.fromId) node).foldl (filterRow allowedTypes (·.fromId)) []

def typedAdjacency (t : Tables) (node : Int64) (direction : BackendDirection)
    (allowedTypes : Option (List String)) : List Int64 :=
  match allowedTypes with
  | some set => filterNeighbors t node direction set
  | none =>
    match direction with
    | .outgoing => fetchOutgoing t node
    | .incoming => fetchIncoming t node

/-- `Vec::dedup`. -/
def dedup : List Int64 → List Int64
  | [] => []
  | [v] => [v]
  | v :: w :: ws => if v = w then dedup (w :: ws) else v :: dedup (w :: ws)

section Traversals
variable (t : Tables)

/-- The loop of `bfs_neighbors`. -/
def bfsLoop (maxDepth : Nat) :
    Nat → Finset Int64 → List (Int64 × Nat) → List Int64 → Except SqliteGraphError (List Int64)
  | _, _, [], visited => .ok visited
  | 0, _, _ :: _, _ => .error .outOfFuel
  | fuel + 1, seen, (node, depth) :: queue, visited =>
    let visited := visited ++ [node]
    if maxDepth ≤ depth then bfsLoop maxDepth fuel seen queue visited
    else
      let (seen, queue) := (fetchOutgoing t node).foldl
        (visit fun queue next => queue ++ [(next, depth + 1)]) (seen, queue)
      bfsLoop maxDepth fuel seen queue visited

def bfsNeighbors (fuel : Nat) (start : Int64) (maxDepth : Nat) :
    Except SqliteGraphError (List Int64) :=
  if start ∉ t.entities then .error (.notFound s!"entity {start}")
  else bfsLoop t maxDepth fuel {start} [(start, 0)] []

/-- The new neighbor is queued, and put down with its level. -/
def hopTo (level : Nat) (s : List (Nat × Int64) × List (Int64 × Nat)) (neighbor : Int64) :
    List (Nat × Int64) × List (Int64 × Nat) :=
  (s.1 ++ [(level, neighbor)], s.2 ++ [(neighbor, level)])

/-- The loop of `k_hop_internal`. -/
def kHopLoop (depth : Nat) (direction : BackendDirection) (allowed : Option (List String)) :
    Nat → Finset Int64 → List (Nat × Int64) → List (Int64 × Nat) →
      Except SqliteGraphError (List (Nat × Int64))
  | _, _, ordered, [] => .ok ordered
  | 0, _, _, _ :: _ => .error .outOfFuel
  | fuel + 1, visited, ordered, (node, level) :: queue =>
    if level = depth then kHopLoop depth direction allowed fuel visited ordered queue
    else
      let (visited, ordered, queue) := (typedAdjacency t node direction allowed).foldl
        (visit (hopTo (level + 1))) (visited, ordered, queue)
      kHopLoop depth direction allowed fuel visited ordered queue

def kHopInternal (fuel : Nat) (start : Int64) (depth : Nat) (direction : BackendDirection)
    (allowed : Option (List String)) : Except SqliteGraphError (List Int64) :=
  if depth = 0 then .ok []
  else do
    let ordered ← kHopLoop t depth direction allowed fuel {start} [] [(start, 0)]
    .ok ((ordered.mergeSort fun a b => decide (a.1 < b.1 ∨ a.1 = b.1 ∧ a.2 ≤ b.2)).map Prod.snd)

def kHop (fuel : Nat) (start : Int64) (depth : Nat) (direction : BackendDirection) :
    Except SqliteGraphError (List Int64) :=
  kHopInternal t fuel start depth direction none

/-- The neighbors of the nodes reached so far along one step. -/
def chainNext (current : List Int64) (step : ChainStep) : List Int64 :=
  current.flatMap fun node =>
    match step.edgeType with
    | some edgeType => typedAdjacency t node step.direction (some [edgeType])
    | none => typedAdjacency t node step.direction none

def chainLoop (current : List Int64) : List ChainStep → List Int64
  | [] => current
  | step :: chain =>
    let next := chainNext t current step
    if next.isEmpty then []
    else chainLoop (dedup (next.mergeSort fun a b => decide (a ≤ b))) chain

def chainQuery (start : Int64) (chain : List ChainStep) : List Int64 :=
  if chain.isEmpty then [start] else chainLoop t [start] chain

end Traversals

end SqliteGraph.Sqlite
