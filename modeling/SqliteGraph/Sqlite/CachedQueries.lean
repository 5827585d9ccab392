import SqliteGraph.Sqlite.CachedReads

/-! Queries that are answered from the query cache, or by a traversal through the adjacency caches. -/
namespace SqliteGraph.Sqlite
open Lib

/-- More rounds than a search over 64-bit ids can take. -/
def searchFuel : Nat := 2 ^ 64 + 1

section Tables
variable (t : Tables)

def kHopFiltered (fuel : Nat) (start : Int64) (depth : Nat) (direction : BackendDirection)
    (allowedEdgeTypes : List String) : Except SqliteGraphError (List Int64) :=
  if allowedEdgeTypes.isEmpty then .ok []
  else kHopInternal t fuel start depth direction (some allowedEdgeTypes)

/-- The state of a search for a path; the newest parents come first. -/
structure PathSearch where
  seen : Finset Int64
  parents : List (Int64 × Int64)
  queue : List Int64

/-- The neighbors of a node, up to the end of the path. -/
def scanNeighbors (node finish : Int64) : List Int64 → PathSearch → Bool × PathSearch
  | [], search => (false, search)
  | next :: rest, search =>
    if next ∈ search.seen then scanNeighbors node finish rest search
    else
      let search := { search with
        seen := insert next search.seen
        parents := (next, node) :: search.parents }
      if next = finish then (true, search)
      else scanNeighbors node finish rest { search with queue := search.queue ++ [next] }

/-- From parent to parent, back to the start. -/
def tracePath (start : Int64) (parents : List (Int64 × Int64)) :
    Nat → Int64 → List Int64 → Except SqliteGraphError (List Int64)
  | 0, _, _ => .error .outOfFuel
  | fuel + 1, current, path =>
    match parents.lookup current with
    | none => .ok path
    | some parent =>
      if parent = start then .ok (path ++ [parent])
      else tracePath start parents fuel parent (path ++ [parent])

def pathFound (fuel : Nat) (start finish : Int64) (parents : List (Int64 × Int64)) :
    Except SqliteGraphError (Option (List Int64)) := do
  let path ← tracePath start parents fuel finish [finish]
  .ok (if path.getLast? = some start then some path.reverse else none)

/-- The loop of `shortest_path`; once it is over, the path. -/
def pathLoop (start finish : Int64) : Nat → PathSearch → Except SqliteGraphError (Option (List Int64))
  | _, ⟨_, _, []⟩ => .ok none
  | 0, ⟨_, _, _ :: _⟩ => .error .outOfFuel
  | fuel + 1, ⟨seen, parents, node :: queue⟩ =>
    let (found, search) := scanNeighbors node finish (fetchOutgoing t node) ⟨seen, parents, queue⟩
    if found then pathFound searchFuel start finish search.parents
    else pathLoop start finish fuel search

def shortestPath (fuel : Nat) (start finish : Int64) :
    Except SqliteGraphError (Option (List Int64)) :=
  if start ∉ t.entities then .error (.notFound s!"entity {start}")
  else if finish ∉ t.entities then .error (.notFound s!"entity {finish}")
  else if start = finish then .ok (some [start])
  else pathLoop t start finish fuel ⟨{start}, [], [start]⟩

/-- `ORDER BY neighbor, id`. -/
def typedNeighbors (node neighbor : GraphEdge → Int64) (id : Int64) (edgeType : String) : List Int64 :=
  ((t.edges.filter fun e => node e = id ∧ e.edgeType = edgeType).mergeSort fun a b =>
    decide (neighbor a < neighbor b ∨ neighbor a = neighbor b ∧ a.id ≤ b.id)).map neighbor

def queryNeighbors (node : Int64) (direction : BackendDirection) (edgeType : Option String) :
    List Int64 :=
  match direction, edgeType with
  | .outgoing, none => fetchOutgoing t node
  | .incoming, none => fetchIncoming t node
  | .outgoing, some edgeType => typedNeighbors t (·.fromId) (·.toId) node edgeType
  | .incoming, some edgeType => typedNeighbors t (·.toId) (·.fromId) node edgeType

end Tables

def QueryResult.bfs? : QueryResult → Option (List Int64)
  | .bfs result => some result
  | _ => none

def QueryResult.kHop? : QueryResult → Option (List Int64)
  | .kHop result => some result
  | _ => none

def QueryResult.shortestPath? : QueryResult → Option (Option (List Int64))
  | .shortestPath result => some result
  | _ => none

namespace Session

section Traversals

/-- Along edges of some types the tables are asked, else the caches. -/
def typedAdjacency (node : Int64) (direction : BackendDirection) (allowedTypes : Option (List String)) :
    SessionM (List Int64) :=
  match allowedTypes with
  | some set => do
    let s ← StoreM.get
    pure (filterNeighbors s.db.tables node direction set)
  | none => fetchNeighbors direction node

def bfsLoop (maxDepth : Nat) :
    Nat → Finset Int64 → List (Int64 × Nat) → List Int64 → SessionM (List Int64)
  | _, _, [], visited => pure visited
  | 0, _, _ :: _, _ => StoreM.throw .outOfFuel
  | fuel + 1, seen, (node, depth) :: queue, visited =>
    let visited := visited ++ [node]
    if maxDepth ≤ depth then bfsLoop maxDepth fuel seen queue visited
    else do
      let neighbors ← fetchOutgoing node
      let (seen, queue) := neighbors.foldl
        (visit fun queue next => queue ++ [(next, depth + 1)]) (seen, queue)
      bfsLoop maxDepth fuel seen queue visited

/-- `get_entity`, for its error alone. -/
def checkEntity (id : Int64) : SessionM Unit := do
  let s ← StoreM.get
  if id ∉ s.db.allEntityIds then StoreM.throw (.notFound s!"entity {id}")
  else pure ()

def bfsNeighbors (start : Int64) (maxDepth : Nat) : SessionM (List Int64) := do
  checkEntity start
  bfsLoop maxDepth searchFuel {start} [(start, 0)] []

def kHopLoop (depth : Nat) (direction : BackendDirection) (allowed : Option (List String)) :
    Nat → Finset Int64 → List (Nat × Int64) → List (Int64 × Nat) → SessionM (List (Nat × Int64))
  | _, _, ordered, [] => pure ordered
  | 0, _, _, _ :: _ => StoreM.throw .outOfFuel
  | fuel + 1, visited, ordered, (node, level) :: queue =>
    if level = depth then kHopLoop depth direction allowed fuel visited ordered queue
    else do
      let neighbors ← typedAdjacency node direction allowed
      let (visited, ordered, queue) := neighbors.foldl (visit (hopTo (level + 1)))
        (visited, ordered, queue)
      kHopLoop depth direction allowed fuel visited ordered queue

def kHopInternal (start : Int64) (depth : Nat) (direction : BackendDirection)
    (allowed : Option (List String)) : SessionM (List Int64) :=
  if depth = 0 then pure []
  else do
    let ordered ← kHopLoop depth direction allowed searchFuel {start} [] [(start, 0)]
    pure ((ordered.mergeSort fun a b => decide (a.1 < b.1 ∨ a.1 = b.1 ∧ a.2 ≤ b.2)).map Prod.snd)

def pathLoop (start finish : Int64) : Nat → PathSearch → SessionM (Option (List Int64))
  | _, ⟨_, _, []⟩ => pure none
  | 0, ⟨_, _, _ :: _⟩ => StoreM.throw .outOfFuel
  | fuel + 1, ⟨seen, parents, node :: queue⟩ => do
    let neighbors ← fetchOutgoing node
    let (found, search) := scanNeighbors node finish neighbors ⟨seen, parents, queue⟩
    if found then StoreM.ofExcept (pathFound searchFuel start finish search.parents)
    else pathLoop start finish fuel search

def computePath (start finish : Int64) : SessionM (Option (List Int64)) := do
  checkEntity start
  checkEntity finish
  if start = finish then pure (some [start])
  else pathLoop start finish searchFuel ⟨{start}, [], [start]⟩

end Traversals

section Queries

/-- A query's answer is taken from the cache, or computed and put there. -/
def cached {α : Type} (key : QueryCacheKey) (wrap : α → QueryResult) (unwrap : QueryResult → Option α)
    (compute : SessionM α) : SessionM α := do
  let s ← StoreM.get
  match (s.caches.query key).bind unwrap with
  | some result => pure result
  | none => do
    let result ← compute
    StoreM.modify fun s => { s with
      caches := { s.caches with query := Function.update s.caches.query key (some (wrap result)) } }
    pure result

def bfs (start : Int64) (depth : Nat) : SessionM (List Int64) :=
  cached (.bfs start depth) .bfs QueryResult.bfs? (bfsNeighbors start depth)

def shortestPath (start finish : Int64) : SessionM (Option (List Int64)) :=
  cached (.shortestPath start finish) .shortestPath QueryResult.shortestPath? (computePath start finish)

def kHop (start : Int64) (depth : Nat) (direction : BackendDirection) : SessionM (List Int64) :=
  cached (.kHop start depth direction) .kHop QueryResult.kHop? (kHopInternal start depth direction none)

def kHopFiltered (start : Int64) (depth : Nat) (direction : BackendDirection)
    (allowedEdgeTypes : List String) : SessionM (List Int64) :=
  cached (.kHopFiltered start depth direction allowedEdgeTypes) .kHop QueryResult.kHop?
    (if allowedEdgeTypes.isEmpty then pure []
    else kHopInternal start depth direction (some allowedEdgeTypes))

def queryNeighbors (node : Int64) (direction : BackendDirection) (edgeType : Option String) :
    SessionM (List Int64) :=
  match edgeType with
  | none => fetchNeighbors direction node
  | some _ => do
    let s ← StoreM.get
    pure (Sqlite.queryNeighbors s.db.tables node direction edgeType)

end Queries

/-- A call that reads the current snapshot; any other read goes through some lists of neighbors. -/
inductive Read
  | neighbors (node : Int64) (direction : BackendDirection) (edgeType : Option String)
  | bfs (start : Int64) (depth : Nat)
  | shortestPath (start finish : Int64)
  | kHop (start : Int64) (depth : Nat) (direction : BackendDirection)
  | kHopFiltered (start : Int64) (depth : Nat) (direction : BackendDirection)
      (allowedEdgeTypes : List String)
  | other (fetched : List (BackendDirection × Int64))

inductive Answer
  | nodes (ids : List Int64)
  | path (path : Option (List Int64))
  | lists (lists : List (List Int64))
  deriving DecidableEq

def read : Read → SessionM Answer
  | .neighbors node direction edgeType => do
    let ids ← queryNeighbors node direction edgeType
    pure (.nodes ids)
  | .bfs start depth => do
    let ids ← bfs start depth
    pure (.nodes ids)
  | .shortestPath start finish => do
    let path ← shortestPath start finish
    pure (.path path)
  | .kHop start depth direction => do
    let ids ← kHop start depth direction
    pure (.nodes ids)
  | .kHopFiltered start depth direction allowedEdgeTypes => do
    let ids ← kHopFiltered start depth direction allowedEdgeTypes
    pure (.nodes ids)
  | .other fetched => do
    let lists ← forEach (fun (direction, id) => fetchNeighbors direction id) fetched
    pure (.lists lists)

end Session

end SqliteGraph.Sqlite
