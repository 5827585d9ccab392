import SqliteGraph.Algo.TopologicalSort
import SqliteGraph.Lib.Exploration

/-! The algorithms that only ask a backend for its entities and their neighbors. -/
namespace SqliteGraph.Algo
open Lib

/-- What the algorithms ask of a backend. -/
structure GraphBackend where
  allEntityIds : Except SqliteGraphError (List Int64)
  fetchOutgoing : Int64 → Except SqliteGraphError (List Int64)
  fetchIncoming : Int64 → Except SqliteGraphError (List Int64)

namespace GraphBackend
variable (b : GraphBackend)

def bfsLoop (depth : Nat) : Nat → Finset Int64 → List (Int64 × Nat) → List Int64 →
    Except SqliteGraphError (List Int64)
  | _, _, [], result => .ok result
  | 0, _, _ :: _, _ => .error .outOfFuel
  | fuel + 1, visited, (node, currentDepth) :: queue, result =>
    if currentDepth = depth then bfsLoop depth fuel visited queue (result ++ [node])
    else if currentDepth < depth then do
      let neighbors ← b.fetchOutgoing node
      let (visited, queue) :=
        neighbors.foldl (visit fun queue w => queue ++ [(w, currentDepth + 1)]) (visited, queue)
      bfsLoop depth fuel visited queue result
    else bfsLoop depth fuel visited queue result

def bfs (fuel : Nat) (start : Int64) (depth : Nat) : Except SqliteGraphError (List Int64) := do
  let result ← b.bfsLoop depth fuel {start} [(start, 0)] []
  return result.filter (· ≠ start)

/-- The top of the stack is its head. -/
def dfsLoop : Nat → Finset Int64 → List Int64 → List Int64 → Except SqliteGraphError (List Int64)
  | _, _, [], result => .ok result
  | 0, _, _ :: _, _ => .error .outOfFuel
  | fuel + 1, visited, node :: stack, result => do
    let neighbors ← b.fetchOutgoing node
    let (visited, result, stack) :=
      neighbors.foldl (visit fun (result, stack) w => (result ++ [w], w :: stack)) (visited, result, stack)
    dfsLoop fuel visited stack result

def dfsTraversal (fuel : Nat) (start : Int64) : Except SqliteGraphError (List Int64) :=
  b.dfsLoop fuel {start} [start] []

def decrement (s : (AList fun _ : Int64 => Nat) × List Int64) (neighbor : Int64) :
    Except SqliteGraphError ((AList fun _ : Int64 => Nat) × List Int64) := do
  let degree ← expect "no entry found for key" (s.1.lookup neighbor)
  if degree = 0 then .error (.aborted (.panic "attempt to subtract with overflow"))
  else return (s.1.insert neighbor (degree - 1), if degree - 1 = 0 then s.2 ++ [neighbor] else s.2)

def enqueue (s : Finset Int64 × List Int64) (neighbors : List Int64) : Finset Int64 × List Int64 :=
  neighbors.foldl (visit fun queue w => queue ++ [w]) s

/-- The search both ways for one component: what it has found, or an error, and the nodes that are
visited by then. -/
def componentLoop : Nat → Finset Int64 → List Int64 → List Int64 →
    Except SqliteGraphError (List Int64) × Finset Int64
  | _, visited, [], component => (.ok component, visited)
  | 0, visited, _ :: _, _ => (.error .outOfFuel, visited)
  | fuel + 1, visited, node :: queue, component =>
    match b.fetchOutgoing node with
    | .error e => (.error e, visited)
    | .ok neighbors =>
      let s := enqueue (visited, queue) neighbors
      match b.fetchIncoming node with
      | .error e => (.error e, s.1)
      | .ok neighbors =>
        let s := enqueue s neighbors
        componentLoop fuel s.1 s.2 (component ++ [node])

end GraphBackend

end SqliteGraph.Algo
