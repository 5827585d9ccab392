import SqliteGraph.Algo.FiniteGraph
import SqliteGraph.Lib.HashOrder

/-! The sets of dominators: one data-flow iteration, run along the edges or against them. -/
namespace SqliteGraph.Algo
open Lib Sqlite

/-- A hash map of hash sets of nodes, each set without repetitions. -/
abbrev NodeSets := Int64 → Option (List Int64)

def sameSet (a b : List Int64) : Bool := a.all (· ∈ b) && b.all (· ∈ a)

/-- The root has itself, the others have all nodes. -/
def initializeSets (allNodes : List Int64) (root : Int64) : NodeSets := fun node =>
  if node ∉ allNodes then none
  else if node = root then some [root]
  else some allNodes.dedup

section Iteration
variable (before : Int64 → List Int64)

def intersect (sets : NodeSets) (nodes : List Int64) : Option (List Int64) :=
  nodes.foldl (fun result node =>
    match sets node, result with
    | some set, some current => some (current.filter (· ∈ set))
    | some set, none => some set
    | none, _ => result) none

/-- The node and what the sets of all nodes before it have in common. -/
def visitNode (sets : NodeSets) (node : Int64) : NodeSets × Bool :=
  match intersect sets (before node) with
  | none => (sets, false)
  | some common =>
    let set := common.insert node
    if (sets node).any (sameSet set) then (sets, false)
    else (Function.update sets node (some set), true)

def visitNext (state : NodeSets × Bool) (node : Int64) : NodeSets × Bool :=
  let visited := visitNode before state.1 node
  (visited.1, state.2 || visited.2)

/-- One round over the nodes after the first; whether it has changed a set. -/
def visitNodes (sets : NodeSets) (order : List Int64) : NodeSets × Bool :=
  (order.tail.filter fun node => order.head? ≠ some node).foldl (visitNext before) (sets, false)

/-- The rounds, of which `failure` tells that they were too many. -/
def iterateSets (order : List Int64) (failure : SqliteGraphError) :
    Nat → NodeSets → Except SqliteGraphError NodeSets
  | 0, _ => .error failure
  | rounds + 1, sets =>
    let (sets, changed) := visitNodes before sets order
    if !changed then .ok sets else iterateSets order failure rounds sets

end Iteration

/-- The first candidate whose set has all others, or else the first with the largest set. -/
def findImmediate (sets : NodeSets) (strict : List Int64) :
    List Int64 → Option Int64 → Nat → Option Int64
  | [], best, _ => best
  | candidate :: rest, best, maxSize =>
    match sets candidate with
    | none => findImmediate sets strict rest best maxSize
    | some set =>
      if strict.all fun other => other = candidate || other ∈ set then some candidate
      else if maxSize < set.length then findImmediate sets strict rest (some candidate) set.length
      else findImmediate sets strict rest best maxSize

/-- `choices` tells in which order the set of a node gives out its elements. -/
def extractImmediate (choices : Int64 → Nat → Nat) (sets : NodeSets) (root node : Int64) :
    Option (Option Int64) :=
  if node = root then some none
  else (sets node).map fun set =>
    let strict := (drain (choices node) set).filter (· ≠ node)
    findImmediate sets strict strict none 0

end SqliteGraph.Algo
