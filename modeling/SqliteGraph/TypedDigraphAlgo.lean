import SqliteGraph.TypedDigraphInvariant
import SqliteGraph.Lib.DepthFirst
import SqliteGraph.Lib.Elimination

/-! The cycle test, the topological sort and the components of the in-memory directed graph. -/
namespace SqliteGraph
open Lib

/-- How a run ends that does not return. -/
inductive Stop
  | panic (message : String)
  | outOfFuel
  deriving DecidableEq

section Vectors
variable {α : Type}

def readAt (xs : List α) (i : Nat) : Except Stop α :=
  match xs[i]? with
  | some a => .ok a
  | none => .error (.panic "index out of bounds")

def writeAt (xs : List α) (i : Nat) (a : α) : Except Stop (List α) :=
  if i < xs.length then .ok (xs.set i a) else .error (.panic "index out of bounds")

end Vectors

inductive Direction
  | outgoing
  | incoming

structure CycleError where
  cycle : List NodeIndex
  deriving DecidableEq

namespace TypedDiGraph
variable {N E : Type} (g : TypedDiGraph N E)

def rawNodeCount : Nat := g.nodes.length

def nodeIndices : List NodeIndex := (g.nodes.zipIdx.filter (·.1.isSome)).map Prod.snd

def neighborsDirected (idx : NodeIndex) (dir : Direction) : List NodeIndex :=
  let adj := match dir with
    | .outgoing => g.adjOut
    | .incoming => g.adjIn
  (adj[idx]?.getD []).map Prod.snd

section CycleTest

/-- The neighbors of the node in hand: the white ones are pushed, a gray one ends the test. -/
def scanNeighbors (color : List Color) : List NodeIndex → List (NodeIndex × Bool) →
    Except Stop (Option (List (NodeIndex × Bool)))
  | [], stack => .ok (some stack)
  | neighbor :: rest, stack => do
    match ← readAt color neighbor with
    | .white => scanNeighbors color rest ((neighbor, false) :: stack)
    | .gray => .ok none
    | .black => scanNeighbors color rest stack

/-- The loop on the stack, whose top is its head; `none` is a cycle. -/
def cycleLoop : Nat → List Color → List (NodeIndex × Bool) → Except Stop (Option (List Color))
  | _, color, [] => .ok (some color)
  | 0, _, _ :: _ => .error .outOfFuel
  | fuel + 1, color, (node, true) :: stack => do
    let color ← writeAt color node .black
    cycleLoop fuel color stack
  | fuel + 1, color, (node, false) :: stack => do
    match ← readAt color node with
    | .gray => cycleLoop fuel color stack
    | .black => cycleLoop fuel color stack
    | .white =>
      let color ← writeAt color node .gray
      match ← scanNeighbors color (g.neighborsDirected node .outgoing) ((node, true) :: stack) with
      | none => .ok none
      | some stack => cycleLoop fuel color stack

def cycleStarts (fuel : Nat) : List Color → List NodeIndex → Except Stop Bool
  | _, [] => .ok false
  | color, start :: starts => do
    if (← readAt color start) ≠ .white then cycleStarts fuel color starts
    else
      match ← g.cycleLoop fuel color [(start, false)] with
      | none => .ok true
      | some color => cycleStarts fuel color starts

def isCyclicDirected (fuel : Nat) : Except Stop Bool :=
  let n := g.rawNodeCount
  if n = 0 then .ok false
  else g.cycleStarts fuel (List.replicate n .white) g.nodeIndices

end CycleTest

section Toposort

def increment (inDegree : List Nat) (neighbor : NodeIndex) : Except Stop (List Nat) := do
  let degree ← readAt inDegree neighbor
  writeAt inDegree neighbor (degree + 1)

def countDegrees (inDegree : List Nat) (nodes : List NodeIndex) : Except Stop (List Nat) :=
  nodes.foldlM (fun inDegree node =>
    (g.neighborsDirected node .outgoing).foldlM increment inDegree) inDegree

/-- The nodes whose degree passes the test, in their order. -/
def filterDegree (inDegree : List Nat) (keep : Nat → Bool) :
    List NodeIndex → Except Stop (List NodeIndex)
  | [] => .ok []
  | node :: nodes => do
    let degree ← readAt inDegree node
    let kept ← filterDegree inDegree keep nodes
    return if keep degree then node :: kept else kept

def decrement (s : List Nat × List NodeIndex) (neighbor : NodeIndex) :
    Except Stop (List Nat × List NodeIndex) := do
  let degree ← readAt s.1 neighbor
  if degree = 0 then .error (.panic "attempt to subtract with overflow")
  else
    let inDegree ← writeAt s.1 neighbor (degree - 1)
    return (inDegree, if degree - 1 = 0 then s.2 ++ [neighbor] else s.2)

def toposortLoop : Nat → List Nat → List NodeIndex → List NodeIndex →
    Except Stop (List Nat × List NodeIndex)
  | _, inDegree, [], result => .ok (inDegree, result)
  | 0, _, _ :: _, _ => .error .outOfFuel
  | fuel + 1, inDegree, node :: queue, result => do
    let (inDegree, queue) ← (g.neighborsDirected node .outgoing).foldlM decrement (inDegree, queue)
    toposortLoop fuel inDegree queue (result ++ [node])

def toposort (fuel : Nat) : Except Stop (Except CycleError (List NodeIndex)) := do
  let allNodes := g.nodeIndices
  let inDegree ← g.countDegrees (List.replicate g.rawNodeCount 0) allNodes
  let queue ← filterDegree inDegree (· = 0) allNodes
  let (inDegree, result) ← g.toposortLoop fuel inDegree queue []
  if result.length ≠ allNodes.length then do
    let remaining ← filterDegree inDegree (0 < ·) allNodes
    return .error ⟨remaining⟩
  else return .ok result

end Toposort

section Components

/-- What the search for components changes; the top of the stack is its head. -/
structure SccVectors where
  indexCounter : Nat
  nodeIndex : List (Option Nat)
  lowlink : List Nat
  onStack : List Bool
  stack : List NodeIndex
  components : List (List NodeIndex)

namespace SccVectors

def init (n : Nat) : SccVectors where
  indexCounter := 0
  nodeIndex := List.replicate n none
  lowlink := List.replicate n 0
  onStack := List.replicate n false
  stack := []
  components := []

def enter (s : SccVectors) (v : NodeIndex) : Except Stop SccVectors := do
  let nodeIndex ← writeAt s.nodeIndex v (some s.indexCounter)
  let lowlink ← writeAt s.lowlink v s.indexCounter
  let onStack ← writeAt s.onStack v true
  return { s with nodeIndex, lowlink, onStack, indexCounter := s.indexCounter + 1, stack := v :: s.stack }

def lower (s : SccVectors) (v : NodeIndex) (i : Nat) : Except Stop SccVectors := do
  let low ← readAt s.lowlink v
  let lowlink ← writeAt s.lowlink v (min low i)
  return { s with lowlink }

def popComponent (v : NodeIndex) (s : SccVectors) (component : List NodeIndex) :
    List NodeIndex → Except Stop SccVectors
  | [] => .error (.panic "invariant: stack non-empty during SCC")
  | w :: stack => do
    let onStack ← writeAt s.onStack w false
    let s := { s with stack, onStack }
    if w = v then .ok { s with components := s.components ++ [component ++ [w]] }
    else popComponent v s (component ++ [w]) stack

/-- A node is done: a root takes its component, and the parent learns the low link. -/
def finish (s : SccVectors) (v : NodeIndex) (parent : Option NodeIndex) : Except Stop SccVectors := do
  let low ← readAt s.lowlink v
  match ← readAt s.nodeIndex v with
  | none => .error (.panic "called `Option::unwrap()` on a `None` value")
  | some i =>
    let s ← if low = i then s.popComponent v [] s.stack else .ok s
    match parent with
    | none => return s
    | some parent => s.lower parent low

end SccVectors

/-- The neighbors from the next one on, up to the first that is not entered yet. -/
def scanSuccessors (v : NodeIndex) : List NodeIndex → Nat → SccVectors →
    Except Stop (SccVectors × Nat × Option NodeIndex)
  | [], state, s => .ok (s, state, none)
  | w :: neighbors, state, s => do
    match ← readAt s.nodeIndex w with
    | none => return (s, state + 1, some w)
    | some i =>
      if ← readAt s.onStack w then
        let s ← s.lower v i
        scanSuccessors v neighbors (state + 1) s
      else scanSuccessors v neighbors (state + 1) s

/-- One round for the top of the work stack, which is its head. -/
def sccRound (s : SccVectors) (v : NodeIndex) (state : Nat) (work : List (NodeIndex × Nat)) :
    Except Stop (SccVectors × List (NodeIndex × Nat)) := do
  let s ← if state = 0 then s.enter v else .ok s
  let state := if state = 0 then 1 else state
  match ← scanSuccessors v ((g.neighborsDirected v .outgoing).drop (state - 1)) state s with
  | (s, state, some w) => return (s, (w, 0) :: (v, state) :: work)
  | (s, _, none) =>
    let s ← s.finish v (work.head?.map Prod.fst)
    return (s, work)

def sccLoop : Nat → SccVectors → List (NodeIndex × Nat) → Except Stop SccVectors
  | _, s, [] => .ok s
  | 0, _, _ :: _ => .error .outOfFuel
  | fuel + 1, s, (v, state) :: work => do
    let (s, work) ← g.sccRound s v state work
    sccLoop fuel s work

def sccStarts (fuel : Nat) : SccVectors → List NodeIndex → Except Stop SccVectors
  | s, [] => .ok s
  | s, start :: starts => do
    if (← readAt s.nodeIndex start).isSome then sccStarts fuel s starts
    else
      let s ← g.sccLoop fuel s [(start, 0)]
      sccStarts fuel s starts

def tarjanScc (fuel : Nat) : Except Stop (List (List NodeIndex)) :=
  let n := g.rawNodeCount
  if n = 0 then .ok []
  else do
    let s ← g.sccStarts fuel (.init n) g.nodeIndices
    return s.components

end Components

end TypedDiGraph

end SqliteGraph
