import SqliteGraph.Lib.Slab

/-! The in-memory directed graph with reusable slots; an error is a panic. -/
namespace SqliteGraph
open Lib

abbrev NodeIndex := Nat
abbrev EdgeIndex := Nat

structure EdgeEntry (E : Type) where
  fromNode : Nat
  toNode : Nat
  weight : Option E

/-- The stacks of free slots are kept with their tops first. -/
structure TypedDiGraph (N E : Type) where
  nodes : List (Option N)
  edges : List (Option (EdgeEntry E))
  adjOut : List (List (Nat × Nat))
  adjIn : List (List (Nat × Nat))
  freeNodeSlots : List Nat
  freeEdgeSlots : List Nat
  nodeCount : Nat
  edgeCount : Nat

namespace TypedDiGraph
variable {N E : Type}

def new : TypedDiGraph N E := ⟨[], [], [], [], [], [], 0, 0⟩

def containsNode (g : TypedDiGraph N E) (idx : NodeIndex) : Bool := (g.nodes[idx]?.join).isSome

def addNode (g : TypedDiGraph N E) (weight : N) : Except String (NodeIndex × TypedDiGraph N E) :=
  match g.freeNodeSlots with
  | slot :: rest => do
    let nodes ← setAt g.nodes slot (some weight)
    return (slot, { g with nodes, freeNodeSlots := rest, nodeCount := g.nodeCount + 1 })
  | [] => .ok (g.nodes.length, { g with
      nodes := g.nodes ++ [some weight]
      adjOut := g.adjOut ++ [[]]
      adjIn := g.adjIn ++ [[]]
      nodeCount := g.nodeCount + 1 })

def addEdge (g : TypedDiGraph N E) (fromNode toNode : NodeIndex) (weight : E) :
    Except String (EdgeIndex × TypedDiGraph N E) :=
  if !g.containsNode fromNode then .error s!"NodeIndex({fromNode}) is not a valid node"
  else if !g.containsNode toNode then .error s!"NodeIndex({toNode}) is not a valid node"
  else
    let entry : EdgeEntry E := ⟨fromNode, toNode, some weight⟩
    match g.freeEdgeSlots with
    | slot :: rest => do
      let edges ← setAt g.edges slot (some entry)
      let adjOut ← modifyAt g.adjOut fromNode (· ++ [(slot, toNode)])
      let adjIn ← modifyAt g.adjIn toNode (· ++ [(slot, fromNode)])
      return (slot, { g with
        edges, adjOut, adjIn, freeEdgeSlots := rest, edgeCount := g.edgeCount + 1 })
    | [] => do
      let idx := g.edges.length
      let adjOut ← modifyAt g.adjOut fromNode (· ++ [(idx, toNode)])
      let adjIn ← modifyAt g.adjIn toNode (· ++ [(idx, fromNode)])
      return (idx, { g with
        edges := g.edges ++ [some entry], adjOut, adjIn, edgeCount := g.edgeCount + 1 })

def removeEdgeFromAdj (g : TypedDiGraph N E) (edgeIdx fromNode toNode : Nat) :
    Except String (TypedDiGraph N E) := do
  let adjOut ← modifyAt g.adjOut fromNode (·.filter (·.1 ≠ edgeIdx))
  let adjIn ← modifyAt g.adjIn toNode (·.filter (·.1 ≠ edgeIdx))
  return { g with adjOut, adjIn }

def removeEdgeRaw (g : TypedDiGraph N E) (edgeIdx : Nat) : Except String (TypedDiGraph N E) :=
  match g.edges[edgeIdx]? with
  | none => .error "index out of bounds"
  | some none => .ok g
  | some (some entry) => do
    let g ← removeEdgeFromAdj { g with edges := g.edges.set edgeIdx none } edgeIdx entry.fromNode
      entry.toNode
    return { g with edgeCount := g.edgeCount - 1, freeEdgeSlots := edgeIdx :: g.freeEdgeSlots }

def removeEdge (g : TypedDiGraph N E) (idx : EdgeIndex) :
    Except String (Option E × TypedDiGraph N E) :=
  match g.edges[idx]? with
  | none => .error "index out of bounds"
  | some none => .ok (none, g)
  | some (some entry) => do
    let g ← removeEdgeFromAdj { g with edges := g.edges.set idx none } idx entry.fromNode
      entry.toNode
    match entry.weight with
    | some weight => return (some weight, { g with
        edgeCount := g.edgeCount - 1, freeEdgeSlots := idx :: g.freeEdgeSlots })
    | none => .error "invariant: edge weight present"

/-- `self.adj[idx].iter().map(|(e, _)| *e).collect()`. -/
def edgesAt (adj : List (List (Nat × Nat))) (idx : Nat) : Except String (List Nat) :=
  match adj[idx]? with
  | none => .error "index out of bounds"
  | some l => .ok (l.map Prod.fst)

def removeNode (g : TypedDiGraph N E) (idx : NodeIndex) :
    Except String (Option N × TypedDiGraph N E) :=
  match g.nodes[idx]? with
  | none => .ok (none, g)
  | some none => .ok (none, g)
  | some (some weight) => do
    let g := { g with nodes := g.nodes.set idx none, nodeCount := g.nodeCount - 1 }
    let outEdges ← edgesAt g.adjOut idx
    let g ← outEdges.foldlM removeEdgeRaw g
    let adjOut ← setAt g.adjOut idx []
    let g := { g with adjOut }
    let inEdges ← edgesAt g.adjIn idx
    let g ← inEdges.foldlM removeEdgeRaw g
    let adjIn ← setAt g.adjIn idx []
    return (some weight, { g with adjIn, freeNodeSlots := idx :: g.freeNodeSlots })

inductive Operation (N E : Type)
  | addNode (weight : N)
  | addEdge (fromNode toNode : NodeIndex) (weight : E)
  | removeNode (idx : NodeIndex)
  | removeEdge (idx : EdgeIndex)

def apply (g : TypedDiGraph N E) : Operation N E → Except String (TypedDiGraph N E)
  | .addNode weight => Prod.snd <$> g.addNode weight
  | .addEdge fromNode toNode weight => Prod.snd <$> g.addEdge fromNode toNode weight
  | .removeNode idx => Prod.snd <$> g.removeNode idx
  | .removeEdge idx => Prod.snd <$> g.removeEdge idx

/-- The graphs that operations, with any indices, build from the empty one. -/
inductive Reaches : TypedDiGraph N E → Prop
  | new : Reaches new
  | step {g g' op} : Reaches g → g.apply op = .ok g' → Reaches g'

/-- What the code asserts: the ends of a new edge are there, and a removed edge has a slot. -/
def Allowed (g : TypedDiGraph N E) : Operation N E → Prop
  | .addEdge fromNode toNode _ => g.containsNode fromNode ∧ g.containsNode toNode
  | .removeEdge idx => idx < g.edges.length
  | _ => True

end TypedDiGraph

end SqliteGraph
