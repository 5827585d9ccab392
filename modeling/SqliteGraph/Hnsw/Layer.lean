import SqliteGraph.Hnsw.Error

/-! One layer of the index: its nodes with their connections, and its entry points. -/
namespace SqliteGraph.Hnsw
open Lib

/-- A hash set of connections is a list without repetitions; the order of its items is an oracle's. -/
structure HnswLayer where
  level : Nat
  maxConnections : Nat
  nodes : AList fun _ : Nat => List Nat
  entryPoints : List Nat
  vectorCount : Nat
  dirtyNodes : Finset Nat

namespace HnswLayer

/-- `base_connections >> level`, but at least one. -/
def computeMaxConnections (level baseConnections : Nat) : Nat := max (baseConnections >>> level) 1

def new (level baseConnections : Nat) : HnswLayer :=
  ⟨level, computeMaxConnections level baseConnections, ∅, [], 0, ∅⟩

section Operations
variable (layer : HnswLayer)

def nodeCount : Nat := layer.nodes.entries.length

def containsNode (nodeId : Nat) : Bool := (layer.nodes.lookup nodeId).isSome

/-- The connections of a node; none for a node that is not there. -/
def linked (nodeId : Nat) : List Nat := (layer.nodes.lookup nodeId).getD []

def getConnections (nodeId : Nat) : Except HnswError (List Nat) :=
  match layer.nodes.lookup nodeId with
  | none => .error (.index (.nodeNotFound nodeId))
  | some connections => .ok connections

def addNode (nodeId : Nat) : Except HnswError HnswLayer :=
  if layer.containsNode nodeId then .error (.index (.invalidNodeId nodeId))
  else .ok { layer with
    nodes := layer.nodes.insert nodeId []
    dirtyNodes := insert nodeId layer.dirtyNodes
    vectorCount := layer.vectorCount + 1
    entryPoints :=
      if layer.entryPoints.length < layer.maxConnections then layer.entryPoints ++ [nodeId]
      else layer.entryPoints }

/-- The connections of a node are replaced, which marks it for the next save. -/
def setConnections (nodeId : Nat) (connections : List Nat) : HnswLayer :=
  { layer with
    nodes := layer.nodes.insert nodeId connections
    dirtyNodes := insert nodeId layer.dirtyNodes }

def addOneWayConnection (fromNode toNode : Nat) : Except HnswError HnswLayer :=
  if fromNode = toNode then .error (.index (.selfConnection fromNode))
  else if !layer.containsNode fromNode then .error (.index (.nodeNotFound fromNode))
  else if !layer.containsNode toNode then .error (.index (.nodeNotFound toNode))
  else .ok (layer.setConnections fromNode ((layer.linked fromNode).insert toNode))

/-- The connections with a distance that is known, the nearest first. -/
def byDistance {D : Type} [LinearOrder D] (distances : Nat → Option D) (connections : List Nat) :
    List Nat :=
  ((connections.filterMap fun id => (distances id).map (id, ·)).insertionSort fun a b =>
    a.2 < b.2 ∨ a.2 = b.2 ∧ a.1 ≤ b.1).map Prod.fst

def pruneConnectionsByDistance {D : Type} [LinearOrder D] (nodeId : Nat) (distances : Nat → Option D) :
    HnswLayer :=
  match layer.nodes.lookup nodeId with
  | none => layer
  | some connections =>
    if layer.maxConnections < connections.length then
      layer.setConnections nodeId ((byDistance distances connections).take layer.maxConnections)
    else layer

/-- The node keeps its key, but loses its connections in both directions. -/
def removeNode (nodeId : Nat) : HnswLayer :=
  if !layer.containsNode nodeId then layer
  else
    let others := layer.nodes.keys.filter fun id => id ≠ nodeId ∧ nodeId ∈ layer.linked id
    { layer with
      nodes := mapEntries (fun id connections => if id = nodeId then [] else connections.filter (· ≠ nodeId))
        layer.nodes
      dirtyNodes := insert nodeId layer.dirtyNodes ∪ others.toFinset
      entryPoints := layer.entryPoints.filter (· ≠ nodeId)
      vectorCount := layer.vectorCount - 1 }

def clearDirty : HnswLayer := { layer with dirtyNodes := ∅ }

end Operations

section Specs
variable {layer layer' : HnswLayer} {n m u v : Nat}

theorem containsNode_iff : layer.containsNode n = true ↔ n ∈ layer.nodes := by
  rw [containsNode, AList.lookup_isSome]

theorem mem_of_linked (h : v ∈ layer.linked u) : u ∈ layer.nodes := by
  rw [← AList.lookup_isSome]
  rw [linked] at h
  cases hl : layer.nodes.lookup u with
  | none => simp [hl] at h
  | some connections => rfl

theorem addNode_ok (h : n ∉ layer.nodes) : layer.addNode n = .ok { layer with
    nodes := layer.nodes.insert n []
    dirtyNodes := insert n layer.dirtyNodes
    vectorCount := layer.vectorCount + 1
    entryPoints := if layer.entryPoints.length < layer.maxConnections then layer.entryPoints ++ [n]
      else layer.entryPoints } := by
  rw [addNode, if_neg (by rwa [containsNode_iff])]

section SetConnections
variable {connections : List Nat}

theorem mem_setConnections : v ∈ (layer.setConnections n connections).nodes ↔
    v = n ∨ v ∈ layer.nodes := by
  rw [setConnections, AList.mem_insert]

theorem linked_setConnections : (layer.setConnections n connections).linked u =
    if u = n then connections else layer.linked u := by
  rw [linked, setConnections]
  split
  · rename_i h
    rw [h, AList.lookup_insert, Option.getD_some]
  · rename_i h
    rw [AList.lookup_insert_ne h, linked]

end SetConnections

theorem mem_removeNode : v ∈ (layer.removeNode n).nodes ↔ v ∈ layer.nodes := by
  rw [removeNode]
  split
  · rfl
  · rw [← AList.lookup_isSome, ← AList.lookup_isSome, lookup_mapEntries, Option.isSome_map]

theorem linked_removeNode (h : n ∈ layer.nodes) : (layer.removeNode n).linked u =
    if u = n then [] else (layer.linked u).filter (· ≠ n) := by
  rw [removeNode, if_neg (by simp [containsNode_iff, h]), linked, lookup_mapEntries, linked]
  cases layer.nodes.lookup u <;> simp

theorem removeNode_of_notMem (h : n ∉ layer.nodes) : layer.removeNode n = layer := by
  rw [removeNode, if_pos]
  simp [Bool.eq_false_iff, containsNode_iff, h]

end Specs

end HnswLayer

end SqliteGraph.Hnsw
