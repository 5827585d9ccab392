import SqliteGraph.Hnsw.LayerMappings
import SqliteGraph.Hnsw.LayerSearch
import SqliteGraph.Hnsw.Storage

/-! The index: its layers, its storage, and the calls that insert and delete vectors. -/
namespace SqliteGraph.Hnsw
open Lib

structure HnswConfig where
  dimension : Nat
  m : Nat
  efConstruction : Nat
  efSearch : Nat
  ml : Nat
  enableMultilayer : Bool

def validateConfig (config : HnswConfig) : Except HnswError Unit :=
  if config.dimension = 0 then .error (.index (.invalidNodeId 0))
  else if config.m = 0 then .error (.index (.invalidNodeId 0))
  else if config.efConstruction < config.m then .error (.index (.invalidNodeId 0))
  else if config.efSearch = 0 then .error (.index (.invalidNodeId 0))
  else if config.ml = 0 then .error (.index (.invalidNodeId 0))
  else .ok ()

/-- `base / 2usize.pow(level)`, whose power overflows at 64. -/
def newLayer (base level : Nat) : Except HnswError HnswLayer :=
  if 64 ≤ level then .error (.panic "attempt to multiply with overflow")
  else .ok (.new level (if level = 0 then base else max (base / 2 ^ level) 1))

/-- Vector ids start at 1, the node ids of a single layer at 0. -/
def toNodeId (vectorId : Nat) : Except HnswError Nat :=
  if vectorId = 0 then .error (.panic "attempt to subtract with overflow") else .ok (vectorId - 1)

structure HnswIndex (F S : Type) where
  config : HnswConfig
  layers : List HnswLayer
  storage : S
  entryPoints : List Nat
  vectorCount : Nat
  multiLayerManager : Option MultiLayerNodeManager
  vectorCache : AList fun _ : Nat => List F

/-- The orders of the hash maps that an insertion into a layer goes through. -/
structure LayerOrders where
  connections : Nat → Nat → Nat
  forward : Nat → Nat
  reverse : Nat → Nat

/-- What an insertion leaves to chance: the drawn level, and the orders in each layer. -/
structure InsertChoices where
  draws : List Bool
  orders : Nat → LayerOrders

namespace HnswLayer
variable {D : Type} [LinearOrder D]

def connect (fromNode toNode : Nat) : StoreM HnswLayer HnswError Unit := do
  let layer ← StoreM.get
  let layer ← StoreM.ofExcept (layer.addOneWayConnection fromNode toNode)
  StoreM.modify fun _ => layer

/-- The new node counts as near, all others as far. -/
def reverseDistances (nodeId : Nat) (existing : List Nat) (id : Nat) : Option Nat :=
  if id = nodeId then some 0 else if id ∈ existing then some 1 else none

def connectBack (nodeId m neighborId : Nat) : StoreM HnswLayer HnswError Unit := do
  connect neighborId nodeId
  let layer ← StoreM.get
  match layer.getConnections neighborId with
  | .ok existing =>
    if max (m * 2) 32 < existing.length then
      StoreM.modify fun layer =>
        layer.pruneConnectionsByDistance neighborId (reverseDistances nodeId existing)
    else pure ()
  | .error _ => pure ()

/-- Both directions of the connections between a new node and its neighbors. -/
def connectNode (nodeId : Nat) (neighborDistances : AList fun _ : Nat => D) (orders : LayerOrders) :
    StoreM HnswLayer HnswError Unit := do
  let m := (← StoreM.get).maxConnections
  (drain orders.forward neighborDistances.keys).forM fun neighborId =>
    if neighborId = nodeId then pure () else connect nodeId neighborId
  StoreM.modify fun layer =>
    layer.pruneConnectionsByDistance nodeId fun id => neighborDistances.lookup id
  (drain orders.reverse neighborDistances.keys).forM fun neighborId =>
    if neighborId = nodeId then pure () else connectBack nodeId m neighborId

end HnswLayer

/-- The distances of the first `m` results. -/
def nearestDistances {D : Type} (m : Nat) (result : SearchResult D) : AList fun _ : Nat => D :=
  ((result.neighbors.zip result.distances).take m).foldl (fun known n => known.insert n.1 n.2) ∅

namespace HnswIndex
variable {F M S D : Type} [LinearOrder D]

def withStorage (config : HnswConfig) (storage : S) : Except HnswError (HnswIndex F S) := do
  validateConfig config
  let layers ← (List.range config.ml).mapM (newLayer config.m)
  return {
    config, layers, storage
    entryPoints := []
    vectorCount := 0
    multiLayerManager := if config.enableMultilayer then some (.new config.ml) else none
    vectorCache := ∅ }

section Lookups
variable (index : HnswIndex F S)

/-- The node of a vector in a layer. -/
def nodeIdAt (vectorId level : Nat) : Except HnswError Nat :=
  match index.multiLayerManager with
  | some manager =>
    match manager.getLocalId vectorId level with
    | some localId => .ok localId
    | none => .error (.index (.nodeNotFound vectorId))
  | none => toNodeId vectorId

/-- The node that a deletion removes from all layers. -/
def nodeToRemove (id : Nat) : Except HnswError Nat :=
  match index.multiLayerManager with
  | some manager => .ok ((manager.getLocalId id 0).getD id)
  | none => toNodeId id

/-- The vector ids of the entry points of a layer. -/
def entryPointsOf (level : Nat) : List Nat :=
  let layerEntryPoints := (index.layers[level]?.map (·.entryPoints)).getD []
  match index.multiLayerManager with
  | some manager => layerEntryPoints.filterMap (manager.getGlobalId level)
  | none => layerEntryPoints.map (· + 1)

def getLayerEntryPoints (level : Nat) : List Nat :=
  if index.layers.isEmpty then []
  else if level = index.layers.length - 1 then index.entryPoints
  else if level = 0 then index.entryPointsOf level
  else if level + 1 < index.layers.length then index.entryPointsOf (level + 1)
  else []

/-- The entry points as nodes of the layer that the search is in. -/
def localEntryPoints (level : Nat) : Except HnswError (List Nat) :=
  match index.multiLayerManager with
  | some manager => .ok ((index.getLayerEntryPoints level).filterMap fun id => manager.getLocalId id level)
  | none => (index.getLayerEntryPoints level).mapM toNodeId

/-- The cached vector of a node. -/
def vectorAt (level localId : Nat) : Option (List F) :=
  match index.multiLayerManager with
  | some manager => (manager.getGlobalId level localId).bind fun id => index.vectorCache.lookup id
  | none => index.vectorCache.lookup (localId + 1)

end Lookups

def onStorage {α : Type} (x : StoreM S HnswError α) : StoreM (HnswIndex F S) HnswError α :=
  StoreM.focus (·.storage) (fun index storage => { index with storage }) x

def onLayer {α : Type} (level : Nat) (x : StoreM HnswLayer HnswError α) :
    StoreM (HnswIndex F S) HnswError α := fun index =>
  match index.layers[level]? with
  | none => (.error (.panic "index out of bounds"), index)
  | some layer => ((x layer).1, { index with layers := index.layers.set level (x layer).2 })

/-- Layers up to `level` are created. -/
def ensureLayers (level : Nat) : StoreM (HnswIndex F S) HnswError Unit := do
  let index ← StoreM.get
  let added ← StoreM.ofExcept
    ((List.range' index.layers.length (level + 1 - index.layers.length)).mapM (newLayer index.config.m))
  StoreM.modify fun index => { index with layers := index.layers ++ added }

section Insertion
variable (storage : VectorStorage F M S) (distance : List F → List F → D)

/-- The search for neighbors, and the connections with the nearest of them. -/
def linkNode (vectorId nodeId level : Nat) (orders : LayerOrders) :
    StoreM (HnswIndex F S) HnswError Unit := do
  let index ← StoreM.get
  let entryPoints ← StoreM.ofExcept (index.localEntryPoints level)
  if entryPoints.isEmpty then pure ()
  else
    let layer ← StoreM.ofExcept (Hnsw.index index.layers level)
    let newVector ← StoreM.ofExcept (match index.vectorCache.lookup vectorId with
      | some vector => .ok vector
      | none => .error (.index (.nodeNotFound vectorId)))
    let result ← StoreM.ofExcept (searchLayerFn distance layer newVector (index.vectorAt level)
      orders.connections entryPoints index.config.efConstruction)
    onLayer level (HnswLayer.connectNode nodeId (nearestDistances layer.maxConnections result) orders)

def addNodeTo (level nodeId : Nat) : StoreM (HnswIndex F S) HnswError HnswLayer :=
  onLayer level do
    let layer ← StoreM.get
    let layer ← StoreM.ofExcept (layer.addNode nodeId)
    StoreM.modify fun _ => layer
    pure layer

def insertIntoLayer (vectorId level : Nat) (orders : LayerOrders) :
    StoreM (HnswIndex F S) HnswError Unit := do
  let index ← StoreM.get
  let nodeId ← StoreM.ofExcept (index.nodeIdAt vectorId level)
  ensureLayers level
  let layer ← addNodeTo level nodeId
  if level = 0 ∧ layer.nodeCount = 1 then pure ()
  else linkNode distance vectorId nodeId level orders

/-- The level of a new vector; a manager registers the vector in the layers up to it. -/
def chooseLevel (vectorId : Nat) (draws : List Bool) : StoreM (HnswIndex F S) HnswError Nat := do
  let index ← StoreM.get
  match index.multiLayerManager with
  | some manager => do
    let (result, manager) := manager.insertVector draws vectorId
    StoreM.modify fun index => { index with multiLayerManager := some manager }
    let (highestLevel, _) ← StoreM.ofExcept result
    pure highestLevel
  | none =>
    pure (if index.config.enableMultilayer then
      LevelDistributor.sampleLevelInternal ⟨index.config.ml⟩ draws else 0)

/-- From the highest level down. -/
def insertLevels (vectorId : Nat) (orders : Nat → LayerOrders) :
    Nat → StoreM (HnswIndex F S) HnswError Unit
  | 0 => pure ()
  | level + 1 => do
    insertIntoLayer distance vectorId level (orders level)
    insertLevels vectorId orders level

/-- One vector is stored and becomes part of the index. -/
def insertElement (vector : List F) (metadata : Option M) (choices : InsertChoices) :
    StoreM (HnswIndex F S) HnswError Nat := do
  let vectorId ← onStorage (storage.storeVector vector metadata)
  StoreM.modify fun index => { index with vectorCache := index.vectorCache.insert vectorId vector }
  let insertionLevel ← chooseLevel vectorId choices.draws
  insertLevels distance vectorId choices.orders (insertionLevel + 1)
  StoreM.modify fun index =>
    if index.entryPoints.length ≤ insertionLevel then
      { index with entryPoints := index.entryPoints ++ [vectorId] }
    else index
  StoreM.modify fun index => { index with vectorCount := index.vectorCount + 1 }
  pure vectorId

def insertElements : List (List F × Option M × InsertChoices) →
    StoreM (HnswIndex F S) HnswError (List Nat)
  | [] => pure []
  | (vector, metadata, choices) :: rest => do
    let id ← insertElement storage distance vector metadata choices
    let ids ← insertElements rest
    pure (id :: ids)

/-- The nodes of each layer that are marked, and all entry points. -/
def topologyStatements (index : HnswIndex F S) (orders : Nat → Nat → Nat) : List TopologyStatement :=
  index.layers.zipIdx.flatMap (fun (layer, level) =>
    (drain (orders level) (layer.dirtyNodes.sort (· ≤ ·))).filterMap fun nodeId =>
      (layer.nodes.lookup nodeId).map (.replaceLayer level nodeId)) ++
    .deleteEntryPoints :: index.entryPoints.zipIdx.map fun (id, i) => .insertEntryPoint id i

/-- A failing commit is ignored. -/
def persistTopology (orders : Nat → Nat → Nat) : StoreM (HnswIndex F S) HnswError Unit := do
  let index ← StoreM.get
  match storage.asSqliteConnection index.storage with
  | none => pure ()
  | some execute => do
    onStorage (execute .beginImmediate)
    let result ← StoreM.attempt (onStorage ((index.topologyStatements orders).forM execute))
    match result with
    | .ok _ => do
      let _ ← StoreM.attempt (onStorage (execute .commit))
      StoreM.modify fun index => { index with layers := index.layers.map HnswLayer.clearDirty }
    | .error e => do
      let _ ← StoreM.attempt (onStorage (execute .rollback))
      StoreM.throw e

/-- The part of `insert_vector` before the layers are saved. -/
def insertChecked (vector : List F) (metadata : Option M) (choices : InsertChoices) :
    StoreM (HnswIndex F S) HnswError Nat := do
  let index ← StoreM.get
  if vector.length ≠ index.config.dimension then
    StoreM.throw (.index (.vectorDimensionMismatch index.config.dimension vector.length))
  else insertElement storage distance vector metadata choices

def insertVector (vector : List F) (metadata : Option M) (choices : InsertChoices)
    (orders : Nat → Nat → Nat) : StoreM (HnswIndex F S) HnswError Nat := do
  let vectorId ← insertChecked storage distance vector metadata choices
  let _ ← StoreM.attempt (persistTopology storage orders)
  pure vectorId

/-- The vectors of a batch, in one transaction of the storage; a panic leaves it open. -/
def insertTransaction (vectors : List (List F × Option M × InsertChoices)) :
    StoreM (HnswIndex F S) HnswError (List Nat) := do
  onStorage storage.beginBulkInsert
  let result ← StoreM.attempt (insertElements storage distance vectors)
  match result with
  | .ok ids => do
    onStorage storage.commitBulkInsert
    pure ids
  | .error (.panic reason) => StoreM.throw (.panic reason)
  | .error e => do
    StoreM.modify fun index => { index with storage := storage.rollbackBulkInsert index.storage }
    StoreM.throw e

/-- The part of `batch_insert_vectors` before the layers are saved. -/
def insertBatch (vectors : List (List F × Option M × InsertChoices)) :
    StoreM (HnswIndex F S) HnswError (List Nat) := do
  let index ← StoreM.get
  match vectors.find? fun v => v.1.length ≠ index.config.dimension with
  | some v => StoreM.throw (.index (.vectorDimensionMismatch index.config.dimension v.1.length))
  | none => insertTransaction storage distance vectors

def batchInsertVectors (vectors : List (List F × Option M × InsertChoices))
    (orders : Nat → Nat → Nat) : StoreM (HnswIndex F S) HnswError (List Nat) := do
  if vectors.isEmpty then pure []
  else
    let ids ← insertBatch storage distance vectors
    let _ ← StoreM.attempt (persistTopology storage orders)
    pure ids

end Insertion

section Deletion
variable (storage : VectorStorage F M S)

/-- The part of `delete_vector` before the layers are saved. -/
def removeVector (id : Nat) : StoreM (HnswIndex F S) HnswError Unit := do
  let index ← StoreM.get
  let nodeId ← StoreM.ofExcept (index.nodeToRemove id)
  onStorage (storage.deleteVector id)
  StoreM.modify fun index => { index with
    layers := index.layers.map (·.removeNode nodeId)
    entryPoints := index.entryPoints.filter (· ≠ id)
    vectorCount := index.vectorCount - 1 }

def deleteVector (id : Nat) (orders : Nat → Nat → Nat) : StoreM (HnswIndex F S) HnswError Unit := do
  removeVector storage id
  persistTopology storage orders

def getVector (index : HnswIndex F S) (vectorId : Nat) : Except HnswError (Option (List F × M)) :=
  storage.getVectorWithMetadata index.storage vectorId

end Deletion

end HnswIndex

end SqliteGraph.Hnsw
