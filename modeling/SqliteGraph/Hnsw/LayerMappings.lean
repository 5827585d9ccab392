import SqliteGraph.Hnsw.Error

/-! Global ids, the ids local to each layer, and the manager that draws a level for each vector. -/
namespace SqliteGraph.Hnsw
open Lib

structure LayerMappings where
  globalToLocal : AList (fun _ : Nat => List (Option Nat))
  localToGlobal : List (AList (fun _ : Nat => Nat))
  nextLocalId : List Nat

/-- Push `none` until the list has `n` items. -/
def padTo (n : Nat) (xs : List (Option Nat)) : List (Option Nat) :=
  xs ++ List.replicate (n - xs.length) none

namespace LayerMappings

def new (maxLayers : Nat) : LayerMappings :=
  ⟨∅, List.replicate maxLayers ∅, List.replicate maxLayers 0⟩

def extendLayers (m : LayerMappings) (requiredLayers : Nat) : LayerMappings :=
  let currentLayers := m.localToGlobal.length
  if requiredLayers ≤ currentLayers then m
  else
    { localToGlobal := m.localToGlobal ++ List.replicate (requiredLayers - currentLayers) ∅
      nextLocalId := m.nextLocalId ++ List.replicate (requiredLayers - currentLayers) 0
      globalToLocal := mapValues (padTo requiredLayers) m.globalToLocal }

/-- The counter of the layer moves on even when the id it gave out is refused below. -/
def takeLocalId (layerId : Nat) : StoreM LayerMappings HnswError Nat := do
  let m ← StoreM.get
  let id ← StoreM.ofExcept (index m.nextLocalId layerId)
  StoreM.modify fun m => { m with nextLocalId := m.nextLocalId.set layerId (id + 1) }
  pure id

def link (m : LayerMappings) (globalId layerId localId : Nat) : LayerMappings :=
  let entry := padTo (layerId + 1) ((m.globalToLocal.lookup globalId).getD [])
  { m with
    globalToLocal := m.globalToLocal.insert globalId (entry.set layerId (some localId))
    localToGlobal := m.localToGlobal.modify layerId (·.insert localId globalId) }

def addMapping (globalId layerId : Nat) (localId : Option Nat) :
    StoreM LayerMappings HnswError Unit := do
  StoreM.modify fun m =>
    if m.localToGlobal.length ≤ layerId then m.extendLayers (layerId + 1) else m
  let localId ← match localId with
    | some id => pure id
    | none => takeLocalId layerId
  let m ← StoreM.get
  let mapping ← StoreM.ofExcept (index m.localToGlobal layerId)
  let expected := mapping.entries.length
  if localId ≠ expected then
    StoreM.throw (.multiLayer (.layerMappingConflict globalId layerId localId expected))
  else StoreM.modify (·.link globalId layerId localId)

def getLocalId (m : LayerMappings) (globalId layerId : Nat) : Option Nat :=
  (m.globalToLocal.lookup globalId).bind fun mappings => mappings[layerId]?.join

def getGlobalId (m : LayerMappings) (layerId localId : Nat) : Option Nat :=
  m.localToGlobal[layerId]?.bind (·.lookup localId)

def removeReverse (layerId id : Nat) : StoreM LayerMappings HnswError Unit := do
  let m ← StoreM.get
  let _ ← StoreM.ofExcept (index m.localToGlobal layerId)
  StoreM.modify fun m => { m with localToGlobal := m.localToGlobal.modify layerId (·.erase id) }

/-- The counters stay where they are. -/
def removeGlobalId (globalId : Nat) : StoreM LayerMappings HnswError Unit := do
  let m ← StoreM.get
  match m.globalToLocal.lookup globalId with
  | none => pure ()
  | some mappings =>
    StoreM.modify fun m => { m with globalToLocal := m.globalToLocal.erase globalId }
    mappings.zipIdx.forM fun (localId, layerId) =>
      match localId with
      | some id => removeReverse layerId id
      | none => pure ()

def getLayerVectors (m : LayerMappings) (layerId : Nat) : List Nat :=
  match m.localToGlobal[layerId]? with
  | none => []
  | some mapping => (mapping.entries.map (·.2)).mergeSort (· ≤ ·)

def checkForward (m : LayerMappings) (globalId layerId : Nat) : Option Nat → Except HnswError PUnit
  | none => pure ⟨⟩
  | some id =>
    match m.getGlobalId layerId id with
    | some mappedGlobal =>
      if mappedGlobal ≠ globalId then
        throw (.multiLayer (.inconsistentMapping globalId layerId id mappedGlobal))
      else pure ⟨⟩
    | none => pure ⟨⟩

def checkReverse (m : LayerMappings) (layerId localId globalId : Nat) : Except HnswError PUnit :=
  match m.getLocalId globalId layerId with
  | some mappedLocal =>
    if mappedLocal ≠ localId then
      throw (.multiLayer (.inconsistentMapping globalId layerId localId globalId))
    else pure ⟨⟩
  | none => throw (.multiLayer (.inconsistentMapping globalId layerId localId UInt64.size.pred))

def checkCount (m : LayerMappings) (layerId : Nat) (mapping : AList (fun _ : Nat => Nat)) :
    Except HnswError PUnit := do
  let expectedCount := mapping.entries.length
  let nextLocalId ← index m.nextLocalId layerId
  if expectedCount ≠ nextLocalId then
    throw (.multiLayer (.inconsistentLayerState layerId expectedCount mapping.entries.length))

/-- `choices` orders the entries of each hash map that the loops go through. -/
def validateConsistency (m : LayerMappings) (choices : Nat → Nat) : Except HnswError PUnit := do
  (drain choices m.globalToLocal.entries).forM fun ⟨globalId, mappings⟩ =>
    mappings.zipIdx.forM fun (localId, layerId) => m.checkForward globalId layerId localId
  m.localToGlobal.zipIdx.forM fun (mapping, layerId) =>
    (drain choices mapping.entries).forM fun ⟨localId, globalId⟩ =>
      m.checkReverse layerId localId globalId
  m.localToGlobal.zipIdx.forM fun (mapping, layerId) => m.checkCount layerId mapping

end LayerMappings

structure LevelDistributor where
  maxLayers : Nat

namespace LevelDistributor

/-- `draws` are the comparisons of the random numbers with `1 / m`, as far as they hold. -/
def sampleLevelInternal (d : LevelDistributor) (draws : List Bool) : Nat :=
  go draws 0
where
  go : List Bool → Nat → Nat
    | true :: draws, level => if level < d.maxLayers - 1 then go draws (level + 1) else level
    | _, level => level

end LevelDistributor

structure MultiLayerNodeManager where
  mappings : LayerMappings
  distributor : LevelDistributor
  vectorLevels : AList (fun _ : Nat => Nat)

namespace MultiLayerNodeManager

/-- `maxLayers` is the `ml` of the configuration. -/
def new (maxLayers : Nat) : MultiLayerNodeManager := ⟨.new maxLayers, ⟨maxLayers⟩, ∅⟩

def onMappings {α : Type} (x : StoreM LayerMappings HnswError α) :
    StoreM MultiLayerNodeManager HnswError α :=
  StoreM.focus (·.mappings) (fun s m => { s with mappings := m }) x

/-- The body of the loop, for the levels below `n` from the highest down. -/
def insertLevels (vectorId : Nat) : Nat → StoreM LayerMappings HnswError (List (Nat × Nat))
  | 0 => pure []
  | level + 1 => do
    let m ← StoreM.get
    let localId ← StoreM.ofExcept (index m.nextLocalId level)
    LayerMappings.addMapping vectorId level none
    let rest ← insertLevels vectorId level
    pure ((level, localId) :: rest)

def insertVector (draws : List Bool) (vectorId : Nat) :
    StoreM MultiLayerNodeManager HnswError (Nat × List (Nat × Nat)) := do
  let s ← StoreM.get
  let highestLevel := s.distributor.sampleLevelInternal draws
  let layerAssignments ← onMappings (insertLevels vectorId (highestLevel + 1))
  StoreM.modify fun s => { s with vectorLevels := s.vectorLevels.insert vectorId highestLevel }
  pure (highestLevel, layerAssignments)

def removeVector (vectorId : Nat) : StoreM MultiLayerNodeManager HnswError Unit := do
  onMappings (LayerMappings.removeGlobalId vectorId)
  StoreM.modify fun s => { s with vectorLevels := s.vectorLevels.erase vectorId }

def getLocalId (s : MultiLayerNodeManager) (vectorId layerId : Nat) : Option Nat :=
  s.mappings.getLocalId vectorId layerId

def getGlobalId (s : MultiLayerNodeManager) (layerId localId : Nat) : Option Nat :=
  s.mappings.getGlobalId layerId localId

def getLayerVectors (s : MultiLayerNodeManager) (layerId : Nat) : List Nat :=
  s.mappings.getLayerVectors layerId

def getVectorLevel (s : MultiLayerNodeManager) (vectorId : Nat) : Option Nat :=
  s.vectorLevels.lookup vectorId

def validateConsistency (s : MultiLayerNodeManager) (choices : Nat → Nat) :
    Except HnswError PUnit :=
  s.mappings.validateConsistency choices

end MultiLayerNodeManager
end SqliteGraph.Hnsw
