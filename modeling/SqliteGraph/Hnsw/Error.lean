import SqliteGraph.Lib.Enumeration

/-! Errors of the vector index, as far as the modelled functions raise them. -/
namespace SqliteGraph.Hnsw
open Lib

inductive HnswMultiLayerError
  | layerMappingConflict (globalId layerId localId expected : Nat)
  | inconsistentMapping (globalId layerId localId mappedGlobal : Nat)
  | inconsistentLayerState (layerId expectedNodes actualNodes : Nat)
  deriving DecidableEq, Repr

inductive HnswIndexError
  | vectorDimensionMismatch (expected actual : Nat)
  | nodeNotFound (nodeId : Nat)
  | invalidNodeId (nodeId : Nat)
  | selfConnection (nodeId : Nat)
  | invalidSearchParameters
  | indexNotInitialized
  deriving DecidableEq, Repr

inductive HnswStorageError
  | invalidDimension (dimension : Nat)
  | dimensionMismatch (expected actual : Nat)
  | invalidVectorData
  | databaseError (message : String)
  deriving DecidableEq, Repr

inductive HnswError
  | multiLayer (e : HnswMultiLayerError)
  | index (e : HnswIndexError)
  | storage (e : HnswStorageError)
  /-- The model's own bound on the rounds of a search. -/
  | outOfFuel
  /-- An index out of bounds or an overflow trap: the call does not return. -/
  | panic (reason : String)
  deriving DecidableEq, Repr

/-- `xs[i]` of the source. -/
def index {α : Type} (xs : List α) (i : Nat) : Except HnswError α :=
  match xs[i]? with
  | some a => .ok a
  | none => .error (.panic "index out of bounds")

theorem index_of_getElem? {α : Type} {xs : List α} {i : Nat} {a : α} (h : xs[i]? = some a) :
    index xs i = .ok a := by
  simp [index, h]

end SqliteGraph.Hnsw
