import SqliteGraph.Sqlite.CachedReads

/-! Triple patterns, matched by a query over the tables or through the adjacency caches. -/
namespace SqliteGraph.Sqlite
open Lib

structure PatternTriple where
  startLabel : Option String
  edgeType : String
  endLabel : Option String
  startProps : List (String × String)
  endProps : List (String × String)
  direction : BackendDirection

structure TripleMatch where
  startId : Int64
  endId : Int64
  edgeId : Int
  deriving DecidableEq, Repr

namespace PatternTriple

def new (edgeType : String) : PatternTriple := ⟨none, edgeType, none, [], [], .outgoing⟩

def validate (p : PatternTriple) : Except SqliteGraphError Unit :=
  if isBlank p.edgeType then .error (.invalidInput "edge_type is required") else .ok ()

/-- The ends of an edge as the pattern's direction names them. -/
def startOf (p : PatternTriple) (e : EdgeRow) : Int64 :=
  match p.direction with
  | .outgoing => e.fromId
  | .incoming => e.toId

def endOf (p : PatternTriple) (e : EdgeRow) : Int64 :=
  match p.direction with
  | .outgoing => e.toId
  | .incoming => e.fromId

/-- The columns that the queries select. -/
def triple (p : PatternTriple) (e : EdgeRow) : TripleMatch := ⟨p.startOf e, p.endOf e, e.id⟩

end PatternTriple

/-- By start, edge and end. -/
def tripleOrder (a b : TripleMatch) : Bool :=
  decide (a.startId < b.startId ∨ a.startId = b.startId ∧
    (a.edgeId < b.edgeId ∨ a.edgeId = b.edgeId ∧ a.endId ≤ b.endId))

section Queries
variable (db : Database) (p : PatternTriple)

def executeSimpleEdgeQuery : List TripleMatch :=
  ((db.edges.filter (·.edgeType = p.edgeType)).map p.triple).mergeSort tripleOrder

/-- `EXISTS` a row of `graph_labels`, where the pattern has a label. -/
def hasLabel (label : Option String) (entityId : Int64) : Bool :=
  match label with
  | some label => decide ((entityId, label) ∈ db.labels)
  | none => true

def executeComplexEdgeQuery : List TripleMatch :=
  ((db.edges.filter fun e => e.edgeType = p.edgeType ∧ hasLabel db p.startLabel (p.startOf e) ∧
    hasLabel db p.endLabel (p.endOf e)).map p.triple).mergeSort tripleOrder

def entityHasProperties (entityId : Int64) (requiredProps : List (String × String)) : Bool :=
  requiredProps.all fun (key, value) => decide ((entityId, key, value) ∈ db.properties)

def matchesPropertyFilters (m : TripleMatch) : Bool :=
  (p.startProps.isEmpty || entityHasProperties db m.startId p.startProps) &&
    (p.endProps.isEmpty || entityHasProperties db m.endId p.endProps)

def matchTriples : Except SqliteGraphError (List TripleMatch) := do
  p.validate
  let found := if p.startLabel.isNone && p.endLabel.isNone then executeSimpleEdgeQuery db p
    else executeComplexEdgeQuery db p
  .ok ((found.filter (matchesPropertyFilters db p)).mergeSort tripleOrder)

def edgeExistsWithType (fromId toId : Int64) (edgeType : String) : Bool :=
  db.edges.any fun e => e.fromId = fromId ∧ e.toId = toId ∧ e.edgeType = edgeType

def getEdgeId (fromId toId : Int64) (edgeType : String) : Except SqliteGraphError Int :=
  match ((db.edges.filter fun e => e.fromId = fromId ∧ e.toId = toId ∧ e.edgeType = edgeType).map
    (·.id)).min? with
  | some id => .ok id
  | none => .error (.queryError "Query returned no rows")

/-- The candidates between which the tables have an edge of the type. -/
def validateCandidates (sourceId : Int64) :
    List Int64 → Except SqliteGraphError (List TripleMatch)
  | [] => .ok []
  | targetId :: candidates =>
    let (fromId, toId) := match p.direction with
      | .outgoing => (sourceId, targetId)
      | .incoming => (targetId, sourceId)
    if edgeExistsWithType db fromId toId p.edgeType then do
      let edgeId ← getEdgeId db fromId toId p.edgeType
      let found ← validateCandidates sourceId candidates
      .ok (⟨sourceId, targetId, edgeId⟩ :: found)
    else validateCandidates sourceId candidates

end Queries

def canUseFastPath (p : PatternTriple) : Bool :=
  p.startLabel.isNone && p.endLabel.isNone && p.startProps.isEmpty && p.endProps.isEmpty

namespace Session

def executeFastPath (p : PatternTriple) : SessionM (List TripleMatch) := do
  let s ← StoreM.get
  let found ← forEach (fun sourceId => do
    let candidates ← fetchNeighbors p.direction sourceId
    StoreM.ofExcept (validateCandidates s.db p sourceId candidates)) s.db.allEntityIds
  pure (found.flatten.mergeSort tripleOrder)

/-- The partial fast path and the path without one are `match_triples`. -/
def matchTriplesFast (p : PatternTriple) : SessionM (List TripleMatch) := do
  StoreM.ofExcept p.validate
  if canUseFastPath p then executeFastPath p
  else do
    let s ← StoreM.get
    StoreM.ofExcept (matchTriples s.db p)

end Session

end SqliteGraph.Sqlite
