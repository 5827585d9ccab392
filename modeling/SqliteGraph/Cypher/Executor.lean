import SqliteGraph.Cypher.Matching
import SqliteGraph.Lib.HashOrder
import SqliteGraph.Sqlite.CachedQueries
import SqliteGraph.Sqlite.PatternEngine

/-! What a parsed MATCH returns, computed from the tables. -/
namespace SqliteGraph.Cypher
open Lib Sqlite

/-- The texts of the errors that a query of the tables ends with. -/
def display : SqliteGraphError → String
  | .connectionError message => "connection error: " ++ message
  | .queryError message => "query error: " ++ message
  | .notFound message => "entity not found: " ++ message
  | .invalidInput message => "invalid input: " ++ message
  | .validationError message => "validation error: " ++ message
  | .aborted _ => "native backend error"
  | .outOfFuel => "out of fuel"

def orString {α : Type} (r : Except SqliteGraphError α) : Except String α := r.mapError display

section Reads
variable (db : Database)

def getNode (id : Int64) : Option GraphEntity := (db.getEntity id).toOption

def queryNodesByKind (kind : String) : List Int64 :=
  (db.entities.filter (·.kind = kind)).map (·.id)

/-- The nodes that a pattern's label lets through, read one by one. -/
def candidates (pat : NodePattern) : List GraphEntity :=
  (match pat.label with
    | some label => queryNodesByKind db label
    | none => db.allEntityIds).filterMap (getNode db)

/-- `PatternTriple::start_property`, which keeps the last value of a key. -/
def addProperty (props : List (String × String)) (prop : String × String) : List (String × String) :=
  prop :: props.filter (·.1 ≠ prop.1)

def triplePattern (relType : String) (startPat endPat : NodePattern) : PatternTriple :=
  { PatternTriple.new relType with
    startLabel := startPat.label
    endLabel := endPat.label
    startProps := startPat.props.foldl addProperty []
    endProps := endPat.props.foldl addProperty [] }

end Reads

/-- An undirected leg goes outwards. -/
def edgeDirectionToBackend : EdgeDirection → BackendDirection
  | .outgoing => .outgoing
  | .incoming => .incoming
  | .both => .outgoing

section Rows
variable (ext : Externals) (db : Database) (query : CypherQuery)

def limitOf : Nat := query.limit.getD (2 ^ 64 - 1)

def nodeRows (pat : NodePattern) : List GraphEntity :=
  (candidates db pat).filter fun node =>
    nodePatternMatches pat node && whereClausesMatch ext query (pat, node) none

/-- The edges of a direction's pattern, with the ends as the pattern names them. -/
def tripleEnds (direction : EdgeDirection) (t : TripleMatch) : Int64 × Int64 :=
  match direction with
  | .incoming => (t.endId, t.startId)
  | _ => (t.startId, t.endId)

def matchLeg (direction : EdgeDirection) (relType : String) (fromPat toPat : NodePattern) :
    Except String (List TripleMatch) :=
  match direction with
  | .incoming => orString (matchTriples db (triplePattern relType toPat fromPat))
  | _ => orString (matchTriples db (triplePattern relType fromPat toPat))

/-- The edge with its two nodes, where both are there. -/
def edgeNodes (direction : EdgeDirection) (t : TripleMatch) :
    Option (Int × GraphEntity × GraphEntity) := do
  let (fromId, toId) := tripleEnds direction t
  let fromNode ← getNode db fromId
  let toNode ← getNode db toId
  return (t.edgeId, fromNode, toNode)

def edgeRows (fromPat : NodePattern) (relType : String) (toPat : NodePattern) :
    Except String (List (Int × GraphEntity × GraphEntity)) := do
  let triples ← matchLeg db query.direction relType fromPat toPat
  return (triples.filterMap (edgeNodes db query.direction)).filter fun (_, fromNode, toNode) =>
    whereClausesMatch ext query (fromPat, fromNode) (some (toPat, toNode))

/-- A start node with the nodes reached from it, where the end pattern and WHERE hold. -/
def endRows (startPat endPat : NodePattern) (startNode : GraphEntity) (endIds : List Int64) :
    List (GraphEntity × GraphEntity) :=
  ((endIds.filterMap (getNode db)).filter fun endNode => nodePatternMatches endPat endNode &&
    whereClausesMatch ext query (startPat, startNode) (some (endPat, endNode))).map (startNode, ·)

def legStep (leg : EdgeLeg) : ChainStep :=
  ⟨edgeDirectionToBackend leg.direction, some leg.relType⟩

def multiHopRows (legs : List EdgeLeg) (startPat endPat : NodePattern) :
    List (GraphEntity × GraphEntity) :=
  ((candidates db startPat).filter (nodePatternMatches startPat)).flatMap fun startNode =>
    endRows ext db query startPat endPat startNode
      (chainQuery db.tables startNode.id (legs.map legStep))

/-- The nodes within each of the depths, which are cut to 32 bits. -/
def reachedIds (relType : String) (start : Int64) :
    List Nat → List Int64 → Except String (List Int64)
  | [], reached => .ok reached
  | depth :: depths, reached => do
    let hopIds ← orString
      (kHopFiltered db.tables searchFuel start (depth % 2 ^ 32) .outgoing [relType])
    reachedIds relType start depths
      (hopIds.foldl (fun reached id => if id = start then reached else reached.insert id) reached)

/-- `choices` tells how the hash set of a start gives out the nodes reached. -/
def depthRows (choices : Int64 → Nat → Nat) (relType : String) (depths : List Nat)
    (startPat endPat : NodePattern) :
    List GraphEntity → Except String (List (GraphEntity × GraphEntity))
  | [] => .ok []
  | startNode :: starts => do
    let reached ← reachedIds db relType startNode.id depths []
    let rest ← depthRows choices relType depths startPat endPat starts
    return endRows ext db query startPat endPat startNode (drain (choices startNode.id) reached) ++
      rest

def variableDepthRows (choices : Int64 → Nat → Nat) (relType : String) (minHops maxHops : Nat)
    (startPat endPat : NodePattern) : Except String (List (GraphEntity × GraphEntity)) :=
  depthRows ext db query choices relType (List.range' minHops (maxHops + 1 - minHops)) startPat
    endPat ((candidates db startPat).filter (nodePatternMatches startPat))

end Rows

section Star

/-- A partial row of a join: the nodes of its variables. -/
abbrev Binding := List (String × Int64)

/-- `HashMap::insert`. -/
def Binding.insert (b : Binding) (var : String) (id : Int64) : Binding :=
  (var, id) :: b.filter (·.1 ≠ var)

def legBinding (leg : EdgeLeg) (ends : Int64 × Int64) : Binding :=
  (Binding.insert [] leg.fromNode.var ends.1).insert leg.toNode.var ends.2

/-- Shared variables agree. -/
def compatible (left right : Binding) : Bool :=
  right.all fun (var, id) =>
    match left.lookup var with
    | some id' => decide (id' = id)
    | none => true

def merge (left right : Binding) : Binding :=
  right.foldl (fun b (var, id) => b.insert var id) left

def joinLegs (joined : List Binding) (legs : List (List Binding)) : List Binding :=
  legs.foldl (fun joined next => joined.flatMap fun left =>
    (next.filter (compatible left)).map (merge left)) joined

/-- The first pattern written for each variable. -/
def varPat (legs : List EdgeLeg) (var : String) : Option NodePattern :=
  (legs.flatMap fun leg => [(leg.fromNode.var, leg.fromNode), (leg.toNode.var, leg.toNode)]).lookup var

variable (ext : Externals) (db : Database) (query : CypherQuery)

def legBindings (leg : EdgeLeg) : Except String (List Binding) := do
  let triples ← matchLeg db leg.direction leg.relType leg.fromNode leg.toNode
  return triples.map fun t => legBinding leg (tripleEnds leg.direction t)

/-- The node of a variable, if it is there and has its pattern. -/
def boundNode (legs : List EdgeLeg) (var : String) (id : Int64) : Option GraphEntity :=
  match getNode db id with
  | some node =>
    match varPat legs var with
    | some pat => if nodePatternMatches pat node then some node else none
    | none => some node
  | none => none

def bindingHolds (legs : List EdgeLeg) (b : Binding) : Bool :=
  (b.all fun (var, id) => (boundNode db legs var id).isSome) &&
    groupsMatch ext query.whereGroups fun var => (b.lookup var).bind (getNode db)

def starRows (legs : List EdgeLeg) : Except String (List Binding) := do
  match ← legs.mapM (legBindings db) with
  | [] => .error "star pattern must have at least one leg"
  | first :: rest => return (joinLegs first rest).filter (bindingHolds ext db query legs)

end Star

section Match
variable (ext : Externals) (db : Database) (query : CypherQuery)

/-- The projections that are not empty. -/
def nonEmpty (results : List Object) : List Object := results.filter fun obj => !obj.isEmpty

def projectPair (startPat endPat : NodePattern) (row : GraphEntity × GraphEntity) : Object :=
  extendWithNode (extendWithNode [] startPat row.1 query.returns) endPat row.2 query.returns

def projectBinding (legs : List EdgeLeg) (b : Binding) : Object :=
  b.foldl (fun obj (var, id) =>
    match getNode db id with
    | some node =>
      extendWithNode obj ((varPat legs var).getD ⟨var, none, []⟩) node query.returns
    | none => obj) []

def executeNodeMatch (pat : NodePattern) : Except String Json :=
  .ok (response (nonEmpty (((nodeRows ext db query pat).take (limitOf query)).map fun node =>
    projectNode pat node query.returns)))

def executeEdgeMatch (fromPat : NodePattern) (relType : String) (toPat : NodePattern) :
    Except String Json := do
  let rows ← edgeRows ext db query fromPat relType toPat
  return response (nonEmpty ((rows.take (limitOf query)).map fun (edgeId, fromNode, toNode) =>
    projectEdge fromPat toPat fromNode toNode edgeId query.returns))

/-- A chain has at least one leg. -/
def executeMultiHop (legs : List EdgeLeg) : Except String Json :=
  match legs.head?, legs.getLast? with
  | some first, some last =>
    .ok (response ((nonEmpty ((multiHopRows ext db query legs first.fromNode last.toNode).map
      (projectPair query first.fromNode last.toNode))).take (limitOf query)))
  | _, _ => .error "multi-hop has >=1 leg"

def executeVariableDepth (choices : Int64 → Nat → Nat) (relType : String) (minHops maxHops : Nat) :
    Except String Json :=
  match query.startNode, query.endNode with
  | none, _ => .error "variable-depth requires a start node"
  | _, none => .error "variable-depth requires an end node"
  | some startPat, some endPat => do
    let rows ← variableDepthRows ext db query choices relType minHops maxHops startPat endPat
    return response ((nonEmpty (rows.map (projectPair query startPat endPat))).take (limitOf query))

/-- The limit is looked at after a row is pushed. -/
def executeStar (legs : List EdgeLeg) : Except String Json := do
  let rows ← starRows ext db query legs
  return response
    ((nonEmpty (rows.map (projectBinding db query legs))).take (max 1 (limitOf query)))

def executeMatch (choices : Int64 → Nat → Nat) : Except String Json :=
  match query.pattern with
  | .node pat => executeNodeMatch ext db query pat
  | .edge fromPat relType toPat => executeEdgeMatch ext db query fromPat relType toPat
  | .multiHop legs => executeMultiHop ext db query legs
  | .variableDepth relType minHops maxHops =>
    executeVariableDepth ext db query choices relType minHops maxHops
  | .star legs => executeStar ext db query legs
  | .none => .error "MATCH requires a pattern"

end Match

end SqliteGraph.Cypher
