import SqliteGraph.Cypher.Query
import SqliteGraph.Sqlite.Database

/-! Node patterns, predicates and projections: what the executor asks of one node. -/
namespace SqliteGraph.Cypher
open Lib
open Sqlite (GraphEntity Json)

/-- Floating-point numbers and compiled regular expressions. -/
structure Externals where
  Number : Type
  parseF64 : String → Option Number
  partialCmp : Number → Number → Option Ordering
  compileRegex : String → Option (String → Bool)

def nodePatternMatches (pat : NodePattern) (node : GraphEntity) : Bool :=
  (match pat.label with
    | some label => decide (node.kind = label)
    | none => true) &&
  pat.props.all fun (key, value) =>
    if key = "name" then decide (node.name = value)
    else if key = "kind" then decide (node.kind = value)
    else match node.data.get key with
      | some (.string s) => decide (s = value)
      | _ => false

section Predicates
variable (ext : Externals)

/-- The field of a node as text, where it has one. -/
def fieldText (field : String) (node : GraphEntity) : Option String :=
  if field = "kind" then some node.kind
  else if field = "name" then some node.name
  else if field = "id" then some (toString node.id)
  else match node.data.get field with
    | some (.string s) => some s
    | some (.number text) => some text
    | some (.bool b) => some (toString b)
    | _ => none

def compareNumeric (left right : String) : Option Ordering := do
  ext.partialCmp (← ext.parseF64 left) (← ext.parseF64 right)

/-- A pattern that does not compile is looked for as it stands. -/
def regexMatch (actual pattern : String) : Bool :=
  match ext.compileRegex pattern with
  | some isMatch => isMatch actual
  | none => contains actual.toList pattern.toList

def evaluatePredicate (clause : WhereClause) (node : GraphEntity) : Bool :=
  match fieldText clause.field node with
  | none => false
  | some actual =>
    match clause.operator with
    | .eq => decide (actual = clause.value)
    | .notEq => decide (actual ≠ clause.value)
    | .greaterThan => decide (compareNumeric ext actual clause.value = some .gt)
    | .lessThan => decide (compareNumeric ext actual clause.value = some .lt)
    | .greaterEq => decide (compareNumeric ext actual clause.value ∈ [some .gt, some .eq])
    | .lessEq => decide (compareNumeric ext actual clause.value ∈ [some .lt, some .eq])
    | .regex => regexMatch ext actual clause.value

/-- One of the groups holds; a clause on a variable without a node does not filter. -/
def groupsMatch (groups : List (List WhereClause)) (nodeOf : String → Option GraphEntity) : Bool :=
  groups.isEmpty || groups.any fun group => group.all fun clause =>
    match nodeOf clause.var with
    | some node => evaluatePredicate ext clause node
    | none => true

/-- The nodes of one or two patterns, the first before the second. -/
def patternNodes (primary : NodePattern × GraphEntity) (secondary : Option (NodePattern × GraphEntity))
    (var : String) : Option GraphEntity :=
  if var = primary.1.var then some primary.2
  else match secondary with
    | some (pat, node) => if var = pat.var then some node else none
    | none => none

def whereClausesMatch (query : CypherQuery) (primary : NodePattern × GraphEntity)
    (secondary : Option (NodePattern × GraphEntity)) : Bool :=
  groupsMatch ext query.whereGroups (patternNodes primary secondary)

end Predicates

section Projections

abbrev Object := List (String × Json)

/-- `Map::insert`. -/
def Object.insert (obj : Object) (key : String) (value : Json) : Object :=
  (key, value) :: obj.filter (·.1 ≠ key)

def nodeJson (node : GraphEntity) : Json :=
  .object [("id", .number (toString node.id)), ("kind", .string node.kind),
    ("name", .string node.name), ("data", node.data)]

/-- What is asked of the pattern's variable by an item `var.field`. -/
def returnedField (pat : NodePattern) (ret : String) : Option String :=
  if (pat.var.toList ++ ['.']).isPrefixOf ret.toList then
    some (String.ofList (ret.toList.drop (pat.var.length + 1)))
  else none

def fieldJson (field : String) (node : GraphEntity) : Json :=
  if field = "id" then .number (toString node.id)
  else if field = "kind" then .string node.kind
  else if field = "name" then .string node.name
  else (node.data.get field).getD .null

def extendWithNode (obj : Object) (pat : NodePattern) (node : GraphEntity)
    (returns : List String) : Object :=
  returns.foldl (fun obj ret =>
    if ret = "*" ∨ ret = pat.var then obj.insert pat.var (nodeJson node)
    else match returnedField pat ret with
      | some field => obj.insert ret (fieldJson field node)
      | none => obj) obj

def projectNode (pat : NodePattern) (node : GraphEntity) (returns : List String) : Object :=
  extendWithNode [] pat node returns

def projectEdge (fromPat toPat : NodePattern) (fromNode toNode : GraphEntity) (edgeId : Int)
    (returns : List String) : Object :=
  returns.foldl (fun obj ret =>
    if ret = "*" then
      (extendWithNode (extendWithNode obj fromPat fromNode ["*"]) toPat toNode ["*"]).insert
        "edge_id" (.number (toString edgeId))
    else if ret = fromPat.var then extendWithNode obj fromPat fromNode [fromPat.var]
    else if ret = toPat.var then extendWithNode obj toPat toNode [toPat.var]
    else if (returnedField fromPat ret).isSome then extendWithNode obj fromPat fromNode [ret]
    else if (returnedField toPat ret).isSome then extendWithNode obj toPat toNode [ret]
    else obj) []

/-- The rows that are not empty, with their number. -/
def response (results : List Object) : Json :=
  .object [("results", .array (results.map .object)), ("count", .number (toString results.length))]

end Projections

end SqliteGraph.Cypher
