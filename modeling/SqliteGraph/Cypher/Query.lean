import SqliteGraph.Backend
import SqliteGraph.Lib.Text

/-! Parsed queries, and how the parser fails. -/
namespace SqliteGraph.Cypher
open Lib

inductive EdgeDirection
  | outgoing
  | incoming
  | both
  deriving DecidableEq, Repr

inductive WhereOp
  | eq
  | notEq
  | greaterThan
  | lessThan
  | greaterEq
  | lessEq
  | regex
  deriving DecidableEq, Repr

structure NodePattern where
  var : String
  label : Option String
  props : List (String × String)
  deriving DecidableEq, Repr

structure WhereClause where
  var : String
  field : String
  operator : WhereOp
  value : String
  deriving DecidableEq, Repr

structure EdgeLeg where
  relType : String
  direction : EdgeDirection
  fromNode : NodePattern
  toNode : NodePattern
  deriving DecidableEq, Repr

/-- The numbers of a vector are kept as they are written. -/
inductive Statement
  | matchPattern
  | createNode (var : String) (label : Option String) (props : List (String × String))
  | createEdge (fromId toId : Int64) (relType : String)
  | set (var field value : String)
  | delete (var : String)
  | callVectorQuery (indexName : String) (k : Nat) (vector : List String)
  deriving DecidableEq, Repr

inductive Pattern
  | none
  | node (pattern : NodePattern)
  | edge (fromNode : NodePattern) (relType : String) (toNode : NodePattern)
  | multiHop (legs : List EdgeLeg)
  | variableDepth (relType : String) (minHops maxHops : Nat)
  | star (legs : List EdgeLeg)
  deriving DecidableEq, Repr

/-- `whereGroups` is a disjunction of conjunctions. -/
structure CypherQuery where
  statement : Statement
  pattern : Pattern
  direction : EdgeDirection
  returns : List String
  whereGroups : List (List WhereClause)
  limit : Option Nat
  startNode : Option NodePattern
  endNode : Option NodePattern
  deriving DecidableEq, Repr

/-- The parser returns an error, or a slice panics. -/
inductive Failure
  | error (message : String)
  | panic
  | outOfFuel
  deriving DecidableEq, Repr

abbrev ParseM := Except Failure

def fail {α : Type} (message : String) : ParseM α := .error (.error message)

section Slices
variable {α : Type}

def orPanic : Option α → ParseM α
  | some a => .ok a
  | none => .error .panic

/-- `ok_or_else`. -/
def orFail (message : String) : Option α → ParseM α
  | some a => .ok a
  | none => fail message

def upTo (s : Text) (n : Nat) : ParseM Text := orPanic (sliceTo s n)

def onwards (s : Text) (n : Nat) : ParseM Text := orPanic (sliceFrom s n)

def between (s : Text) (a b : Nat) : ParseM Text := orPanic (sliceRange s a b)

end Slices

def trim (s : Text) : Text := trimMatches isWhitespace s

/-- The quotes around a value are taken off, the double ones first. -/
def unquote (s : Text) : Text := trimMatches (· = '\'') (trimMatches (· = '"') (trim s))

end SqliteGraph.Cypher
