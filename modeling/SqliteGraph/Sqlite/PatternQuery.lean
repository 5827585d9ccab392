import SqliteGraph.Sqlite.CacheCoherence
import SqliteGraph.Sqlite.MultiHopSpec
import SqliteGraph.Sqlite.NodeConstraint

/-! Patterns of several legs: all node sequences from a start, level by level. -/
namespace SqliteGraph.Sqlite
open Lib

structure PatternLeg where
  direction : BackendDirection
  edgeType : Option String
  constraint : Option NodeConstraint

structure PatternQuery where
  root : Option NodeConstraint
  legs : List PatternLeg

structure PatternMatch where
  nodes : List Int64

/-- The entities read so far. -/
abbrev EntityCache := Int64 → Option GraphEntity

/-- The order of a `Vec`. -/
def nodesLe : List Int64 → List Int64 → Bool
  | [], _ => true
  | _ :: _, [] => false
  | a :: as, b :: bs => decide (a < b) || (decide (a = b) && nodesLe as bs)

/-- `sort` and `dedup`. -/
def sortDedup (sequences : List (List Int64)) : List (List Int64) :=
  (sequences.mergeSort nodesLe).destutter (· ≠ ·)

namespace Session

def getEntity (id : Int64) : SessionM GraphEntity := do
  let s ← StoreM.get
  StoreM.ofExcept (s.db.getEntity id)

/-- Along edges of one type the table is asked, else the adjacency cache. -/
def neighborsWithFilters (node : Int64) (direction : BackendDirection) (edgeType : Option String) :
    SessionM (List Int64) :=
  queryNeighbors node direction edgeType

def matchesConstraint (node : Int64) (constraint : Option NodeConstraint) (cache : EntityCache) :
    SessionM (Bool × EntityCache) :=
  match constraint with
  | none => pure (true, cache)
  | some constraint =>
    match cache node with
    | some entity => pure (constraint.matches entity, cache)
    | none => do
      let entity ← getEntity node
      pure (constraint.matches entity, Function.update cache node (some entity))

/-- The loop over the neighbors of the last node of a sequence. -/
def extendSequence (leg : PatternLeg) (seq : List Int64) :
    List Int64 → EntityCache → SessionM (List (List Int64) × EntityCache)
  | [], cache => pure ([], cache)
  | neighbor :: rest, cache => do
    let (accepted, cache) ← matchesConstraint neighbor leg.constraint cache
    let (extended, cache) ← extendSequence leg seq rest cache
    pure (if accepted then (seq ++ [neighbor]) :: extended else extended, cache)

def extendSequences (leg : PatternLeg) :
    List (List Int64) → EntityCache → SessionM (List (List Int64) × EntityCache)
  | [], cache => pure ([], cache)
  | seq :: rest, cache => do
    match seq.getLast? with
    | none => StoreM.throw (.aborted (.panic "sequence non-empty"))
    | some current => do
      let neighbors ← neighborsWithFilters current leg.direction leg.edgeType
      let (extended, cache) ← extendSequence leg seq neighbors cache
      let (others, cache) ← extendSequences leg rest cache
      pure (extended ++ others, cache)

def followLegs : List PatternLeg → List (List Int64) → EntityCache → SessionM (List (List Int64))
  | [], sequences, _ => pure sequences
  | leg :: legs, sequences, cache => do
    let (nextSequences, cache) ← extendSequences leg sequences cache
    if nextSequences.isEmpty then pure []
    else followLegs legs (sortDedup nextSequences) cache

/-- The root's constraint, if there is one, is asked first. -/
def checkRoot (start : Int64) : Option NodeConstraint → SessionM Bool
  | none => pure true
  | some constraint => do
    let entity ← getEntity start
    pure (constraint.matches entity)

def executePattern (start : Int64) (query : PatternQuery) : SessionM (List PatternMatch) := do
  let accepted ← checkRoot start query.root
  if !accepted then pure []
  else do
    let sequences ← followLegs query.legs [[start]] fun _ => none
    pure ((sequences.map PatternMatch.mk).mergeSort fun a b => nodesLe a.nodes b.nodes)

end Session

/-- The node has an entity that satisfies the constraint. -/
def Database.Satisfies (db : Database) (constraint : Option NodeConstraint) (v : Int64) : Prop :=
  ∀ c ∈ constraint, ∃ entity, db.getEntity v = .ok entity ∧ c.matches entity = true

/-- An edge of the leg's direction and type, to a node that satisfies the leg's constraint. -/
def Database.Follows (db : Database) (leg : PatternLeg) (u v : Int64) : Prop :=
  (∃ e ∈ db.tables.specs, e.Joins leg.direction u v ∧ ∀ ty ∈ leg.edgeType, e.edgeType = ty) ∧
    db.Satisfies leg.constraint v

/-- The nodes after `u`, one for each leg. -/
inductive Database.Path (db : Database) : List PatternLeg → Int64 → List Int64 → Prop
  | nil {u : Int64} : db.Path [] u []
  | cons {leg legs} {u v : Int64} {rest} :
    db.Follows leg u v → db.Path legs v rest → db.Path (leg :: legs) u (v :: rest)

/-- The sequences that a query asks for. -/
def Database.Answers (db : Database) (start : Int64) (query : PatternQuery) (nodes : List Int64) :
    Prop :=
  db.Satisfies query.root start ∧ ∃ rest, nodes = start :: rest ∧ db.Path query.legs start rest

/-- The edges join entities. -/
def Database.Closed (db : Database) : Prop :=
  ∀ e ∈ db.edges, e.fromId ∈ db.allEntityIds ∧ e.toId ∈ db.allEntityIds

/-- A sequence that the session returns. -/
def Session.Finds (s : Session) (start : Int64) (query : PatternQuery) (nodes : List Int64) : Prop :=
  ∃ result, (executePattern start query s).1 = .ok result ∧ ⟨nodes⟩ ∈ result

section Order
variable {as bs cs : List Int64} {sequences : List (List Int64)}

end Order

section Legs
variable {db : Database} {leg : PatternLeg} {legs : List PatternLeg} {cache : EntityCache}
  {seq ns : List Int64} {sequences : List (List Int64)} {u v : Int64}

namespace Session

end Session

end Legs

section Splitting
variable {db : Database} {legs legs' : List PatternLeg} {u v : Int64} {rest : List Int64}

end Splitting

/-- The adjacency caches hold what the tables say, and the edges join entities. -/
structure Session.Sound (s : Session) : Prop where
  coherent : s.AdjacencyCoherent
  closed : s.db.Closed

end SqliteGraph.Sqlite
