import SqliteGraph.Lib.StoreM
import SqliteGraph.Sqlite.Database

/-! The graph as one program uses it: its tables behind a connection, with three caches in front. -/
namespace SqliteGraph.Sqlite
open Lib

inductive QueryCacheKey
  | bfs (start : Int64) (depth : Nat)
  | kHop (start : Int64) (depth : Nat) (direction : BackendDirection)
  | kHopFiltered (start : Int64) (depth : Nat) (direction : BackendDirection)
      (allowedEdgeTypes : List String)
  | shortestPath (start finish : Int64)
  deriving DecidableEq

inductive QueryResult
  | bfs (result : List Int64)
  | kHop (result : List Int64)
  | shortestPath (result : Option (List Int64))

structure Caches where
  outgoing : Int64 → Option (List Int64)
  incoming : Int64 → Option (List Int64)
  query : QueryCacheKey → Option QueryResult

def Caches.empty : Caches := ⟨fun _ => none, fun _ => none, fun _ => none⟩

/-- The tables, what an open transaction rolls back to, and what happens to the statements to come: each
goes through or fails with a message. -/
structure Session where
  db : Database
  txn : Option Database
  outcomes : List (Option String)
  caches : Caches

/-- A new graph in memory. -/
def Session.open (outcomes : List (Option String)) : Session := ⟨.empty, none, outcomes, .empty⟩

abbrev SessionM := StoreM Session SqliteGraphError

structure BatchConfig where
  maxBatchSize : Nat
  enableChunking : Bool

inductive DumpRecord
  | entity (e : GraphEntity)
  | edge (e : EdgeRow)
  | label (entityId : Int64) (label : String)
  | property (entityId : Int64) (key value : String)

namespace Session

section Statements

/-- A statement; one that fails leaves the tables as they were. -/
def execute {α : Type} (f : Database → Except SqliteGraphError (α × Database)) : SessionM α := fun s =>
  let s' := { s with outcomes := s.outcomes.tail }
  match s.outcomes.head?.join with
  | some message => (.error (.queryError message), s')
  | none =>
    match f s.db with
    | .ok (a, db) => (.ok a, { s' with db })
    | .error e => (.error e, s')

/-- A statement that only the database itself can make fail. -/
def run (f : Database → Database) : SessionM Unit := execute fun db => .ok ((), f db)

/-- `BEGIN`. -/
def begin : SessionM Unit := fun s =>
  let s' := { s with outcomes := s.outcomes.tail }
  match s.outcomes.head?.join, s.txn with
  | some message, _ => (.error (.queryError message), s')
  | none, some _ => (.error (.queryError "cannot start a transaction within a transaction"), s')
  | none, none => (.ok (), { s' with txn := some s.db })

/-- `COMMIT`; one that fails leaves its transaction open. -/
def commit : SessionM Unit := fun s =>
  let s' := { s with outcomes := s.outcomes.tail }
  match s.outcomes.head?.join, s.txn with
  | some message, _ => (.error (.queryError message), s')
  | none, none => (.error (.queryError "cannot commit - no transaction is active"), s')
  | none, some _ => (.ok (), { s' with txn := none })

/-- `ROLLBACK`, whose errors the code ignores. -/
def rollback : SessionM Unit := StoreM.modify fun s => { s with db := s.txn.getD s.db, txn := none }

def invalidateCaches : SessionM Unit := StoreM.modify fun s => { s with caches := .empty }

/-- `fault_injection::check_fault`. -/
def checkFault : SessionM Unit := run id

end Statements

section Entities

/-- The row of an entity, and its kind as a label. -/
def insertEntityAndLabel (entity : GraphEntity) : SessionM Int64 := do
  let id ← execute (·.insertEntityRow entity)
  if entity.kind = "" then pure id
  else do
    run (·.insertLabelOrIgnore id entity.kind)
    pure id

def insertEntity (entity : GraphEntity) : SessionM Int64 := do
  StoreM.ofExcept (validateEntity entity)
  insertEntityAndLabel entity

/-- One statement, or group of statements, for each item, until one fails. -/
def forEach {α β : Type} (f : α → SessionM β) : List α → SessionM (List β)
  | [] => pure []
  | a :: as => do
    let b ← f a
    let bs ← forEach f as
    pure (b :: bs)

def insertEntitiesBulk (entities : List GraphEntity) : SessionM (List Int64) :=
  if entities.isEmpty then pure []
  else do
    let _ ← forEach (fun entity => StoreM.ofExcept (validateEntity entity)) entities
    begin
    match ← StoreM.attempt (forEach insertEntityAndLabel entities) with
    | .ok ids => do
      commit
      pure ids
    | .error e => do
      rollback
      StoreM.throw e

def updateEntity (entity : GraphEntity) : SessionM Unit :=
  if entity.id ≤ 0 then StoreM.throw (.invalidInput "entity id must be positive for update")
  else do
    StoreM.ofExcept (validateEntity entity)
    let affected ← execute fun db => .ok (db.updateEntityRow entity)
    if affected = 0 then StoreM.throw (.notFound s!"entity {entity.id}")
    else pure ()

def deleteEntity (id : Int64) : SessionM Unit := do
  let affected ← execute fun db => .ok (db.deleteEntityRow id)
  if affected = 0 then StoreM.throw (.notFound s!"entity {id}")
  else do
    run (·.deleteEdgesAt id)
    invalidateCaches

def addLabel (entityId : Int64) (label : String) : SessionM Unit :=
  run (·.insertLabelOrIgnore entityId label)

def addProperty (entityId : Int64) (key value : String) : SessionM Unit :=
  run (·.insertProperty entityId key value)

end Entities

section Edges

/-- Both ends are entities. -/
def checkEndpoints (edge : EdgeRow) : SessionM Unit := do
  let s ← StoreM.get
  if !s.db.entityExists edge.fromId || !s.db.entityExists edge.toId then
    StoreM.throw (.invalidInput "edge endpoints must reference existing entities")
  else pure ()

/-- Through one connection, whose last row is the new one. -/
def insertEdge (edge : EdgeRow) : SessionM Int := do
  StoreM.ofExcept (validateEdge edge.toEdgeSpec)
  checkEndpoints edge
  let id ← execute (·.insertEdgeRow edge)
  invalidateCaches
  pure id

def insertEdgesBulk (edges : List EdgeRow) : SessionM (List Int) :=
  if edges.isEmpty then pure []
  else do
    let _ ← forEach (fun edge => do
      StoreM.ofExcept (validateEdge edge.toEdgeSpec)
      checkEndpoints edge) edges
    begin
    match ← StoreM.attempt (forEach (fun edge => execute (·.insertEdgeRow edge)) edges) with
    | .ok ids => do
      commit
      invalidateCaches
      pure ids
    | .error e => do
      rollback
      StoreM.throw e

def deleteEdge (id : Int) : SessionM Unit := do
  let affected ← execute fun db => .ok (db.deleteEdgeRow id)
  if affected = 0 then StoreM.throw (.notFound s!"edge {id}")
  else invalidateCaches

end Edges

section Batches

/-- `slice::chunks`, with the length of the slice as fuel. -/
def chunks {α : Type} (size : Nat) : Nat → List α → List (List α)
  | 0, _ => []
  | _ + 1, [] => []
  | fuel + 1, a :: as => (a :: as).take size :: chunks size fuel ((a :: as).drop size)

def executeBatch {α β : Type} (items : List α) (config : BatchConfig)
    (operation : List α → SessionM (List β)) : SessionM (List β) :=
  if !config.enableChunking || items.length ≤ config.maxBatchSize then operation items
  else if config.maxBatchSize = 0 then
    StoreM.throw (.aborted (.panic "chunk size must be non-zero"))
  else do
    let results ← forEach operation (chunks config.maxBatchSize items.length items)
    pure results.flatten

/-- `TransactionGuard::execute`, with what dropping the guard does. -/
def transactionGuard {α : Type} (f : SessionM α) : SessionM α := do
  begin
  match ← StoreM.attempt f with
  | .ok result => do
    match ← StoreM.attempt commit with
    | .ok () => do
      invalidateCaches
      pure result
    | .error e => do
      rollback
      StoreM.throw e
  | .error e => do
    rollback
    StoreM.throw e

def bulkInsertEntities (config : BatchConfig) (entries : List GraphEntity) : SessionM (List Int64) :=
  if entries.isEmpty then pure []
  else executeBatch entries config fun chunk => transactionGuard do
    let ids ← forEach (fun entry => do
      StoreM.ofExcept (validateEntity entry)
      execute (·.insertEntityRow entry)) chunk
    checkFault
    pure ids

/-- `SELECT COUNT(1) ... WHERE id IN (from, to)` finds only one row for a self-loop. -/
def validateEndpointsExist (fromId toId : Int64) : SessionM Unit := do
  let s ← StoreM.get
  if s.db.entities.countP (fun e => e.id = fromId ∨ e.id = toId) < 2 then
    StoreM.throw (.invalidInput "edge endpoints must exist")
  else pure ()

/-- The entries of a chunk, of which each edge is taken once. -/
def insertUnseen : List EdgeSpec → List EdgeRow → SessionM (List Int)
  | _, [] => pure []
  | seen, entry :: entries => do
    StoreM.ofExcept (validateEdge entry.toEdgeSpec)
    if entry.toEdgeSpec ∈ seen then insertUnseen seen entries
    else do
      validateEndpointsExist entry.fromId entry.toId
      let id ← execute (·.insertEdgeRow entry)
      let ids ← insertUnseen (entry.toEdgeSpec :: seen) entries
      pure (id :: ids)

def bulkInsertEdges (config : BatchConfig) (entries : List EdgeRow) : SessionM (List Int) :=
  if entries.isEmpty then pure []
  else executeBatch entries config fun chunk => transactionGuard do
    let ids ← insertUnseen [] chunk
    checkFault
    pure ids

end Batches

section Load

def loadRecord : DumpRecord → SessionM Unit
  | .entity e => execute (·.insertEntityWithId e)
  | .edge e => execute (·.insertEdgeWithId e)
  | .label entityId label => execute (·.insertLabel entityId label)
  | .property entityId key value => run (·.insertProperty entityId key value)

/-- `load_graph_from_reader`, given the lines that are not blank: each a record, or why it is none. -/
def loadGraph (lines : List (Except SqliteGraphError DumpRecord)) : SessionM Unit := do
  begin
  match ← StoreM.attempt do
    run fun db => { db with labels := [] }
    run fun db => { db with properties := [] }
    run fun db => { db with edges := [] }
    run fun db => { db with entities := [] }
    let _ ← forEach (fun line => do
      let record ← StoreM.ofExcept line
      loadRecord record) lines
    checkFault with
  | .ok () => do
    commit
    invalidateCaches
  | .error e => do
    rollback
    StoreM.throw e

end Load

/-- A call that may write to the tables. -/
inductive Write
  | insertEntity (entity : GraphEntity)
  | insertEntitiesBulk (entities : List GraphEntity)
  | bulkInsertEntities (config : BatchConfig) (entries : List GraphEntity)
  | updateEntity (entity : GraphEntity)
  | deleteEntity (id : Int64)
  | addLabel (entityId : Int64) (label : String)
  | addProperty (entityId : Int64) (key value : String)
  | insertEdge (edge : EdgeRow)
  | insertEdgesBulk (edges : List EdgeRow)
  | bulkInsertEdges (config : BatchConfig) (entries : List EdgeRow)
  | deleteEdge (id : Int)
  | loadGraph (lines : List (Except SqliteGraphError DumpRecord))

/-- The state that a write leaves, whether it has failed or not. -/
def write (s : Session) : Write → Session
  | .insertEntity entity => (insertEntity entity s).2
  | .insertEntitiesBulk entities => (insertEntitiesBulk entities s).2
  | .bulkInsertEntities config entries => (bulkInsertEntities config entries s).2
  | .updateEntity entity => (updateEntity entity s).2
  | .deleteEntity id => (deleteEntity id s).2
  | .addLabel entityId label => (addLabel entityId label s).2
  | .addProperty entityId key value => (addProperty entityId key value s).2
  | .insertEdge edge => (insertEdge edge s).2
  | .insertEdgesBulk edges => (insertEdgesBulk edges s).2
  | .bulkInsertEdges config entries => (bulkInsertEdges config entries s).2
  | .deleteEdge id => (deleteEdge id s).2
  | .loadGraph lines => (loadGraph lines s).2

end Session

end SqliteGraph.Sqlite
