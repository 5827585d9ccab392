import SqliteGraph.Sqlite.MultiHop

/-! The graph's tables, and the statements and queries that the code runs on them. -/
namespace SqliteGraph.Sqlite

/-- `serde_json::Value`; a number is kept as it prints. -/
inductive Json
  | null
  | bool (b : Bool)
  | number (text : String)
  | string (s : String)
  | array (items : List Json)
  | object (fields : List (String × Json))

/-- `Value::get`. -/
def Json.get (v : Json) (key : String) : Option Json :=
  match v with
  | .object fields => fields.lookup key
  | _ => none

structure GraphEntity where
  id : Int64
  kind : String
  name : String
  filePath : Option String
  data : Json

/-- A whole row of `graph_edges`. -/
structure EdgeRow extends GraphEdge where
  data : Json

/-- The tables, each in the order of its row ids, and the highest ids that `AUTOINCREMENT` has seen. -/
structure Database where
  entities : List GraphEntity
  edges : List EdgeRow
  labels : List (Int64 × String)
  properties : List (Int64 × String × String)
  entitySeq : Int
  edgeSeq : Int

def i64Max : Int := 2 ^ 63 - 1

def diskFull : SqliteGraphError := .queryError "database or disk is full"

namespace Database

def empty : Database := ⟨[], [], [], [], 0, 0⟩

/-- What the traversals see of the tables. -/
def tables (db : Database) : Tables := ⟨db.entities.map (·.id), db.edges.map (·.toGraphEdge)⟩

section Statements

/-- `INSERT INTO graph_entities(kind, name, file_path, data)`. -/
def insertEntityRow (db : Database) (e : GraphEntity) :
    Except SqliteGraphError (Int64 × Database) :=
  if i64Max ≤ db.entitySeq then .error diskFull
  else
    let id := Int64.ofInt (db.entitySeq + 1)
    .ok (id, { db with
      entities := db.entities ++ [{ e with id }]
      entitySeq := db.entitySeq + 1 })

/-- `INSERT INTO graph_edges(from_id, to_id, edge_type, data)`. -/
def insertEdgeRow (db : Database) (e : EdgeRow) : Except SqliteGraphError (Int × Database) :=
  if i64Max ≤ db.edgeSeq then .error diskFull
  else
    let id := db.edgeSeq + 1
    .ok (id, { db with edges := db.edges ++ [{ e with id }], edgeSeq := id })

instance lawfulBEqLabel : LawfulBEq (Int64 × String) := inferInstance

/-- `INSERT OR IGNORE INTO graph_labels`, whose rows are unique. -/
def insertLabelOrIgnore (db : Database) (entityId : Int64) (label : String) : Database :=
  if (entityId, label) ∈ db.labels then db
  else { db with labels := db.labels ++ [(entityId, label)] }

def insertProperty (db : Database) (entityId : Int64) (key value : String) : Database :=
  { db with properties := db.properties ++ [(entityId, key, value)] }

/-- `UPDATE graph_entities ... WHERE id`, with the number of rows it has changed. -/
def updateEntityRow (db : Database) (e : GraphEntity) : Nat × Database :=
  (db.entities.countP (·.id = e.id),
    { db with entities := db.entities.map fun old => if old.id = e.id then e else old })

/-- `DELETE FROM graph_entities WHERE id`. -/
def deleteEntityRow (db : Database) (id : Int64) : Nat × Database :=
  (db.entities.countP (·.id = id), { db with entities := db.entities.filter (·.id ≠ id) })

/-- `DELETE FROM graph_edges WHERE from_id OR to_id`. -/
def deleteEdgesAt (db : Database) (id : Int64) : Database :=
  { db with edges := db.edges.filter fun e => ¬ (e.fromId = id ∨ e.toId = id) }

/-- `DELETE FROM graph_edges WHERE id`. -/
def deleteEdgeRow (db : Database) (id : Int) : Nat × Database :=
  (db.edges.countP (·.id = id), { db with edges := db.edges.filter (·.id ≠ id) })

/-- A row among those of smaller and larger ids. -/
def insertAt {α : Type} (before : α → Bool) (row : α) (rows : List α) : List α :=
  rows.takeWhile before ++ row :: rows.dropWhile before

/-- `INSERT INTO graph_entities(id, ...)`. -/
def insertEntityWithId (db : Database) (e : GraphEntity) : Except SqliteGraphError (Unit × Database) :=
  if e.id ∈ db.entities.map (·.id) then
    .error (.queryError "UNIQUE constraint failed: graph_entities.id")
  else .ok ((), { db with
    entities := insertAt (·.id < e.id) e db.entities
    entitySeq := max db.entitySeq e.id.toInt })

/-- `INSERT INTO graph_edges(id, ...)`. -/
def insertEdgeWithId (db : Database) (e : EdgeRow) : Except SqliteGraphError (Unit × Database) :=
  if e.id ∈ db.edges.map (·.id) then
    .error (.queryError "UNIQUE constraint failed: graph_edges.id")
  else .ok ((), { db with
    edges := insertAt (·.id < e.id) e db.edges
    edgeSeq := max db.edgeSeq e.id })

/-- `INSERT INTO graph_labels`. -/
def insertLabel (db : Database) (entityId : Int64) (label : String) :
    Except SqliteGraphError (Unit × Database) :=
  if (entityId, label) ∈ db.labels then
    .error (.queryError "UNIQUE constraint failed: graph_labels.entity_id, graph_labels.label")
  else .ok ((), { db with labels := db.labels ++ [(entityId, label)] })

end Statements

section Queries

def entityExists (db : Database) (id : Int64) : Bool := db.entities.any (·.id = id)

def getEntity (db : Database) (id : Int64) : Except SqliteGraphError GraphEntity :=
  match db.entities.find? (·.id = id) with
  | some e => .ok e
  | none => .error (.notFound s!"entity {id}")

def getEdge (db : Database) (id : Int) : Except SqliteGraphError EdgeRow :=
  match db.edges.find? (·.id = id) with
  | some e => .ok e
  | none => .error (.notFound s!"edge {id}")

def allEntityIds (db : Database) : List Int64 := db.entities.map (·.id)

end Queries

end Database

def validateEntity (entity : GraphEntity) : Except SqliteGraphError Unit :=
  if isBlank entity.kind then .error (.invalidInput "entity kind must be set")
  else if isBlank entity.name then .error (.invalidInput "entity name must be set")
  else .ok ()

end SqliteGraph.Sqlite
