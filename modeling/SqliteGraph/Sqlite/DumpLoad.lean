import SqliteGraph.Sqlite.Loading
import SqliteGraph.Sqlite.RowOrder

/-! The dump of a graph, and what it makes of a graph that it is loaded into. -/
namespace SqliteGraph.Sqlite
open Lib

/-- `ORDER BY entity_id, label`. -/
def labelBefore (a b : Int64 × String) : Bool := a.1 < b.1 || (a.1 = b.1 && a.2 ≤ b.2)

/-- `ORDER BY entity_id, key, value`. -/
def propertyBefore (a b : Int64 × String × String) : Bool :=
  a.1 < b.1 || (a.1 = b.1 && (a.2.1 < b.2.1 || (a.2.1 = b.2.1 && a.2.2 ≤ b.2.2)))

section Lists
variable {α κ : Type}

end Lists

/-- The records of all rows. -/
def Database.records (db : Database) : List DumpRecord :=
  db.entities.map .entity ++ db.edges.map .edge ++
    (db.labels.mergeSort labelBefore).map (fun (id, label) => DumpRecord.label id label) ++
    (db.properties.mergeSort propertyBefore).map fun (id, key, value) =>
      DumpRecord.property id key value

theorem length_records (db : Database) : db.records.length =
    db.entities.length + db.edges.length + db.labels.length + db.properties.length := by
  simp [Database.records, add_assoc]

namespace Session
variable {db : Database}

/-- Records that the tables take one by one. -/
abbrev Taken (db : Database) (records : List DumpRecord) (db' : Database) : Prop :=
  Accepted (fun line => line) (fun _ => DumpRecord.statement) db (records.map .ok) db'

theorem Taken.append {db' db'' : Database} {as bs : List DumpRecord} (h : Taken db as db')
    (h' : Taken db' bs db'') : Taken db (as ++ bs) db'' := by
  rw [Taken, List.map_append]
  exact Accepted.append h h'

end Session

end SqliteGraph.Sqlite
