import SqliteGraph.Sqlite.ChunkInsertion
import SqliteGraph.Sqlite.SessionInvariant

/-! Tables keep their rows in the order of the ids. -/
namespace SqliteGraph.Sqlite
open Lib

section Lists
variable {α : Type}

end Lists

namespace Database
variable {db db' : Database}

end Database

end SqliteGraph.Sqlite
