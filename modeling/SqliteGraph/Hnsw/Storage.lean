import SqliteGraph.Hnsw.Error
import SqliteGraph.Lib.StoreM

/-! Where the index keeps its vectors: the interface, the storage in memory and the one in SQLite. -/
namespace SqliteGraph.Hnsw
open Lib

/-- What the index sends to its connection when it saves the layers. -/
inductive TopologyStatement
  | beginImmediate
  | commit
  | rollback
  | replaceLayer (level nodeId : Nat) (connections : List Nat)
  | deleteEntryPoints
  | insertEntryPoint (nodeId orderIdx : Nat)

/-- The methods that the index calls; `S` is the state of the storage. -/
structure VectorStorage (F M S : Type) where
  storeVector : List F → Option M → StoreM S HnswError Nat
  getVectorWithMetadata : S → Nat → Except HnswError (Option (List F × M))
  deleteVector : Nat → StoreM S HnswError Unit
  listVectors : S → Except HnswError (List Nat)
  beginBulkInsert : StoreM S HnswError Unit
  commitBulkInsert : StoreM S HnswError Unit
  rollbackBulkInsert : S → S
  asSqliteConnection : S → Option (TopologyStatement → StoreM S HnswError Unit)

structure VectorRecord (F M : Type) where
  id : Nat
  dimension : Nat
  data : List F
  metadata : Option M

namespace VectorRecord
variable {F M : Type}

def new (id : Nat) (data : List F) (metadata : Option M) : VectorRecord F M :=
  ⟨id, data.length, data, metadata⟩

def validate (isFinite : F → Bool) (r : VectorRecord F M) : Except HnswError Unit :=
  if r.dimension = 0 then .error (.storage (.invalidDimension r.dimension))
  else if r.data.length ≠ r.dimension then
    .error (.storage (.dimensionMismatch r.dimension r.data.length))
  else if r.data.any fun x => !isFinite x then .error (.storage .invalidVectorData)
  else .ok ()

end VectorRecord

section InMemory
variable {F M : Type} [Inhabited M]

structure InMemoryVectorStorage (F M : Type) where
  vectors : AList fun _ : Nat => VectorRecord F M
  nextId : Nat

namespace InMemoryVectorStorage

def new : InMemoryVectorStorage F M := ⟨∅, 1⟩

def takeId : StoreM (InMemoryVectorStorage F M) HnswError Nat := do
  let s ← StoreM.get
  StoreM.modify fun s => { s with nextId := s.nextId + 1 }
  pure s.nextId

def storeVector (isFinite : F → Bool) (vector : List F) (metadata : Option M) :
    StoreM (InMemoryVectorStorage F M) HnswError Nat := do
  let id ← takeId
  let record := VectorRecord.new id vector metadata
  StoreM.ofExcept (record.validate isFinite)
  StoreM.modify fun s => { s with vectors := s.vectors.insert id record }
  pure id

/-- Missing metadata reads as `null`. -/
def getVectorWithMetadata (s : InMemoryVectorStorage F M) (id : Nat) :
    Except HnswError (Option (List F × M)) :=
  .ok ((s.vectors.lookup id).map fun record => (record.data, record.metadata.getD default))

def deleteVector (id : Nat) : StoreM (InMemoryVectorStorage F M) HnswError Unit :=
  StoreM.modify fun s => { s with vectors := s.vectors.erase id }

def listVectors (s : InMemoryVectorStorage F M) : Except HnswError (List Nat) :=
  .ok (s.vectors.keys.insertionSort (· ≤ ·))

end InMemoryVectorStorage

/-- A bulk insert is no transaction here, and there is nothing to save the layers in. -/
def inMemoryStorage (isFinite : F → Bool) : VectorStorage F M (InMemoryVectorStorage F M) where
  storeVector := InMemoryVectorStorage.storeVector isFinite
  getVectorWithMetadata := InMemoryVectorStorage.getVectorWithMetadata
  deleteVector := InMemoryVectorStorage.deleteVector
  listVectors := InMemoryVectorStorage.listVectors
  beginBulkInsert := pure ()
  commitBulkInsert := pure ()
  rollbackBulkInsert := id
  asSqliteConnection _ := none

end InMemory

section SQLite
variable {F M : Type} [Inhabited M]

/-- The rows of the index in `hnsw_vectors`, and the largest id that the table has given out. -/
structure VectorTable (F M : Type) where
  rows : AList fun _ : Nat => List F × Option M
  sequence : Nat

/-- How a statement ends: with a message when it fails, and then maybe with the open transaction
rolled back; `skipped` ids have gone to rows of other indexes. -/
structure StatementOutcome where
  failure : Option String
  aborts : Bool
  skipped : Nat

/-- `saved` is the table as the open transaction has found it. -/
structure SQLiteVectorStorage (F M : Type) where
  table : VectorTable F M
  saved : Option (VectorTable F M)
  outcomes : Nat → StatementOutcome

namespace SQLiteVectorStorage

def new (sequence : Nat) (outcomes : Nat → StatementOutcome) : SQLiteVectorStorage F M :=
  ⟨⟨∅, sequence⟩, none, outcomes⟩

/-- The table of before the transaction. -/
def undo (s : SQLiteVectorStorage F M) : SQLiteVectorStorage F M :=
  match s.saved with
  | none => s
  | some table => { s with table, saved := none }

/-- Run a statement, unless its outcome is a failure. -/
def execute {α : Type} (statement : StatementOutcome → SQLiteVectorStorage F M →
      Except String (α × SQLiteVectorStorage F M)) :
    StoreM (SQLiteVectorStorage F M) HnswError α := fun s =>
  let s' := { s with outcomes := fun n => s.outcomes (n + 1) }
  match (s.outcomes 0).failure with
  | some message =>
    (.error (.storage (.databaseError message)), if (s.outcomes 0).aborts then s'.undo else s')
  | none =>
    match statement (s.outcomes 0) s' with
    | .error message => (.error (.storage (.databaseError message)), s')
    | .ok (a, t) => (.ok a, t)

def beginImmediate : StoreM (SQLiteVectorStorage F M) HnswError Unit :=
  execute fun _ s =>
    if s.saved.isSome then .error "cannot start a transaction within a transaction"
    else .ok ((), { s with saved := some s.table })

def commit : StoreM (SQLiteVectorStorage F M) HnswError Unit :=
  execute fun _ s =>
    if s.saved.isNone then .error "cannot commit - no transaction is active"
    else .ok ((), { s with saved := none })

def rollback : StoreM (SQLiteVectorStorage F M) HnswError Unit :=
  execute fun _ s =>
    if s.saved.isNone then .error "cannot rollback - no transaction is active"
    else .ok ((), s.undo)

/-- The key is `AUTOINCREMENT`: larger than all that the table has given out. -/
def storeVector (vector : List F) (metadata : Option M) :
    StoreM (SQLiteVectorStorage F M) HnswError Nat :=
  execute fun outcome s =>
    let id := s.table.sequence + outcome.skipped + 1
    .ok (id, { s with table := ⟨s.table.rows.insert id (vector, metadata), id⟩ })

def getVectorWithMetadata (s : SQLiteVectorStorage F M) (id : Nat) :
    Except HnswError (Option (List F × M)) :=
  .ok ((s.table.rows.lookup id).map fun row => (row.1, row.2.getD default))

def deleteVector (id : Nat) : StoreM (SQLiteVectorStorage F M) HnswError Unit :=
  execute fun _ s => .ok ((), { s with table := { s.table with rows := s.table.rows.erase id } })

def listVectors (s : SQLiteVectorStorage F M) : Except HnswError (List Nat) :=
  .ok (s.table.rows.keys.insertionSort (· ≤ ·))

/-- The rows of the layers are in tables of their own. -/
def topology : TopologyStatement → StoreM (SQLiteVectorStorage F M) HnswError Unit
  | .beginImmediate => beginImmediate
  | .commit => commit
  | .rollback => rollback
  | _ => execute fun _ s => .ok ((), s)

end SQLiteVectorStorage

def sqliteStorage : VectorStorage F M (SQLiteVectorStorage F M) where
  storeVector := SQLiteVectorStorage.storeVector
  getVectorWithMetadata := SQLiteVectorStorage.getVectorWithMetadata
  deleteVector := SQLiteVectorStorage.deleteVector
  listVectors := SQLiteVectorStorage.listVectors
  beginBulkInsert := SQLiteVectorStorage.beginImmediate
  commitBulkInsert := SQLiteVectorStorage.commit
  rollbackBulkInsert s := (SQLiteVectorStorage.rollback s).2
  asSqliteConnection _ := some SQLiteVectorStorage.topology

end SQLite

end SqliteGraph.Hnsw
