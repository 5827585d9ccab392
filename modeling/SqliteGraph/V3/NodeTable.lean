import SqliteGraph.V3.NodeStorePages

/-! What a node store does, without pages: the records that a reader sees, and those committed. -/
namespace SqliteGraph.V3

/-- A batch sees its own insertions; a rollback goes back to what was committed. -/
structure NodeTable where
  visible : Int64 → Option NodeRecordV3
  committed : Int64 → Option NodeRecordV3
  nextId : Int64
  batch : Bool

inductive NodeOp
  | insert (node : NodeRecordV3)
  | update (node : NodeRecordV3)
  | delete (id : Int64)
  | lookup (id : Int64)
  | lookupRo (id : Int64)
  | clearCache
  | beginBatch
  | commitBatch
  | rollbackBatch
  deriving DecidableEq

/-- What a call returns. -/
inductive NodeReply
  | inserted (result : Except NativeBackendError Int64)
  | updated (result : Except NativeBackendError Unit)
  | deleted (result : Except NativeBackendError Bool)
  | found (result : Except NativeBackendError (Option NodeRecordV3))
  | committed (result : Except NativeBackendError Nat)
  | done

namespace NodeOp

/-- The records are ones that the backend's constructors build. -/
def Built : NodeOp → Prop
  | .insert node | .update node => node.Built
  | _ => True

def isInsert : NodeOp → Bool
  | .insert _ => true
  | _ => false

/-- Whether a batch is open after the call, if that was so before. -/
def leavesBatch (batch : Bool) : NodeOp → Bool
  | .beginBatch => true
  | .commitBatch | .rollbackBatch => false
  | _ => batch

/-- A call that a write batch offers, or that no write batch is open for. -/
def InBatch (batch : Bool) : NodeOp → Prop
  | .update _ | .delete _ => batch = false
  | _ => True

instance instDecidableInBatch (batch : Bool) (op : NodeOp) : Decidable (op.InBatch batch) := by
  cases op <;> unfold InBatch <;> infer_instance

/-- No record is updated or deleted while a batch is open. -/
def BatchesInsert : Bool → List NodeOp → Prop
  | _, [] => True
  | batch, op :: ops => op.InBatch batch ∧ BatchesInsert (op.leavesBatch batch) ops

instance instDecidableBatchesInsert (batch : Bool) (ops : List NodeOp) :
    Decidable (BatchesInsert batch ops) :=
  match ops with
  | [] => inferInstanceAs (Decidable True)
  | op :: ops =>
    have := instDecidableBatchesInsert (op.leavesBatch batch) ops
    inferInstanceAs (Decidable (op.InBatch batch ∧ BatchesInsert (op.leavesBatch batch) ops))

end NodeOp

namespace NodeTable

def empty : NodeTable := ⟨fun _ => none, fun _ => none, 1, false⟩

/-- Outside a batch every write is committed. -/
def write (m : NodeTable) (id : Int64) (r : Option NodeRecordV3) : NodeTable :=
  { m with
    visible := Function.update m.visible id r
    committed := if m.batch then m.committed else Function.update m.committed id r }

def skipId (m : NodeTable) : NodeTable := { m with nextId := m.nextId + 1 }

def insert (m : NodeTable) (node : NodeRecordV3) : NodeTable :=
  (m.write m.nextId (some { node with id := m.nextId })).skipId

/-- An open batch is lost. -/
def beginBatch (m : NodeTable) : NodeTable := { m with visible := m.committed, batch := true }

def commitBatch (m : NodeTable) : NodeTable := { m with committed := m.visible, batch := false }

def rollbackBatch (m : NodeTable) : NodeTable := { m with visible := m.committed, batch := false }

/-- The replies that a call may give, with the table after each. -/
inductive Step (m : NodeTable) : NodeOp → NodeReply → NodeTable → Prop
  | inserted {node} : node.Small → Step m (.insert node) (.inserted (.ok m.nextId)) (m.insert node)
  | refused {node e} : ¬ node.Small → Step m (.insert node) (.inserted (.error e)) m.skipId
  | updated {node} : m.visible node.id ≠ none →
      Step m (.update node) (.updated (.ok ())) (m.write node.id (some node))
  | absent {node e} : m.visible node.id = none → Step m (.update node) (.updated (.error e)) m
  /-- Together with the others the record has no room on its page, or on none. -/
  | overfull {node e} : (∃ reason, e = .invalidHeader "node_page" reason) ∨ ¬ node.Small →
      Step m (.update node) (.updated (.error e)) m
  | deleted {id} : Step m (.delete id) (.deleted (.ok (m.visible id).isSome)) (m.write id none)
  | found {id r} : Option.Rel NodeRecordV3.Same (m.visible id) r →
      Step m (.lookup id) (.found (.ok r)) m
  | foundRo {id r} : Option.Rel NodeRecordV3.Same (m.committed id) r →
      Step m (.lookupRo id) (.found (.ok r)) m
  | clearCache : Step m .clearCache .done m
  | beginBatch : Step m .beginBatch .done m.beginBatch
  | commitBatch {n} : Step m .commitBatch (.committed (.ok n)) m.commitBatch
  | rollbackBatch : Step m .rollbackBatch .done m.rollbackBatch

/-- The replies that a run may give. -/
inductive Run : NodeTable → List NodeOp → List NodeReply → NodeTable → Prop
  | nil {m} : Run m [] [] m
  | cons {m m' m'' op reply ops replies} : Step m op reply m' → Run m' ops replies m'' →
      Run m (op :: ops) (reply :: replies) m''

end NodeTable

end SqliteGraph.V3
