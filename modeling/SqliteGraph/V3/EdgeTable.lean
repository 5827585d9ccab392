import SqliteGraph.V3.EdgeStore

/-! What an edge store does, without pages: three tables of edges, and the list it should answer. -/
namespace SqliteGraph.V3
open Lib

abbrev EdgeItem : Type := Int64 × Option String

/-- `keys` are the pairs ever inserted. -/
structure EdgeTable where
  cached : EdgeKey → Option (List Int64)
  pending : EdgeKey → Option (List EdgeItem)
  stored : EdgeKey → Option (List EdgeItem)
  keys : List EdgeKey

inductive EdgeOp
  | insert (src dst : Int64) (dir : Direction) (edgeType : Option String)
  | neighbors (src : Int64) (dir : Direction)
  | flush
  | reopen
  deriving DecidableEq

namespace EdgeTable

def empty : EdgeTable := ⟨fun _ => none, fun _ => none, fun _ => none, []⟩

/-- A list takes a destination once. -/
def appendNew (neighbors : List Int64) (dst : Int64) : List Int64 :=
  if dst ∈ neighbors then neighbors else neighbors ++ [dst]

def insert (m : EdgeTable) (k : EdgeKey) (e : EdgeItem) : EdgeTable where
  cached := Function.update m.cached k (some (appendNew ((m.cached k).getD []) e.1))
  pending := Function.update m.pending k (some ((m.pending k).getD [] ++ [e]))
  stored := m.stored
  keys := k :: m.keys

/-- The destinations stored for a pair. -/
def storedDsts (m : EdgeTable) (k : EdgeKey) : List Int64 := ((m.stored k).getD []).map Prod.fst

def answer (m : EdgeTable) (k : EdgeKey) : List Int64 := (m.cached k).getD (m.storedDsts k)

/-- A query keeps what it has loaded, unless that is nothing. -/
def query (m : EdgeTable) (k : EdgeKey) : EdgeTable :=
  if m.cached k = none ∧ m.storedDsts k ≠ [] then
    { m with cached := Function.update m.cached k (some (m.storedDsts k)) }
  else m

/-- A pending cluster goes over the stored one. -/
def store (m : EdgeTable) (k : EdgeKey) : EdgeTable :=
  { m with
    stored := Function.update m.stored k ((m.pending k).or (m.stored k))
    pending := Function.update m.pending k none }

def flush (m : EdgeTable) : EdgeTable :=
  { m with stored := fun k => (m.pending k).or (m.stored k), pending := fun _ => none }

def reopen (m : EdgeTable) : EdgeTable := { m.flush with cached := fun _ => none }

def apply (m : EdgeTable) : EdgeOp → EdgeTable
  | .insert src dst dir edgeType => m.insert (src, dir) (dst, edgeType)
  | .neighbors src dir => m.query (src, dir)
  | .flush => m.flush
  | .reopen => m.reopen

def run (m : EdgeTable) (ops : List EdgeOp) : EdgeTable := ops.foldl apply m

/-- No other pair inserted so far has this pair's index key. -/
def Apart (m : EdgeTable) (k : EdgeKey) : Prop :=
  ∀ k' ∈ m.keys, edgeKey k'.1 k'.2 = edgeKey k.1 k.2 → k' = k

/-- The step stays within what pages and index keys can tell apart. -/
def Allows (m : EdgeTable) : EdgeOp → Prop
  | .insert src dst dir edgeType => m.Apart (src, dir) ∧
      V3EdgeCluster.imageSize ((m.pending (src, dir)).getD [] ++ [(dst, edgeType)]) ≤ defaultPageSize
  | .neighbors src dir => m.Apart (src, dir)
  | .flush | .reopen => True

def AllowsRun (m : EdgeTable) : List EdgeOp → Prop
  | [] => True
  | op :: ops => m.Allows op ∧ (m.apply op).AllowsRun ops

instance (m : EdgeTable) (k : EdgeKey) : Decidable (m.Apart k) := by
  unfold Apart
  infer_instance

instance (m : EdgeTable) (op : EdgeOp) : Decidable (m.Allows op) := by
  cases op <;> unfold Allows <;> infer_instance

end EdgeTable

end SqliteGraph.V3
