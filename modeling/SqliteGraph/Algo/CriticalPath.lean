import SqliteGraph.Algo.TopologicalSort
import SqliteGraph.Lib.LongestPath
import SqliteGraph.Sqlite.Database

/-! The critical path of a graph without cycles, and the slack that it leaves. -/
namespace SqliteGraph.Algo
open Lib Sqlite

/-- What a weight function returns: an exact number, or one that is not finite. -/
inductive Weight
  | finite (value : ℚ)
  | nan
  | infinity
  | negInfinity
  deriving DecidableEq

def Weight.isFinite : Weight → Bool
  | .finite _ => true
  | _ => false

def Weight.value : Weight → ℚ
  | .finite value => value
  | _ => 0

def Weight.display : Weight → String
  | .finite value => toString value
  | .nan => "NaN"
  | .infinity => "inf"
  | .negInfinity => "-inf"

structure CriticalPathResult where
  path : List Int64
  distance : ℚ
  distances : AList fun _ : Int64 => ℚ
  predecessors : AList fun _ : Int64 => Option Int64
  topologicalOrder : List Int64

namespace CriticalPathResult

def bottlenecks (r : CriticalPathResult) : Finset Int64 := r.path.toFinset

def isBottleneck (r : CriticalPathResult) (node : Int64) : Bool := decide (node ∈ r.path)

end CriticalPathResult

/-- The distances and the predecessors found so far. -/
structure PathMaps where
  distances : AList fun _ : Int64 => ℚ
  predecessors : AList fun _ : Int64 => Option Int64

def PathMaps.start (s : PathMaps) (node : Int64) : PathMaps :=
  ⟨s.distances.insert node 0, s.predecessors.insert node none⟩

section Labels
variable {weightFn : WeightCallback} {t : Tables} {g : FiniteGraph} {s : PathMaps} {u v : Int64}
  {distU d : ℚ} {ws order before rest path : List Int64} {fuel : Nat}

def PathMaps.labels (s : PathMaps) : Labels Int64 ℚ where
  dist v := (s.distances.lookup v).getD 0
  pred v := (s.predecessors.lookup v).getD none

end Labels

section Exact
variable {weightFn : WeightCallback} {g : FiniteGraph} {s : PathMaps} {choices : Nat → Nat}
  {order path : List Int64} {distance : ℚ}

end Exact

section Slack
variable {weightFn : WeightCallback} {g : FiniteGraph} {choices : Nat → Nat} {r : CriticalPathResult}
  {v : Int64}

end Slack

end SqliteGraph.Algo
