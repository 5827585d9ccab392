import SqliteGraph.Algo.CondensedGraph
import SqliteGraph.Lib.Elimination
import SqliteGraph.Lib.Orbit

/-! Topological sort by in-degrees, and the cycle that is reported when there is one. -/
namespace SqliteGraph.Algo
open Lib Sqlite

inductive TopoError
  | cycleDetected (cycle : List Int64) (explanation : String)
  deriving DecidableEq

def TopoError.cycle : TopoError → List Int64
  | .cycleDetected cycle _ => cycle

section Degrees

def increment (inDegree : AList fun _ : Int64 => Nat) (target : Int64) : AList fun _ : Int64 => Nat :=
  inDegree.insert target ((inDegree.lookup target).getD 0 + 1)

def decrement (s : (AList fun _ : Int64 => Nat) × List Int64) (target : Int64) :
    Except SqliteGraphError ((AList fun _ : Int64 => Nat) × List Int64) := do
  let degree ← expect "invariant: target in in_degree from initialization" (s.1.lookup target)
  if degree = 0 then .error (.aborted (.panic "attempt to subtract with overflow"))
  else return (s.1.insert target (degree - 1), if degree - 1 = 0 then s.2 ++ [target] else s.2)

end Degrees

section Witness

def startNode (choices : Nat → Nat) (scc : Finset Int64) : Int64 :=
  ((drain choices (scc.sort (· ≤ ·))).head?).getD 1

end Witness

section Kahn
variable {t : Tables} {g : FiniteGraph} {m : AList fun _ : Int64 => Nat} {u v w : Int64}
  {queue result ws arcs nodes : List Int64} {fuel : Nat} {choices : Nat → Nat}

end Kahn

/-- The first neighbor inside of the component. -/
def nextIn (t : Tables) (scc : Finset Int64) (v : Int64) : Int64 :=
  ((fetchOutgoing t v).find? (· ∈ scc)).getD v

section Walk
variable {t : Tables} {g : FiniteGraph} {scc visited : Finset Int64} {start v w : Int64}
  {path l cycle : List Int64} {fuel k : Nat}

/-- Each node of the component has a neighbor in it. -/
def Stays (t : Tables) (scc : Finset Int64) : Prop :=
  ∀ v ∈ scc, (fetchOutgoing t v).find? (· ∈ scc) = some (nextIn t scc v) ∧ nextIn t scc v ∈ scc ∧
    Joined t v (nextIn t scc v)

end Walk

section Sorting
variable {t : Tables} {g : FiniteGraph} {scc : Finset Int64} {result : SccResult}
  {order : List Int64} {degree : Int64 → Nat}

end Sorting

end SqliteGraph.Algo
