import SqliteGraph.Algo.ComponentsIterator

/-! The lazy topological sort, and the one that counts the incoming edges from their other end. -/
namespace SqliteGraph.Algo
open Lib
variable {b : GraphBackend} {ids queue result ws arcs : List Int64} {out inc : Int64 → List Int64}
  {m : AList fun _ : Int64 => Nat} {n fuel count total : Nat} {u v w : Int64} {choices : Nat → Nat}

section Degrees

end Degrees

section Runs

namespace TopologicalSortIter

theorem next_nil : next b ⟨[], m, count, total⟩ = (none, ⟨[], m, count, total⟩) := rfl

end TopologicalSortIter

end Runs

section Starts

end Starts

end SqliteGraph.Algo
