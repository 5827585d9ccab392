import Mathlib.Data.List.Iterate
import Mathlib.Logic.Function.Iterate
import Mathlib.Data.List.Nodup

/-! The walk that a function makes from a point, and whether it comes back to where it began. -/
namespace SqliteGraph.Lib
variable {α : Type} {f : α → α} {a : α} {i k n : Nat}

end SqliteGraph.Lib
