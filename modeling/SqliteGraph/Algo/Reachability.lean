import SqliteGraph.Algo.FiniteGraph
import SqliteGraph.Lib.Exploration

/-! What a node reaches and what reaches it, by a breadth-first search either way. -/
namespace SqliteGraph.Algo
open Lib Sqlite

instance finiteInt64 : Finite Int64 :=
  Finite.of_injective (fun v : Int64 => v.toBitVec.toFin) fun _ _ h =>
    Int64.toBitVec_inj.mp (BitVec.toFin_inj.mp h)

/-- One step for each queued node. -/
def reachableLoop (neighbors : Int64 → List Int64) :
    Nat → Finset Int64 → List Int64 → Except SqliteGraphError (Finset Int64)
  | _, visited, [] => .ok visited
  | 0, _, _ :: _ => .error .outOfFuel
  | fuel + 1, visited, node :: queue =>
    let fresh := discover visited (neighbors node)
    reachableLoop neighbors fuel (visited ∪ fresh.toFinset) (queue ++ fresh)

def reachableFrom (fuel : Nat) (t : Tables) (start : Int64) :
    Except SqliteGraphError (Finset Int64) :=
  reachableLoop (fetchOutgoing t) fuel {start} [start]

def reverseReachableFrom (fuel : Nat) (t : Tables) (target : Int64) :
    Except SqliteGraphError (Finset Int64) :=
  reachableLoop (fetchIncoming t) fuel {target} [target]

section Search
variable {E : Int64 → Int64 → Prop} {neighbors : Int64 → List Int64} {start : Int64}
  {visited : Finset Int64} {queue : List Int64} {fuel : Nat}

/-- How many ids are left to be found or to be taken from the queue. -/
noncomputable def remaining (visited : Finset Int64) (queue : List Int64) : Nat :=
  (Set.finite_univ.toFinset \ visited).card + queue.length

theorem remaining_discover (visited : Finset Int64) (node : Int64) (queue l : List Int64) :
    remaining (visited ∪ (discover visited l).toFinset) (queue ++ discover visited l) + 1 =
      remaining visited (node :: queue) := by
  have hsub : visited ⊆ Set.finite_univ.toFinset := fun v _ => by simp
  have h := (card_discover hsub fun w (_ : w ∈ l) => by simp).2
  simp only [remaining, List.length_append, List.length_cons]
  omega

theorem reachableLoop_run (hE : ∀ u v, v ∈ neighbors u ↔ E u v)
    (h : Exploring E {start} visited queue) (hfuel : remaining visited queue ≤ fuel) :
    ∃ reached, reachableLoop neighbors fuel visited queue = .ok reached ∧
      ∀ v, v ∈ reached ↔ Relation.ReflTransGen E start v := by
  induction fuel generalizing visited queue with
  | zero =>
    rcases queue with _ | ⟨node, queue⟩
    · exact ⟨visited, by simp [reachableLoop], fun v => by simp [h.ends]⟩
    · simp [remaining] at hfuel
  | succ fuel ih =>
    rcases queue with _ | ⟨node, queue⟩
    · exact ⟨visited, by simp [reachableLoop], fun v => by simp [h.ends]⟩
    · have hless := remaining_discover visited node queue (neighbors node)
      exact ih (h.enqueue fun w => hE node w) (by omega)

end Search

end SqliteGraph.Algo
