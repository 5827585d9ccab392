import SqliteGraph.Algo.GraphOps
import SqliteGraph.Lib.Iteration

/-! The lazy iterators over a backend: what each keeps between two calls, and one call of `next`. -/
namespace SqliteGraph.Algo
open Lib

/-- `Option<Result<_, SqliteGraphError>>`. -/
abbrev Item (α : Type) := Option (Except SqliteGraphError α)

structure BfsIter where
  queue : List (Int64 × Nat)
  visited : Finset Int64
  maxDepth : Nat
  start : Int64
  count : Nat

namespace BfsIter

def new (start : Int64) (maxDepth : Nat) : BfsIter := ⟨[(start, 0)], {start}, maxDepth, start, 0⟩

def next (b : GraphBackend) : Nat → BfsIter → Item Int64 × BfsIter
  | fuel, it =>
    match it.queue, fuel with
    | [], _ => (none, it)
    | _ :: _, 0 => (some (.error .outOfFuel), it)
    | (node, depth) :: queue, fuel + 1 =>
      if depth = it.maxDepth then
        if node ≠ it.start then (some (.ok node), { it with queue, count := it.count + 1 })
        else next b fuel { it with queue }
      else
        match b.fetchOutgoing node with
        | .ok neighbors =>
          let (visited, queue) :=
            neighbors.foldl (visit fun queue w => queue ++ [(w, depth + 1)]) (it.visited, queue)
          next b fuel { it with visited, queue }
        | .error e => (some (.error e), { it with queue })

section Calls
variable {b : GraphBackend} {visited : Finset Int64} {queue : List (Int64 × Nat)} {start node : Int64}
  {fuel maxDepth count depth : Nat} {neighbors : List Int64}

theorem next_nil : next b fuel ⟨[], visited, maxDepth, start, count⟩ =
    (none, ⟨[], visited, maxDepth, start, count⟩) := by
  cases fuel <;> rfl

theorem next_boundary : next b (fuel + 1) ⟨(node, maxDepth) :: queue, visited, maxDepth, start, count⟩ =
    if node ≠ start then (some (.ok node), ⟨queue, visited, maxDepth, start, count + 1⟩)
    else next b fuel ⟨queue, visited, maxDepth, start, count⟩ := by
  simp [next]

theorem next_interior (hd : depth ≠ maxDepth) (h : b.fetchOutgoing node = .ok neighbors) :
    next b (fuel + 1) ⟨(node, depth) :: queue, visited, maxDepth, start, count⟩ =
      next b fuel ⟨queue ++ (discover visited neighbors).map (·, depth + 1),
        visited ∪ (discover visited neighbors).toFinset, maxDepth, start, count⟩ := by
  have hfold : neighbors.foldl (visit fun queue w => queue ++ [(w, depth + 1)]) (visited, queue) =
      (visited ∪ (discover visited neighbors).toFinset,
        queue ++ (discover visited neighbors).map (·, depth + 1)) := by
    rw [foldl_visit]
    exact congrArg (Prod.mk _) (foldl_snoc (·, depth + 1) _ _)
  simp only [next, if_neg hd, h, hfold]

end Calls

end BfsIter

/-- The top of the stack is its head. -/
structure DfsIter where
  stack : List Int64
  visited : Finset Int64
  pending : List Int64
  count : Nat

namespace DfsIter

def new (start : Int64) : DfsIter := ⟨[start], {start}, [], 0⟩

/-- The loop that expands the frontier, until an expansion has found something. -/
def expand (b : GraphBackend) : Nat → DfsIter → Item Int64 × DfsIter
  | fuel, it =>
    match it.stack, fuel with
    | [], _ => (none, it)
    | _ :: _, 0 => (some (.error .outOfFuel), it)
    | node :: stack, fuel + 1 =>
      match b.fetchOutgoing node with
      | .error e => (some (.error e), { it with stack })
      | .ok neighbors =>
        let (visited, stack, pending) :=
          neighbors.foldl (visit fun (stack, pending) w => (w :: stack, pending ++ [w]))
            (it.visited, stack, it.pending)
        match pending with
        | w :: pending => (some (.ok w), ⟨stack, visited, pending, it.count + 1⟩)
        | [] => expand b fuel { it with stack, visited, pending }

def next (b : GraphBackend) (fuel : Nat) (it : DfsIter) : Item Int64 × DfsIter :=
  match it.pending with
  | node :: pending => (some (.ok node), { it with pending, count := it.count + 1 })
  | [] => it.expand b fuel

section Calls
variable {b : GraphBackend} {visited : Finset Int64} {stack neighbors new : List Int64} {node w : Int64}
  {fuel count : Nat}

theorem foldl_visit_pending (visited : Finset Int64) (stack l : List Int64) :
    l.foldl (visit fun s w => (w :: s.1, s.2 ++ [w])) (visited, stack, ([] : List Int64)) =
      (visited ∪ (discover visited l).toFinset, (discover visited l).reverse ++ stack,
        discover visited l) := by
  have hfold : ∀ new stack pending : List Int64,
      new.foldl (fun s w => (w :: s.1, s.2 ++ [w])) (stack, pending) = (new.reverse ++ stack, pending ++ new) := by
    intro new
    induction new with
    | nil => simp
    | cons w new ih => simp [ih]
  rw [foldl_visit, hfold, List.nil_append]

theorem expand_nil : expand b fuel ⟨[], visited, [], count⟩ = (none, ⟨[], visited, [], count⟩) := by
  cases fuel <;> rfl

/-- Nothing new has been found. -/
theorem expand_known (h : b.fetchOutgoing node = .ok neighbors) (hnew : discover visited neighbors = []) :
    expand b (fuel + 1) ⟨node :: stack, visited, [], count⟩ =
      expand b fuel ⟨stack, visited, [], count⟩ := by
  simp [expand, h, foldl_visit_pending, hnew]

theorem expand_new (h : b.fetchOutgoing node = .ok neighbors)
    (hnew : discover visited neighbors = w :: new) :
    expand b (fuel + 1) ⟨node :: stack, visited, [], count⟩ = (some (.ok w),
      ⟨(w :: new).reverse ++ stack, visited ∪ (w :: new).toFinset, new, count + 1⟩) := by
  simp only [expand, h, foldl_visit_pending, hnew]

end Calls

end DfsIter

structure TopologicalSortIter where
  queue : List Int64
  inDegree : AList fun _ : Int64 => Nat
  count : Nat
  totalNodes : Nat

namespace TopologicalSortIter

/-- The oracle gives the order of the in-degrees. -/
def new (choices : Nat → Nat) (b : GraphBackend) : Except SqliteGraphError TopologicalSortIter := do
  let allIds ← b.allEntityIds
  if allIds = [] then return ⟨[], ∅, 0, 0⟩
  else
    let inDegree ← allIds.foldlM (fun inDegree node => do
        let targets ← b.fetchOutgoing node
        return targets.foldl increment inDegree)
      (allIds.foldl (fun inDegree node => inDegree.insert node 0) ∅)
    let queue := ((drain choices inDegree.entries).filter (·.2 = 0)).map Sigma.fst
    return ⟨queue, inDegree, 0, allIds.length⟩

def decrement (s : (AList fun _ : Int64 => Nat) × List Int64) (neighbor : Int64) :
    Except SqliteGraphError ((AList fun _ : Int64 => Nat) × List Int64) :=
  match s.1.lookup neighbor with
  | none => .ok s
  | some degree =>
    if degree = 0 then .error (.aborted (.panic "attempt to subtract with overflow"))
    else .ok (s.1.insert neighbor (degree - 1), if degree - 1 = 0 then s.2 ++ [neighbor] else s.2)

def next (b : GraphBackend) (it : TopologicalSortIter) : Item Int64 × TopologicalSortIter :=
  match it.queue with
  | [] => (none, it)
  | node :: queue =>
    let it := { it with queue, count := it.count + 1 }
    match b.fetchOutgoing node >>= fun neighbors => neighbors.foldlM decrement (it.inDegree, queue) with
    | .ok (inDegree, queue) => (some (.ok node), { it with inDegree, queue })
    | .error e => (some (.error e), it)

end TopologicalSortIter

structure ConnectedComponentsIter where
  entityIds : List Int64
  visited : Finset Int64
  count : Nat

namespace ConnectedComponentsIter

def new (b : GraphBackend) : Except SqliteGraphError ConnectedComponentsIter := do
  let allIds ← b.allEntityIds
  return ⟨allIds, ∅, 0⟩

/-- The first id that has not been visited, and the ids after it. -/
def nextSeed (visited : Finset Int64) : List Int64 → Option (Int64 × List Int64)
  | [] => none
  | id :: ids => if id ∈ visited then nextSeed visited ids else some (id, ids)

def next (b : GraphBackend) (fuel : Nat) (it : ConnectedComponentsIter) :
    Item (List Int64) × ConnectedComponentsIter :=
  match nextSeed it.visited it.entityIds with
  | none => (none, { it with entityIds := [] })
  | some (seed, entityIds) =>
    match b.componentLoop fuel (insert seed it.visited) [seed] [] with
    | (.ok component, visited) =>
      (some (.ok (component.mergeSort fun u v => decide (u ≤ v))),
        ⟨entityIds, visited, it.count + component.length⟩)
    | (.error e, visited) => (some (.error e), { it with entityIds, visited })

end ConnectedComponentsIter

end SqliteGraph.Algo
