import SqliteGraph.Algo.SearchIterators

/-! The lazy connected components are those of undirected reachability, and the ones that are returned. -/
namespace SqliteGraph.Algo
open Lib
variable {b : GraphBackend} {ids rest component queue : List Int64} {out inc : Int64 → List Int64}
  {E : Int64 → Int64 → Prop} {old : Finset Int64} {seed u v : Int64} {n fuel count : Nat}

/-- A backend whose outgoing and incoming lists describe one multigraph over its entities. -/
structure Describes (b : GraphBackend) (ids : List Int64) (out inc : Int64 → List Int64) : Prop where
  entities : b.allEntityIds = .ok ids
  nodup : ids.Nodup
  fetchOut : ∀ u, b.fetchOutgoing u = .ok (out u)
  fetchIn : ∀ u, b.fetchIncoming u = .ok (inc u)
  agree : ∀ u v, (out u).count v = (inc v).count u
  closed : ∀ u, ∀ v ∈ out u, u ∈ ids ∧ v ∈ ids

/-- An edge joins the two nodes, either way. -/
def Linked (out inc : Int64 → List Int64) (u v : Int64) : Prop := v ∈ out u ∨ v ∈ inc u

namespace Describes

theorem mem_inc (h : Describes b ids out inc) : u ∈ inc v ↔ v ∈ out u := by
  rw [← List.count_pos_iff, ← h.agree, List.count_pos_iff]

theorem linked_mem (h : Describes b ids out inc) (he : Linked out inc u v) : u ∈ ids ∧ v ∈ ids := by
  rcases he with he | he
  · exact h.closed u v he
  · exact (h.closed v u (h.mem_inc.mp he)).symm

theorem linked_symm (h : Describes b ids out inc) (he : Linked out inc u v) : Linked out inc v u := by
  rcases he with he | he
  · exact .inr (h.mem_inc.mpr he)
  · exact .inl (h.mem_inc.mp he)

theorem reached_symm (h : Describes b ids out inc) (hr : Relation.ReflTransGen (Linked out inc) u v) :
    Relation.ReflTransGen (Linked out inc) v u := by
  induction hr with
  | refl => exact .refl
  | tail _ he ih => exact .head (h.linked_symm he) ih

theorem reached_mem (h : Describes b ids out inc) (hu : u ∈ ids)
    (hr : Relation.ReflTransGen (Linked out inc) u v) : v ∈ ids := by
  cases hr.cases_tail with
  | inl he => exact he ▸ hu
  | inr hr =>
    obtain ⟨w, -, he⟩ := hr
    exact (h.linked_mem he).2

end Describes

section Sorted
variable {c : List Int64}

end Sorted

namespace ConnectedComponentsIter

theorem next_nil : next b fuel ⟨[], old, count⟩ = (none, ⟨[], old, count⟩) := rfl

end ConnectedComponentsIter

/-- The classes of a symmetric relation over the ids, each sorted; from ascending ids, in the order of
their smallest nodes. -/
structure Components (E : Int64 → Int64 → Prop) (ids : List Int64) (cs : List (List Int64)) : Prop where
  sorted : ∀ c ∈ cs, c.Pairwise (· < ·)
  classes : ∀ c ∈ cs, ∃ u ∈ ids, ∀ v, v ∈ c ↔ Relation.ReflTransGen E u v
  covers : ∀ v ∈ ids, ∃ c ∈ cs, v ∈ c
  disjoint : cs.Pairwise List.Disjoint
  ordered : ids.Pairwise (· < ·) → cs.Pairwise fun c d => c.headD 0 < d.headD 0

end SqliteGraph.Algo
