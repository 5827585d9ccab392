import SqliteGraph.Lib.Dominance
import SqliteGraph.Sqlite.MultiHopSpec

/-! The directed graph that the algorithms read from the tables. -/
namespace SqliteGraph.Algo
open Lib Sqlite

/-- Tables whose edges join entities. -/
structure FiniteGraph extends Tables where
  nodup : entities.Nodup
  closed : ∀ e ∈ edges, e.fromId ∈ entities ∧ e.toId ∈ entities

/-- Tables that have been checked. -/
abbrev FiniteGraph.of (t : Tables) (h : decide (t.entities.Nodup ∧
    ∀ e ∈ t.edges, e.fromId ∈ t.entities ∧ e.toId ∈ t.entities) = true) : FiniteGraph :=
  ⟨t, (of_decide_eq_true h).1, (of_decide_eq_true h).2⟩

/-- An edge leads from the one node to the other. -/
def Joined (t : Tables) (u v : Int64) : Prop := ∃ e ∈ t.edges, e.fromId = u ∧ e.toId = v

/-- No path leads from a node to itself. -/
def Acyclic (t : Tables) : Prop := ∀ v, ¬ Relation.TransGen (Joined t) v v

section Neighbors
variable {t : Tables} {g : FiniteGraph} {u v : Int64}

theorem mem_fetchOutgoing : v ∈ fetchOutgoing t u ↔ Joined t u v := by
  simp only [fetchOutgoing, List.mem_map, mem_selectRows, Joined]
  constructor
  · rintro ⟨e, ⟨he, hu⟩, hv⟩
    exact ⟨e, he, hu, hv⟩
  · rintro ⟨e, he, hu, hv⟩
    exact ⟨e, ⟨he, hu⟩, hv⟩

theorem mem_fetchIncoming : u ∈ fetchIncoming t v ↔ Joined t u v := by
  simp only [fetchIncoming, List.mem_map, mem_selectRows, Joined]
  constructor
  · rintro ⟨e, ⟨he, hv⟩, hu⟩
    exact ⟨e, he, hu, hv⟩
  · rintro ⟨e, he, hu, hv⟩
    exact ⟨e, ⟨he, hv⟩, hu⟩

theorem FiniteGraph.joined_mem (h : Joined g.toTables u v) : u ∈ g.entities ∧ v ∈ g.entities := by
  obtain ⟨e, he, rfl, rfl⟩ := h
  exact g.closed e he

/-- What is reached from an entity is an entity. -/
theorem FiniteGraph.reached_mem {E : Int64 → Int64 → Prop} {root : Int64}
    (hE : ∀ u v, E u v → v ∈ g.entities) (hroot : root ∈ g.entities) (h : Reached E root v) :
    v ∈ g.entities := by
  rcases h.cases with rfl | ⟨u, -, he⟩
  · exact hroot
  · exact hE u v he

end Neighbors

end SqliteGraph.Algo
