import SqliteGraph.Algo.Scc
import SqliteGraph.Lib.HashOrder

/-! The condensed graph of the components, and the supernodes of the call graph. -/
namespace SqliteGraph.Algo
open Lib Sqlite

instance linearOrderInt64 : LinearOrder Int64 where
  le_refl := Int64.le_refl
  le_trans _ _ _ := Int64.le_trans
  le_antisymm _ _ := Int64.le_antisymm
  le_total := Int64.le_total
  toDecidableLE := inferInstance
  lt_iff_le_not_ge a b := by grind

section Edges
variable {α : Type}

end Edges

structure SccResult where
  components : List (Finset Int64)
  nodeToComponent : AList fun _ : Int64 => Nat
  condensedEdges : List (Nat × Nat)

section Edges
variable {α β : Type} {t : Tables} {g : FiniteGraph} {x y : α} {u v : Int64}

end Edges

/-- The components part the entities by mutual reachability, the index names them, and their edges are
those of the graph. -/
structure IsCondensation (t : Tables) (result : SccResult) : Prop where
  entities : ∀ v, v ∈ t.entities ↔ ∃ c ∈ result.components, v ∈ c
  disjoint : result.components.Pairwise Disjoint
  nonempty : ∀ c ∈ result.components, c.Nonempty
  reachable : ∀ c ∈ result.components, ∀ u ∈ c, ∀ v,
    v ∈ c ↔ Relation.ReflTransGen (Joined t) u v ∧ Relation.ReflTransGen (Joined t) v u
  index : ∀ v i, result.nodeToComponent.lookup v = some i ↔
    ∃ c, result.components[i]? = some c ∧ v ∈ c
  edges : ∀ i j, (i, j) ∈ result.condensedEdges ↔ i ≠ j ∧ ∃ u v, Joined t u v ∧
    result.nodeToComponent.lookup u = some i ∧ result.nodeToComponent.lookup v = some j
  acyclic : ∀ i, ¬ Relation.TransGen (fun i j => (i, j) ∈ result.condensedEdges) i i

section Components
open Tarjan
variable {g : FiniteGraph} {result : SccResult} {u v : Int64} {i j : Nat} {x : Int64}

/-- There are no more components than identifiers. -/
theorem IsCondensation.length_le (h : IsCondensation g.toTables result) :
    result.components.length ≤ 2 ^ 64 := by
  choose! member hmember using h.nonempty
  have hnodup : (result.components.map member).Nodup := by
    rw [List.Nodup, List.pairwise_map]
    refine h.disjoint.imp_of_mem fun {c c'} hc hc' hdisjoint heq => ?_
    exact Finset.disjoint_left.mp hdisjoint (hmember c hc) (heq ▸ hmember c' hc')
  have hle := hnodup.length_le_card
  rwa [List.length_map, ← FinEnum.card_eq_fintypeCard] at hle

section Maps
variable {l : List ((_ : Int64) × Nat)}

end Maps

end Components

end SqliteGraph.Algo
