import Mathlib

/-! Directed cycles of a graph that is given by the neighbors of each node. -/
namespace SqliteGraph.Lib
variable {V : Type} {next : V → List V} {all : Finset V} {u v w : V}

/-- The arc from a node to its neighbor. -/
def Arc (next : V → List V) (u v : V) : Prop := v ∈ next u

/-- The node lies on a directed cycle. -/
def OnCycle (next : V → List V) (v : V) : Prop := Relation.TransGen (Arc next) v v

/-- There is a way to the node from one that lies on a cycle. -/
def BehindCycle (next : V → List V) (v : V) : Prop :=
  ∃ c, OnCycle next c ∧ Relation.ReflTransGen (Arc next) c v

/-- Where each of finitely many nodes is the neighbor of another, the way back ends in a cycle. -/
theorem behindCycle_of_entered (henter : ∀ v ∈ all, ∃ u ∈ all, Arc next u v) (hv : v ∈ all) :
    BehindCycle next v := by
  by_contra hnone
  let Back := { x // x ∈ all ∧ Relation.ReflTransGen (Arc next) x v }
  let before : Back → Back → Prop := fun x y => Relation.TransGen (Arc next) x.1 y.1
  have : Finite Back := (all.finite_toSet.subset fun x hx => hx.1).to_subtype
  have : IsTrans Back before := ⟨fun _ _ _ hxy hyz => hxy.trans hyz⟩
  have : Std.Irrefl before := ⟨fun x hx => hnone ⟨x.1, hx, x.2.2⟩⟩
  have hwf : WellFounded before := Finite.wellFounded_of_trans_of_irrefl _
  obtain ⟨x, -, hmin⟩ := hwf.has_min Set.univ ⟨⟨v, hv, .refl⟩, trivial⟩
  obtain ⟨u, hu, hux⟩ := henter x.1 x.2.1
  exact hmin ⟨u, hu, x.2.2.head hux⟩ trivial (.single hux)

end SqliteGraph.Lib
