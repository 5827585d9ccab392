import SqliteGraph.Algo.TransitiveClosure

/-! Transitive reduction: which edges are kept, and when they are those that are needed. -/
namespace SqliteGraph.Algo
open Lib Sqlite

def isReachableViaIntermediate (closure : Finset (Int64 × Int64)) (fromId toId : Int64) : Bool :=
  if (fromId, toId) ∉ closure then false
  else ∃ p ∈ closure, p.1 = fromId ∧ p.2 ≠ toId ∧ (p.2, toId) ∈ closure

def keepEdge (closure : Finset (Int64 × Int64)) (fromId : Int64)
    (essentialEdges : Finset (Int64 × Int64)) (toId : Int64) : Finset (Int64 × Int64) :=
  if isReachableViaIntermediate closure fromId toId then essentialEdges
  else insert (fromId, toId) essentialEdges

def transitiveReduction (t : Tables) : Except SqliteGraphError (Finset (Int64 × Int64)) := do
  let closure ← transitiveClosure t none
  return t.entities.foldl (fun essentialEdges fromId =>
    (fetchOutgoing t fromId).foldl (keepEdge closure fromId) essentialEdges) ∅

/-- The pairs that are kept join nodes as the edges do, and each of them is needed for that. -/
structure IsReduction (t : Tables) (kept : Finset (Int64 × Int64)) : Prop where
  edges : ∀ p ∈ kept, Joined t p.1 p.2
  reachability : ∀ u v, Relation.ReflTransGen (fun u v => (u, v) ∈ kept) u v ↔
    Relation.ReflTransGen (Joined t) u v
  minimal : ∀ p ∈ kept, ¬ ∀ u v, Relation.ReflTransGen (fun u v => (u, v) ∈ kept.erase p) u v ↔
    Relation.ReflTransGen (Joined t) u v

section Reduction
variable {g : FiniteGraph} {closure kept : Finset (Int64 × Int64)} {u v : Int64} {l : List Int64}

/-- An edge between two nodes is taken to be redundant, for each node reaches itself. -/
theorem isReachableViaIntermediate_edge (hself : (u, u) ∈ closure) (hedge : (u, v) ∈ closure)
    (hne : u ≠ v) : isReachableViaIntermediate closure u v = true := by
  rw [isReachableViaIntermediate, if_neg (not_not.mpr hedge), decide_eq_true_eq]
  exact ⟨(u, u), hself, rfl, hne, hedge⟩

theorem foldl_keepEdge (h : ∀ v ∈ l, isReachableViaIntermediate closure u v = true) :
    l.foldl (keepEdge closure u) kept = kept := by
  induction l with
  | nil => rfl
  | cons v l ih =>
    obtain ⟨hv, hl⟩ := List.forall_mem_cons.mp h
    rw [List.foldl_cons, keepEdge, if_pos hv]
    exact ih hl

/-- Of a graph without cycles nothing is kept. -/
theorem transitiveReduction_acyclic (hacyclic : Acyclic g.toTables) :
    transitiveReduction g.toTables = .ok ∅ := by
  obtain ⟨closure, hrun, hmem⟩ := transitiveClosure_run g
  have hnode : ∀ u kept, (fetchOutgoing g.toTables u).foldl (keepEdge closure u) kept = kept := by
    intro u kept
    refine foldl_keepEdge fun v hv => ?_
    have he := mem_fetchOutgoing.mp hv
    have hu := (g.joined_mem he).1
    refine isReachableViaIntermediate_edge ((hmem u u).mpr ⟨hu, .refl⟩)
      ((hmem u v).mpr ⟨hu, .single he⟩) ?_
    rintro rfl
    exact hacyclic u (.single he)
  rw [transitiveReduction, hrun]
  have hfold : ∀ l : List Int64, l.foldl (fun kept u =>
      (fetchOutgoing g.toTables u).foldl (keepEdge closure u) kept) ∅ = ∅ := by
    intro l
    induction l with
    | nil => rfl
    | cons u l ih => rw [List.foldl_cons, hnode, ih]
  exact congrArg Except.ok (hfold g.entities)

theorem isReduction_empty (hacyclic : Acyclic g.toTables) :
    IsReduction g.toTables ∅ ↔ g.edges = [] := by
  constructor
  · intro h
    by_contra hedges
    obtain ⟨e, he⟩ := List.exists_mem_of_ne_nil g.edges hedges
    have hjoined : Joined g.toTables e.fromId e.toId := ⟨e, he, rfl, rfl⟩
    rcases ((h.reachability _ _).mpr (.single hjoined)).cases_head with heq | ⟨w, hw, -⟩
    · exact hacyclic e.fromId (.single (heq ▸ hjoined))
    · simp at hw
  · intro hedges
    have hnone : ∀ u v, ¬ Joined g.toTables u v := by
      rintro u v ⟨e, he, -⟩
      rw [hedges] at he
      cases he
    refine ⟨by simp, fun u v => ?_, by simp⟩
    constructor
    · exact Relation.ReflTransGen.mono (fun u v he => absurd he (Finset.notMem_empty _)) u v
    · exact Relation.ReflTransGen.mono (fun u v he => absurd he (hnone u v)) u v

end Reduction

/-- What is kept is a reduction only of a graph without edges. -/
theorem transitive_reduction_iff (g : FiniteGraph) (hacyclic : Acyclic g.toTables) :
    (∃ kept, transitiveReduction g.toTables = .ok kept ∧ IsReduction g.toTables kept) ↔
      g.edges = [] := by
  rw [← isReduction_empty hacyclic, transitiveReduction_acyclic hacyclic]
  constructor
  · rintro ⟨kept, hrun, h⟩
    cases hrun
    exact h
  · exact fun h => ⟨∅, rfl, h⟩

/-- One edge, which is needed. -/
def singleEdge : FiniteGraph :=
  .of ⟨[1, 2], [⟨⟨1, 2, "flow"⟩, 1⟩]⟩ (Eq.refl true)

theorem singleEdge_acyclic : Acyclic singleEdge.toTables := by
  have hjoined : ∀ u v, Joined singleEdge.toTables u v → u = 1 ∧ v = 2 := by
    rintro u v ⟨e, he, rfl, rfl⟩
    rw [List.mem_singleton.mp he]
    exact ⟨rfl, rfl⟩
  intro v hv
  obtain ⟨w, hw, -⟩ := Relation.TransGen.head'_iff.mp hv
  obtain ⟨w', -, hw'⟩ := Relation.TransGen.tail'_iff.mp hv
  have hone := (hjoined v w hw).1
  have htwo := (hjoined w' v hw').2
  rw [hone] at htwo
  revert htwo
  decide

theorem transitive_reduction_singleEdge :
    (∃ kept, transitiveReduction singleEdge.toTables = .ok kept ∧
      IsReduction singleEdge.toTables kept) ↔ singleEdge.edges = [] :=
  transitive_reduction_iff singleEdge singleEdge_acyclic

theorem not_transitive_reduction : ¬ ∀ g : FiniteGraph, Acyclic g.toTables →
    ∃ kept, transitiveReduction g.toTables = .ok kept ∧ IsReduction g.toTables kept := by
  intro h
  obtain ⟨kept, hrun, hreduction⟩ := h singleEdge singleEdge_acyclic
  rw [transitiveReduction_acyclic singleEdge_acyclic] at hrun
  cases hrun
  have hedges := (isReduction_empty singleEdge_acyclic).mp hreduction
  cases hedges

end SqliteGraph.Algo
