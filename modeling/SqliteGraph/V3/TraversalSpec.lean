import SqliteGraph.V3.EdgeLoading

/-! What the native backend's traversals return after a load, as sets of nodes. -/
namespace SqliteGraph.V3
open Lib
variable {s : TraversalState} {dsts : EdgeKey → List Int64} {edges : List EdgeSpec}
  {edge : EdgeSpec} {direction : BackendDirection} {u v start : Int64} {fuel lookupFuel depth : Nat}
  {queue l : List (Int64 × Nat)} {visited : Finset Int64} {chain : List ChainStep}

/-- Running out of page ids is all that stops a load. -/
def LoadExhausted (e : SqliteGraphError) : Prop := e = .aborted .capacityOverflow

theorem onEdges_settles {α : Type} {x : Nat → EdgeM α} {P : α → EdgeState → Prop}
    (h : StoreM.Settles (· = .capacityOverflow) x s.edges P) :
    StoreM.Settles LoadExhausted (fun fuel => V3Backend.onEdges (x fuel)) s
      fun a s' => P a s'.edges ∧ s'.nodeIds = s.nodeIds := by
  obtain ⟨bound, ⟨r, s'⟩, hrun, hr⟩ := h
  rcases hr with ⟨e, rfl, rfl⟩ | ⟨a, rfl, hp⟩
  · refine ⟨bound, (.error (.aborted .capacityOverflow), { s with edges := s' }), ?_, .inl ⟨_, rfl, rfl⟩⟩
    intro fuel hf
    simp only [V3Backend.onEdges, hrun fuel hf]
    rfl
  · refine ⟨bound, (.ok a, { s with edges := s' }), ?_, .inr ⟨a, rfl, hp, rfl⟩⟩
    intro fuel hf
    simp only [V3Backend.onEdges, hrun fuel hf]

theorem insertEdgeInner_settles (h : Loading s.edges dsts)
    (hends : edge.fromId ∈ s.nodeIds ∧ edge.toId ∈ s.nodeIds) :
    StoreM.Settles LoadExhausted (fun fuel => V3Backend.insertEdgeInner fuel edge) s
      fun _ s' => Loading s'.edges (loadEdge dsts edge) ∧ s'.nodeIds = s.nodeIds := by
  refine StoreM.Settles.get_bind ?_
  simp only [hends, not_true_eq_false, or_self, if_false]
  refine (onEdges_settles (h.insertEdge _)).bind ?_
  rintro - s₁ ⟨h₁, hids₁⟩
  refine (onEdges_settles (h₁.insertEdge _)).bind ?_
  rintro - s₂ ⟨h₂, hids₂⟩
  exact .of_run (a := s₂.edgeCount + 1) rfl ⟨h₂, hids₂.trans hids₁⟩

/-- A load of edges between existing nodes. -/
theorem insertEdges_settles (h : Loading s.edges dsts)
    (hends : ∀ edge ∈ edges, edge.fromId ∈ s.nodeIds ∧ edge.toId ∈ s.nodeIds) :
    StoreM.Settles LoadExhausted (fun fuel => V3Backend.insertEdges fuel edges) s
      fun _ s' => Loading s'.edges (edges.foldl loadEdge dsts) := by
  induction edges generalizing s dsts with
  | nil => exact .of_run (a := ()) rfl h
  | cons edge edges ih =>
    refine (insertEdgeInner_settles h (hends edge (by simp))).bind ?_
    rintro - s' ⟨h', hids⟩
    refine ih h' fun edge he => ?_
    rw [hids]
    exact hends edge (by simp [he])

/-- The neighbors that a traversal sees. -/
def adjacencyOf (dsts : EdgeKey → List Int64) (direction : BackendDirection) (u : Int64) : List Int64 :=
  dsts (u, directionOf direction)

/-- A loaded backend answers without changing. -/
theorem adjacency_run (h : Loading s.edges dsts) (fuel : Nat) :
    V3Backend.adjacency fuel direction u s = (.ok (adjacencyOf dsts direction u), s) := by
  cases direction with
  | outgoing =>
    simp only [V3Backend.adjacency, V3Backend.outgoing, V3Backend.onEdges, h.neighbors fuel]
    rfl
  | incoming =>
    simp only [V3Backend.adjacency, V3Backend.incoming, V3Backend.onEdges, h.neighbors fuel]
    rfl

/-- The queue loop lists the nodes that a search meets, at the levels that it lists. -/
theorem hopLoop_search {lists : Nat → Bool} {result : List Int64} (h : Loading s.edges dsts)
    (hl : search (adjacencyOf dsts direction) (· < depth) fuel visited queue = some l)
    (hlevel : ∀ x ∈ queue, x.2 ≤ depth) :
    V3Backend.hopLoop lookupFuel direction depth lists fuel visited queue result s =
      (.ok (result ++ (l.filter fun x => lists x.2).map Prod.fst), s) := by
  induction fuel generalizing visited queue result l with
  | zero =>
    cases queue with
    | nil =>
      cases hl
      simp [V3Backend.hopLoop]
    | cons x queue => cases hl
  | succ fuel ih =>
    cases queue with
    | nil =>
      cases hl
      simp [V3Backend.hopLoop]
    | cons x queue =>
      obtain ⟨node, d⟩ := x
      have hd := hlevel (node, d) (by simp)
      have hlevel' : ∀ x ∈ queue, x.2 ≤ depth := fun x hx => hlevel x (by simp [hx])
      have hresult : ∀ rest : List (Int64 × Nat),
          (if lists d then result ++ [node] else result) ++ (rest.filter fun x => lists x.2).map Prod.fst =
            result ++ (((node, d) :: rest).filter fun x => lists x.2).map Prod.fst := by
        intro rest
        cases hlist : lists d with
        | true => simp [hlist]
        | false => simp [hlist]
      rw [V3Backend.hopLoop, if_neg (Nat.not_lt.mpr hd)]
      by_cases hlt : d < depth
      · obtain ⟨l, rfl, hl'⟩ := search_expand hl hlt
        rw [if_pos hlt, ← hresult, StoreM.bind_ok _ (adjacency_run h lookupFuel)]
        simp only [foldl_visit, foldl_snoc]
        refine ih hl' fun x hx => ?_
        rcases List.mem_append.mp hx with hx | hx
        · exact hlevel' x hx
        · obtain ⟨w, -, rfl⟩ := List.mem_map.mp hx
          exact hlt
      · obtain ⟨l, rfl, hl'⟩ := search_skip hl hlt
        rw [if_neg hlt, ← hresult]
        exact ih hl' hlevel'

theorem chainNext_run (h : Loading s.edges dsts) (nodes : List Int64) :
    V3Backend.chainNext fuel direction nodes s = (.ok (nodes.flatMap (adjacencyOf dsts direction)), s) := by
  induction nodes with
  | nil => rfl
  | cons node nodes ih =>
    rw [V3Backend.chainNext, StoreM.bind_ok _ (adjacency_run h fuel), StoreM.bind_ok _ ih]
    rfl

/-- The steps are taken along edges of any type. -/
theorem chainLoop_run (fuel : Nat) (chain : List ChainStep)
    (h : Loading s.edges (edges.foldl loadEdge fun _ => [])) (current : List Int64) :
    ∃ next, V3Backend.chainLoop fuel current chain s = (.ok next, s) ∧
      ∀ v, v ∈ next ↔ ∃ u ∈ current, EndsAt edges (chain.map ChainStep.anyType) u v := by
  induction chain generalizing current with
  | nil => exact ⟨current, rfl, by simp [EndsAt]⟩
  | cons step chain ih =>
    obtain ⟨next, hrun, hmem⟩ := ih (current.flatMap (adjacencyOf _ step.direction))
    refine ⟨next, ?_, fun v => ?_⟩
    · rw [V3Backend.chainLoop, StoreM.bind_ok _ (chainNext_run h current), hrun]
    · rw [hmem]
      simp only [List.mem_flatMap, adjacencyOf, mem_foldl_loadEdge, List.not_mem_nil, false_or,
        List.map_cons, EndsAt, ChainStep.Takes, ChainStep.anyType, reduceCtorEq, false_implies,
        implies_true, and_true]
      tauto

end SqliteGraph.V3
