import SqliteGraph.Sqlite.MultiHop

/-! What the tables' traversals return, as sets of nodes. -/
namespace SqliteGraph.Sqlite
open Lib
variable {t t' : Tables} {edges : List EdgeSpec} {edge : EdgeSpec} {u v start : Int64}
  {direction : BackendDirection} {allowed : Option (List String)} {fuel depth : Nat}
  {queue l : List (Int64 × Nat)} {seen : Finset Int64} {chain : List ChainStep}

/-- The edges of the rows. -/
def Tables.specs (t : Tables) : List EdgeSpec := t.edges.map (·.toEdgeSpec)

theorem insertEdge_ok (h : insertEdge t edge = .ok t') :
    t'.entities = t.entities ∧ t'.specs = t.specs ++ [edge] ∧
      edge.fromId ∈ t.entities ∧ edge.toId ∈ t.entities := by
  unfold insertEdge at h
  cases hv : validateEdge edge with
  | error e =>
    rw [hv] at h
    cases h
  | ok _ =>
    rw [hv] at h
    change (if _ then _ else _) = _ at h
    split at h
    · cases h
    · rename_i hends
      cases h
      exact ⟨rfl, by simp [Tables.specs], by tauto, by tauto⟩

theorem insertEdges_ok (h : insertEdges t edges = .ok t') :
    t'.entities = t.entities ∧ t'.specs = t.specs ++ edges ∧
      ∀ edge ∈ edges, edge.fromId ∈ t.entities ∧ edge.toId ∈ t.entities := by
  induction edges generalizing t with
  | nil =>
    cases h
    simp
  | cons edge edges ih =>
    unfold insertEdges at h
    cases hi : insertEdge t edge with
    | error e =>
      rw [hi] at h
      cases h
    | ok t₁ =>
      rw [hi] at h
      obtain ⟨hent, hspecs, hends⟩ := insertEdge_ok hi
      obtain ⟨hent', hspecs', hends'⟩ := ih h
      rw [hent] at hent' hends'
      exact ⟨hent', by simp [hspecs', hspecs], by simpa using ⟨hends, hends'⟩⟩

theorem mem_selectRows {node neighbor : GraphEdge → Int64} {e : GraphEdge} :
    e ∈ selectRows t node neighbor u ↔ e ∈ t.edges ∧ node e = u := by
  rw [selectRows, List.mem_mergeSort, List.mem_filter, decide_eq_true_eq]

/-- A neighbor is taken if one of its rows has a type that is asked for. -/
theorem mem_foldl_filterRow {types : List String} {neighbor : GraphEdge → Int64}
    (rows : List GraphEdge) (result : List Int64) :
    v ∈ rows.foldl (filterRow types neighbor) result ↔
      v ∈ result ∨ ∃ e ∈ rows, e.edgeType ∈ types ∧ neighbor e = v := by
  induction rows generalizing result with
  | nil => simp
  | cons row rows ih =>
    have hrow : v ∈ filterRow types neighbor result row ↔
        v ∈ result ∨ row.edgeType ∈ types ∧ neighbor row = v := by
      unfold filterRow
      split
      · rename_i hnew
        simp [hnew.1, eq_comm]
      · rename_i hnew
        refine ⟨.inl, ?_⟩
        rintro (hv | ⟨htype, rfl⟩)
        · exact hv
        · have hlast : result.getLast? = some (neighbor row) := by
            by_contra hne
            exact hnew ⟨htype, hne⟩
          exact List.mem_of_getLast? hlast
    rw [List.foldl_cons, ih, hrow, List.exists_mem_cons_iff, or_assoc]

/-- The neighbors in a direction, along the edges of the types that are asked for. -/
theorem mem_typedAdjacency :
    v ∈ typedAdjacency t u direction allowed ↔
      ∃ e ∈ t.specs, e.Joins direction u v ∧ ∀ types, allowed = some types → e.edgeType ∈ types := by
  have hrows : ∀ {types : List String}, types.isEmpty = true → ∀ e : String, e ∉ types := by
    rintro _ htypes e he
    rw [List.isEmpty_iff.mp htypes] at he
    cases he
  cases allowed with
  | none =>
    cases direction with
    | outgoing =>
      simp [typedAdjacency, fetchOutgoing, mem_selectRows, Tables.specs, EdgeSpec.Joins, and_assoc]
    | incoming =>
      simp [typedAdjacency, fetchIncoming, mem_selectRows, Tables.specs, EdgeSpec.Joins, and_assoc]
  | some types =>
    simp only [typedAdjacency, filterNeighbors]
    by_cases htypes : types.isEmpty = true
    · simp [htypes, hrows htypes]
    · cases direction with
      | outgoing =>
        simp only [htypes, Bool.false_eq_true, if_false, mem_foldl_filterRow, mem_selectRows]
        simp [Tables.specs, EdgeSpec.Joins]
        grind
      | incoming =>
        simp only [htypes, Bool.false_eq_true, if_false, mem_foldl_filterRow, mem_selectRows]
        simp [Tables.specs, EdgeSpec.Joins]
        grind

theorem mem_dedup (ws : List Int64) : v ∈ dedup ws ↔ v ∈ ws := by
  fun_induction dedup ws with
  | case1 => rfl
  | case2 w => rfl
  | case3 w ws ih =>
    rw [ih]
    simp
  | case4 w w' ws hne ih => rw [List.mem_cons, ih, ← List.mem_cons]

/-- The queue loop lists the nodes that a search meets. -/
theorem bfsLoop_search {visited : List Int64}
    (hl : search (fetchOutgoing t) (· < depth) fuel seen queue = some l) :
    bfsLoop t depth fuel seen queue visited = .ok (visited ++ l.map Prod.fst) := by
  induction fuel generalizing seen queue visited l with
  | zero =>
    cases queue with
    | nil =>
      cases hl
      simp [bfsLoop]
    | cons x queue => cases hl
  | succ fuel ih =>
    cases queue with
    | nil =>
      cases hl
      simp [bfsLoop]
    | cons x queue =>
      obtain ⟨node, d⟩ := x
      simp only [bfsLoop]
      by_cases hd : d < depth
      · obtain ⟨l, rfl, hl'⟩ := search_expand hl hd
        rw [if_neg (by omega)]
        simp only [foldl_visit, foldl_snoc, ih hl']
        simp
      · obtain ⟨l, rfl, hl'⟩ := search_skip hl hd
        rw [if_pos (by omega), ih hl']
        simp

theorem foldl_hopTo {level : Nat} {ordered : List (Nat × Int64)} (new : List Int64) :
    new.foldl (hopTo level) (ordered, queue) =
      (ordered ++ new.map (level, ·), queue ++ new.map (·, level)) := by
  induction new generalizing ordered queue with
  | nil => simp
  | cons v new ih => simp [hopTo, ih]

/-- The loop puts down all nodes it meets but the first, with their levels. -/
theorem kHopLoop_search {visited : Finset Int64} {ordered : List (Nat × Int64)}
    {done : List (Int64 × Nat)} {first : Int64 × Nat}
    (hl : search (fun node => typedAdjacency t node direction allowed) (· < depth) fuel visited queue =
      some l)
    (hlevel : ∀ x ∈ queue, x.2 ≤ depth) (hordered : first :: ordered.map Prod.swap = done ++ queue) :
    ∃ ordered', kHopLoop t depth direction allowed fuel visited ordered queue = .ok ordered' ∧
      first :: ordered'.map Prod.swap = done ++ l := by
  induction fuel generalizing visited queue ordered done l with
  | zero =>
    cases queue with
    | nil =>
      cases hl
      exact ⟨ordered, rfl, hordered⟩
    | cons x queue => cases hl
  | succ fuel ih =>
    cases queue with
    | nil =>
      cases hl
      exact ⟨ordered, rfl, hordered⟩
    | cons x queue =>
      obtain ⟨node, d⟩ := x
      have hd := hlevel (node, d) (by simp)
      have hlevel' : ∀ x ∈ queue, x.2 ≤ depth := fun x hx => hlevel x (by simp [hx])
      simp only [kHopLoop]
      by_cases hlt : d < depth
      · obtain ⟨l, rfl, hl'⟩ := search_expand hl hlt
        rw [if_neg (by omega)]
        simp only [foldl_visit, foldl_hopTo]
        let new := discover visited (typedAdjacency t node direction allowed)
        have hqueued : ∀ x ∈ queue ++ new.map (·, d + 1), x.2 ≤ depth := by
          intro x hx
          rcases List.mem_append.mp hx with hx | hx
          · exact hlevel' x hx
          · obtain ⟨w, -, rfl⟩ := List.mem_map.mp hx
            exact hlt
        have hordered' : first :: (ordered ++ new.map (d + 1, ·)).map Prod.swap =
            done ++ [(node, d)] ++ (queue ++ new.map (·, d + 1)) := by
          rw [List.map_append, ← List.cons_append, hordered]
          simp [Function.comp_def]
        obtain ⟨ordered', hrun, h'⟩ := ih hl' hqueued hordered'
        exact ⟨ordered', hrun, by simpa using h'⟩
      · obtain ⟨l, rfl, hl'⟩ := search_skip hl hlt
        rw [if_pos (by omega : d = depth)]
        have hordered' : first :: ordered.map Prod.swap = done ++ [(node, d)] ++ queue := by
          simpa using hordered
        obtain ⟨ordered', hrun, h'⟩ := ih hl' hlevel' hordered'
        exact ⟨ordered', hrun, by simpa using h'⟩

/-- All nodes met but the start, whose level is 0. -/
theorem mem_kHop {l : List (Int64 × Nat)} {ordered : List (Nat × Int64)} {v : Int64}
    (hnodup : (l.map Prod.fst).Nodup) (hstart : ∀ v, (v, 0) ∈ l ↔ v = start)
    (hordered : (start, 0) :: ordered.map Prod.swap = l) :
    (∃ d, (d, v) ∈ ordered) ↔ ∃ d, (v, d) ∈ l ∧ 0 < d := by
  subst hordered
  rw [List.map_cons, List.nodup_cons] at hnodup
  constructor
  · rintro ⟨d, hd⟩
    have hmem : (v, d) ∈ ordered.map Prod.swap := List.mem_map.mpr ⟨(d, v), hd, rfl⟩
    refine ⟨d, List.mem_cons_of_mem _ hmem, Nat.pos_of_ne_zero ?_⟩
    rintro rfl
    obtain rfl := (hstart v).mp (List.mem_cons_of_mem _ hmem)
    exact hnodup.1 (List.mem_map.mpr ⟨(v, 0), hmem, rfl⟩)
  · rintro ⟨d, hmem, hpos⟩
    rcases List.mem_cons.mp hmem with heq | hmem
    · cases heq
      cases hpos
    · obtain ⟨x, hx, heq⟩ := List.mem_map.mp hmem
      obtain rfl : x = (d, v) := Prod.swap_injective heq
      exact ⟨d, hx⟩

theorem mem_chainNext {current : List Int64} {step : ChainStep} :
    v ∈ chainNext t current step ↔ ∃ u ∈ current, ∃ e ∈ t.specs, step.Takes e u v := by
  obtain ⟨direction, edgeType⟩ := step
  cases edgeType with
  | none => simp [chainNext, mem_typedAdjacency, ChainStep.Takes]
  | some edgeType => simp [chainNext, mem_typedAdjacency, ChainStep.Takes]

theorem mem_chainLoop {current : List Int64} :
    v ∈ chainLoop t current chain ↔ ∃ u ∈ current, EndsAt t.specs chain u v := by
  induction chain generalizing current with
  | nil => simp [chainLoop, EndsAt]
  | cons step chain ih =>
    have hnext : (∃ u ∈ current, EndsAt t.specs (step :: chain) u v) ↔
        ∃ w ∈ chainNext t current step, EndsAt t.specs chain w v := by
      simp only [EndsAt, mem_chainNext]
      tauto
    rw [hnext, chainLoop]
    split
    · rename_i hempty
      simp [List.isEmpty_iff.mp hempty]
    · rw [ih]
      simp only [mem_dedup, List.mem_mergeSort]

theorem mem_chainQuery : v ∈ chainQuery t start chain ↔ EndsAt t.specs chain start v := by
  unfold chainQuery
  cases chain with
  | nil => simp [EndsAt, eq_comm]
  | cons step chain => simp [mem_chainLoop]

end SqliteGraph.Sqlite
