import SqliteGraph.Sqlite.MultiHopSpec
import SqliteGraph.V3.BfsAgreement
import SqliteGraph.V3.TraversalSpec

/-! Where the traversals of the two backends agree on the same graph. -/
namespace SqliteGraph
open Lib

/-- Both results are there, and have the same nodes. -/
def SameNodes {ε : Type} (x y : Except ε (List Int64)) : Prop :=
  ∃ xs ys, x = .ok xs ∧ y = .ok ys ∧ ∀ v, v ∈ xs ↔ v ∈ ys

/-- The three traversals from one node give the same nodes in both backends. -/
structure TraversalsAgree (t : Sqlite.Tables) (s : V3.TraversalState) (fuel : Nat) (start : Int64)
    (depth : Nat) (direction : BackendDirection) (chain : List ChainStep) : Prop where
  bfs : SameNodes (Sqlite.bfsNeighbors t fuel start depth) (V3.V3Backend.bfs fuel start depth s).1
  kHop : SameNodes (Sqlite.kHop t fuel start depth direction)
    (V3.V3Backend.kHop fuel start depth direction s).1
  chainQuery : SameNodes (.ok (Sqlite.chainQuery t start chain))
    (V3.V3Backend.chainQuery fuel start chain s).1

section Loaded
variable {t : Sqlite.Tables} {s : V3.TraversalState} {edges : List EdgeSpec} {fuel depth : Nat}
  {start : Int64} {direction : BackendDirection} {chain : List ChainStep}

/-- The same edges in both backends. -/
structure Loaded (t : Sqlite.Tables) (s : V3.TraversalState) (edges : List EdgeSpec) : Prop where
  tables : t.specs = edges
  store : V3.Loading s.edges (edges.foldl V3.loadEdge fun _ => [])

namespace Loaded

/-- The backends see the same neighbors. -/
theorem adjacent (h : Loaded t s edges) (u v : Int64) :
    v ∈ Sqlite.typedAdjacency t u direction none ↔
      v ∈ V3.adjacencyOf (edges.foldl V3.loadEdge fun _ => []) direction u := by
  simp [Sqlite.mem_typedAdjacency, h.tables, V3.adjacencyOf, V3.mem_foldl_loadEdge]

/-- The two searches within a depth: each has its own order. -/
theorem searches (h : Loaded t s edges) (hfuel : 2 ^ 64 < fuel) (start : Int64) (depth : Nat)
    (direction : BackendDirection) :
    ∃ l l', search (fun u => Sqlite.typedAdjacency t u direction none) (· < depth) fuel {start}
        [(start, 0)] = some l ∧
      search (V3.adjacencyOf (edges.foldl V3.loadEdge fun _ => []) direction) (· < depth) fuel {start}
        [(start, 0)] = some l' ∧
      (l.map Prod.fst).Nodup ∧ (∀ v, (v, 0) ∈ l ↔ v = start) ∧ ∀ v d, (v, d) ∈ l ↔ (v, d) ∈ l' := by
  obtain ⟨l, hl, hnodup, hfound⟩ : ∃ l, search (fun u => Sqlite.typedAdjacency t u direction none)
      (· < depth) fuel {start} [(start, 0)] = some l ∧ _ ∧ _ :=
    search_found start (fun _ => V3.length_le_of_nodup) hfuel
  obtain ⟨l', hl', -, hfound'⟩ :
      ∃ l, search (V3.adjacencyOf (edges.foldl V3.loadEdge fun _ => []) direction) (· < depth) fuel
        {start} [(start, 0)] = some l ∧ _ ∧ _ :=
    search_found start (fun _ => V3.length_le_of_nodup) hfuel
  refine ⟨l, l', hl, hl', hnodup, fun v => (hfound v 0).trans ⟨fun hv => ?_, ?_⟩, fun v d => ?_⟩
  · cases hv.walk
    rfl
  · rintro rfl
    exact ⟨.nil, by simp, by simp⟩
  · rw [hfound, hfound', Found.congr h.adjacent]

theorem bfs (h : Loaded t s edges) (hfuel : 2 ^ 64 < fuel) (hstart : start ∈ t.entities) :
    SameNodes (Sqlite.bfsNeighbors t fuel start depth) (V3.V3Backend.bfs fuel start depth s).1 := by
  obtain ⟨l, l', hl, hl', -, -, hmem⟩ := h.searches hfuel start depth .outgoing
  have hsql : Sqlite.bfsNeighbors t fuel start depth = .ok (l.map Prod.fst) := by
    rw [Sqlite.bfsNeighbors, if_neg (by simpa using hstart)]
    exact Sqlite.bfsLoop_search hl
  have hv3 : (V3.V3Backend.bfs fuel start depth s).1 = .ok (l'.map Prod.fst) := by
    rw [V3.V3Backend.bfs, V3.hopLoop_search h.store hl' (by simp)]
    simp
  exact ⟨_, _, hsql, hv3, fun v => by simp [hmem]⟩

/-- The start is listed by one backend only when the depth is 0. -/
theorem kHop (h : Loaded t s edges) (hfuel : 2 ^ 64 < fuel) :
    SameNodes (Sqlite.kHop t fuel start depth direction)
      (V3.V3Backend.kHop fuel start depth direction s).1 ↔ 0 < depth := by
  obtain ⟨l, l', hl, hl', hnodup, hstart, hmem⟩ := h.searches hfuel start depth direction
  have hv3 : (V3.V3Backend.kHop fuel start depth direction s).1 =
      .ok ((l'.filter fun x => decide (0 < x.2 ∨ depth = 0)).map Prod.fst) :=
    congrArg Prod.fst (V3.hopLoop_search h.store hl' (by simp))
  rcases Nat.eq_zero_or_pos depth with rfl | hdepth
  · simp only [lt_irrefl, iff_false]
    rintro ⟨xs, ys, hxs, hys, hsame⟩
    cases hxs
    cases hv3.symm.trans hys
    have hlisted : start ∈ (l'.filter fun x => decide (0 < x.2 ∨ 0 = 0)).map Prod.fst := by
      simpa using ⟨0, (hmem _ _).mp ((hstart _).mpr rfl)⟩
    cases (hsame start).mpr hlisted
  · refine ⟨fun _ => hdepth, fun _ => ?_⟩
    have hfirst : (start, 0) :: ([] : List (Nat × Int64)).map Prod.swap = [] ++ [(start, 0)] := rfl
    obtain ⟨ordered, hrun, hordered⟩ := Sqlite.kHopLoop_search hl (by simp) hfirst
    rw [List.nil_append] at hordered
    have hsql : Sqlite.kHop t fuel start depth direction = .ok ((ordered.mergeSort fun a b =>
        decide (a.1 < b.1 ∨ a.1 = b.1 ∧ a.2 ≤ b.2)).map Prod.snd) := by
      rw [Sqlite.kHop, Sqlite.kHopInternal, if_neg hdepth.ne', hrun]
      rfl
    refine ⟨_, _, hsql, hv3, fun v => ?_⟩
    have hlisted : v ∈ (ordered.mergeSort fun a b =>
        decide (a.1 < b.1 ∨ a.1 = b.1 ∧ a.2 ≤ b.2)).map Prod.snd ↔ ∃ d, (d, v) ∈ ordered := by
      simp
    rw [hlisted, Sqlite.mem_kHop hnodup hstart hordered]
    simp [hmem, hdepth.ne']

theorem chainQuery (h : Loaded t s edges) :
    SameNodes (.ok (Sqlite.chainQuery t start chain)) (V3.V3Backend.chainQuery fuel start chain s).1 ↔
      ∀ v, EndsAt edges (chain.map ChainStep.anyType) start v → EndsAt edges chain start v := by
  obtain ⟨next, hrun, hnext⟩ := V3.chainLoop_run fuel chain h.store [start]
  have hv3 : (V3.V3Backend.chainQuery fuel start chain s).1 = .ok next := congrArg Prod.fst hrun
  simp only [List.mem_singleton, exists_eq_left] at hnext
  constructor
  · rintro ⟨xs, ys, hxs, hys, hsame⟩ v hv
    cases hxs
    cases hv3.symm.trans hys
    rw [← h.tables, ← Sqlite.mem_chainQuery, hsame]
    exact (hnext v).mpr hv
  · intro hany
    refine ⟨_, _, rfl, hv3, fun v => ?_⟩
    rw [Sqlite.mem_chainQuery, h.tables, hnext]
    exact ⟨.anyType, hany v⟩

theorem traversalsAgree (h : Loaded t s edges) (hfuel : 2 ^ 64 < fuel) (hstart : start ∈ t.entities) :
    TraversalsAgree t s fuel start depth direction chain ↔
      0 < depth ∧ ∀ v, EndsAt edges (chain.map ChainStep.anyType) start v → EndsAt edges chain start v := by
  constructor
  · intro hagree
    exact ⟨(h.kHop hfuel).mp hagree.kHop, h.chainQuery.mp hagree.chainQuery⟩
  · rintro ⟨hdepth, hchain⟩
    exact ⟨h.bfs hfuel hstart, (h.kHop hfuel).mpr hdepth, h.chainQuery.mpr hchain⟩

end Loaded
end Loaded

/-- A backend with nodes, which the allocator and the file know of, and no edges. -/
def emptyGraph (nodeIds : List Int64) (disk : V3.Disk) (pageSize : Nat)
    (choices cacheChoices : Nat → Nat) : V3.TraversalState :=
  ⟨nodeIds, { (V3.EdgeSession.create pageSize choices cacheChoices).state with disk }, 0⟩

/-- A graph that the tables accept is loaded by the native backend, too, unless page ids run out; and
then the traversals agree at depths other than 0, for chains whose edge types exclude no end. -/
theorem traversals_agree_iff {nodeIds : List Int64} {edges : List EdgeSpec} {t : Sqlite.Tables}
    (disk : V3.Disk) (pageSize : Nat) (choices cacheChoices : Nat → Nat)
    (hsql : Sqlite.insertEdges ⟨nodeIds, []⟩ edges = .ok t) :
    StoreM.Settles V3.LoadExhausted (fun fuel => V3.V3Backend.insertEdges fuel edges)
      (emptyGraph nodeIds disk pageSize choices cacheChoices) fun _ s =>
        ∀ fuel start depth direction chain, 2 ^ 64 < fuel → start ∈ nodeIds →
          (TraversalsAgree t s fuel start depth direction chain ↔ 0 < depth ∧
            ∀ v, EndsAt edges (chain.map ChainStep.anyType) start v → EndsAt edges chain start v) := by
  obtain ⟨hent, hspecs, hends⟩ := Sqlite.insertEdges_ok hsql
  have hnew : V3.Loading (emptyGraph nodeIds disk pageSize choices cacheChoices).edges fun _ => [] :=
    ⟨rfl, fun _ => rfl⟩
  refine (V3.insertEdges_settles hnew hends).mono ?_
  intro _ s hs fuel start depth direction chain hfuel hstart
  have hloaded : Loaded t s edges := ⟨hspecs, hs⟩
  exact hloaded.traversalsAgree hfuel (hent ▸ hstart)

/-- A path of two edges of different types. -/
def callsAndUses : List EdgeSpec := [⟨1, 2, "calls"⟩, ⟨2, 3, "uses"⟩]

def noDisk : V3.Disk := ⟨.empty, .new .newV3⟩

theorem traversals_agree_iff_callsAndUses :
    StoreM.Settles V3.LoadExhausted (fun fuel => V3.V3Backend.insertEdges fuel callsAndUses)
      (emptyGraph [1, 2, 3] noDisk V3.defaultPageSize (fun _ => 0) fun _ => 0) fun _ s =>
        ∀ fuel start depth direction chain, 2 ^ 64 < fuel → start ∈ ([1, 2, 3] : List Int64) →
          (TraversalsAgree ⟨[1, 2, 3], [⟨⟨1, 2, "calls"⟩, 1⟩, ⟨⟨2, 3, "uses"⟩, 2⟩]⟩ s fuel start depth
            direction chain ↔ 0 < depth ∧ ∀ v,
              EndsAt callsAndUses (chain.map ChainStep.anyType) start v →
                EndsAt callsAndUses chain start v) :=
  traversals_agree_iff noDisk V3.defaultPageSize (fun _ => 0) (fun _ => 0) (by rfl)

/-- At depth 0 only the native backend lists the start; along a typed step only it takes the edge,
which is of another type. -/
theorem not_traversals_agree :
    let step : ChainStep := ⟨.outgoing, some "uses"⟩
    let tables := Sqlite.insertEdges ⟨[1, 2, 3], []⟩ callsAndUses
    let load := V3.V3Backend.insertEdges 20 callsAndUses
    let s := emptyGraph [1, 2, 3] noDisk V3.defaultPageSize (fun _ => 0) fun _ => 0
    (tables.bind fun t => Sqlite.kHop t 20 1 0 .outgoing).toOption = some [] ∧
      ((load >>= fun _ => V3.V3Backend.kHop 20 1 0 .outgoing) s).1.toOption = some [1] ∧
      (tables.map fun t => Sqlite.chainQuery t 1 [step]).toOption = some [] ∧
      ((load >>= fun _ => V3.V3Backend.chainQuery 20 1 [step]) s).1.toOption = some [2] := by
  refine ⟨by decide +kernel, by decide +kernel, ?_, by decide +kernel⟩
  have htables : Sqlite.insertEdges ⟨[1, 2, 3], []⟩ callsAndUses =
      .ok ⟨[1, 2, 3], [⟨⟨1, 2, "calls"⟩, 1⟩, ⟨⟨2, 3, "uses"⟩, 2⟩]⟩ := by rfl
  simp only [htables]
  simp [Sqlite.chainQuery, Sqlite.chainLoop, Sqlite.chainNext, Sqlite.typedAdjacency,
    Sqlite.filterNeighbors, Sqlite.selectRows, Sqlite.filterRow, Except.map, Except.toOption]

end SqliteGraph
