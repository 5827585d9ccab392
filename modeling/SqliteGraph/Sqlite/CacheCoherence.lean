import SqliteGraph.Sqlite.CachedQueries

/-! A read returns what the tables say while both caches hold what the tables say. -/
namespace SqliteGraph.Sqlite
open Lib

namespace Session

section Traversals

theorem reads_get {α : Type} (f : Database → Except SqliteGraphError α) {x : Session → SessionM α}
    (hx : ∀ s, Reads (x s) fun _ => f s.db) : Reads (StoreM.get >>= x) f :=
  .get_bind (fun s _ => hx s) fun _ _ => rfl

theorem reads_checkEntity (id : Int64) : Reads (checkEntity id) fun db =>
    if id ∉ db.tables.entities then .error (.notFound s!"entity {id}") else .ok () := by
  apply reads_get
  intro s
  have hids : s.db.tables.entities = s.db.allEntityIds := rfl
  rw [hids]
  by_cases h : id ∈ s.db.allEntityIds
  · simp only [h, not_true_eq_false, if_false]
    exact .pure
  · simp only [h, not_false_eq_true, if_true]
    exact .throw

theorem reads_typedAdjacency (node : Int64) (direction : BackendDirection)
    (allowed : Option (List String)) : Reads (typedAdjacency node direction allowed) fun db =>
      .ok (Sqlite.typedAdjacency db.tables node direction allowed) := by
  cases allowed with
  | some set => exact reads_get _ fun _ => .pure
  | none => exact reads_fetchNeighbors direction node

theorem reads_bfsLoop (maxDepth fuel : Nat) (seen : Finset Int64) (queue : List (Int64 × Nat))
    (visited : List Int64) : Reads (bfsLoop maxDepth fuel seen queue visited) fun db =>
      Sqlite.bfsLoop db.tables maxDepth fuel seen queue visited := by
  induction fuel generalizing seen queue visited with
  | zero =>
    cases queue with
    | nil => exact .pure
    | cons => exact .throw
  | succ fuel ih =>
    cases queue with
    | nil => exact .pure
    | cons x queue =>
      simp only [bfsLoop, Sqlite.bfsLoop]
      split
      · exact ih _ _ _
      · exact (reads_fetchOutgoing x.1).bind fun _ => ih _ _ _

theorem reads_bfsNeighbors (start : Int64) (depth : Nat) : Reads (bfsNeighbors start depth) fun db =>
    Sqlite.bfsNeighbors db.tables searchFuel start depth := by
  apply ((reads_checkEntity start).bind fun _ => reads_bfsLoop depth searchFuel _ _ _).congr
  intro d
  simp only [Sqlite.bfsNeighbors]
  split <;> rfl

theorem reads_kHopLoop (depth : Nat) (direction : BackendDirection) (allowed : Option (List String))
    (fuel : Nat) (visited : Finset Int64) (ordered : List (Nat × Int64)) (queue : List (Int64 × Nat)) :
    Reads (kHopLoop depth direction allowed fuel visited ordered queue) fun db =>
      Sqlite.kHopLoop db.tables depth direction allowed fuel visited ordered queue := by
  induction fuel generalizing visited ordered queue with
  | zero =>
    cases queue with
    | nil => exact .pure
    | cons => exact .throw
  | succ fuel ih =>
    cases queue with
    | nil => exact .pure
    | cons x queue =>
      simp only [kHopLoop, Sqlite.kHopLoop]
      split
      · exact ih _ _ _
      · exact (reads_typedAdjacency x.1 direction allowed).bind fun _ => ih _ _ _

theorem reads_kHopInternal (start : Int64) (depth : Nat) (direction : BackendDirection)
    (allowed : Option (List String)) : Reads (kHopInternal start depth direction allowed) fun db =>
      Sqlite.kHopInternal db.tables searchFuel start depth direction allowed := by
  simp only [kHopInternal, Sqlite.kHopInternal]
  split
  · exact .pure
  · exact (reads_kHopLoop depth direction allowed searchFuel _ _ _).bind fun _ => .pure

theorem reads_pathLoop (start finish : Int64) (fuel : Nat) (search : PathSearch) :
    Reads (pathLoop start finish fuel search) fun db =>
      Sqlite.pathLoop db.tables start finish fuel search := by
  induction fuel generalizing search with
  | zero =>
    obtain ⟨seen, parents, queue⟩ := search
    cases queue with
    | nil => exact .pure
    | cons => exact .throw
  | succ fuel ih =>
    obtain ⟨seen, parents, queue⟩ := search
    cases queue with
    | nil => exact .pure
    | cons node queue =>
      simp only [pathLoop, Sqlite.pathLoop]
      apply ((reads_fetchOutgoing node).bind (w := fun neighbors d =>
        let r := scanNeighbors node finish neighbors ⟨seen, parents, queue⟩
        if r.1 then pathFound searchFuel start finish r.2.parents
        else Sqlite.pathLoop d.1.tables start finish fuel r.2) ?_).congr
      · intro d
        rfl
      · intro neighbors
        dsimp only
        split
        · exact .ofExcept
        · exact ih _

theorem reads_computePath (start finish : Int64) : Reads (computePath start finish) fun db =>
    Sqlite.shortestPath db.tables searchFuel start finish := by
  have hrest : Reads (if start = finish then pure (some [start])
      else pathLoop start finish searchFuel ⟨{start}, [], [start]⟩) fun db =>
        if start = finish then .ok (some [start])
        else Sqlite.pathLoop db.tables start finish searchFuel ⟨{start}, [], [start]⟩ := by
    split
    · exact .pure
    · exact reads_pathLoop _ _ _ _
  apply ((reads_checkEntity start).bind fun _ => (reads_checkEntity finish).bind fun _ => hrest).congr
  intro d
  simp only [Sqlite.shortestPath]
  by_cases hs : start ∈ d.1.tables.entities
  · by_cases hf : finish ∈ d.1.tables.entities <;> simp only [hs, hf, not_true_eq_false, if_false, if_true,
      not_false_eq_true] <;> rfl
  · simp only [hs, not_false_eq_true, if_true]
    rfl

theorem reads_queryNeighbors (node : Int64) (direction : BackendDirection) (edgeType : Option String) :
    Reads (queryNeighbors node direction edgeType) fun db =>
      .ok (Sqlite.queryNeighbors db.tables node direction edgeType) := by
  cases edgeType with
  | some edgeType => exact reads_get _ fun _ => .pure
  | none =>
    apply (reads_fetchNeighbors direction node).congr
    intro d
    cases direction <;> rfl

end Traversals

/-- What a query of the query cache finds in the tables. -/
def evaluate (db : Database) : QueryCacheKey → Except SqliteGraphError QueryResult
  | .bfs start depth => (Sqlite.bfsNeighbors db.tables searchFuel start depth).map .bfs
  | .kHop start depth direction =>
    (Sqlite.kHopInternal db.tables searchFuel start depth direction none).map .kHop
  | .kHopFiltered start depth direction allowedEdgeTypes =>
    (Sqlite.kHopFiltered db.tables searchFuel start depth direction allowedEdgeTypes).map .kHop
  | .shortestPath start finish =>
    (Sqlite.shortestPath db.tables searchFuel start finish).map .shortestPath

/-- All three caches hold what the tables say. -/
structure Coherent (s : Session) : Prop where
  adjacency : s.AdjacencyCoherent
  query : ∀ key r, s.caches.query key = some r → evaluate s.db key = .ok r

/-- A read through the three caches. -/
abbrev Answers {α : Type} (x : SessionM α) (v : Database → Except SqliteGraphError α) : Prop :=
  StoreM.Computes Coherent (·.db) x v

section Queries
variable {α : Type} {x : SessionM α} {v : Database → Except SqliteGraphError α}

theorem Reads.answers (hx : Reads x v) : Answers x v := by
  intro s hs
  obtain ⟨hres, hadj, hview⟩ := hx s hs.adjacency
  obtain ⟨hdb, hquery⟩ := Prod.mk.inj hview
  refine ⟨hres, ⟨hadj, ?_⟩, hdb⟩
  rw [hdb, hquery]
  exact hs.query

theorem answers_cached {key : QueryCacheKey} {wrap : α → QueryResult} {unwrap : QueryResult → Option α}
    (hx : Reads x v) (hkey : ∀ db, evaluate db key = (v db).map wrap)
    (hwrap : ∀ a, unwrap (wrap a) = some a) : Answers (cached key wrap unwrap x) v := by
  intro s hs
  rw [cached, StoreM.get_bind_run]
  cases hc : (s.caches.query key).bind unwrap with
  | some result =>
    refine ⟨?_, hs, rfl⟩
    obtain ⟨r, hr, hu⟩ := Option.bind_eq_some_iff.mp hc
    have hr := hs.query key r hr
    rw [hkey] at hr
    cases hv : v s.db with
    | error e => simp [hv, Except.map] at hr
    | ok a =>
      simp only [hv, Except.map, Except.ok.injEq] at hr
      rw [← hr, hwrap] at hu
      rw [Option.some.inj hu]
      rfl
  | none =>
    obtain ⟨hres, hs', hdb⟩ := (Reads.answers hx) s hs
    cases hr : x s with
    | mk r t =>
      rw [hr] at hres hs' hdb
      cases r with
      | error e =>
        simp only [StoreM.bind_error _ hr]
        exact ⟨hres, hs', hdb⟩
      | ok a =>
        simp only [StoreM.bind_ok _ hr, StoreM.modify_bind_run, StoreM.pure_run]
        refine ⟨hres, ⟨⟨hs'.adjacency.outgoing, hs'.adjacency.incoming⟩, ?_⟩, hdb⟩
        intro key' r' hr'
        by_cases he : key' = key
        · subst he
          have hv : v s.db = .ok a := hres.symm
          simp only [Function.update_self, Option.some.injEq] at hr'
          have hdb : t.db = s.db := hdb
          rw [hkey]
          change (v t.db).map wrap = _
          rw [hdb, hv, ← hr']
          rfl
        · simp only [Function.update_of_ne he] at hr'
          exact hs'.query key' r' hr'

/-- What a read finds in the tables. -/
def answer (db : Database) : Read → Except SqliteGraphError Answer
  | .neighbors node direction edgeType =>
    .ok (.nodes (Sqlite.queryNeighbors db.tables node direction edgeType))
  | .bfs start depth => (Sqlite.bfsNeighbors db.tables searchFuel start depth).map .nodes
  | .shortestPath start finish => (Sqlite.shortestPath db.tables searchFuel start finish).map .path
  | .kHop start depth direction =>
    (Sqlite.kHop db.tables searchFuel start depth direction).map .nodes
  | .kHopFiltered start depth direction allowedEdgeTypes =>
    (Sqlite.kHopFiltered db.tables searchFuel start depth direction allowedEdgeTypes).map .nodes
  | .other fetched =>
    .ok (.lists (fetched.map fun (direction, id) => Sqlite.typedAdjacency db.tables id direction none))

theorem answers_read (r : Read) : Answers (read r) (answer · r) := by
  cases r with
  | neighbors node direction edgeType =>
    exact (Reads.answers (reads_queryNeighbors node direction edgeType)).bind fun _ => .pure
  | bfs start depth =>
    exact (answers_cached (reads_bfsNeighbors start depth) (fun _ => rfl) fun _ => rfl).bind fun _ =>
      .pure
  | shortestPath start finish =>
    exact (answers_cached (reads_computePath start finish) (fun _ => rfl) fun _ => rfl).bind fun _ =>
      .pure
  | kHop start depth direction =>
    exact (answers_cached (reads_kHopInternal start depth direction none) (fun _ => rfl)
      fun _ => rfl).bind fun _ => .pure
  | kHopFiltered start depth direction allowedEdgeTypes =>
    have hcompute : Reads (if allowedEdgeTypes.isEmpty then pure []
        else kHopInternal start depth direction (some allowedEdgeTypes)) fun db =>
          Sqlite.kHopFiltered db.tables searchFuel start depth direction allowedEdgeTypes := by
      simp only [Sqlite.kHopFiltered]
      split
      · exact .pure
      · exact reads_kHopInternal _ _ _ _
    exact (answers_cached hcompute (fun _ => rfl) fun _ => rfl).bind fun _ => .pure
  | other fetched =>
    have hone : ∀ x : BackendDirection × Int64, Reads (fetchNeighbors x.1 x.2) fun db =>
        .ok (Sqlite.typedAdjacency db.tables x.2 x.1 none) := fun x => reads_fetchNeighbors x.1 x.2
    exact Reads.answers ((computes_forEach hone fetched).bind fun _ => .pure)

end Queries

theorem coherent_empty (s : Session) : { s with caches := .empty }.Coherent :=
  ⟨⟨fun _ _ h => by simp [Caches.empty] at h, fun _ _ h => by simp [Caches.empty] at h⟩,
    fun _ _ h => by simp [Caches.empty] at h⟩

/-- With coherent caches a read answers as it does with empty ones. -/
theorem read_eq_recomputed {s : Session} (hs : s.Coherent) (r : Read) :
    (read r s).1 = (read r { s with caches := .empty }).1 := by
  rw [(answers_read r s hs).1, (answers_read r _ (coherent_empty s)).1]

end Session

end SqliteGraph.Sqlite
