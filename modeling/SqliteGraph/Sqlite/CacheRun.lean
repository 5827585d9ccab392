import SqliteGraph.Sqlite.CacheCoherence
import SqliteGraph.Sqlite.Loading
import SqliteGraph.Sqlite.SearchEnds
import SqliteGraph.Sqlite.SessionInvariant

/-! The caches over runs of writes and reads. -/
namespace SqliteGraph.Sqlite
open Lib

/-- The entities that a cached answer has found in the tables. -/
def QueryCacheKey.needs : QueryCacheKey → List Int64
  | .bfs start _ => [start]
  | .shortestPath start finish => [start, finish]
  | .kHop .. | .kHopFiltered .. => []

section Edges
variable {t t' : Tables} (h : t'.edges = t.edges)
include h

theorem selectRows_congr (node neighbor : GraphEdge → Int64) (id : Int64) :
    selectRows t' node neighbor id = selectRows t node neighbor id := by
  rw [selectRows, selectRows, h]

theorem typedAdjacency_congr (node : Int64) (direction : BackendDirection)
    (allowed : Option (List String)) :
    typedAdjacency t' node direction allowed = typedAdjacency t node direction allowed := by
  simp only [typedAdjacency, filterNeighbors, fetchOutgoing, fetchIncoming, selectRows_congr h]

theorem fetchOutgoing_congr (node : Int64) : fetchOutgoing t' node = fetchOutgoing t node :=
  typedAdjacency_congr h node .outgoing none

theorem bfsLoop_congr (depth fuel : Nat) (seen : Finset Int64) (queue : List (Int64 × Nat))
    (visited : List Int64) :
    bfsLoop t' depth fuel seen queue visited = bfsLoop t depth fuel seen queue visited := by
  induction fuel generalizing seen queue visited with
  | zero => cases queue <;> rfl
  | succ fuel ih =>
    cases queue with
    | nil => rfl
    | cons x queue => simp only [bfsLoop, fetchOutgoing_congr h, ih]

theorem kHopLoop_congr (depth : Nat) (direction : BackendDirection) (allowed : Option (List String))
    (fuel : Nat) (visited : Finset Int64) (ordered : List (Nat × Int64)) (queue : List (Int64 × Nat)) :
    kHopLoop t' depth direction allowed fuel visited ordered queue =
      kHopLoop t depth direction allowed fuel visited ordered queue := by
  induction fuel generalizing visited ordered queue with
  | zero => cases queue <;> rfl
  | succ fuel ih =>
    cases queue with
    | nil => rfl
    | cons x queue => simp only [kHopLoop, typedAdjacency_congr h, ih]

theorem pathLoop_congr (start finish : Int64) (fuel : Nat) (search : PathSearch) :
    pathLoop t' start finish fuel search = pathLoop t start finish fuel search := by
  induction fuel generalizing search with
  | zero =>
    obtain ⟨seen, parents, queue⟩ := search
    cases queue <;> rfl
  | succ fuel ih =>
    obtain ⟨seen, parents, queue⟩ := search
    cases queue with
    | nil => rfl
    | cons node queue => simp only [pathLoop, fetchOutgoing_congr h, ih]

end Edges

namespace Session

/-- An answer holds while the edges stay, and the entities that it has found. -/
theorem evaluate_congr {db db' : Database} {key : QueryCacheKey} {r : QueryResult}
    (he : db'.edges = db.edges)
    (hn : ∀ id ∈ key.needs, id ∈ db.allEntityIds → id ∈ db'.allEntityIds)
    (hr : evaluate db key = .ok r) : evaluate db' key = .ok r := by
  have ht : db'.tables.edges = db.tables.edges := congrArg (List.map _) he
  cases key with
  | bfs start depth =>
    simp only [evaluate, Sqlite.bfsNeighbors] at hr ⊢
    by_cases hs : start ∈ db.tables.entities
    · have hs' : start ∈ db'.tables.entities := hn start (by simp [QueryCacheKey.needs]) hs
      rw [if_neg (not_not.mpr hs)] at hr
      rw [if_neg (not_not.mpr hs'), bfsLoop_congr ht]
      exact hr
    · rw [if_pos hs] at hr
      cases hr
  | shortestPath start finish =>
    simp only [evaluate, Sqlite.shortestPath] at hr ⊢
    by_cases hs : start ∈ db.tables.entities
    · by_cases hf : finish ∈ db.tables.entities
      · have hs' : start ∈ db'.tables.entities := hn start (by simp [QueryCacheKey.needs]) hs
        have hf' : finish ∈ db'.tables.entities := hn finish (by simp [QueryCacheKey.needs]) hf
        rw [if_neg (not_not.mpr hs), if_neg (not_not.mpr hf)] at hr
        rw [if_neg (not_not.mpr hs'), if_neg (not_not.mpr hf'), pathLoop_congr ht]
        exact hr
      · rw [if_neg (not_not.mpr hs), if_pos hf] at hr
        cases hr
    · rw [if_pos hs] at hr
      cases hr
  | kHop start depth direction =>
    simp only [evaluate, Sqlite.kHopInternal, kHopLoop_congr ht] at hr ⊢
    exact hr
  | kHopFiltered start depth direction allowedEdgeTypes =>
    simp only [evaluate, Sqlite.kHopFiltered, Sqlite.kHopInternal, kHopLoop_congr ht] at hr ⊢
    exact hr

section Settled
variable {s t u : Session} {α β : Type}

/-- The caches are as before, and what they hold still stands in the tables. -/
structure Stays (s s' : Session) : Prop where
  caches : s'.caches = s.caches
  edges : s'.db.edges = s.db.edges
  entities : ∀ key r, s.caches.query key = some r →
    ∀ id ∈ key.needs, id ∈ s.db.allEntityIds → id ∈ s'.db.allEntityIds

def Settled (s s' : Session) : Prop := s'.caches = .empty ∨ Stays s s'

theorem Settled.same (hdb : t.db = s.db) (hc : t.caches = s.caches) : Settled s t :=
  .inr ⟨hc, by rw [hdb], by
    intro _ _ _ _ _ h
    rwa [hdb]⟩

theorem Settled.trans (h : Settled s t) (h' : Settled t u) : Settled s u := by
  rcases h' with h' | h'
  · exact .inl h'
  rcases h with h | h
  · exact .inl (h'.caches.trans h)
  · refine .inr ⟨h'.caches.trans h.caches, h'.edges.trans h.edges, ?_⟩
    intro key r hr id hid hin
    exact h'.entities key r (by rw [h.caches]; exact hr) id hid (h.entities key r hr id hid hin)

theorem Coherent.settled (h : s.Coherent) (hs : Settled s t) : t.Coherent := by
  rcases hs with hc | hs
  · have he := coherent_empty t
    rwa [← hc] at he
  · have ht : t.db.tables.edges = s.db.tables.edges := congrArg (List.map _) hs.edges
    refine ⟨⟨?_, ?_⟩, ?_⟩
    · intro id l hl
      rw [hs.caches] at hl
      rw [fetchOutgoing_congr ht]
      exact h.adjacency.outgoing id l hl
    · intro id l hl
      rw [hs.caches] at hl
      have hsame : Sqlite.fetchIncoming t.db.tables id = Sqlite.fetchIncoming s.db.tables id :=
        typedAdjacency_congr ht id .incoming none
      rw [hsame]
      exact h.adjacency.incoming id l hl
    · intro key r hr
      rw [hs.caches] at hr
      exact evaluate_congr hs.edges (hs.entities key r hr) (h.query key r hr)

/-- A write that leaves no stale answer, whatever its outcome. -/
def Safe (x : SessionM α) : Prop := ∀ s, Settled s (x s).2

theorem safe_pure (a : α) : Safe (pure a) := fun _ => .same rfl rfl

theorem safe_throw (e : SqliteGraphError) : Safe (StoreM.throw e : SessionM α) := fun _ => .same rfl rfl

theorem safe_ofExcept (r : Except SqliteGraphError α) : Safe (StoreM.ofExcept r) :=
  fun _ => .same rfl rfl

theorem safe_bind {x : SessionM α} {f : α → SessionM β} (hx : Safe x) (hf : ∀ a, Safe (f a)) :
    Safe (x >>= f) := by
  intro s
  have hs := hx s
  cases hr : x s with
  | mk r t =>
    rw [hr] at hs
    cases r with
    | ok a =>
      rw [StoreM.bind_ok _ hr]
      exact hs.trans (hf a t)
    | error e =>
      rw [StoreM.bind_error _ hr]
      exact hs

theorem safe_forEach {f : α → SessionM β} (hf : ∀ a, Safe (f a)) (as : List α) :
    Safe (forEach f as) := by
  induction as with
  | nil => exact safe_pure _
  | cons a as ih => exact safe_bind (hf a) fun _ => safe_bind ih fun _ => safe_pure _

theorem safe_execute {f : Database → Except SqliteGraphError (α × Database)}
    (hf : ∀ {db a db'}, f db = .ok (a, db') →
      db'.edges = db.edges ∧ ∀ id ∈ db.allEntityIds, id ∈ db'.allEntityIds) : Safe (execute f) := by
  intro s
  cases hr : execute f s with
  | mk r t =>
    cases r with
    | ok a =>
      obtain ⟨-, db, hdb, rfl⟩ := execute_ok hr
      obtain ⟨hedges, hids⟩ := hf hdb
      exact .inr ⟨rfl, hedges, fun _ _ _ id _ hid => hids id hid⟩
    | error e =>
      rw [execute_error hr]
      exact .same rfl rfl

theorem safe_executeBatch {operation : List α → SessionM (List β)} (items : List α)
    (config : BatchConfig) (ho : ∀ chunk, Safe (operation chunk)) :
    Safe (executeBatch items config operation) := by
  rw [executeBatch]
  split
  · exact ho items
  · split
    · exact safe_throw _
    · exact safe_bind (safe_forEach ho _) fun _ => safe_pure _

theorem safe_transactionGuard {f : SessionM α} (hf : Inside f) : Safe (transactionGuard f) := by
  intro s
  cases hr : transactionGuard f s with
  | mk r t =>
    cases r with
    | ok a => exact .inl (transactionGuard_ok hr).2.2.1
    | error e =>
      obtain ⟨hdb, hc⟩ := transactionGuard_error hf hr
      exact .same hdb hc

end Settled

end Session

/-- What a write must not do while something is cached: delete an entity that a cached answer has found and
fail at its edges, or fail at no statement but its `COMMIT`. -/
def CachesKept (s : Session) : Session.Write → Prop
  | .deleteEntity id => id ∈ s.db.allEntityIds → s.outcomes.head?.join = none →
      (∃ key r, s.caches.query key = some r ∧ id ∈ key.needs) → s.outcomes.tail.head?.join = none
  | .insertEdgesBulk edges => s.caches ≠ .empty → edges ≠ [] →
      (∀ e ∈ edges, validateEdge e.toEdgeSpec = .ok () ∧ s.db.entityExists e.fromId ∧
        s.db.entityExists e.toId) → s.txn = none → s.db.edgeSeq + edges.length ≤ i64Max →
      (∀ i ≤ edges.length, s.outcomes[i]?.join = none) → s.outcomes[edges.length + 1]?.join = none
  | .loadGraph lines => s.caches ≠ .empty → s.txn = none →
      (∃ db, Session.Accepted (fun line => line) (fun _ => DumpRecord.statement) s.db.cleared lines db) →
      (∀ i < lines.length + 6, s.outcomes[i]?.join = none) → s.outcomes[lines.length + 6]?.join = none
  | _ => True

/-- A run of writes, each of which `ok` allows, and reads over a new graph. -/
inductive CacheRun (ok : Session → Session.Write → Prop) (outcomes : List (Option String)) :
    Session → Prop
  | start : CacheRun ok outcomes (.open outcomes)
  | write {s} (w : Session.Write) : CacheRun ok outcomes s → ok s w → CacheRun ok outcomes (s.write w)
  | read {s} (r : Session.Read) : CacheRun ok outcomes s → CacheRun ok outcomes (Session.read r s).2

namespace Session

section Entities
variable {s : Session}

theorem safe_insertEntityAndLabel (entity : GraphEntity) : Safe (insertEntityAndLabel entity) := by
  refine safe_bind (safe_execute ?_) fun id => ?_
  · intro db id db' hr
    obtain ⟨-, rfl⟩ := insertEntityRow_ok hr
    refine ⟨rfl, ?_⟩
    intro id' hid'
    rw [Database.allEntityIds, List.map_append]
    exact List.mem_append_left _ hid'
  · split
    · exact safe_pure _
    · refine safe_bind (safe_execute ?_) fun _ => safe_pure _
      intro db u db' hr
      cases hr
      refine ⟨?_, ?_⟩
      · simp only [Database.insertLabelOrIgnore]
        split <;> rfl
      · simp [Database.allEntityIds]

theorem safe_begin : Safe begin := by
  intro s
  cases hr : begin s with
  | mk r t =>
    cases r with
    | ok u =>
      rw [(begin_ok hr).2.2]
      exact .same rfl rfl
    | error e =>
      rw [begin_error hr]
      exact .same rfl rfl

theorem safe_commit : Safe commit := by
  intro s
  cases hr : commit s with
  | mk r t =>
    cases r with
    | ok u =>
      rw [(commit_ok hr).2]
      exact .same rfl rfl
    | error e =>
      rw [commit_error hr]
      exact .same rfl rfl

theorem settled_insertEntitiesBulk (entities : List GraphEntity) (s : Session) :
    Settled s (insertEntitiesBulk entities s).2 := by
  rw [insertEntitiesBulk]
  split
  · exact .same rfl rfl
  apply safe_bind (safe_forEach (fun _ => safe_ofExcept _) entities)
  intro us s
  cases hb : begin s with
  | mk r t =>
    cases r with
    | error e =>
      rw [StoreM.bind_error _ hb, begin_error hb]
      exact .same rfl rfl
    | ok u =>
      have hbegin : Settled s t := by
        have h := safe_begin s
        rwa [hb] at h
      have hroll := rollback_inside (inside_forEach inside_insertEntityAndLabel entities) hb
      have hrows := safe_forEach safe_insertEntityAndLabel entities t
      rw [StoreM.bind_ok _ hb, StoreM.attempt_bind_run]
      cases hr : forEach insertEntityAndLabel entities t with
      | mk r t' =>
        rw [hr] at hroll hrows
        cases r with
        | error e => exact .same hroll.1 hroll.2
        | ok ids =>
          exact (hbegin.trans hrows).trans (safe_bind safe_commit (fun _ => safe_pure _) t')

theorem safe_updateEntity (entity : GraphEntity) : Safe (updateEntity entity) := by
  rw [updateEntity]
  split
  · exact safe_throw _
  refine safe_bind (safe_ofExcept _) fun _ => safe_bind (safe_execute ?_) fun affected => ?_
  · intro db affected db' hr
    rw [Except.ok.injEq] at hr
    have hdb : db' = (db.updateEntityRow entity).2 := (congrArg Prod.snd hr).symm
    rw [hdb]
    refine ⟨rfl, ?_⟩
    intro id hid
    rwa [Database.allEntityIds, Database.updateEntityRow_ids]
  · split
    · exact safe_throw _
    · exact safe_pure _

theorem settled_deleteEntity {id : Int64} (hk : CachesKept s (.deleteEntity id)) :
    Settled s (deleteEntity id s).2 := by
  rw [deleteEntity]
  cases hr : execute (fun db => .ok (db.deleteEntityRow id)) s with
  | mk r t =>
    cases r with
    | error err =>
      rw [StoreM.bind_error _ hr, execute_error hr]
      exact .same rfl rfl
    | ok affected =>
      obtain ⟨ho, db, hdb, rfl⟩ := execute_ok hr
      rw [StoreM.bind_ok _ hr]
      by_cases hid : id ∈ s.db.allEntityIds
      · have hdb : s.db.deleteEntityRow id = (affected, db) := Except.ok.inj hdb
        have haff : affected ≠ 0 := by
          intro h0
          obtain ⟨e, he, hid⟩ := List.mem_map.mp hid
          have hcount : (s.db.deleteEntityRow id).1 = 0 := by rw [hdb, h0]
          exact List.countP_eq_zero.mp hcount e he (by simpa using hid)
        rw [if_neg haff]
        cases hrun : run (·.deleteEdgesAt id) { s with db, outcomes := s.outcomes.tail } with
        | mk r t =>
          cases r with
          | ok u =>
            rw [StoreM.bind_ok _ hrun]
            exact .inl rfl
          | error e =>
            -- the entity is gone, and its edges are still there
            rw [StoreM.bind_error _ hrun, execute_error hrun]
            have hdb' : db = (s.db.deleteEntityRow id).2 := (congrArg Prod.snd hdb).symm
            refine .inr ⟨rfl, by rw [hdb']; rfl, ?_⟩
            intro key r hkey id' hneed hid'
            have hne : id' ≠ id := by
              rintro rfl
              have hnone := hk hid ho ⟨key, r, hkey, hneed⟩
              rw [run, execute] at hrun
              simp only [hnone] at hrun
              cases hrun
            rw [hdb']
            obtain ⟨e, he, rfl⟩ := List.mem_map.mp hid'
            exact List.mem_map_of_mem (List.mem_filter.mpr ⟨he, by simpa using hne⟩)
      · rw [deleteEntityRow_absent hid] at hdb
        cases hdb
        exact .same rfl rfl

end Entities

section Edges
variable {s t : Session}

theorem safe_checkEndpoints (edge : EdgeRow) : Safe (checkEndpoints edge) := by
  intro s
  rw [checkEndpoints, StoreM.get_bind_run]
  split <;> exact .same rfl rfl

/-- The caches are cleared once the statement has gone through. -/
theorem safe_insertEdge (edge : EdgeRow) : Safe (insertEdge edge) := by
  refine safe_bind (safe_ofExcept _) fun _ => safe_bind (safe_checkEndpoints edge) fun _ => ?_
  intro s
  cases hr : execute (·.insertEdgeRow edge) s with
  | mk r t =>
    cases r with
    | ok id =>
      rw [StoreM.bind_ok _ hr]
      exact .inl rfl
    | error e =>
      rw [StoreM.bind_error _ hr, execute_error hr]
      exact .same rfl rfl

theorem safe_deleteEdge (id : Int) : Safe (deleteEdge id) := by
  intro s
  rw [deleteEdge]
  cases hr : execute (fun db => .ok (db.deleteEdgeRow id)) s with
  | mk r t =>
    cases r with
    | error err =>
      rw [StoreM.bind_error _ hr, execute_error hr]
      exact .same rfl rfl
    | ok affected =>
      obtain ⟨-, db, hdb, rfl⟩ := execute_ok hr
      have hdb : s.db.deleteEdgeRow id = (affected, db) := Except.ok.inj hdb
      rw [StoreM.bind_ok _ hr]
      split
      · rename_i h0
        have hcount : (s.db.deleteEdgeRow id).1 = 0 := by rw [hdb, h0]
        have hsame := deleteEdgeRow_absent hcount
        rw [hdb] at hsame
        exact .same hsame rfl
      · exact .inl rfl

/-- Each row has had an id. -/
theorem insertEdgeRows_seq {edges : List EdgeRow} {db db' : Database}
    (h : Accepted (fun _ => .ok ()) (fun edge _ db => db.insertEdgeRow edge) db edges db') :
    db'.edgeSeq = db.edgeSeq + edges.length ∧ (edges ≠ [] → db'.edgeSeq ≤ i64Max) := by
  induction h with
  | nil => simp
  | cons _ hrow hrest ih =>
    obtain ⟨hlt, rfl⟩ := insertEdgeRow_ok hrow
    obtain ⟨hseq, hmax⟩ := ih
    refine ⟨by simp only [hseq, List.length_cons]; omega, ?_⟩
    intro _
    cases hrest with
    | nil => exact Int.add_one_le_iff.mpr hlt
    | cons _ _ _ => exact hmax (by simp)

/-- The checks of `insert_edges_bulk`. -/
theorem edgeChecks_ok {edges : List EdgeRow} {us : List Unit} (h : forEach (fun edge => do
      StoreM.ofExcept (validateEdge edge.toEdgeSpec)
      checkEndpoints edge) edges s = (.ok us, t)) :
    t = s ∧ ∀ e ∈ edges, validateEdge e.toEdgeSpec = .ok () ∧ s.db.entityExists e.fromId ∧
      s.db.entityExists e.toId := by
  have hcheck : ∀ edge : EdgeRow, ((do
      StoreM.ofExcept (validateEdge edge.toEdgeSpec)
      checkEndpoints edge : SessionM Unit) s).2 = s := by
    intro edge
    cases hv : validateEdge edge.toEdgeSpec with
    | error e => rfl
    | ok u =>
      rw [StoreM.ofExcept_ok_bind_run, checkEndpoints, StoreM.get_bind_run]
      split <;> rfl
  have hall := forEach_checks hcheck edges
  rw [h] at hall
  refine ⟨hall.1, ?_⟩
  intro e he
  obtain ⟨u, hu⟩ := hall.2 us rfl e he
  cases hv : validateEdge e.toEdgeSpec with
  | error err =>
    rw [hv] at hu
    cases hu
  | ok u =>
    rw [hv, StoreM.ofExcept_ok_bind_run, checkEndpoints, StoreM.get_bind_run] at hu
    split at hu
    · cases hu
    · rename_i hends
      simp only [Bool.or_eq_true, Bool.not_eq_true', not_or, Bool.not_eq_false] at hends
      exact ⟨rfl, hends⟩

theorem settled_insertEdgesBulk {edges : List EdgeRow} (hk : CachesKept s (.insertEdgesBulk edges)) :
    Settled s (insertEdgesBulk edges s).2 := by
  rw [insertEdgesBulk]
  split
  · exact .same rfl rfl
  rename_i hne
  have hne : edges ≠ [] := by simpa using hne
  have hsafe := safe_forEach (fun e : EdgeRow => safe_bind (safe_ofExcept (validateEdge e.toEdgeSpec))
    fun _ => safe_checkEndpoints e) edges s
  cases hc : forEach (fun edge : EdgeRow => do
      StoreM.ofExcept (validateEdge edge.toEdgeSpec)
      checkEndpoints edge) edges s with
  | mk r t =>
    rw [hc] at hsafe
    cases r with
    | error e =>
      rw [StoreM.bind_error _ hc]
      exact hsafe
    | ok us =>
      obtain ⟨rfl, hchecked⟩ := edgeChecks_ok hc
      rw [StoreM.bind_ok _ hc]
      cases hb : begin t with
      | mk r t' =>
        cases r with
        | error e =>
          rw [StoreM.bind_error _ hb, begin_error hb]
          exact .same rfl rfl
        | ok u =>
          have hrows := inside_forEach (fun edge : EdgeRow => inside_execute (·.insertEdgeRow edge)) edges
          have hroll := rollback_inside hrows hb
          have hkeep := hrows t'
          obtain ⟨ho, htxn, rfl⟩ := begin_ok hb
          rw [StoreM.bind_ok _ hb, StoreM.attempt_bind_run]
          cases hr : forEach (fun edge : EdgeRow => execute (·.insertEdgeRow edge)) edges
              { t with txn := some t.db, outcomes := t.outcomes.tail } with
          | mk r t' =>
            rw [hr] at hroll hkeep
            simp only [Prod.mk.injEq] at hkeep
            cases r with
            | error e => exact .same hroll.1 hroll.2
            | ok ids =>
              cases hco : commit t' with
              | mk r t'' =>
                cases r with
                | ok u =>
                  simp only [StoreM.bind_ok _ hco]
                  exact .inl rfl
                | error e =>
                  -- only the commit has failed: nothing may be cached
                  simp only [StoreM.bind_error _ hco, commit_error hco]
                  by_cases hempty : t.caches = .empty
                  · exact .inl (hkeep.2.trans hempty)
                  · obtain ⟨hacc, houts, hdrop⟩ := @forEach_ok EdgeRow Unit Int (fun _ => .ok ())
                      (fun edge _ => (·.insertEdgeRow edge)) _ _ _ _ hr
                    obtain ⟨hseq, hmax⟩ := insertEdgeRows_seq hacc
                    have hmax := hmax hne
                    rw [hseq] at hmax
                    have hlast := hk hempty hne hchecked htxn hmax (by
                      intro i hi
                      cases i with
                      | zero => rwa [← List.head?_eq_getElem?]
                      | succ i => simpa using houts i (by omega))
                    have hfail := commit_fails (by simp [hkeep.1]) hco
                    simp [hdrop, List.head?_eq_getElem?, hlast] at hfail

end Edges

section Loads
variable {s t : Session}

theorem settled_loadGraph {lines : List (Except SqliteGraphError DumpRecord)}
    (hk : CachesKept s (.loadGraph lines)) : Settled s (loadGraph lines s).2 := by
  rw [loadGraph_eq]
  cases hb : begin s with
  | mk r t =>
    cases r with
    | error e =>
      rw [StoreM.bind_error _ hb, begin_error hb]
      exact .same rfl rfl
    | ok u =>
      have hroll := rollback_inside (inside_loadLines lines) hb
      have hkeep := inside_loadLines lines t
      obtain ⟨ho, htxn, rfl⟩ := begin_ok hb
      rw [StoreM.bind_ok _ hb, StoreM.attempt_bind_run]
      cases hr : loadLines lines { s with txn := some s.db, outcomes := s.outcomes.tail } with
      | mk r t =>
        rw [hr] at hroll hkeep
        simp only [Prod.mk.injEq] at hkeep
        cases r with
        | error e => exact .same hroll.1 hroll.2
        | ok u =>
          cases hco : commit t with
          | mk r t' =>
            cases r with
            | ok u =>
              simp only [StoreM.bind_ok _ hco]
              exact .inl rfl
            | error e =>
              simp only [StoreM.bind_error _ hco, commit_error hco]
              by_cases hempty : s.caches = .empty
              · exact .inl (hkeep.2.trans hempty)
              · obtain ⟨hacc, houts, hdrop⟩ := loadLines_ok hr
                have hlast := hk hempty htxn ⟨_, hacc⟩ (by
                  intro i hi
                  cases i with
                  | zero => rwa [← List.head?_eq_getElem?]
                  | succ i => simpa using houts i (by omega))
                have hfail := commit_fails (by simp [hkeep.1]) hco
                simp [hdrop, List.head?_eq_getElem?, hlast] at hfail

end Loads

section Runs
variable {s : Session} {outcomes : List (Option String)}

theorem settled_write (w : Write) (hk : CachesKept s w) : Settled s (s.write w) := by
  cases w with
  | insertEntity entity =>
    exact safe_bind (safe_ofExcept _) (fun _ => safe_insertEntityAndLabel entity) s
  | insertEntitiesBulk entities => exact settled_insertEntitiesBulk entities s
  | bulkInsertEntities config entries =>
    simp only [write, bulkInsertEntities]
    split
    · exact .same rfl rfl
    · exact safe_executeBatch entries config (fun chunk => safe_transactionGuard
        (inside_insertChunk chunk)) s
  | updateEntity entity => exact safe_updateEntity entity s
  | deleteEntity id => exact settled_deleteEntity hk
  | addLabel entityId label =>
    refine safe_execute ?_ s
    intro db u db' hr
    cases hr
    refine ⟨?_, by simp [Database.allEntityIds]⟩
    simp only [Database.insertLabelOrIgnore]
    split <;> rfl
  | addProperty entityId key value =>
    refine safe_execute ?_ s
    intro db u db' hr
    cases hr
    exact ⟨rfl, fun _ h => h⟩
  | insertEdge edge => exact safe_insertEdge edge s
  | insertEdgesBulk edges => exact settled_insertEdgesBulk hk
  | bulkInsertEdges config entries =>
    simp only [write, bulkInsertEdges]
    split
    · exact .same rfl rfl
    · refine safe_executeBatch entries config (fun chunk => safe_transactionGuard ?_) s
      exact .bind (inside_insertUnseen [] chunk) fun _ => .bind (inside_execute _) fun _ => .pure
  | deleteEdge id => exact safe_deleteEdge id s
  | loadGraph lines => exact settled_loadGraph hk

theorem coherent_run (h : CacheRun CachesKept outcomes s) : s.Coherent := by
  induction h with
  | start => exact coherent_empty (.open outcomes)
  | write w _ hk ih => exact ih.settled (settled_write w hk)
  | read r _ ih => exact (answers_read r _ ih).2.1

end Runs

end Session

/-- As long as no write leaves a stale answer behind, a read returns what it would recompute from the tables
with empty caches, and it does return. -/
theorem cached_answers {s : Session} {outcomes : List (Option String)}
    (h : CacheRun CachesKept outcomes s) (r : Session.Read) :
    (Session.read r s).1 = (Session.read r { s with caches := .empty }).1 ∧
      (Session.read r s).1 ≠ .error .outOfFuel := by
  have hs := Session.coherent_run h
  refine ⟨Session.read_eq_recomputed hs r, ?_⟩
  rw [(Session.answers_read r s hs).1]
  exact Session.answer_ends s.db r

section Examples

def oneEntity : Session.Write := .insertEntity ⟨0, "User", "ann", none, .null⟩

/-- A search that is asked for twice. -/
theorem cached_answers_twice :
    let s := (Session.read (.bfs 1 0) ((Session.open []).write oneEntity)).2
    (Session.read (.bfs 1 0) s).1 = (Session.read (.bfs 1 0) { s with caches := .empty }).1 ∧
      (Session.read (.bfs 1 0) s).1 ≠ .error .outOfFuel :=
  cached_answers (.read _ (.write oneEntity .start trivial)) (.bfs 1 0)

/-- The entity is deleted, the statement for its edges fails: its cached search outlives it. -/
theorem not_cached_answers : ¬ ∀ (outcomes : List (Option String)) (s : Session),
    CacheRun (fun _ _ => True) outcomes s → ∀ r : Session.Read,
      (Session.read r s).1 = (Session.read r { s with caches := .empty }).1 := by
  intro h
  have hrun : CacheRun (fun _ _ => True) [none, none, none, some "disk I/O error"] _ :=
    .write (.deleteEntity 1) (.read (.bfs 1 0) (.write oneEntity .start trivial)) trivial
  have heq := congrArg Except.toOption (h _ _ hrun (.bfs 1 0))
  exact absurd heq (by decide +kernel)

end Examples

end SqliteGraph.Sqlite
