import SqliteGraph.Sqlite.Transactions

/-! What is left of an entity and its edges after one deletion, whichever of its statements fails. -/
namespace SqliteGraph.Sqlite
open Lib

/-- The entity and its edges are gone, and the rest is as before. -/
structure Deleted (id : Int64) (db db' : Database) : Prop where
  entity : id ∉ db'.allEntityIds
  endpoints : ∀ e ∈ db'.edges, e.fromId ≠ id ∧ e.toId ≠ id
  otherEntities : db'.entities.filter (·.id ≠ id) = db.entities.filter (·.id ≠ id)
  otherEdges : db'.edges.filter (fun e => e.fromId ≠ id ∧ e.toId ≠ id) =
    db.edges.filter fun e => e.fromId ≠ id ∧ e.toId ≠ id

/-- Either nothing has happened or everything. -/
def WholeDeletion (s : Session) (id : Int64) : Prop :=
  match s.deleteEntity id with
  | (.error _, s') => s'.db.entities = s.db.entities ∧ s'.db.edges = s.db.edges
  | (.ok (), s') => Deleted id s.db s'.db

/-- The entity is there, its row can be deleted, and its edges cannot. -/
def StopsHalfway (s : Session) (id : Int64) : Prop :=
  id ∈ s.db.allEntityIds ∧ s.outcomes.head?.join = none ∧ s.outcomes.tail.head?.join ≠ none

section Rows
variable {db : Database} {id : Int64}

theorem deleteEntityRow_present (h : id ∈ db.allEntityIds) : (db.deleteEntityRow id).1 ≠ 0 := by
  intro h0
  obtain ⟨e, he, hid⟩ := List.mem_map.mp h
  exact List.countP_eq_zero.mp h0 e he (by simpa using hid)

theorem deleted_rows : Deleted id db ((db.deleteEntityRow id).2.deleteEdgesAt id) := by
  refine ⟨?_, ?_, ?_, ?_⟩
  · intro h
    obtain ⟨e, he, hid⟩ := List.mem_map.mp h
    have hne := (List.mem_filter.mp he).2
    simp [hid] at hne
  · intro e he
    have hne := (List.mem_filter.mp he).2
    simpa using hne
  · simp [Database.deleteEdgesAt, Database.deleteEntityRow]
  · simp [Database.deleteEdgesAt, Database.deleteEntityRow]

end Rows

namespace Session
variable {s : Session} {id : Int64}

/-- An id without an entity takes no edges with it, even those that dangle from it. -/
theorem deleteEntity_absent (h : id ∉ s.db.allEntityIds) (ho : s.outcomes.head?.join = none) :
    s.deleteEntity id =
      (.error (.notFound s!"entity {id}"), { s with outcomes := s.outcomes.tail }) := by
  have hx : execute (fun db => .ok (db.deleteEntityRow id)) s =
      (.ok 0, { s with outcomes := s.outcomes.tail }) := by
    simp only [execute, ho, deleteEntityRow_absent h]
  rw [deleteEntity, StoreM.bind_ok _ hx]
  rfl

theorem deleteEntity_refused {message : String} (ho : s.outcomes.head?.join = some message) :
    s.deleteEntity id = (.error (.queryError message), { s with outcomes := s.outcomes.tail }) := by
  have hx : execute (fun db => .ok (db.deleteEntityRow id)) s =
      (.error (.queryError message), { s with outcomes := s.outcomes.tail }) := by
    simp only [execute, ho]
  rw [deleteEntity, StoreM.bind_error _ hx]

/-- Past the first statement, the second decides. -/
theorem deleteEntity_present (h : id ∈ s.db.allEntityIds) (ho : s.outcomes.head?.join = none) :
    s.deleteEntity id = (run (·.deleteEdgesAt id) >>= fun _ => invalidateCaches)
      { s with db := (s.db.deleteEntityRow id).2, outcomes := s.outcomes.tail } := by
  have hx : execute (fun db => .ok (db.deleteEntityRow id)) s =
      (.ok (s.db.deleteEntityRow id).1,
        { s with db := (s.db.deleteEntityRow id).2, outcomes := s.outcomes.tail }) := by
    simp only [execute, ho]
  rw [deleteEntity, StoreM.bind_ok _ hx, if_neg (deleteEntityRow_present h)]

theorem deleteEntity_halfway {message : String} (h : id ∈ s.db.allEntityIds)
    (ho : s.outcomes.head?.join = none) (ho' : s.outcomes.tail.head?.join = some message) :
    s.deleteEntity id = (.error (.queryError message),
      { s with db := (s.db.deleteEntityRow id).2, outcomes := s.outcomes.tail.tail }) := by
  rw [deleteEntity_present h ho]
  apply StoreM.bind_error
  simp only [run, execute, ho']

theorem deleteEntity_done (h : id ∈ s.db.allEntityIds) (ho : s.outcomes.head?.join = none)
    (ho' : s.outcomes.tail.head?.join = none) :
    ∃ s', s.deleteEntity id = (.ok (), s') ∧
      s'.db = (s.db.deleteEntityRow id).2.deleteEdgesAt id := by
  have hx : run (·.deleteEdgesAt id)
      { s with db := (s.db.deleteEntityRow id).2, outcomes := s.outcomes.tail } =
      (.ok (), { s with db := (s.db.deleteEntityRow id).2.deleteEdgesAt id,
                        outcomes := s.outcomes.tail.tail }) := by
    simp only [run, execute, ho']
  rw [deleteEntity_present h ho, StoreM.bind_ok _ hx]
  exact ⟨_, rfl, rfl⟩

end Session

/-- A deletion is whole unless it stops between its two statements. -/
theorem wholeDeletion_iff (s : Session) (id : Int64) : WholeDeletion s id ↔ ¬ StopsHalfway s id := by
  constructor
  · rintro hwhole ⟨hid, hfirst, hsecond⟩
    obtain ⟨message, hsecond⟩ := Option.ne_none_iff_exists'.mp hsecond
    rw [WholeDeletion, Session.deleteEntity_halfway hid hfirst hsecond] at hwhole
    have hgone : id ∉ (s.db.deleteEntityRow id).2.allEntityIds := by
      intro h
      obtain ⟨e, he, hid⟩ := List.mem_map.mp h
      have hne := (List.mem_filter.mp he).2
      simp [hid] at hne
    apply hgone
    have hsame : (s.db.deleteEntityRow id).2.entities = s.db.entities := hwhole.1
    rwa [Database.allEntityIds, hsame]
  · intro hnot
    rw [WholeDeletion]
    cases hfirst : s.outcomes.head?.join with
    | some message =>
      rw [Session.deleteEntity_refused hfirst]
      exact ⟨rfl, rfl⟩
    | none =>
      by_cases hid : id ∈ s.db.allEntityIds
      · have hsecond : s.outcomes.tail.head?.join = none := by
          by_contra h
          exact hnot ⟨hid, hfirst, h⟩
        obtain ⟨s', hs', hdb⟩ := Session.deleteEntity_done hid hfirst hsecond
        rw [hs']
        show Deleted id s.db s'.db
        rw [hdb]
        exact deleted_rows
      · rw [Session.deleteEntity_absent hid hfirst]
        exact ⟨rfl, rfl⟩

/-- The entity is gone, the call has failed, and its edge points at nothing. -/
theorem not_wholeDeletion : ¬ ∀ (s : Session) (id : Int64), WholeDeletion s id := by
  intro h
  let node : GraphEntity := ⟨1, "fn", "main", none, .null⟩
  let loop : EdgeRow := ⟨⟨⟨1, 1, "CALLS"⟩, 1⟩, .null⟩
  let db : Database := { Database.empty with entities := [node], edges := [loop] }
  let s : Session := ⟨db, none, [none, some "disk I/O error"], .empty⟩
  have hsecond : s.outcomes.tail.head?.join = some "disk I/O error" := rfl
  have hsame := h s 1
  rw [WholeDeletion, Session.deleteEntity_halfway (by decide) rfl hsecond] at hsame
  exact absurd (congrArg List.length hsame.1) (by decide)

end SqliteGraph.Sqlite
