import SqliteGraph.Sqlite.Session

/-! Neighbors read through the adjacency caches. -/
namespace SqliteGraph.Sqlite
open Lib

namespace Session

def fetchOutgoing (id : Int64) : SessionM (List Int64) := fun s =>
  match s.caches.outgoing id with
  | some cached => (.ok cached, s)
  | none =>
    let result := Sqlite.fetchOutgoing s.db.tables id
    (.ok result, { s with
      caches := { s.caches with outgoing := Function.update s.caches.outgoing id (some result) } })

def fetchIncoming (id : Int64) : SessionM (List Int64) := fun s =>
  match s.caches.incoming id with
  | some cached => (.ok cached, s)
  | none =>
    let result := Sqlite.fetchIncoming s.db.tables id
    (.ok result, { s with
      caches := { s.caches with incoming := Function.update s.caches.incoming id (some result) } })

/-- The adjacency caches hold what the tables say. -/
structure AdjacencyCoherent (s : Session) : Prop where
  outgoing : ∀ id l, s.caches.outgoing id = some l → l = Sqlite.fetchOutgoing s.db.tables id
  incoming : ∀ id l, s.caches.incoming id = some l → l = Sqlite.fetchIncoming s.db.tables id

/-- What the reads leave as it is: the tables and the query cache. -/
def view (s : Session) : Database × (QueryCacheKey → Option QueryResult) := (s.db, s.caches.query)

/-- A read through the adjacency caches returns what the tables say. -/
abbrev Reads {α : Type} (x : SessionM α) (v : Database → Except SqliteGraphError α) : Prop :=
  StoreM.Computes AdjacencyCoherent view x fun d => v d.1

theorem reads_fetchOutgoing (id : Int64) :
    Reads (fetchOutgoing id) fun db => .ok (Sqlite.fetchOutgoing db.tables id) := by
  intro s hs
  rw [fetchOutgoing]
  cases hc : s.caches.outgoing id with
  | some cached => exact ⟨congrArg Except.ok (hs.outgoing id cached hc), hs, rfl⟩
  | none =>
    refine ⟨rfl, ⟨?_, hs.incoming⟩, rfl⟩
    intro id' l hl
    by_cases he : id' = id
    · subst he
      simpa using hl.symm
    · simp only [Function.update_of_ne he] at hl
      exact hs.outgoing id' l hl

theorem reads_fetchIncoming (id : Int64) :
    Reads (fetchIncoming id) fun db => .ok (Sqlite.fetchIncoming db.tables id) := by
  intro s hs
  rw [fetchIncoming]
  cases hc : s.caches.incoming id with
  | some cached => exact ⟨congrArg Except.ok (hs.incoming id cached hc), hs, rfl⟩
  | none =>
    refine ⟨rfl, ⟨hs.outgoing, ?_⟩, rfl⟩
    intro id' l hl
    by_cases he : id' = id
    · subst he
      simpa using hl.symm
    · simp only [Function.update_of_ne he] at hl
      exact hs.incoming id' l hl

/-- The neighbors in a direction, from the cache of that direction. -/
def fetchNeighbors (direction : BackendDirection) (id : Int64) : SessionM (List Int64) :=
  match direction with
  | .outgoing => fetchOutgoing id
  | .incoming => fetchIncoming id

theorem reads_fetchNeighbors (direction : BackendDirection) (id : Int64) :
    Reads (fetchNeighbors direction id) fun db => .ok (typedAdjacency db.tables id direction none) := by
  cases direction with
  | outgoing => exact reads_fetchOutgoing id
  | incoming => exact reads_fetchIncoming id

theorem computes_forEach {α β δ : Type} {I : Session → Prop} {view : Session → δ}
    {f : α → SessionM β} {g : α → δ → β}
    (hf : ∀ a, StoreM.Computes I view (f a) fun d => .ok (g a d)) (as : List α) :
    StoreM.Computes I view (forEach f as) fun d => .ok (as.map (g · d)) := by
  induction as with
  | nil => exact .pure
  | cons a as ih => exact (hf a).bind fun _ => ih.bind fun _ => .pure

end Session

end SqliteGraph.Sqlite
