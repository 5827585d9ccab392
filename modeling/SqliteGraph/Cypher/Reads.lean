import SqliteGraph.Cypher.Executor
import SqliteGraph.Sqlite.SessionInvariant

/-! What the executor's reads of nodes give. -/
namespace SqliteGraph.Cypher
open Lib Sqlite
variable {db : Database} {node : GraphEntity}

theorem mem_entities_of_getNode {id : Int64} (h : getNode db id = some node) :
    node ∈ db.entities ∧ node.id = id := by
  rw [getNode, Database.getEntity] at h
  cases hf : db.entities.find? (·.id = id) with
  | none =>
    rw [hf] at h
    cases h
  | some e =>
    rw [hf] at h
    cases h
    exact ⟨List.mem_of_find?_eq_some hf, by simpa using List.find?_some hf⟩

theorem getNode_of_mem (h : db.RowIds) (hnode : node ∈ db.entities) :
    getNode db node.id = some node := by
  rw [getNode, h.getEntity hnode]
  rfl

theorem getNode_iff (h : db.RowIds) {id : Int64} :
    getNode db id = some node ↔ node ∈ db.entities ∧ node.id = id := by
  constructor
  · exact mem_entities_of_getNode
  · rintro ⟨hnode, rfl⟩
    exact getNode_of_mem h hnode

/-- Nodes that are read through different ids differ. -/
theorem nodup_filterMap_getNode {ids : List Int64} (h : ids.Nodup) :
    (ids.filterMap (getNode db)).Nodup := by
  induction ids with
  | nil => exact List.nodup_nil
  | cons id ids ih =>
    rw [List.nodup_cons] at h
    rw [List.filterMap_cons]
    split
    · exact ih h.2
    · rename_i node hnode
      refine List.nodup_cons.mpr ⟨?_, ih h.2⟩
      intro hin
      obtain ⟨id', hid', hget⟩ := List.mem_filterMap.mp hin
      rw [← (mem_entities_of_getNode hnode).2, (mem_entities_of_getNode hget).2] at h
      exact h.1 hid'

/-- The rows of a table, read back by their ids. -/
theorem filterMap_getNode_ids (h : db.RowIds) (rows : List GraphEntity)
    (hrows : ∀ e ∈ rows, e ∈ db.entities) :
    (rows.map (·.id)).filterMap (getNode db) = rows := by
  induction rows with
  | nil => rfl
  | cons e rows ih =>
    obtain ⟨he, hrows⟩ := List.forall_mem_cons.mp hrows
    rw [List.map_cons, List.filterMap_cons, getNode_of_mem h he, ih hrows]

theorem candidates_eq (h : db.RowIds) (pat : NodePattern) :
    candidates db pat = db.entities.filter fun e =>
      match pat.label with
      | some label => decide (e.kind = label)
      | none => true := by
  rw [candidates]
  cases pat.label with
  | none => simp [Database.allEntityIds, filterMap_getNode_ids h db.entities fun _ he => he]
  | some label =>
    exact filterMap_getNode_ids h (db.entities.filter (·.kind = label))
      fun e he => (List.mem_filter.mp he).1

/-- The label of a pattern is looked at once more with the rest of it. -/
theorem filter_candidates (h : db.RowIds) (pat : NodePattern) (p : GraphEntity → Bool) :
    ((candidates db pat).filter fun e => nodePatternMatches pat e && p e) =
      db.entities.filter fun e => nodePatternMatches pat e && p e := by
  rw [candidates_eq h, List.filter_filter]
  refine List.filter_congr fun e _ => ?_
  rw [nodePatternMatches]
  cases pat.label with
  | none => simp
  | some label =>
    by_cases hkind : e.kind = label
    · simp [hkind]
    · simp [hkind]

theorem filter_candidates_matches (h : db.RowIds) (pat : NodePattern) :
    (candidates db pat).filter (nodePatternMatches pat) =
      db.entities.filter (nodePatternMatches pat) := by
  have hall := filter_candidates h pat fun _ => true
  simpa using hall

section EndRows
variable {ext : Externals} {query : CypherQuery} {startPat endPat : NodePattern}

theorem mem_endRows {u v w : GraphEntity} {ids : List Int64} (h : db.RowIds) :
    (u, v) ∈ endRows ext db query startPat endPat w ids ↔ u = w ∧ v ∈ db.entities ∧ v.id ∈ ids ∧
      nodePatternMatches endPat v ∧
      whereClausesMatch ext query (startPat, w) (some (endPat, v)) := by
  simp only [endRows, List.mem_map, List.mem_filter, List.mem_filterMap, getNode_iff h,
    Bool.and_eq_true, Prod.mk.injEq]
  constructor
  · rintro ⟨node, ⟨⟨id, hid, hnode, rfl⟩, hpat, hwhere⟩, rfl, rfl⟩
    exact ⟨rfl, hnode, hid, hpat, hwhere⟩
  · rintro ⟨rfl, hv, hid, hpat, hwhere⟩
    exact ⟨v, ⟨⟨v.id, hid, hv, rfl⟩, hpat, hwhere⟩, rfl, rfl⟩

theorem nodup_endRows {w : GraphEntity} {ids : List Int64} (h : ids.Nodup) :
    (endRows ext db query startPat endPat w ids).Nodup := by
  refine List.Nodup.map ?_ ((nodup_filterMap_getNode h).filter _)
  intro a b hab
  exact (Prod.mk.inj hab).2

end EndRows

/-- Numbers that are integers, and no regular expressions. -/
def integerExternals : Externals := ⟨Int, (·.toInt?), fun a b => some (compare a b), fun _ => none⟩

/-- Two entities and one call between them. -/
def calledOnce : List Session.Write :=
  [.insertEntity ⟨0, "function", "main", none, .null⟩,
    .insertEntity ⟨0, "function", "run", none, .null⟩,
    .insertEdge ⟨⟨⟨1, 2, "calls"⟩, 0⟩, .null⟩]

/-- Three entities, the first calls the second and that the third. -/
def calledTwice : List Session.Write :=
  [.insertEntity ⟨0, "function", "main", none, .null⟩,
    .insertEntity ⟨0, "function", "run", none, .null⟩,
    .insertEntity ⟨0, "function", "exit", none, .null⟩,
    .insertEdge ⟨⟨⟨1, 2, "calls"⟩, 0⟩, .null⟩, .insertEdge ⟨⟨⟨2, 3, "calls"⟩, 0⟩, .null⟩]

def matchAll : CypherQuery := ⟨.matchPattern, .none, .outgoing, ["a", "b"], [], none, none, none⟩

end SqliteGraph.Cypher
