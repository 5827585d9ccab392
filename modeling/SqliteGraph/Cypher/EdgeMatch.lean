import SqliteGraph.Cypher.LegMatches

/-! Single-edge patterns: the edges that are returned against those that the patterns describe. -/
namespace SqliteGraph.Cypher
open Lib Sqlite

/-- The orders in which the ends of an edge may stand for a pattern. -/
def allowedEnds (direction : EdgeDirection) (e : EdgeRow) : List (Int64 × Int64) :=
  match direction with
  | .outgoing => [(e.fromId, e.toId)]
  | .incoming => [(e.toId, e.fromId)]
  | .both => [(e.fromId, e.toId), (e.toId, e.fromId)]

theorem edgeEnds_allowed (direction : EdgeDirection) (e : EdgeRow) :
    edgeEnds direction e ∈ allowedEnds direction e := by
  cases direction <;> exact List.mem_cons_self

section Edges
variable (ext : Externals) (db : Database) (query : CypherQuery)

/-- Two nodes that the patterns of an edge describe. -/
structure EdgeFits (fromPat toPat : NodePattern) (u v : GraphEntity) : Prop where
  fromNode : u ∈ db.entities
  toNode : v ∈ db.entities
  fromMatches : nodePatternMatches fromPat u
  toMatches : nodePatternMatches toPat v
  shared : fromPat.var = toPat.var → u.id = v.id
  holds : whereClausesMatch ext query (fromPat, u) (some (toPat, v))

/-- Two nodes at the ends of an edge that the executor takes. -/
structure EdgeTaken (fromPat toPat : NodePattern) (e : EdgeRow) (u v : GraphEntity) : Prop where
  fromNode : u ∈ db.entities
  toNode : v ∈ db.entities
  ends : edgeEnds query.direction e = (u.id, v.id)
  fromTables : tableFits db fromPat u.id
  toTables : tableFits db toPat v.id
  holds : whereClausesMatch ext query (fromPat, u) (some (toPat, v))

/-- One row for each edge of the type that the patterns describe in an allowed order. -/
def EdgeMatchExact (fromPat : NodePattern) (relType : String) (toPat : NodePattern) : Prop :=
  ∃ rows, edgeRows ext db query fromPat relType toPat = .ok rows ∧ (rows.map (·.1)).Nodup ∧
    (∀ id u v, (id, u, v) ∈ rows → EdgeFits ext db query fromPat toPat u v ∧
      ∃ e ∈ db.edges, e.id = id ∧ e.edgeType = relType ∧
        (u.id, v.id) ∈ allowedEnds query.direction e) ∧
    ∀ e ∈ db.edges, e.edgeType = relType →
      (∃ u v, EdgeFits ext db query fromPat toPat u v ∧
        (u.id, v.id) ∈ allowedEnds query.direction e) → e.id ∈ rows.map (·.1)

/-- An edge whose ends the tables let through is one that the patterns describe, and an edge that they
describe is let through. -/
structure TablesAgree (fromPat toPat : NodePattern) (e : EdgeRow) : Prop where
  fits : ∀ u v, EdgeTaken ext db query fromPat toPat e u v → EdgeFits ext db query fromPat toPat u v
  taken : ∀ u v, EdgeFits ext db query fromPat toPat u v →
    (u.id, v.id) ∈ allowedEnds query.direction e →
    ∃ u' v', EdgeTaken ext db query fromPat toPat e u' v'

end Edges

section Rows
variable {ext : Externals} {db : Database} {query : CypherQuery} {relType : String}
  {fromPat toPat : NodePattern}

theorem map_filterMap_sublist {α β γ : Type} {f : α → Option β} {g : β → γ} {k : α → γ}
    (h : ∀ a b, f a = some b → g b = k a) (l : List α) :
    ((l.filterMap f).map g).Sublist (l.map k) := by
  induction l with
  | nil => exact .slnil
  | cons a l ih =>
    rw [List.filterMap_cons]
    split
    · exact ih.cons _
    · rename_i b hb
      rw [List.map_cons, List.map_cons, h a b hb]
      exact ih.cons_cons _

theorem edgeNodes_iff (h : db.RowIds) {direction : EdgeDirection} {t : TripleMatch} {id : Int}
    {u v : GraphEntity} : edgeNodes db direction t = some (id, u, v) ↔ t.edgeId = id ∧
      u ∈ db.entities ∧ v ∈ db.entities ∧ tripleEnds direction t = (u.id, v.id) := by
  simp only [edgeNodes, Option.bind_eq_bind, Option.bind_eq_some_iff, getNode_iff h]
  constructor
  · rintro ⟨a, ⟨ha, hida⟩, b, ⟨hb, hidb⟩, heq⟩
    cases heq
    exact ⟨rfl, ha, hb, Prod.ext hida.symm hidb.symm⟩
  · rintro ⟨rfl, hu, hv, hends⟩
    exact ⟨u, ⟨hu, by rw [hends]⟩, v, ⟨hv, by rw [hends]⟩, rfl⟩

/-- The rows are the edges of the type whose ends the tables and WHERE let through. -/
theorem edgeRows_run (ext : Externals) (query : CypherQuery) (fromPat toPat : NodePattern)
    (h : db.RowIds) (hblank : isBlank relType = false) :
    ∃ rows, edgeRows ext db query fromPat relType toPat = .ok rows ∧ (rows.map (·.1)).Nodup ∧
      ∀ id u v, (id, u, v) ∈ rows ↔ ∃ e ∈ db.edges, e.id = id ∧ e.edgeType = relType ∧
        EdgeTaken ext db query fromPat toPat e u v := by
  obtain ⟨l, hl, hperm⟩ := matchLeg_run db query.direction fromPat toPat hblank
  refine ⟨_, by rw [edgeRows, hl]; rfl, ?_, fun id u v => ?_⟩
  · have hids : (l.map (·.edgeId)).Nodup := by
      rw [(hperm.map _).nodup_iff, List.map_map]
      exact h.edges.sublist (List.filter_sublist.map _)
    have hsub := map_filterMap_sublist (f := edgeNodes db query.direction) (g := (·.1))
      (k := (·.edgeId)) (fun t b hb => ((edgeNodes_iff h).mp hb).1.symm) l
    exact hids.sublist ((List.filter_sublist.map _).trans hsub)
  · simp only [List.mem_filter, List.mem_filterMap, hperm.mem_iff, List.mem_map, edgeNodes_iff h]
    constructor
    · rintro ⟨⟨_, ⟨e, he, rfl⟩, rfl, hu, hv, hends⟩, hwhere⟩
      rw [legEdges, List.mem_filter] at he
      rw [tripleEnds_tripleOf] at hends
      simp only [hends, Bool.and_eq_true, decide_eq_true_eq] at he
      exact ⟨e, he.1, rfl, he.2.1, ⟨hu, hv, hends, he.2.2.1, he.2.2.2, hwhere⟩⟩
    · rintro ⟨e, he, rfl, htype, ⟨hu, hv, hends, hfrom, hto, hwhere⟩⟩
      refine ⟨⟨tripleOf e, ⟨e, ?_, rfl⟩, rfl, hu, hv, ?_⟩, hwhere⟩
      · rw [legEdges, List.mem_filter]
        simp only [hends, htype, hfrom, hto]
        exact ⟨he, by simp⟩
      · rw [tripleEnds_tripleOf, hends]

end Rows

/-- A single-edge pattern returns what it describes exactly where its type is not blank and the tables
agree with the patterns on every edge of the type. -/
theorem edge_match_iff (ext : Externals) (outcomes : List (Option String))
    (ws : List Session.Write) (query : CypherQuery) (fromPat : NodePattern) (relType : String)
    (toPat : NodePattern) :
    EdgeMatchExact ext (ws.foldl Session.write (Session.open outcomes)).db query fromPat relType
        toPat ↔
      isBlank relType = false ∧
      ∀ e ∈ (ws.foldl Session.write (Session.open outcomes)).db.edges, e.edgeType = relType →
        TablesAgree ext (ws.foldl Session.write (Session.open outcomes)).db query fromPat toPat e := by
  have hids := Session.rowIds_writes outcomes ws
  generalize (ws.foldl Session.write (Session.open outcomes)).db = db at hids ⊢
  cases hblank : isBlank relType with
  | true =>
    refine iff_of_false ?_ (by simp)
    rintro ⟨rows, hrows, -⟩
    rw [edgeRows, matchLeg_blank hblank] at hrows
    cases hrows
  | false =>
    obtain ⟨rows, hrows, hnodup, hmem⟩ := edgeRows_run ext query fromPat toPat hids hblank
    constructor
    · rintro ⟨rows', hrows', -, hsound, hcomplete⟩
      rw [hrows] at hrows'
      cases hrows'
      refine ⟨rfl, fun e he htype => ⟨fun u v htaken => ?_, fun u v hfits hends => ?_⟩⟩
      · exact (hsound e.id u v ((hmem _ _ _).mpr ⟨e, he, rfl, htype, htaken⟩)).1
      · obtain ⟨⟨id, u', v'⟩, hrow, hid⟩ := List.mem_map.mp (hcomplete e he htype ⟨u, v, hfits, hends⟩)
        obtain ⟨e', he', rfl, -, htaken⟩ := (hmem _ _ _).mp hrow
        obtain rfl : e' = e := List.inj_on_of_nodup_map hids.edges he' he hid
        exact ⟨u', v', htaken⟩
    · rintro ⟨-, hagree⟩
      refine ⟨rows, hrows, hnodup, fun id u v hrow => ?_, fun e he htype hfits => ?_⟩
      · obtain ⟨e, he, rfl, htype, htaken⟩ := (hmem _ _ _).mp hrow
        refine ⟨(hagree e he htype).fits u v htaken, e, he, rfl, htype, ?_⟩
        rw [← htaken.ends]
        exact edgeEnds_allowed _ e
      · obtain ⟨u, v, hfits, hends⟩ := hfits
        obtain ⟨u', v', htaken⟩ := (hagree e he htype).taken u v hfits hends
        exact List.mem_map.mpr ⟨(e.id, u', v'), (hmem _ _ _).mpr ⟨e, he, rfl, htype, htaken⟩, rfl⟩

/-- A name that only the entity itself has, not the table of properties. -/
theorem not_edge_match : ¬ ∀ (ext : Externals) (outcomes : List (Option String))
    (ws : List Session.Write) (query : CypherQuery) (fromPat : NodePattern) (relType : String)
    (toPat : NodePattern),
    EdgeMatchExact ext (ws.foldl Session.write (Session.open outcomes)).db query fromPat relType
      toPat := by
  intro h
  obtain ⟨rows, hrows, -, -, hcomplete⟩ := h integerExternals [] calledOnce matchAll
    ⟨"a", none, [("name", "main")]⟩ "calls" ⟨"b", none, []⟩
  obtain ⟨rows', hrows', -, hmem⟩ := edgeRows_run integerExternals matchAll
    ⟨"a", none, [("name", "main")]⟩ ⟨"b", none, []⟩ (Session.rowIds_writes [] calledOnce)
    (show isBlank "calls" = false from rfl)
  rw [hrows] at hrows'
  cases hrows'
  have hfits : EdgeFits integerExternals (calledOnce.foldl Session.write (Session.open [])).db
      matchAll ⟨"a", none, [("name", "main")]⟩ ⟨"b", none, []⟩ ⟨1, "function", "main", none, .null⟩
      ⟨2, "function", "run", none, .null⟩ :=
    ⟨.head _, .tail _ (.head _), rfl, rfl, by decide, rfl⟩
  have hin := hcomplete ⟨⟨⟨1, 2, "calls"⟩, 1⟩, .null⟩ (.head _) rfl ⟨_, _, hfits, .head _⟩
  obtain ⟨⟨id, u, v⟩, hrow, -⟩ := List.mem_map.mp hin
  obtain ⟨e, -, -, -, htaken⟩ := (hmem _ _ _).mp hrow
  have hnone : ∀ id, tableFits (calledOnce.foldl Session.write (Session.open [])).db
      ⟨"a", none, [("name", "main")]⟩ id = false := fun _ => rfl
  have hfrom := htaken.fromTables
  rw [hnone] at hfrom
  cases hfrom

end SqliteGraph.Cypher
