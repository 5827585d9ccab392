import SqliteGraph.Sqlite.Session

/-! What every statement keeps holds of the tables after any writes. -/
namespace SqliteGraph.Sqlite
open Lib

/-- An invariant of the tables that every statement keeps. -/
structure StatementInvariant (I : Database → Prop) : Prop where
  insertEntityRow {db e id db'} : I db → db.insertEntityRow e = .ok (id, db') → I db'
  insertEdgeRow {db e id db'} : I db → db.insertEdgeRow e = .ok (id, db') → I db'
  insertLabelOrIgnore {db id label} : I db → I (db.insertLabelOrIgnore id label)
  insertProperty {db id key value} : I db → I (db.insertProperty id key value)
  updateEntityRow {db e} : I db → I (db.updateEntityRow e).2
  deleteEntityRow {db id} : I db → I (db.deleteEntityRow id).2
  deleteEdgesAt {db id} : I db → I (db.deleteEdgesAt id)
  deleteEdgeRow {db id} : I db → I (db.deleteEdgeRow id).2
  insertEntityWithId {db e u db'} : I db → db.insertEntityWithId e = .ok (u, db') → I db'
  insertEdgeWithId {db e u db'} : I db → db.insertEdgeWithId e = .ok (u, db') → I db'
  insertLabel {db id label u db'} : I db → db.insertLabel id label = .ok (u, db') → I db'
  clearLabels {db} : I db → I { db with labels := [] }
  clearProperties {db} : I db → I { db with properties := [] }
  clearEdges {db} : I db → I { db with edges := [] }
  clearEntities {db} : I db → I { db with entities := [] }

namespace Session

/-- The tables have it, and so do those that a rollback would bring back. -/
structure Holds (I : Database → Prop) (s : Session) : Prop where
  db : I s.db
  txn : ∀ db ∈ s.txn, I db

section Statements
variable {I : Database → Prop} {α β : Type}

theorem keeps_execute {f : Database → Except SqliteGraphError (α × Database)}
    (hf : ∀ {db a db'}, I db → f db = .ok (a, db') → I db') :
    StoreM.Preserves (Holds I) (execute f) := by
  intro s hs
  rw [execute]
  cases s.outcomes.head?.join with
  | some message => exact ⟨hs.db, hs.txn⟩
  | none =>
    cases hr : f s.db with
    | ok r => exact ⟨hf hs.db hr, hs.txn⟩
    | error e => exact ⟨hs.db, hs.txn⟩

theorem keeps_execute_ok {f : Database → α × Database} (hf : ∀ {db}, I db → I (f db).2) :
    StoreM.Preserves (Holds I) (execute fun db => .ok (f db)) := by
  apply keeps_execute
  intro db a db' hi hr
  simp only [Except.ok.injEq] at hr
  simpa [hr] using hf hi

theorem keeps_run {f : Database → Database} (hf : ∀ {db}, I db → I (f db)) :
    StoreM.Preserves (Holds I) (run f) :=
  keeps_execute_ok hf

theorem keeps_begin : StoreM.Preserves (Holds I) begin := by
  intro s hs
  rw [begin]
  cases s.outcomes.head?.join with
  | some message => exact ⟨hs.db, hs.txn⟩
  | none =>
    cases ht : s.txn with
    | some old => exact ⟨hs.db, by simpa [ht] using hs.txn⟩
    | none => exact ⟨hs.db, by simpa using hs.db⟩

theorem keeps_commit : StoreM.Preserves (Holds I) commit := by
  intro s hs
  rw [commit]
  cases s.outcomes.head?.join with
  | some message => exact ⟨hs.db, hs.txn⟩
  | none =>
    cases ht : s.txn with
    | some old => exact ⟨hs.db, by simp⟩
    | none => exact ⟨hs.db, by simp⟩

theorem keeps_rollback : StoreM.Preserves (Holds I) rollback := by
  intro s hs
  rw [rollback, StoreM.modify_run]
  refine ⟨?_, by simp⟩
  cases ht : s.txn with
  | some old => simpa [ht] using hs.txn old ht
  | none => simpa [ht] using hs.db

theorem keeps_invalidateCaches : StoreM.Preserves (Holds I) invalidateCaches :=
  fun _ hs => ⟨hs.db, hs.txn⟩

theorem keeps_forEach {f : α → SessionM β} (hf : ∀ a, StoreM.Preserves (Holds I) (f a))
    (as : List α) : StoreM.Preserves (Holds I) (forEach f as) := by
  induction as with
  | nil => exact .pure
  | cons a as ih => exact .bind (hf a) fun _ => .bind ih fun _ => .pure

theorem keeps_checkFault : StoreM.Preserves (Holds I) checkFault := keeps_run fun h => h

theorem keeps_checkEndpoints (edge : EdgeRow) :
    StoreM.Preserves (Holds I) (checkEndpoints edge) := by
  apply StoreM.Preserves.get_bind
  intro s
  split
  · exact .throw
  · exact .pure

theorem keeps_validateEndpointsExist (fromId toId : Int64) :
    StoreM.Preserves (Holds I) (validateEndpointsExist fromId toId) := by
  apply StoreM.Preserves.get_bind
  intro s
  split
  · exact .throw
  · exact .pure

theorem keeps_executeBatch {operation : List α → SessionM (List β)} (items : List α)
    (config : BatchConfig) (ho : ∀ chunk, StoreM.Preserves (Holds I) (operation chunk)) :
    StoreM.Preserves (Holds I) (executeBatch items config operation) := by
  rw [executeBatch]
  split
  · exact ho items
  · split
    · exact .throw
    · exact .bind (keeps_forEach ho _) fun _ => .pure

theorem keeps_transactionGuard {f : SessionM α} (hf : StoreM.Preserves (Holds I) f) :
    StoreM.Preserves (Holds I) (transactionGuard f) := by
  refine .bind keeps_begin fun _ => .bind (.attempt hf) fun r => ?_
  cases r with
  | ok result =>
    refine .bind (.attempt keeps_commit) fun r => ?_
    cases r with
    | ok u => exact .bind keeps_invalidateCaches fun _ => .pure
    | error e => exact .bind keeps_rollback fun _ => .throw
  | error e => exact .bind keeps_rollback fun _ => .throw

end Statements

section Writes
variable {I : Database → Prop} (hi : StatementInvariant I)
include hi

theorem keeps_insertEntityAndLabel (entity : GraphEntity) :
    StoreM.Preserves (Holds I) (insertEntityAndLabel entity) := by
  refine .bind (keeps_execute hi.insertEntityRow) fun id => ?_
  split
  · exact .pure
  · exact .bind (keeps_run hi.insertLabelOrIgnore) fun _ => .pure

theorem keeps_insertEntitiesBulk (entities : List GraphEntity) :
    StoreM.Preserves (Holds I) (insertEntitiesBulk entities) := by
  rw [insertEntitiesBulk]
  split
  · exact .pure
  refine .bind (keeps_forEach (fun _ => .ofExcept) entities) fun _ => .bind keeps_begin fun _ => ?_
  refine .bind (.attempt (keeps_forEach (keeps_insertEntityAndLabel hi) entities)) fun r => ?_
  cases r with
  | ok ids => exact .bind keeps_commit fun _ => .pure
  | error e => exact .bind keeps_rollback fun _ => .throw

theorem keeps_updateEntity (entity : GraphEntity) :
    StoreM.Preserves (Holds I) (updateEntity entity) := by
  rw [updateEntity]
  split
  · exact .throw
  refine .bind .ofExcept fun _ => .bind (keeps_execute_ok hi.updateEntityRow) fun affected => ?_
  split
  · exact .throw
  · exact .pure

theorem keeps_deleteEntity (id : Int64) : StoreM.Preserves (Holds I) (deleteEntity id) := by
  refine .bind (keeps_execute_ok hi.deleteEntityRow) fun affected => ?_
  split
  · exact .throw
  · exact .bind (keeps_run hi.deleteEdgesAt) fun _ => keeps_invalidateCaches

theorem keeps_insertEdge (edge : EdgeRow) : StoreM.Preserves (Holds I) (insertEdge edge) :=
  .bind .ofExcept fun _ => .bind (keeps_checkEndpoints edge) fun _ =>
    .bind (keeps_execute hi.insertEdgeRow) fun _ => .bind keeps_invalidateCaches fun _ => .pure

theorem keeps_insertEdgesBulk (edges : List EdgeRow) :
    StoreM.Preserves (Holds I) (insertEdgesBulk edges) := by
  rw [insertEdgesBulk]
  split
  · exact .pure
  refine .bind (keeps_forEach (fun e => .bind .ofExcept fun _ => keeps_checkEndpoints e) edges)
    fun _ => .bind keeps_begin fun _ => ?_
  refine .bind (.attempt (keeps_forEach (fun _ => keeps_execute hi.insertEdgeRow) edges)) fun r => ?_
  cases r with
  | ok ids => exact .bind keeps_commit fun _ => .bind keeps_invalidateCaches fun _ => .pure
  | error e => exact .bind keeps_rollback fun _ => .throw

theorem keeps_deleteEdge (id : Int) : StoreM.Preserves (Holds I) (deleteEdge id) := by
  refine .bind (keeps_execute_ok hi.deleteEdgeRow) fun affected => ?_
  split
  · exact .throw
  · exact keeps_invalidateCaches

theorem keeps_bulkInsertEntities (config : BatchConfig) (entries : List GraphEntity) :
    StoreM.Preserves (Holds I) (bulkInsertEntities config entries) := by
  rw [bulkInsertEntities]
  split
  · exact .pure
  apply keeps_executeBatch
  intro chunk
  apply keeps_transactionGuard
  exact .bind (keeps_forEach (fun _ => .bind .ofExcept fun _ => keeps_execute hi.insertEntityRow)
    chunk) fun _ => .bind keeps_checkFault fun _ => .pure

theorem keeps_insertUnseen (seen : List EdgeSpec) (entries : List EdgeRow) :
    StoreM.Preserves (Holds I) (insertUnseen seen entries) := by
  induction entries generalizing seen with
  | nil => exact .pure
  | cons entry entries ih =>
    refine .bind .ofExcept fun _ => ?_
    split
    · exact ih seen
    · exact .bind (keeps_validateEndpointsExist _ _) fun _ =>
        .bind (keeps_execute hi.insertEdgeRow) fun _ => .bind (ih _) fun _ => .pure

theorem keeps_bulkInsertEdges (config : BatchConfig) (entries : List EdgeRow) :
    StoreM.Preserves (Holds I) (bulkInsertEdges config entries) := by
  rw [bulkInsertEdges]
  split
  · exact .pure
  apply keeps_executeBatch
  intro chunk
  apply keeps_transactionGuard
  exact .bind (keeps_insertUnseen hi [] chunk) fun _ => .bind keeps_checkFault fun _ => .pure

theorem keeps_loadRecord (r : DumpRecord) : StoreM.Preserves (Holds I) (loadRecord r) := by
  cases r with
  | entity e => exact keeps_execute hi.insertEntityWithId
  | edge e => exact keeps_execute hi.insertEdgeWithId
  | label entityId label => exact keeps_execute hi.insertLabel
  | property entityId key value => exact keeps_run hi.insertProperty

theorem keeps_loadGraph (lines : List (Except SqliteGraphError DumpRecord)) :
    StoreM.Preserves (Holds I) (loadGraph lines) := by
  refine .bind keeps_begin fun _ => .bind (.attempt ?_) fun r => ?_
  · exact .bind (keeps_run hi.clearLabels) fun _ => .bind (keeps_run hi.clearProperties) fun _ =>
      .bind (keeps_run hi.clearEdges) fun _ => .bind (keeps_run hi.clearEntities) fun _ =>
      .bind (keeps_forEach (fun _ => .bind .ofExcept fun r => keeps_loadRecord hi r) lines) fun _ =>
      keeps_checkFault
  · cases r with
    | ok u => exact .bind keeps_commit fun _ => keeps_invalidateCaches
    | error e => exact .bind keeps_rollback fun _ => .throw

theorem holds_write {s : Session} (hs : Holds I s) (w : Write) : Holds I (s.write w) := by
  cases w with
  | insertEntity entity =>
    exact (StoreM.Preserves.bind .ofExcept fun _ => keeps_insertEntityAndLabel hi entity) s hs
  | insertEntitiesBulk entities => exact keeps_insertEntitiesBulk hi entities s hs
  | bulkInsertEntities config entries => exact keeps_bulkInsertEntities hi config entries s hs
  | updateEntity entity => exact keeps_updateEntity hi entity s hs
  | deleteEntity id => exact keeps_deleteEntity hi id s hs
  | addLabel entityId label => exact keeps_run hi.insertLabelOrIgnore s hs
  | addProperty entityId key value => exact keeps_run hi.insertProperty s hs
  | insertEdge edge => exact keeps_insertEdge hi edge s hs
  | insertEdgesBulk edges => exact keeps_insertEdgesBulk hi edges s hs
  | bulkInsertEdges config entries => exact keeps_bulkInsertEdges hi config entries s hs
  | deleteEdge id => exact keeps_deleteEdge hi id s hs
  | loadGraph lines => exact keeps_loadGraph hi lines s hs

theorem holds_writes {s : Session} (hs : Holds I s) (ws : List Write) :
    Holds I (ws.foldl write s) := by
  induction ws generalizing s with
  | nil => exact hs
  | cons w ws ih => exact ih (holds_write hi hs w)

end Writes

end Session

/-- Different rows have different ids, none above what `AUTOINCREMENT` has seen. -/
structure Database.RowIds (db : Database) : Prop where
  entities : (db.entities.map (·.id)).Nodup
  edges : (db.edges.map (·.id)).Nodup
  entity_le : ∀ e ∈ db.entities, e.id.toInt ≤ db.entitySeq
  edge_le : ∀ e ∈ db.edges, e.id ≤ db.edgeSeq
  seq : 0 ≤ db.entitySeq ∧ db.entitySeq ≤ i64Max

namespace Database

theorem insertAt_perm {α : Type} (before : α → Bool) (row : α) (rows : List α) :
    (insertAt before row rows).Perm (row :: rows) := by
  have h : rows.takeWhile before ++ rows.dropWhile before = rows := List.takeWhile_append_dropWhile
  have hmiddle : (rows.takeWhile before ++ row :: rows.dropWhile before).Perm
      (row :: (rows.takeWhile before ++ rows.dropWhile before)) := List.perm_middle
  rwa [h] at hmiddle

theorem rowIds_empty : empty.RowIds :=
  ⟨List.nodup_nil, List.nodup_nil, by simp [empty], by simp [empty], by simp [empty, i64Max]⟩

theorem rowIds_insertEntityRow {db db' : Database} {e : GraphEntity} {id : Int64} (h : db.RowIds)
    (hr : db.insertEntityRow e = .ok (id, db')) : db'.RowIds := by
  rw [insertEntityRow] at hr
  split at hr
  · cases hr
  rename_i hlt
  have hseq := h.seq
  simp only [i64Max] at hlt hseq
  have hid : (Int64.ofInt (db.entitySeq + 1)).toInt = db.entitySeq + 1 :=
    Int64.toInt_ofInt_of_le (by omega) (by omega)
  cases hr
  refine ⟨?_, h.edges, ?_, h.edge_le, by simp only [i64Max]; omega⟩
  · rw [List.map_append, List.nodup_append]
    refine ⟨h.entities, by simp, ?_⟩
    intro a ha b hb he
    obtain ⟨old, hold, rfl⟩ := List.mem_map.mp ha
    have hle := h.entity_le old hold
    have hb : b = Int64.ofInt (db.entitySeq + 1) := by simpa using hb
    rw [he, hb, hid] at hle
    omega
  · intro old hold
    rcases List.mem_append.mp hold with hold | hold
    · exact Int.le_add_one (h.entity_le old hold)
    · rw [List.mem_singleton.mp hold]
      exact hid.le

theorem rowIds_insertEdgeRow {db db' : Database} {e : EdgeRow} {id : Int} (h : db.RowIds)
    (hr : db.insertEdgeRow e = .ok (id, db')) : db'.RowIds := by
  rw [insertEdgeRow] at hr
  split at hr
  · cases hr
  cases hr
  refine ⟨h.entities, ?_, h.entity_le, ?_, h.seq⟩
  · rw [List.map_append, List.nodup_append]
    refine ⟨h.edges, by simp, ?_⟩
    intro a ha b hb he
    obtain ⟨old, hold, rfl⟩ := List.mem_map.mp ha
    have hle := h.edge_le old hold
    have hb : b = db.edgeSeq + 1 := by simpa using hb
    omega
  · intro old hold
    rcases List.mem_append.mp hold with hold | hold
    · exact Int.le_add_one (h.edge_le old hold)
    · rw [List.mem_singleton.mp hold]

theorem rowIds_insertEntityWithId {db db' : Database} {e : GraphEntity} {u : Unit} (h : db.RowIds)
    (hr : db.insertEntityWithId e = .ok (u, db')) : db'.RowIds := by
  rw [insertEntityWithId] at hr
  split at hr
  · cases hr
  rename_i hnew
  cases hr
  have hp := insertAt_perm (fun row : GraphEntity => decide (row.id < e.id)) e db.entities
  refine ⟨?_, h.edges, ?_, h.edge_le, ?_⟩
  · rw [(hp.map (·.id)).nodup_iff]
    exact List.nodup_cons.mpr ⟨hnew, h.entities⟩
  · intro row hrow
    rcases List.mem_cons.mp (hp.mem_iff.mp hrow) with rfl | hrow
    · exact le_max_right _ _
    · exact (h.entity_le row hrow).trans (le_max_left _ _)
  · have hseq := h.seq
    have hlt := e.id.toInt_lt
    simp only [i64Max] at hseq ⊢
    exact ⟨hseq.1.trans (le_max_left _ _), max_le hseq.2 (by omega)⟩

theorem rowIds_insertEdgeWithId {db db' : Database} {e : EdgeRow} {u : Unit} (h : db.RowIds)
    (hr : db.insertEdgeWithId e = .ok (u, db')) : db'.RowIds := by
  rw [insertEdgeWithId] at hr
  split at hr
  · cases hr
  rename_i hnew
  cases hr
  have hp := insertAt_perm (fun row : EdgeRow => decide (row.id < e.id)) e db.edges
  refine ⟨h.entities, ?_, h.entity_le, ?_, h.seq⟩
  · rw [(hp.map (·.id)).nodup_iff]
    exact List.nodup_cons.mpr ⟨hnew, h.edges⟩
  · intro row hrow
    rcases List.mem_cons.mp (hp.mem_iff.mp hrow) with rfl | hrow
    · exact le_max_right _ _
    · exact (h.edge_le row hrow).trans (le_max_left _ _)

/-- A new row for an id is in the place of the old one. -/
theorem updateEntityRow_ids (db : Database) (e : GraphEntity) :
    (db.updateEntityRow e).2.entities.map (·.id) = db.entities.map (·.id) := by
  rw [updateEntityRow, List.map_map]
  apply List.map_congr_left
  intro old _
  rw [Function.comp_apply]
  split
  · rename_i he
    exact he.symm
  · rfl

theorem rowIds_updateEntityRow {db : Database} {e : GraphEntity} (h : db.RowIds) :
    (db.updateEntityRow e).2.RowIds := by
  refine ⟨by rw [updateEntityRow_ids]; exact h.entities, h.edges, ?_, h.edge_le, h.seq⟩
  intro row hrow
  obtain ⟨old, hold, rfl⟩ := List.mem_map.mp hrow
  split
  · rename_i he
    rw [← he]
    exact h.entity_le old hold
  · exact h.entity_le old hold

theorem rowIds_filterEntities {db : Database} (keep : GraphEntity → Bool) (h : db.RowIds) :
    { db with entities := db.entities.filter keep }.RowIds :=
  ⟨h.entities.sublist (List.filter_sublist.map _), h.edges,
    fun e he => h.entity_le e (List.mem_filter.mp he).1, h.edge_le, h.seq⟩

theorem rowIds_filterEdges {db : Database} (keep : EdgeRow → Bool) (h : db.RowIds) :
    { db with edges := db.edges.filter keep }.RowIds :=
  ⟨h.entities, h.edges.sublist (List.filter_sublist.map _), h.entity_le,
    fun e he => h.edge_le e (List.mem_filter.mp he).1, h.seq⟩

theorem rowIds_insertLabelOrIgnore {db : Database} {id : Int64} {label : String} (h : db.RowIds) :
    (db.insertLabelOrIgnore id label).RowIds := by
  rw [insertLabelOrIgnore]
  split
  · exact h
  · exact ⟨h.entities, h.edges, h.entity_le, h.edge_le, h.seq⟩

theorem rowIds_insertLabel {db db' : Database} {id : Int64} {label : String} {u : Unit}
    (h : db.RowIds) (hr : db.insertLabel id label = .ok (u, db')) : db'.RowIds := by
  rw [insertLabel] at hr
  split at hr
  · cases hr
  cases hr
  exact ⟨h.entities, h.edges, h.entity_le, h.edge_le, h.seq⟩

theorem rowIds_statementInvariant : StatementInvariant RowIds where
  insertEntityRow := rowIds_insertEntityRow
  insertEdgeRow := rowIds_insertEdgeRow
  insertLabelOrIgnore := rowIds_insertLabelOrIgnore
  insertProperty h := ⟨h.entities, h.edges, h.entity_le, h.edge_le, h.seq⟩
  updateEntityRow := rowIds_updateEntityRow
  deleteEntityRow h := rowIds_filterEntities _ h
  deleteEdgesAt h := rowIds_filterEdges _ h
  deleteEdgeRow h := rowIds_filterEdges _ h
  insertEntityWithId := rowIds_insertEntityWithId
  insertEdgeWithId := rowIds_insertEdgeWithId
  insertLabel := rowIds_insertLabel
  clearLabels h := ⟨h.entities, h.edges, h.entity_le, h.edge_le, h.seq⟩
  clearProperties h := ⟨h.entities, h.edges, h.entity_le, h.edge_le, h.seq⟩
  clearEdges h := ⟨h.entities, List.nodup_nil, h.entity_le, by simp, h.seq⟩
  clearEntities h := ⟨List.nodup_nil, h.edges, by simp, h.edge_le, h.seq⟩

theorem find?_of_nodup {α κ : Type} [DecidableEq κ] {key : α → κ} {rows : List α} (h : (rows.map key).Nodup)
    {row : α} (hrow : row ∈ rows) : rows.find? (fun r => key r = key row) = some row := by
  induction rows with
  | nil => cases hrow
  | cons r rows ih =>
    rw [List.map_cons, List.nodup_cons] at h
    rcases List.mem_cons.mp hrow with rfl | hrow
    · simp
    · have hne : key r ≠ key row := fun heq => h.1 (heq ▸ List.mem_map_of_mem hrow)
      rw [List.find?_cons_of_neg (by simpa using hne)]
      exact ih h.2 hrow

theorem RowIds.getEntity {db : Database} (h : db.RowIds) {e : GraphEntity} (he : e ∈ db.entities) :
    db.getEntity e.id = .ok e := by
  rw [Database.getEntity, find?_of_nodup h.entities he]

theorem RowIds.getEdge {db : Database} (h : db.RowIds) {e : EdgeRow} (he : e ∈ db.edges) :
    db.getEdge e.id = .ok e := by
  rw [Database.getEdge, find?_of_nodup h.edges he]

end Database

/-- In a graph that was opened new, different rows have different ids. -/
theorem Session.rowIds_writes (outcomes : List (Option String)) (ws : List Write) :
    (ws.foldl write (Session.open outcomes)).db.RowIds :=
  (holds_writes Database.rowIds_statementInvariant ⟨Database.rowIds_empty, by simp [Session.open]⟩
    ws).db

end SqliteGraph.Sqlite
