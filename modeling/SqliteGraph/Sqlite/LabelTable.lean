import SqliteGraph.Sqlite.PatternEngine
import SqliteGraph.Sqlite.SessionInvariant
import SqliteGraph.Sqlite.Transactions

/-! The label table: the kind of each entity, and the labels given to it. -/
namespace SqliteGraph.Sqlite
open Lib

section Queries
variable (db : Database)

def fetchEntities : List Int64 → Except SqliteGraphError (List GraphEntity)
  | [] => .ok []
  | id :: ids => do
    let entity ← db.getEntity id
    let entities ← fetchEntities ids
    .ok (entity :: entities)

def getEntitiesByLabel (label : String) : Except SqliteGraphError (List GraphEntity) :=
  fetchEntities db (((db.labels.filter (·.2 = label)).map (·.1)).mergeSort fun a b => decide (a ≤ b))

end Queries

section Agreement
variable (db : Database) (given : List (Int64 × String))

/-- A live entity whose kind the label is, or that was given it. -/
def Labelled (label : String) (e : GraphEntity) : Prop :=
  e ∈ db.entities ∧ (e.kind = label ∨ (e.id, label) ∈ given)

/-- Both readers of the label table find the entities that have a label. -/
structure LabelsAgree : Prop where
  found : ∀ label, ∃ es, getEntitiesByLabel db label = .ok es ∧ es.Nodup ∧
    ∀ e, e ∈ es ↔ Labelled db given label e
  accepted : ∀ label id, hasLabel db (some label) id ↔ ∃ e, Labelled db given label e ∧ e.id = id

/-- The label table holds these labels and no others. -/
structure LabelMirror : Prop where
  rowIds : db.RowIds
  nodup : db.labels.Nodup
  given_live : ∀ row ∈ given, row.1 ∈ db.allEntityIds
  mem_labels : ∀ id label, (id, label) ∈ db.labels ↔ ∃ e, Labelled db given label e ∧ e.id = id

end Agreement

section Reading
variable {db : Database} {given : List (Int64 × String)}

theorem getEntity_ok {id : Int64} (h : id ∈ db.allEntityIds) :
    ∃ e ∈ db.entities, e.id = id ∧ db.getEntity id = .ok e := by
  obtain ⟨e, he, hid⟩ := List.mem_map.mp h
  rw [Database.getEntity]
  cases hf : db.entities.find? (·.id = id) with
  | none => exact absurd hid (by simpa using List.find?_eq_none.mp hf e he)
  | some e' => exact ⟨e', List.mem_of_find?_eq_some hf, by simpa using List.find?_some hf, rfl⟩

theorem fetchEntities_ok {ids : List Int64} (h : ∀ id ∈ ids, id ∈ db.allEntityIds) :
    ∃ es, fetchEntities db ids = .ok es ∧ es.map (·.id) = ids ∧ ∀ e ∈ es, e ∈ db.entities := by
  induction ids with
  | nil => exact ⟨[], rfl, rfl, by simp⟩
  | cons id ids ih =>
    obtain ⟨e, he, hid, hget⟩ := getEntity_ok (h id List.mem_cons_self)
    obtain ⟨es, hes, hids, hmem⟩ := ih fun id' h' => h id' (List.mem_cons_of_mem _ h')
    refine ⟨e :: es, ?_, by simp [hid, hids], by simpa [he] using hmem⟩
    rw [fetchEntities, hget, hes]
    rfl

theorem LabelMirror.agree (h : LabelMirror db given) : LabelsAgree db given := by
  refine ⟨?_, fun label id => by simpa [hasLabel] using h.mem_labels id label⟩
  intro label
  have hperm := List.mergeSort_perm ((db.labels.filter (·.2 = label)).map (·.1))
    fun a b => decide (a ≤ b)
  have hids : ∀ id, id ∈ ((db.labels.filter (·.2 = label)).map (·.1)).mergeSort
      (fun a b => decide (a ≤ b)) ↔ (id, label) ∈ db.labels := by
    intro id
    rw [hperm.mem_iff]
    simp
  have hfetched : ∀ id ∈ ((db.labels.filter (·.2 = label)).map (·.1)).mergeSort
      (fun a b => decide (a ≤ b)), id ∈ db.allEntityIds := by
    intro id hid
    obtain ⟨e, he, rfl⟩ := (h.mem_labels id label).mp ((hids id).mp hid)
    exact List.mem_map_of_mem he.1
  obtain ⟨es, hes, hmap, hlive⟩ := fetchEntities_ok hfetched
  refine ⟨es, hes, ?_, ?_⟩
  · apply List.Nodup.of_map (·.id)
    rw [hmap, hperm.nodup_iff]
    apply List.Nodup.map_on _ (h.nodup.filter _)
    intro a ha b hb hab
    have ha := (List.mem_filter.mp ha).2
    have hb := (List.mem_filter.mp hb).2
    simp only [decide_eq_true_eq] at ha hb
    exact Prod.ext hab (ha.trans hb.symm)
  · intro e
    constructor
    · intro he
      have hid : (e.id, label) ∈ db.labels := by
        rw [← hids, ← hmap]
        exact List.mem_map_of_mem he
      obtain ⟨e', he', hee⟩ := (h.mem_labels e.id label).mp hid
      rwa [← List.inj_on_of_nodup_map h.rowIds.entities he'.1 (hlive e he) hee]
    · intro he
      have hid : (e.id, label) ∈ db.labels := (h.mem_labels e.id label).mpr ⟨e, he, rfl⟩
      rw [← hids, ← hmap] at hid
      obtain ⟨e', he', hee⟩ := List.mem_map.mp hid
      rwa [← List.inj_on_of_nodup_map h.rowIds.entities (hlive e' he') he.1 hee]

end Reading

section Statements
variable {db db' : Database} {given : List (Int64 × String)}

theorem mem_insertLabelOrIgnore (id : Int64) (label : String) (row : Int64 × String) :
    row ∈ (db.insertLabelOrIgnore id label).labels ↔ row ∈ db.labels ∨ row = (id, label) := by
  rw [Database.insertLabelOrIgnore]
  split
  · rename_i hin
    constructor
    · exact Or.inl
    · rintro (h | rfl)
      · exact h
      · exact hin
  · simp

theorem nodup_insertLabelOrIgnore (h : db.labels.Nodup) (id : Int64) (label : String) :
    (db.insertLabelOrIgnore id label).labels.Nodup := by
  rw [Database.insertLabelOrIgnore]
  split
  · exact h
  · rename_i hnew
    rw [List.nodup_append]
    refine ⟨h, by simp, ?_⟩
    intro a ha b hb he
    rw [he, List.mem_singleton.mp hb] at ha
    exact hnew ha

/-- A new entity has a new id. -/
theorem insertEntityRow_fresh {e : GraphEntity} {id : Int64} (hr : db.RowIds)
    (h : db.insertEntityRow e = .ok (id, db')) : id ∉ db.allEntityIds := by
  have hnodup := (Database.rowIds_insertEntityRow hr h).entities
  rw [(insertEntityRow_ok h).2, List.map_append, List.nodup_append] at hnodup
  intro hin
  exact hnodup.2.2 id hin id (by simp) rfl

/-- An entity is inserted with its kind as a label. -/
theorem LabelMirror.insert {e : GraphEntity} {id : Int64} (h : LabelMirror db given)
    (hr : db.insertEntityRow e = .ok (id, db')) :
    LabelMirror (db'.insertLabelOrIgnore id e.kind) given := by
  have hfresh := insertEntityRow_fresh h.rowIds hr
  have hrow := Database.rowIds_insertEntityRow h.rowIds hr
  have hnodup : db'.labels.Nodup := by
    rw [(insertEntityRow_ok hr).2]
    exact h.nodup
  obtain ⟨-, rfl⟩ := insertEntityRow_ok hr
  refine ⟨Database.rowIds_insertLabelOrIgnore hrow, nodup_insertLabelOrIgnore hnodup _ _, ?_, ?_⟩
  · intro row hrow
    rw [Database.allEntityIds, insertLabelOrIgnore_entities, List.map_append]
    exact List.mem_append_left _ (h.given_live row hrow)
  · intro id' label
    rw [mem_insertLabelOrIgnore, h.mem_labels]
    constructor
    · rintro (⟨old, hold, rfl⟩ | heq)
      · exact ⟨old, ⟨by simp [hold.1], hold.2⟩, rfl⟩
      · obtain ⟨rfl, rfl⟩ := Prod.mk.injEq .. ▸ heq
        exact ⟨{ e with id := id' }, ⟨by simp, Or.inl rfl⟩, rfl⟩
    · rintro ⟨old, ⟨hold, hlabel⟩, rfl⟩
      simp only [insertLabelOrIgnore_entities, List.mem_append, List.mem_singleton] at hold
      rcases hold with hold | rfl
      · exact Or.inl ⟨old, ⟨hold, hlabel⟩, rfl⟩
      · rcases hlabel with rfl | hgiven
        · exact Or.inr rfl
        · exact absurd (h.given_live _ hgiven) hfresh

/-- A live entity is given a label. -/
theorem LabelMirror.give {id : Int64} (h : LabelMirror db given) (hid : id ∈ db.allEntityIds)
    (label : String) : LabelMirror (db.insertLabelOrIgnore id label) (given ++ [(id, label)]) := by
  refine ⟨Database.rowIds_insertLabelOrIgnore h.rowIds, nodup_insertLabelOrIgnore h.nodup _ _,
    ?_, ?_⟩
  · intro row hrow
    rw [Database.allEntityIds, insertLabelOrIgnore_entities]
    rcases List.mem_append.mp hrow with hrow | hrow
    · exact h.given_live row hrow
    · rw [List.mem_singleton.mp hrow]
      exact hid
  · intro id' label'
    rw [mem_insertLabelOrIgnore, h.mem_labels]
    constructor
    · rintro (⟨e, ⟨he, hlabel⟩, rfl⟩ | heq)
      · exact ⟨e, ⟨by simpa using he, hlabel.imp_right (List.mem_append_left _)⟩, rfl⟩
      · obtain ⟨rfl, rfl⟩ := Prod.mk.injEq .. ▸ heq
        obtain ⟨e, he, rfl⟩ := List.mem_map.mp hid
        exact ⟨e, ⟨by simpa using he, Or.inr (by simp)⟩, rfl⟩
    · rintro ⟨e, ⟨he, hlabel⟩, rfl⟩
      rw [insertLabelOrIgnore_entities] at he
      rcases hlabel with hkind | hgiven
      · exact Or.inl ⟨e, ⟨he, Or.inl hkind⟩, rfl⟩
      · rcases List.mem_append.mp hgiven with hgiven | hgiven
        · exact Or.inl ⟨e, ⟨he, Or.inr hgiven⟩, rfl⟩
        · exact Or.inr (List.mem_singleton.mp hgiven)

/-- The new row has the old kind, or both kinds are labels that the entity was given. -/
theorem LabelMirror.update {e : GraphEntity} (h : LabelMirror db given)
    (hkind : ∀ old ∈ db.entities, old.id = e.id → old.kind = e.kind ∨
      (e.id, old.kind) ∈ given ∧ (e.id, e.kind) ∈ given) :
    LabelMirror (db.updateEntityRow e).2 given := by
  refine ⟨Database.rowIds_updateEntityRow h.rowIds, h.nodup, ?_, ?_⟩
  · intro row hrow
    rw [Database.allEntityIds, Database.updateEntityRow_ids]
    exact h.given_live row hrow
  · intro id label
    have hmem := h.mem_labels id label
    rw [Database.updateEntityRow]
    rw [hmem]
    constructor
    · rintro ⟨old, ⟨hold, hlabel⟩, rfl⟩
      by_cases hid : old.id = e.id
      · refine ⟨e, ⟨List.mem_map.mpr ⟨old, hold, if_pos hid⟩, ?_⟩, hid.symm⟩
        rw [hid] at hlabel
        rcases hlabel with rfl | hgiven
        · exact (hkind old hold hid).imp Eq.symm And.left
        · exact Or.inr hgiven
      · exact ⟨old, ⟨List.mem_map.mpr ⟨old, hold, if_neg hid⟩, hlabel⟩, rfl⟩
    · rintro ⟨new, ⟨hnew, hlabel⟩, rfl⟩
      obtain ⟨old, hold, rfl⟩ := List.mem_map.mp hnew
      by_cases hid : old.id = e.id
      · rw [if_pos hid] at hlabel ⊢
        refine ⟨old, ⟨hold, ?_⟩, hid⟩
        rw [hid]
        rcases hlabel with rfl | hgiven
        · exact (hkind old hold hid).imp id And.right
        · exact Or.inr hgiven
      · rw [if_neg hid] at hlabel ⊢
        exact ⟨old, ⟨hold, hlabel⟩, rfl⟩

end Statements

end SqliteGraph.Sqlite
