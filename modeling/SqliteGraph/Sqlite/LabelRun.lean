import SqliteGraph.Sqlite.LabelTable

/-! The label table over runs of the writes of entities and labels. -/
namespace SqliteGraph.Sqlite
open Lib

section Kept

/-- The entries that `bulk_insert_entities` commits first. -/
def firstChunk (config : BatchConfig) (entries : List GraphEntity) : List GraphEntity :=
  if !config.enableChunking || entries.length ≤ config.maxBatchSize then entries
  else entries.take config.maxBatchSize

/-- A transaction is open already, an entry is not valid, the ids run out, or one of the statements (`BEGIN`,
an insertion for each entry, the fault check, `COMMIT`) fails. -/
def ChunkFails (s : Session) (chunk : List GraphEntity) : Prop :=
  s.txn.isSome ∨ (∃ e ∈ chunk, validateEntity e ≠ .ok ()) ∨
    i64Max < s.db.entitySeq + chunk.length ∨
    ∃ i < chunk.length + 3, (s.outcomes[i]?.join).isSome

/-- What a write of entities or labels must not do: insert an entity and fail at its label, commit entities
without their labels, change the kind of an entity from or to a label that it was not given, delete an
entity, or label none. -/
def LabelsKept (s : Session) (given : List (Int64 × String)) : Session.Write → Prop
  | .insertEntity e => validateEntity e = .ok () → s.outcomes.head?.join = none →
      s.db.entitySeq < i64Max → s.outcomes.tail.head?.join = none
  | .bulkInsertEntities config entries =>
      firstChunk config entries = [] ∨ ChunkFails s (firstChunk config entries)
  | .updateEntity e => 0 < e.id → validateEntity e = .ok () → s.outcomes.head?.join = none →
      ∀ old ∈ s.db.entities, old.id = e.id →
        old.kind = e.kind ∨ (e.id, old.kind) ∈ given ∧ (e.id, e.kind) ∈ given
  | .deleteEntity id => s.outcomes.head?.join = none → id ∉ s.db.allEntityIds
  | .addLabel id _ => s.outcomes.head?.join = none → id ∈ s.db.allEntityIds
  | _ => True

/-- The writes that the label table follows. -/
def Session.Write.onEntities : Session.Write → Bool
  | .insertEntity _ | .insertEntitiesBulk _ | .bulkInsertEntities _ _ | .updateEntity _
  | .deleteEntity _ | .addLabel _ _ => true
  | _ => false

/-- The labels given to entities, with those of a write that succeeds. -/
def givenAfter (s : Session) (given : List (Int64 × String)) : Session.Write → List (Int64 × String)
  | .addLabel id label =>
    match (Session.addLabel id label s).1 with
    | .ok _ => given ++ [(id, label)]
    | .error _ => given
  | _ => given

/-- A run of such writes over a new graph, each of which `ok` allows. -/
inductive LabelRun (ok : Session → List (Int64 × String) → Session.Write → Prop)
    (outcomes : List (Option String)) : Session → List (Int64 × String) → Prop
  | start : LabelRun ok outcomes (.open outcomes) []
  | write {s given} (w : Session.Write) : LabelRun ok outcomes s given → w.onEntities → ok s given w →
      LabelRun ok outcomes (s.write w) (givenAfter s given w)

end Kept

namespace Session

section Entities
variable {given : List (Int64 × String)} {s s' : Session}

theorem kind_ne_of_valid {e : GraphEntity} (h : validateEntity e = .ok ()) : e.kind ≠ "" := by
  intro he
  rw [validateEntity, he] at h
  simp [isBlank] at h

theorem mirror_insertEntityAndLabel {e : GraphEntity} {id : Int64} (hv : validateEntity e = .ok ())
    (hm : LabelMirror s.db given) (h : insertEntityAndLabel e s = (.ok id, s')) :
    LabelMirror s'.db given := by
  obtain ⟨id', t, hrow, h⟩ := StoreM.bind_eq_ok h
  obtain ⟨-, db, hrow, ht⟩ := execute_ok hrow
  rw [if_neg (kind_ne_of_valid hv)] at h
  obtain ⟨u, t', hlabel, h⟩ := StoreM.bind_eq_ok h
  cases h
  rw [(run_ok hlabel).2, ht]
  exact hm.insert hrow

theorem mirror_forEach {entities : List GraphEntity} {ids : List Int64}
    (hv : ∀ e ∈ entities, validateEntity e = .ok ()) (hm : LabelMirror s.db given)
    (h : forEach insertEntityAndLabel entities s = (.ok ids, s')) : LabelMirror s'.db given := by
  induction entities generalizing s ids with
  | nil =>
    cases h
    exact hm
  | cons e entities ih =>
    obtain ⟨id, t, hr, h⟩ := StoreM.bind_eq_ok h
    obtain ⟨ids', t', hrest, h⟩ := StoreM.bind_eq_ok h
    cases h
    have hm := mirror_insertEntityAndLabel (hv e List.mem_cons_self) hm hr
    exact ih (fun e he => hv e (List.mem_cons_of_mem _ he)) hm hrest

theorem mirror_insertEntitiesBulk (entities : List GraphEntity) (hm : LabelMirror s.db given) :
    LabelMirror (insertEntitiesBulk entities s).2.db given := by
  rw [insertEntitiesBulk]
  split
  · exact hm
  have hcheck : ∀ e, (StoreM.ofExcept (validateEntity e) s).2 = s := fun _ => rfl
  obtain ⟨hs, hvalid⟩ := forEach_checks hcheck entities
  cases hc : forEach (fun e => StoreM.ofExcept (validateEntity e)) entities s with
  | mk r t =>
    rw [hc] at hs hvalid
    subst hs
    cases r with
    | error e =>
      rw [StoreM.bind_error _ hc]
      exact hm
    | ok us =>
      rw [StoreM.bind_ok _ hc]
      cases hb : begin t with
      | mk r t' =>
        cases r with
        | error e =>
          rw [StoreM.bind_error _ hb, begin_error hb]
          exact hm
        | ok u =>
          have hroll := rollback_inside
            (inside_forEach inside_insertEntityAndLabel entities) hb
          obtain ⟨-, -, ht'⟩ := begin_ok hb
          rw [StoreM.bind_ok _ hb, StoreM.attempt_bind_run]
          cases hr : forEach insertEntityAndLabel entities t' with
          | mk r t'' =>
            rw [hr] at hroll
            cases r with
            | error e =>
              change LabelMirror (rollback t'').2.db given
              rw [hroll.1]
              exact hm
            | ok ids =>
              have hm' : LabelMirror t''.db given := by
                apply mirror_forEach _ _ hr
                · intro e he
                  obtain ⟨u, hu⟩ := hvalid us rfl e he
                  exact (Prod.mk.inj hu).1
                · rw [ht']
                  exact hm
              cases hco : commit t'' with
              | mk r t''' =>
                cases r with
                | error e =>
                  simp only [StoreM.bind_error _ hco, commit_error hco]
                  exact hm'
                | ok u =>
                  simp only [StoreM.bind_ok _ hco, (commit_ok hco).2]
                  exact hm'

theorem mirror_insertEntity {e : GraphEntity} (hm : LabelMirror s.db given)
    (hk : LabelsKept s given (.insertEntity e)) : LabelMirror (insertEntity e s).2.db given := by
  cases hv : validateEntity e with
  | error err =>
    rw [insertEntity, hv]
    exact hm
  | ok u =>
    rw [insertEntity, hv, StoreM.ofExcept_ok_bind_run]
    cases hr : insertEntityAndLabel e s with
    | mk r s' =>
      cases r with
      | ok id => exact mirror_insertEntityAndLabel hv hm hr
      | error err =>
        -- only the row of the entity itself may have failed
        rw [insertEntityAndLabel] at hr
        cases hrow : execute (·.insertEntityRow e) s with
        | mk r t =>
          cases r with
          | error err' =>
            rw [StoreM.bind_error _ hrow] at hr
            cases hr
            rw [execute_error hrow]
            exact hm
          | ok id =>
            obtain ⟨ho, db, hdb, rfl⟩ := execute_ok hrow
            have ho' := hk hv ho (insertEntityRow_ok hdb).1
            rw [StoreM.bind_ok _ hrow, if_neg (kind_ne_of_valid hv)] at hr
            have hlabel : run (·.insertLabelOrIgnore id e.kind)
                { s with db, outcomes := s.outcomes.tail } = (.ok (), { s with
                  db := db.insertLabelOrIgnore id e.kind, outcomes := s.outcomes.tail.tail }) := by
              rw [run, execute]
              simp only [ho']
            rw [StoreM.bind_ok _ hlabel] at hr
            cases hr

theorem mirror_updateEntity {e : GraphEntity} (hm : LabelMirror s.db given)
    (hk : LabelsKept s given (.updateEntity e)) : LabelMirror (updateEntity e s).2.db given := by
  rw [updateEntity]
  split
  · exact hm
  rename_i hid
  cases hv : validateEntity e with
  | error err => exact hm
  | ok u =>
    rw [StoreM.ofExcept_ok_bind_run]
    cases hr : execute (fun db => .ok (db.updateEntityRow e)) s with
    | mk r t =>
      cases r with
      | error err =>
        rw [StoreM.bind_error _ hr, execute_error hr]
        exact hm
      | ok affected =>
        obtain ⟨ho, db, hdb, rfl⟩ := execute_ok hr
        have hdb : db = (s.db.updateEntityRow e).2 := by
          rw [Except.ok.injEq] at hdb
          exact (congrArg Prod.snd hdb).symm
        rw [StoreM.bind_ok _ hr, hdb]
        have hm' := hm.update (hk (Int64.not_le.mp hid) hv ho)
        split <;> exact hm'

theorem mirror_deleteEntity {id : Int64} (hm : LabelMirror s.db given)
    (hk : LabelsKept s given (.deleteEntity id)) : LabelMirror (deleteEntity id s).2.db given := by
  rw [deleteEntity]
  cases hr : execute (fun db => .ok (db.deleteEntityRow id)) s with
  | mk r t =>
    cases r with
    | error err =>
      rw [StoreM.bind_error _ hr, execute_error hr]
      exact hm
    | ok affected =>
      obtain ⟨ho, db, hdb, rfl⟩ := execute_ok hr
      rw [deleteEntityRow_absent (hk ho)] at hdb
      cases hdb
      rw [StoreM.bind_ok _ hr]
      exact hm

theorem mirror_addLabel {id : Int64} {label : String} (hm : LabelMirror s.db given)
    (hk : LabelsKept s given (.addLabel id label)) :
    LabelMirror (addLabel id label s).2.db (givenAfter s given (.addLabel id label)) := by
  rw [givenAfter, addLabel]
  cases hr : run (·.insertLabelOrIgnore id label) s with
  | mk r t =>
    cases r with
    | error err =>
      rw [execute_error hr]
      exact hm
    | ok u =>
      obtain ⟨ho, rfl⟩ := run_ok hr
      exact hm.give (hk ho) label

end Entities

section Bulk
variable {given : List (Int64 × String)} {s s' : Session}

/-- Each row has had an id. -/
theorem insertRows_seq {db db' : Database} {chunk : List GraphEntity}
    (h : Accepted validateEntity (fun entry _ db => db.insertEntityRow entry) db chunk db') :
    db'.entitySeq = db.entitySeq + chunk.length ∧ (chunk ≠ [] → db'.entitySeq ≤ i64Max) := by
  induction h with
  | nil => simp
  | cons _ hrow hrest ih =>
    obtain ⟨hlt, rfl⟩ := insertEntityRow_ok hrow
    obtain ⟨hseq, hmax⟩ := ih
    refine ⟨by simp only [hseq, List.length_cons]; omega, ?_⟩
    intro _
    cases hrest with
    | nil => exact Int.add_one_le_iff.mpr hlt
    | cons _ _ _ => exact hmax (by simp)

theorem chunk_commits {chunk : List GraphEntity} {ids : List Int64} (hne : chunk ≠ [])
    (h : transactionGuard (do
      let ids ← forEach (fun entry => do
        StoreM.ofExcept (validateEntity entry)
        execute (·.insertEntityRow entry)) chunk
      checkFault
      pure ids) s = (.ok ids, s')) : ¬ ChunkFails s chunk := by
  obtain ⟨ho, htxn, -, t, hf, hcommit, -, -⟩ := transactionGuard_ok h
  obtain ⟨ids', t', hrows, hf⟩ := StoreM.bind_eq_ok hf
  rw [checkFault] at hf
  obtain ⟨u, t'', hrun, hf⟩ := StoreM.bind_eq_ok hf
  cases hf
  obtain ⟨hfault, rfl⟩ := run_ok hrun
  obtain ⟨hacc, houts, hdrop⟩ := forEach_ok hrows
  obtain ⟨hseq, hmax⟩ := insertRows_seq hacc
  rintro (htxn' | ⟨e, he, hne'⟩ | hfull | ⟨i, hi, hfail⟩)
  · simp [htxn] at htxn'
  · obtain ⟨u, hu⟩ := hacc.checked e he
    exact hne' hu
  · have hmax := hmax hne
    rw [hseq] at hmax
    exact absurd hmax (by simpa using hfull)
  · -- the statements in their order: the first, the rows, the fault check and the commit
    have hnone : s.outcomes[i]?.join = none := by
      rcases Nat.lt_or_ge i (chunk.length + 1) with hlt | hge
      · cases i with
        | zero => rwa [← List.head?_eq_getElem?]
        | succ i => simpa using houts i (by omega)
      · rcases Nat.lt_or_ge i (chunk.length + 2) with hlt | hge'
        · have hi : i = chunk.length + 1 := by omega
          simpa [hdrop, List.head?_eq_getElem?, hi] using hfault
        · have hi : i = chunk.length + 2 := by omega
          simpa [hdrop, List.head?_eq_getElem?, hi] using hcommit
    simp [hnone] at hfail

theorem chunk_fails {chunk : List GraphEntity} (hne : chunk ≠ []) (hf : ChunkFails s chunk) :
    ∃ e t, transactionGuard (do
      let ids ← forEach (fun entry => do
        StoreM.ofExcept (validateEntity entry)
        execute (·.insertEntityRow entry)) chunk
      checkFault
      pure ids) s = (.error e, t) ∧ t.db = s.db := by
  cases hr : transactionGuard (do
      let ids ← forEach (fun entry => do
        StoreM.ofExcept (validateEntity entry)
        execute (·.insertEntityRow entry)) chunk
      checkFault
      pure ids) s with
  | mk r t =>
    cases r with
    | ok ids => exact absurd hf (chunk_commits hne hr)
    | error e => exact ⟨e, t, rfl, (transactionGuard_error (inside_insertChunk chunk) hr).1⟩

theorem mirror_bulkInsertEntities {config : BatchConfig} {entries : List GraphEntity}
    (hm : LabelMirror s.db given) (hk : LabelsKept s given (.bulkInsertEntities config entries)) :
    LabelMirror (bulkInsertEntities config entries s).2.db given := by
  cases entries with
  | nil => exact hm
  | cons entry entries =>
    rw [bulkInsertEntities, List.isEmpty_cons, if_neg (by simp), executeBatch]
    simp only [LabelsKept, firstChunk] at hk
    split
    · rename_i hone
      rw [if_pos hone] at hk
      obtain ⟨e, t, hr, hdb⟩ := chunk_fails (by simp) (hk.resolve_left (by simp))
      rw [hr, hdb]
      exact hm
    · rename_i hmany
      rw [if_neg hmany] at hk
      split
      · exact hm
      · rename_i hsize
        have hne : (entry :: entries).take config.maxBatchSize ≠ [] := by simp [hsize]
        obtain ⟨e, t, hr, hdb⟩ := chunk_fails hne (hk.resolve_left hne)
        rw [List.length_cons, chunks, forEach, StoreM.bind_error _ (StoreM.bind_error _ hr), hdb]
        exact hm

end Bulk

end Session

section Runs
variable {given : List (Int64 × String)} {s : Session} {outcomes : List (Option String)}

theorem labelMirror_write (w : Session.Write) (hw : w.onEntities) (hm : LabelMirror s.db given)
    (hk : LabelsKept s given w) : LabelMirror (s.write w).db (givenAfter s given w) := by
  cases w with
  | insertEntity entity => exact Session.mirror_insertEntity hm hk
  | insertEntitiesBulk entities => exact Session.mirror_insertEntitiesBulk entities hm
  | bulkInsertEntities config entries => exact Session.mirror_bulkInsertEntities hm hk
  | updateEntity entity => exact Session.mirror_updateEntity hm hk
  | deleteEntity id => exact Session.mirror_deleteEntity hm hk
  | addLabel entityId label => exact Session.mirror_addLabel hm hk
  | addProperty | insertEdge | insertEdgesBulk | bulkInsertEdges | deleteEdge | loadGraph =>
    simp [Session.Write.onEntities] at hw

theorem labelMirror_run (h : LabelRun LabelsKept outcomes s given) : LabelMirror s.db given := by
  induction h with
  | start => exact ⟨Database.rowIds_empty, List.nodup_nil, by simp, by
      simp [Session.open, Database.empty, Labelled]⟩
  | write w _ hw hk ih => exact labelMirror_write w hw ih hk

/-- The label table agrees with the entities as long as no write leaves it behind. -/
theorem label_table_agrees (h : LabelRun LabelsKept outcomes s given) : LabelsAgree s.db given :=
  (labelMirror_run h).agree

end Runs

section Examples

def oneUser : Session.Write := .insertEntity ⟨0, "User", "ann", none, .null⟩

/-- A user is inserted, given a label, and renamed. -/
theorem label_table_agrees_oneUser :
    LabelsAgree ([oneUser, .addLabel 1 "Admin", .updateEntity ⟨1, "User", "bob", none, .null⟩].foldl
      Session.write (.open [])).db [(1, "Admin")] := by
  have h₁ : LabelRun LabelsKept [] _ _ := .write oneUser .start rfl fun _ _ _ => rfl
  have h₂ := LabelRun.write (.addLabel 1 "Admin") h₁ rfl fun _ => by decide +kernel
  have h₃ := LabelRun.write (.updateEntity ⟨1, "User", "bob", none, .null⟩) h₂ rfl
    fun _ _ _ => by decide +kernel
  exact label_table_agrees h₃

/-- A deleted user keeps the label of its kind. -/
theorem not_label_table_agrees : ¬ ∀ (outcomes : List (Option String)) (s : Session)
    (given : List (Int64 × String)), LabelRun (fun _ _ _ => True) outcomes s given →
      LabelsAgree s.db given := by
  intro h
  have h₁ : LabelRun (fun _ _ _ => True) [] _ _ := .write oneUser .start rfl trivial
  have h₂ := LabelRun.write (.deleteEntity 1) h₁ rfl trivial
  obtain ⟨e, he, -⟩ := ((h [] _ _ h₂).accepted "User" 1).mp (by decide +kernel)
  have hnone : ([oneUser, .deleteEntity 1].foldl Session.write (.open [])).db.entities.length = 0 := by
    decide +kernel
  exact absurd he.1 (List.eq_nil_of_length_eq_zero hnone ▸ List.not_mem_nil)

end Examples

end SqliteGraph.Sqlite
