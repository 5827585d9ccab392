import SqliteGraph.Sqlite.Transactions

/-! When a chunk of a bulk insertion goes through, and what it adds to the tables. -/
namespace SqliteGraph.Sqlite
open Lib

namespace Database

def appendEntity (db : Database) (e : GraphEntity) : Database :=
  { db with
    entities := db.entities ++ [{ e with id := Int64.ofInt (db.entitySeq + 1) }]
    entitySeq := db.entitySeq + 1 }

def appendEdge (db : Database) (e : EdgeRow) : Database :=
  { db with edges := db.edges ++ [{ e with id := db.edgeSeq + 1 }], edgeSeq := db.edgeSeq + 1 }

theorem insertEntityRow_of_lt {db : Database} (e : GraphEntity) (h : db.entitySeq < i64Max) :
    db.insertEntityRow e = .ok (Int64.ofInt (db.entitySeq + 1), db.appendEntity e) := by
  rw [insertEntityRow, if_neg (not_le.mpr h)]
  rfl

theorem insertEdgeRow_of_lt {db : Database} (e : EdgeRow) (h : db.edgeSeq < i64Max) :
    db.insertEdgeRow e = .ok (db.edgeSeq + 1, db.appendEdge e) := by
  rw [insertEdgeRow, if_neg (not_le.mpr h)]
  rfl

@[simp] theorem foldl_appendEntity_entitySeq (es : List GraphEntity) (db : Database) :
    (es.foldl appendEntity db).entitySeq = db.entitySeq + es.length := by
  induction es generalizing db with
  | nil => simp
  | cons e es ih =>
    rw [List.foldl_cons, ih, List.length_cons, appendEntity]
    push_cast
    omega

@[simp] theorem foldl_appendEntity_length (es : List GraphEntity) (db : Database) :
    (es.foldl appendEntity db).entities.length = db.entities.length + es.length := by
  induction es generalizing db with
  | nil => rfl
  | cons e es ih =>
    rw [List.foldl_cons, ih, List.length_cons, appendEntity, List.length_append]
    simp only [List.length_singleton]
    omega

@[simp] theorem foldl_appendEdge_edgeSeq (es : List EdgeRow) (db : Database) :
    (es.foldl appendEdge db).edgeSeq = db.edgeSeq + es.length := by
  induction es generalizing db with
  | nil => simp
  | cons e es ih =>
    rw [List.foldl_cons, ih, List.length_cons, appendEdge]
    push_cast
    omega

@[simp] theorem foldl_appendEdge_entities (es : List EdgeRow) (db : Database) :
    (es.foldl appendEdge db).entities = db.entities := by
  induction es generalizing db with
  | nil => rfl
  | cons e es ih => exact ih (db.appendEdge e)

/-- Which edges there are now, without their ids and data. -/
@[simp] theorem foldl_appendEdge_specs (es : List EdgeRow) (db : Database) :
    (es.foldl appendEdge db).edges.map (·.toEdgeSpec) =
      db.edges.map (·.toEdgeSpec) ++ es.map (·.toEdgeSpec) := by
  induction es generalizing db with
  | nil => simp
  | cons e es ih =>
    rw [List.foldl_cons, ih, appendEdge]
    simp

/-- The query that counts the ends of an edge finds both. -/
abbrev EndpointsExist (db : Database) (e : EdgeSpec) : Prop :=
  2 ≤ db.entities.countP fun row => row.id = e.fromId ∨ row.id = e.toId

end Database

namespace Session

section Statements
variable {α : Type} {s : Session}

/-- The work on a chunk: a transaction that a fault may stop before its `COMMIT`. -/
def guarded (f : SessionM α) : SessionM α := transactionGuard do
  let a ← f
  checkFault
  pure a

theorem guarded_run {f : SessionM α} {a : α} {n : Nat} {db : Database}
    (ho : Unfailed s.outcomes (n + 3)) (ht : s.txn = none)
    (hf : f { s with txn := some s.db, outcomes := s.outcomes.tail } =
      (.ok a, { s with db, txn := some s.db, outcomes := s.outcomes.tail.drop n })) :
    guarded f s = (.ok a, ⟨db, none, s.outcomes.drop (n + 3), .empty⟩) := by
  obtain ⟨hbegin, hrest⟩ := unfailed_succ.mp ho
  obtain ⟨-, hrest⟩ := unfailed_add.mp hrest
  obtain ⟨hfault, hrest⟩ := unfailed_succ.mp hrest
  obtain ⟨hcommit, -⟩ := unfailed_succ.mp hrest
  have hwork : (do let a ← f; checkFault; pure a : SessionM α)
      { s with txn := some s.db, outcomes := s.outcomes.tail } =
      (.ok a, { s with db, txn := some s.db, outcomes := (s.outcomes.tail.drop n).tail }) := by
    rw [StoreM.bind_ok _ hf, StoreM.bind_ok _ (checkFault_run hfault)]
    rfl
  have hdrop : (s.outcomes.tail.drop n).tail.tail = s.outcomes.drop (n + 3) := by
    simp only [← List.drop_one, List.drop_drop]
    congr 1
    omega
  rw [guarded, transactionGuard_run hbegin ht hwork rfl hcommit, ← hdrop]

theorem guarded_ok {f : SessionM α} {a : α} {s' : Session} (h : guarded f s = (.ok a, s')) :
    s.txn = none ∧ s.outcomes.head?.join = none ∧
      ∃ t, f { s with txn := some s.db, outcomes := s.outcomes.tail } = (.ok a, t) ∧
        Unfailed t.outcomes 2 := by
  obtain ⟨ho, ht, -, t, hwork, hcommit, -, -⟩ := transactionGuard_ok h
  obtain ⟨b, t', hf, hwork⟩ := StoreM.bind_eq_ok hwork
  obtain ⟨u, t'', hfault, hwork⟩ := StoreM.bind_eq_ok hwork
  obtain ⟨hhead, rfl⟩ := run_ok hfault
  cases hwork
  exact ⟨ht, ho, t', hf, unfailed_succ.mpr ⟨hhead, unfailed_one.mpr hcommit⟩⟩

theorem guarded_error {f : SessionM α} {e : SqliteGraphError} {s' : Session} (hf : Inside f)
    (h : guarded f s = (.error e, s')) : s'.db = s.db := by
  have hwork : Inside (do let a ← f; checkFault; pure a : SessionM α) :=
    .bind hf fun _ => .bind (inside_execute _) fun _ => .pure
  exact (transactionGuard_error hwork h).1

end Statements

section Entities
variable {s s' : Session} {c : List GraphEntity} {e : GraphEntity}

def insertEntry (entry : GraphEntity) : SessionM Int64 := do
  StoreM.ofExcept (validateEntity entry)
  execute (·.insertEntityRow entry)

theorem accepted_entities {db : Database} (hv : ∀ e ∈ c, validateEntity e = .ok ())
    (hseq : db.entitySeq + c.length ≤ i64Max) :
    Accepted validateEntity (fun e _ db => db.insertEntityRow e) db c
      (c.foldl Database.appendEntity db) := by
  induction c generalizing db with
  | nil => exact .nil
  | cons e c ih =>
    obtain ⟨he, hv⟩ := List.forall_mem_cons.mp hv
    simp only [List.length_cons, Nat.cast_add, Nat.cast_one] at hseq
    refine .cons he (db.insertEntityRow_of_lt e (by omega)) (ih hv ?_)
    simp only [Database.appendEntity]
    omega

theorem Accepted.entitySeq_le {db db' : Database} (hc : c ≠ [])
    (h : Accepted validateEntity (fun e _ db => db.insertEntityRow e) db c db') :
    db.entitySeq + c.length ≤ i64Max := by
  induction h with
  | nil => exact absurd rfl hc
  | @cons db db' db'' e c b id _ hrow _ ih =>
    obtain ⟨hlt, rfl⟩ := insertEntityRow_ok hrow
    rcases eq_or_ne c [] with rfl | hne
    · simpa using hlt
    · have hle := ih hne
      simp only [List.length_cons] at hle ⊢
      push_cast
      omega

/-- The chunks go through: one after the other, each between a `BEGIN` and a fault check and a `COMMIT`. -/
structure EntitiesPass (s : Session) (cs : List (List GraphEntity)) : Prop where
  txn : s.txn = none
  valid : ∀ c ∈ cs, ∀ e ∈ c, validateEntity e = .ok ()
  unfailed : Unfailed s.outcomes (cs.map fun c => c.length + 3).sum
  room : s.db.entitySeq + (cs.map List.length).sum ≤ i64Max

theorem entitiesPass_one : EntitiesPass s [c] ↔ s.txn = none ∧ (∀ e ∈ c, validateEntity e = .ok ()) ∧
    Unfailed s.outcomes (c.length + 3) ∧ s.db.entitySeq + c.length ≤ i64Max := by
  constructor
  · rintro ⟨ht, hv, ho, hr⟩
    exact ⟨ht, by simpa using hv, by simpa using ho, by simpa using hr⟩
  · rintro ⟨ht, hv, ho, hr⟩
    exact ⟨ht, by simpa using hv, by simpa using ho, by simpa using hr⟩

/-- The session after a chunk. -/
def afterEntities (s : Session) (c : List GraphEntity) : Session :=
  ⟨c.foldl Database.appendEntity s.db, none, s.outcomes.drop (c.length + 3), .empty⟩

theorem guarded_insertEntries_run (h : EntitiesPass s [c]) :
    ∃ ids, guarded (forEach insertEntry c) s = (.ok ids, s.afterEntities c) := by
  obtain ⟨ht, hv, ho, hr⟩ := entitiesPass_one.mp h
  obtain ⟨-, hrest⟩ := unfailed_succ.mp ho
  obtain ⟨hrows, -⟩ := unfailed_add.mp hrest
  have hrun := forEach_run (s := { s with txn := some s.db, outcomes := s.outcomes.tail })
    (accepted_entities hv hr) hrows
  obtain ⟨ids, hids⟩ := hrun
  exact ⟨ids, guarded_run ho ht hids⟩

theorem guarded_insertEntries_ok {ids : List Int64} (hc : c ≠ [])
    (h : guarded (forEach insertEntry c) s = (.ok ids, s')) : EntitiesPass s [c] := by
  obtain ⟨ht, ho, t, hids, hout⟩ := guarded_ok h
  obtain ⟨hacc, hrows, hdrop⟩ := forEach_ok (f := fun e _ db => db.insertEntityRow e) hids
  refine entitiesPass_one.mpr ⟨ht, fun e he => ?_, unfailed_succ.mpr ⟨ho, ?_⟩, hacc.entitySeq_le hc⟩
  · obtain ⟨u, hu⟩ := hacc.checked e he
    exact hu
  · rw [hdrop] at hout
    exact unfailed_add.mpr ⟨hrows, hout⟩

theorem entitiesPass_cons {c' : List GraphEntity} {cs : List (List GraphEntity)}
    (h : EntitiesPass s [c]) :
    EntitiesPass s (c :: c' :: cs) ↔ EntitiesPass (s.afterEntities c) (c' :: cs) := by
  obtain ⟨ht, hv, ho, hr⟩ := entitiesPass_one.mp h
  have hseq : (s.afterEntities c).db.entitySeq = s.db.entitySeq + c.length :=
    Database.foldl_appendEntity_entitySeq c s.db
  constructor
  · rintro ⟨-, hvalid, hout, hroom⟩
    rw [List.map_cons, List.sum_cons] at hout hroom
    refine ⟨rfl, (List.forall_mem_cons.mp hvalid).2, (unfailed_add.mp hout).2, ?_⟩
    rw [hseq]
    push_cast at hroom ⊢
    omega
  · rintro ⟨-, hvalid, hout, hroom⟩
    refine ⟨ht, List.forall_mem_cons.mpr ⟨hv, hvalid⟩, unfailed_add.mpr ⟨ho, hout⟩, ?_⟩
    rw [List.map_cons, List.sum_cons]
    rw [hseq] at hroom
    push_cast at hroom ⊢
    omega

end Entities

section Edges
variable {s s' : Session} {c : List EdgeRow} {seen : List EdgeSpec}

/-- The entries of a chunk that stand for an edge not seen before them. -/
def unseen : List EdgeSpec → List EdgeRow → List EdgeRow
  | _, [] => []
  | seen, e :: c =>
    if e.toEdgeSpec ∈ seen then unseen seen c else e :: unseen (e.toEdgeSpec :: seen) c

theorem validateEndpointsExist_run {fromId toId : Int64} :
    validateEndpointsExist fromId toId s =
      if 2 ≤ s.db.entities.countP (fun e => e.id = fromId ∨ e.id = toId) then (.ok (), s)
      else (.error (.invalidInput "edge endpoints must exist"), s) := by
  rw [validateEndpointsExist, StoreM.get_bind_run]
  split
  · rename_i hlt
    rw [if_neg (by omega)]
    rfl
  · rename_i hle
    rw [if_pos (by omega)]
    rfl

theorem insertUnseen_run (hv : ∀ e ∈ c, validateEdge e.toEdgeSpec = .ok ())
    (he : ∀ e ∈ c, s.db.EndpointsExist e.toEdgeSpec)
    (ho : Unfailed s.outcomes (unseen seen c).length)
    (hseq : s.db.edgeSeq + (unseen seen c).length ≤ i64Max) :
    ∃ ids, insertUnseen seen c s = (.ok ids, { s with
      db := (unseen seen c).foldl Database.appendEdge s.db
      outcomes := s.outcomes.drop (unseen seen c).length }) := by
  induction c generalizing s seen with
  | nil => exact ⟨[], rfl⟩
  | cons e c ih =>
    obtain ⟨hve, hv⟩ := List.forall_mem_cons.mp hv
    obtain ⟨hee, he⟩ := List.forall_mem_cons.mp he
    rw [insertUnseen, hve, StoreM.ofExcept_ok_bind_run]
    by_cases hin : e.toEdgeSpec ∈ seen
    · rw [unseen, if_pos hin] at ho hseq ⊢
      rw [if_pos hin]
      exact ih hv he ho hseq
    · rw [unseen, if_neg hin] at ho hseq ⊢
      rw [if_neg hin]
      obtain ⟨hhead, htail⟩ := unfailed_succ.mp ho
      simp only [List.length_cons, Nat.cast_add, Nat.cast_one] at hseq
      have hends : validateEndpointsExist e.fromId e.toId s = (.ok (), s) := by
        rw [validateEndpointsExist_run, if_pos hee]
      have hrow := execute_run (f := (·.insertEdgeRow e)) hhead
        (s.db.insertEdgeRow_of_lt e (by omega))
      obtain ⟨ids, hids⟩ := @ih
        { s with db := s.db.appendEdge e, outcomes := s.outcomes.tail } (e.toEdgeSpec :: seen)
        hv he htail
        (by simp only [Database.appendEdge]; omega)
      refine ⟨(s.db.edgeSeq + 1) :: ids, ?_⟩
      rw [StoreM.bind_ok _ hends, StoreM.bind_ok _ hrow, StoreM.bind_ok _ hids]
      simp

/-- What a chunk's work has found when it succeeds. -/
structure ChunkTaken (s s' : Session) (seen : List EdgeSpec) (c : List EdgeRow) : Prop where
  valid : ∀ e ∈ c, validateEdge e.toEdgeSpec = .ok ()
  ends : ∀ e ∈ c, s.db.EndpointsExist e.toEdgeSpec
  unfailed : Unfailed s.outcomes (unseen seen c).length
  outcomes : s'.outcomes = s.outcomes.drop (unseen seen c).length
  room : unseen seen c ≠ [] → s.db.edgeSeq + (unseen seen c).length ≤ i64Max

theorem insertUnseen_ok {ids : List Int} (hseen : ∀ e ∈ seen, s.db.EndpointsExist e)
    (h : insertUnseen seen c s = (.ok ids, s')) : ChunkTaken s s' seen c := by
  induction c generalizing s seen ids with
  | nil =>
    cases h
    exact ⟨by simp, by simp, unfailed_zero, rfl, fun hne => absurd rfl hne⟩
  | cons e c ih =>
    obtain ⟨u, t, hve, h⟩ := StoreM.bind_eq_ok h
    rw [StoreM.ofExcept_run, Prod.mk.injEq] at hve
    obtain ⟨hve, rfl⟩ := hve
    by_cases hin : e.toEdgeSpec ∈ seen
    · rw [if_pos hin] at h
      obtain ⟨hv, he, ho, hdrop, hroom⟩ := ih hseen h
      have hun : unseen seen (e :: c) = unseen seen c := by rw [unseen, if_pos hin]
      exact ⟨List.forall_mem_cons.mpr ⟨hve, hv⟩, List.forall_mem_cons.mpr ⟨hseen _ hin, he⟩,
        hun ▸ ho, hun ▸ hdrop, hun ▸ hroom⟩
    · rw [if_neg hin] at h
      obtain ⟨u', t, hends, h⟩ := StoreM.bind_eq_ok h
      rw [validateEndpointsExist_run] at hends
      split at hends
      · rename_i hee
        cases hends
        obtain ⟨id, t, hrow, h⟩ := StoreM.bind_eq_ok h
        obtain ⟨hhead, db, hdb, rfl⟩ := execute_ok hrow
        obtain ⟨hlt, rfl⟩ := insertEdgeRow_ok hdb
        obtain ⟨ids', t, hrest, h⟩ := StoreM.bind_eq_ok h
        cases h
        have htaken := fun hs => ih hs hrest
        obtain ⟨hv, he, ho, hdrop, hroom⟩ := htaken (List.forall_mem_cons.mpr ⟨hee, hseen⟩)
        have hun : unseen seen (e :: c) = e :: unseen (e.toEdgeSpec :: seen) c := by
          rw [unseen, if_neg hin]
        refine ⟨List.forall_mem_cons.mpr ⟨hve, hv⟩, List.forall_mem_cons.mpr ⟨hee, he⟩, ?_, ?_, ?_⟩
        · rw [hun]
          exact unfailed_succ.mpr ⟨hhead, ho⟩
        · rw [hun, hdrop]
          simp
        · rw [hun]
          intro _
          rcases eq_or_ne (unseen (e.toEdgeSpec :: seen) c) [] with hnil | hne
          · simpa [hnil] using hlt
          · have hle := hroom hne
            simp only [List.length_cons] at hle ⊢
            push_cast
            omega
      · cases hends

theorem unseen_ne_nil (hc : c ≠ []) : unseen [] c ≠ [] := by
  obtain ⟨e, c, rfl⟩ := List.exists_cons_of_ne_nil hc
  simp [unseen]

/-- The chunks go through: each inserts every edge of it once, between a `BEGIN` and a fault check and a
`COMMIT`. -/
structure EdgesPass (s : Session) (cs : List (List EdgeRow)) : Prop where
  txn : s.txn = none
  valid : ∀ c ∈ cs, ∀ e ∈ c, validateEdge e.toEdgeSpec = .ok ()
  ends : ∀ c ∈ cs, ∀ e ∈ c, s.db.EndpointsExist e.toEdgeSpec
  unfailed : Unfailed s.outcomes (cs.map fun c => (unseen [] c).length + 3).sum
  room : s.db.edgeSeq + (cs.map fun c => (unseen [] c).length).sum ≤ i64Max

theorem edgesPass_one : EdgesPass s [c] ↔ s.txn = none ∧
    (∀ e ∈ c, validateEdge e.toEdgeSpec = .ok ()) ∧ (∀ e ∈ c, s.db.EndpointsExist e.toEdgeSpec) ∧
    Unfailed s.outcomes ((unseen [] c).length + 3) ∧
    s.db.edgeSeq + (unseen [] c).length ≤ i64Max := by
  constructor
  · rintro ⟨ht, hv, he, ho, hr⟩
    exact ⟨ht, by simpa using hv, by simpa using he, by simpa using ho, by simpa using hr⟩
  · rintro ⟨ht, hv, he, ho, hr⟩
    exact ⟨ht, by simpa using hv, by simpa using he, by simpa using ho, by simpa using hr⟩

/-- The session after a chunk. -/
def afterEdges (s : Session) (c : List EdgeRow) : Session :=
  ⟨(unseen [] c).foldl Database.appendEdge s.db, none, s.outcomes.drop ((unseen [] c).length + 3),
    .empty⟩

theorem guarded_insertUnseen_run (h : EdgesPass s [c]) :
    ∃ ids, guarded (insertUnseen [] c) s = (.ok ids, s.afterEdges c) := by
  obtain ⟨ht, hv, he, ho, hr⟩ := edgesPass_one.mp h
  obtain ⟨-, hrest⟩ := unfailed_succ.mp ho
  obtain ⟨hrows, -⟩ := unfailed_add.mp hrest
  obtain ⟨ids, hids⟩ := @insertUnseen_run { s with txn := some s.db, outcomes := s.outcomes.tail }
    c [] hv he hrows hr
  exact ⟨ids, guarded_run ho ht hids⟩

theorem guarded_insertUnseen_ok {ids : List Int} (hc : c ≠ [])
    (h : guarded (insertUnseen [] c) s = (.ok ids, s')) : EdgesPass s [c] := by
  obtain ⟨ht, ho, t, hids, hout⟩ := guarded_ok h
  obtain ⟨hv, he, hrows, hdrop, hroom⟩ := insertUnseen_ok (by simp) hids
  refine edgesPass_one.mpr ⟨ht, hv, he, unfailed_succ.mpr ⟨ho, ?_⟩, hroom (unseen_ne_nil hc)⟩
  rw [hdrop] at hout
  exact unfailed_add.mpr ⟨hrows, hout⟩

theorem edgesPass_cons {c' : List EdgeRow} {cs : List (List EdgeRow)} (h : EdgesPass s [c]) :
    EdgesPass s (c :: c' :: cs) ↔ EdgesPass (s.afterEdges c) (c' :: cs) := by
  obtain ⟨ht, hv, he, ho, hr⟩ := edgesPass_one.mp h
  have hents : (s.afterEdges c).db.entities = s.db.entities :=
    Database.foldl_appendEdge_entities _ _
  have hseq : (s.afterEdges c).db.edgeSeq = s.db.edgeSeq + (unseen [] c).length :=
    Database.foldl_appendEdge_edgeSeq _ _
  constructor
  · rintro ⟨-, hvalid, hends, hout, hroom⟩
    rw [List.map_cons, List.sum_cons] at hout hroom
    refine ⟨rfl, (List.forall_mem_cons.mp hvalid).2, ?_, (unfailed_add.mp hout).2, ?_⟩
    · intro d hd e hmem
      rw [Database.EndpointsExist, hents]
      exact (List.forall_mem_cons.mp hends).2 d hd e hmem
    · rw [hseq]
      push_cast at hroom ⊢
      omega
  · rintro ⟨-, hvalid, hends, hout, hroom⟩
    refine ⟨ht, List.forall_mem_cons.mpr ⟨hv, hvalid⟩, List.forall_mem_cons.mpr ⟨he, ?_⟩,
      unfailed_add.mpr ⟨ho, hout⟩, ?_⟩
    · intro d hd e hmem
      have hboth := hends d hd e hmem
      rwa [Database.EndpointsExist, hents] at hboth
    · rw [List.map_cons, List.sum_cons]
      rw [hseq] at hroom
      push_cast at hroom ⊢
      omega

end Edges

end Session

end SqliteGraph.Sqlite
