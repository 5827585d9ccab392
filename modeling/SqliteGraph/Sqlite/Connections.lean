import SqliteGraph.Sqlite.Database

/-! One handle of a file whose pool hands out its connections in any order. -/
namespace SqliteGraph.Sqlite

/-- A connection of the handle's own pool, or of another handle that has the file open. -/
inductive Connection
  | own (slot : Nat)
  | other (handle slot : Nat)
  deriving DecidableEq, Repr

/-- The file, and the last row id that each connection has inserted. -/
structure SharedFile where
  db : Database
  lastInsertRowid : Connection → Int

inductive RowInsert
  | entity (e : GraphEntity)
  | edge (e : EdgeRow)

structure OtherInsert where
  handle : Nat
  slot : Nat
  row : RowInsert

namespace SharedFile

/-- An `INSERT`, after which its connection remembers the new row. -/
def execute (s : SharedFile) (c : Connection) (row : RowInsert) :
    Except SqliteGraphError SharedFile :=
  match row with
  | .entity e => do
    let (id, db) ← s.db.insertEntityRow e
    return ⟨db, Function.update s.lastInsertRowid c id.toInt⟩
  | .edge e => do
    let (id, db) ← s.db.insertEdgeRow e
    return ⟨db, Function.update s.lastInsertRowid c id⟩

/-- An insert through another handle; one that fails changes nothing. -/
def other (s : SharedFile) (o : OtherInsert) : SharedFile :=
  match s.execute (.other o.handle o.slot) o.row with
  | .ok s => s
  | .error _ => s

def others (s : SharedFile) (os : List OtherInsert) : SharedFile := os.foldl other s

end SharedFile

/-- A call of `insert_edge`: the connections that its two last checkouts get, and what other handles
insert before the `INSERT` and before the row id is read. -/
structure EdgeCall where
  edge : EdgeRow
  first : Nat
  second : Nat
  before : List OtherInsert
  between : List OtherInsert

/-- `SqliteGraph::insert_edge`. -/
def EdgeCall.insertEdge (c : EdgeCall) (s : SharedFile) : Except SqliteGraphError Int × SharedFile :=
  match validateEdge c.edge.toEdgeSpec with
  | .error e => (.error e, s)
  | .ok () =>
    if !s.db.entityExists c.edge.fromId || !s.db.entityExists c.edge.toId then
      (.error (.invalidInput "edge endpoints must reference existing entities"), s)
    else
      let s := s.others c.before
      match s.execute (.own c.first) (.edge c.edge) with
      | .error e => (.error e, s)
      | .ok s =>
        let s := s.others c.between
        (.ok (s.lastInsertRowid (.own c.second)), s)

inductive FileAction
  | call (c : EdgeCall)
  | other (o : OtherInsert)

/-- Every call of a run finds the file in a state that meets the condition. -/
def AtEveryCall (P : EdgeCall → SharedFile → Prop) : SharedFile → List FileAction → Prop
  | _, [] => True
  | s, .call c :: actions => P c s ∧ AtEveryCall P (c.insertEdge s).2 actions
  | s, .other o :: actions => AtEveryCall P (s.other o) actions

/-- A call that returns an id has added the row with that id, and `get_edge` finds it there. -/
def EdgeCall.ReturnsOwnRow (c : EdgeCall) (s : SharedFile) : Prop :=
  ∀ id s', c.insertEdge s = (.ok id, s') →
    (∃ t, (s.others c.before).execute (.own c.first) (.edge c.edge) = .ok t ∧
      t.db.edges = (s.others c.before).db.edges ++ [{ c.edge with id }]) ∧
    s'.db.getEdge id = .ok { c.edge with id }

/-- The checks that a call makes let it insert its row. -/
def EdgeCall.Accepted (c : EdgeCall) (s : SharedFile) : Prop :=
  validateEdge c.edge.toEdgeSpec = .ok () ∧ s.db.entityExists c.edge.fromId ∧
    s.db.entityExists c.edge.toId ∧ (s.others c.before).db.edgeSeq < i64Max

/-- The row id is read from the connection that has inserted the row, or from one that happens to
remember the same number. -/
def EdgeCall.ReadsItsRow (c : EdgeCall) (s : SharedFile) : Prop :=
  c.Accepted s → c.second = c.first ∨
    s.lastInsertRowid (.own c.second) = (s.others c.before).db.edgeSeq + 1

/-- What `AUTOINCREMENT` promises: no row has an id that the sequence has not reached. -/
def Database.SeqCovers (db : Database) : Prop := ∀ e ∈ db.edges, e.id ≤ db.edgeSeq

namespace SharedFile
variable {s s' : SharedFile} {c : Connection} {row : RowInsert} {o : OtherInsert}

/-- An insert adds rows under ids that the sequence had not reached. -/
theorem execute_cases (h : s.execute c row = .ok s') :
    ∃ rows, s'.db.edges = s.db.edges ++ rows ∧ s.db.edgeSeq ≤ s'.db.edgeSeq ∧
      (∀ e ∈ rows, s.db.edgeSeq < e.id ∧ e.id ≤ s'.db.edgeSeq) ∧
      ∃ id, s'.lastInsertRowid = Function.update s.lastInsertRowid c id := by
  cases row with
  | entity e =>
    rw [execute, Database.insertEntityRow] at h
    split at h
    · cases h
    · cases h
      exact ⟨[], by simp, le_refl _, by simp, _, rfl⟩
  | edge e =>
    rw [execute, Database.insertEdgeRow] at h
    split at h
    · cases h
    · cases h
      refine ⟨_, rfl, ?_, ?_, _, rfl⟩
      · simp
      · simp

/-- The file after an edge was inserted through a connection. -/
def withEdge (s : SharedFile) (c : Connection) (e : EdgeRow) : SharedFile where
  db := { s.db with
    edges := s.db.edges ++ [{ e with id := s.db.edgeSeq + 1 }]
    edgeSeq := s.db.edgeSeq + 1 }
  lastInsertRowid := Function.update s.lastInsertRowid c (s.db.edgeSeq + 1)

@[simp] theorem withEdge_lastInsertRowid {e : EdgeRow} : (s.withEdge c e).lastInsertRowid =
    Function.update s.lastInsertRowid c (s.db.edgeSeq + 1) := rfl

theorem execute_edge {e : EdgeRow} (hlt : s.db.edgeSeq < i64Max) :
    s.execute c (.edge e) = .ok (s.withEdge c e) := by
  rw [execute, Database.insertEdgeRow, if_neg (by omega)]
  rfl

/-- Other handles add rows and leave the handle's own connections alone. -/
theorem others_cases (os : List OtherInsert) :
    ∃ rows, (s.others os).db.edges = s.db.edges ++ rows ∧
      s.db.edgeSeq ≤ (s.others os).db.edgeSeq ∧
      (∀ e ∈ rows, s.db.edgeSeq < e.id ∧ e.id ≤ (s.others os).db.edgeSeq) ∧
      ∀ slot, (s.others os).lastInsertRowid (.own slot) = s.lastInsertRowid (.own slot) := by
  induction os generalizing s with
  | nil => exact ⟨[], by simp [others], le_refl _, by simp, fun _ => rfl⟩
  | cons o os ih =>
    rw [others, List.foldl_cons]
    cases hx : s.execute (.other o.handle o.slot) o.row with
    | error e =>
      have ho : s.other o = s := by rw [other, hx]
      rw [ho]
      exact ih
    | ok t =>
      have ho : s.other o = t := by rw [other, hx]
      rw [ho]
      obtain ⟨rows, hrows, hseq, hids, id, hlast⟩ := execute_cases hx
      obtain ⟨rows', hrows', hseq', hids', hlast'⟩ := ih (s := t)
      refine ⟨rows ++ rows', ?_, by exact hseq.trans hseq', ?_, ?_⟩
      · rw [← List.append_assoc, ← hrows]
        exact hrows'
      · intro e he
        rcases List.mem_append.mp he with he | he
        · exact ⟨(hids e he).1, (hids e he).2.trans hseq'⟩
        · exact ⟨hseq.trans_lt (hids' e he).1, (hids' e he).2⟩
      · intro slot
        refine (hlast' slot).trans ?_
        rw [hlast, Function.update_of_ne (by simp)]

theorem others_seqCovers (os : List OtherInsert) (h : s.db.SeqCovers) :
    (s.others os).db.SeqCovers := by
  obtain ⟨rows, hrows, hseq, hids, -⟩ := others_cases (s := s) os
  intro e he
  rw [hrows] at he
  rcases List.mem_append.mp he with he | he
  · exact (h e he).trans hseq
  · exact (hids e he).2

end SharedFile

namespace EdgeCall
variable {c : EdgeCall} {s : SharedFile}

/-- The file after the call's row was inserted, and before other handles go on. -/
def inserted (c : EdgeCall) (s : SharedFile) : SharedFile :=
  (s.others c.before).withEdge (.own c.first) c.edge

theorem insertEdge_accepted (h : c.Accepted s) :
    c.insertEdge s = (.ok (((c.inserted s).others c.between).lastInsertRowid (.own c.second)),
      (c.inserted s).others c.between) := by
  obtain ⟨hv, hfrom, hto, hlt⟩ := h
  rw [insertEdge, hv]
  simp only [hfrom, hto, Bool.not_true, Bool.or_self, Bool.false_eq_true, if_false,
    SharedFile.execute_edge hlt]
  rfl

/-- A call that is not accepted fails, before or after the others have had their turn. -/
theorem insertEdge_rejected (h : ¬ c.Accepted s) :
    ∃ e s', c.insertEdge s = (.error e, s') ∧ (s' = s ∨ s' = s.others c.before) := by
  rw [insertEdge]
  cases hv : validateEdge c.edge.toEdgeSpec with
  | error e => exact ⟨e, s, rfl, .inl rfl⟩
  | ok _ =>
    simp only
    split
    · exact ⟨_, s, rfl, .inl rfl⟩
    · rename_i hends
      simp only [Bool.or_eq_true, Bool.not_eq_true', not_or, Bool.not_eq_false] at hends
      have hfull : i64Max ≤ (s.others c.before).db.edgeSeq := by
        by_contra hlt
        exact h ⟨hv, hends.1, hends.2, by omega⟩
      refine ⟨diskFull, _, ?_, .inr rfl⟩
      rw [SharedFile.execute, Database.insertEdgeRow, if_pos hfull]
      rfl

theorem accepted_of_ok {id : Int} {s' : SharedFile} (h : c.insertEdge s = (.ok id, s')) :
    c.Accepted s := by
  by_contra hno
  obtain ⟨e, t, he, -⟩ := insertEdge_rejected hno
  rw [h] at he
  cases he

/-- The second connection remembers the new row if it has inserted it, and else what it remembered
before the call. -/
theorem lastInsertRowid_second :
    ((c.inserted s).others c.between).lastInsertRowid (.own c.second) =
      if c.second = c.first then (s.others c.before).db.edgeSeq + 1
      else s.lastInsertRowid (.own c.second) := by
  obtain ⟨-, -, -, -, hlast⟩ := (c.inserted s).others_cases c.between
  obtain ⟨-, -, -, -, hbefore⟩ := s.others_cases c.before
  rw [hlast, inserted, SharedFile.withEdge_lastInsertRowid]
  split
  · rename_i heq
    rw [heq, Function.update_self]
  · rename_i hne
    rw [Function.update_of_ne (by simpa using hne), hbefore]

/-- The new row is found under the id that the sequence gave it. -/
theorem getEdge_inserted (h : s.db.SeqCovers) :
    ((c.inserted s).others c.between).db.getEdge ((s.others c.before).db.edgeSeq + 1) =
      .ok { c.edge with id := (s.others c.before).db.edgeSeq + 1 } := by
  obtain ⟨rows, hrows, -⟩ := (c.inserted s).others_cases c.between
  have hcover := SharedFile.others_seqCovers c.before h
  have hnone : (s.others c.before).db.edges.find?
      (fun e => e.id = (s.others c.before).db.edgeSeq + 1) = none := by
    rw [List.find?_eq_none]
    intro e he
    have := hcover e he
    simp only [decide_eq_true_eq]
    omega
  rw [Database.getEdge, hrows, inserted, SharedFile.withEdge, List.append_assoc,
    List.find?_append, hnone]
  simp

theorem insertEdge_seqCovers (h : s.db.SeqCovers) : (c.insertEdge s).2.db.SeqCovers := by
  by_cases hacc : c.Accepted s
  · rw [insertEdge_accepted hacc]
    apply SharedFile.others_seqCovers
    have hcover := SharedFile.others_seqCovers c.before h
    intro e he
    rcases List.mem_append.mp he with he | he
    · have := hcover e he
      exact this.trans (by simp [inserted, SharedFile.withEdge])
    · rw [List.mem_singleton] at he
      subst e
      exact le_refl _
  · obtain ⟨e, s', he, rfl | rfl⟩ := insertEdge_rejected hacc
    · rwa [he]
    · rw [he]
      exact SharedFile.others_seqCovers _ h

/-- A call answers with its own row exactly if it reads the row id where that row is remembered. -/
theorem returnsOwnRow_iff (h : s.db.SeqCovers) : c.ReturnsOwnRow s ↔ c.ReadsItsRow s := by
  constructor
  · intro hown hacc
    obtain ⟨⟨t, ht, hedges⟩, -⟩ := hown _ _ (insertEdge_accepted hacc)
    rw [SharedFile.execute_edge hacc.2.2.2] at ht
    cases ht
    rw [lastInsertRowid_second] at hedges
    split at hedges
    · rename_i heq
      exact .inl heq
    · right
      have hrow := List.append_cancel_left hedges
      simp only [List.cons.injEq, EdgeRow.mk.injEq, GraphEdge.mk.injEq] at hrow
      exact hrow.1.1.2.symm
  · intro hreads id s' hok
    have hacc := accepted_of_ok hok
    rw [insertEdge_accepted hacc] at hok
    have hid : ((c.inserted s).others c.between).lastInsertRowid (.own c.second) =
        (s.others c.before).db.edgeSeq + 1 := by
      rw [lastInsertRowid_second]
      split
      · rfl
      · rename_i hne
        exact (hreads hacc).resolve_left hne
    rw [hid] at hok
    cases hok
    exact ⟨⟨_, SharedFile.execute_edge hacc.2.2.2, rfl⟩, getEdge_inserted h⟩

end EdgeCall

/-- In every run on a file, all calls answer with the ids of their own rows exactly if each reads the
row id from the connection that has inserted its row, or one that remembers the same number. -/
theorem insert_edge_ids {s : SharedFile} (h : s.db.SeqCovers) (actions : List FileAction) :
    AtEveryCall EdgeCall.ReturnsOwnRow s actions ↔ AtEveryCall EdgeCall.ReadsItsRow s actions := by
  induction actions generalizing s with
  | nil => exact Iff.rfl
  | cons action actions ih =>
    cases action with
    | call c => exact and_congr (EdgeCall.returnsOwnRow_iff h) (ih (EdgeCall.insertEdge_seqCovers h))
    | other o => exact ih (SharedFile.others_seqCovers [o] h)

/-- Two entities, and a pool none of whose connections has inserted anything. -/
def freshFile : SharedFile where
  db := { Database.empty with
    entities := [⟨1, "User", "Ada", none, .null⟩, ⟨2, "User", "Bob", none, .null⟩]
    entitySeq := 2 }
  lastInsertRowid := fun _ => 0

def knowsCall (second : Nat) : EdgeCall := ⟨⟨⟨⟨1, 2, "KNOWS"⟩, 0⟩, .null⟩, 0, second, [], []⟩

theorem insert_edge_ids_oneConnection : AtEveryCall EdgeCall.ReturnsOwnRow freshFile
    [.call (knowsCall 0), .call (knowsCall 0)] :=
  (insert_edge_ids (by simp [Database.SeqCovers, freshFile, Database.empty]) _).mpr
    ⟨fun _ => .inl rfl, fun _ => .inl rfl, trivial⟩

/-- The second checkout gets a connection that has inserted nothing, and the call answers 0. -/
theorem not_insert_edge_ids :
    ¬ AtEveryCall EdgeCall.ReturnsOwnRow freshFile [.call (knowsCall 1)] := by
  intro h
  have hacc : (knowsCall 1).Accepted freshFile := by
    refine ⟨?_, ?_, ?_, ?_⟩ <;> decide +kernel
  obtain ⟨⟨t, ht, hedges⟩, -⟩ := h.1 _ _ (EdgeCall.insertEdge_accepted hacc)
  rw [SharedFile.execute_edge hacc.2.2.2] at ht
  cases ht
  have hrow := congrArg (List.map fun e : EdgeRow => e.id) hedges
  revert hrow
  decide +kernel

end SqliteGraph.Sqlite
