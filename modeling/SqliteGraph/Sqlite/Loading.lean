import SqliteGraph.Sqlite.Transactions

/-! How the lines of a dump are loaded, and what a load that fails leaves. -/
namespace SqliteGraph.Sqlite
open Lib

/-- The statement for a record of a dump. -/
def DumpRecord.statement : DumpRecord → Database → Except SqliteGraphError (Unit × Database)
  | .entity e, db => db.insertEntityWithId e
  | .edge e, db => db.insertEdgeWithId e
  | .label entityId text, db => db.insertLabel entityId text
  | .property entityId key value, db => .ok ((), db.insertProperty entityId key value)

/-- The tables that a dump is loaded into. -/
def Database.cleared (db : Database) : Database :=
  { db with labels := [], properties := [], edges := [], entities := [] }

namespace Session
variable {s t : Session}

theorem loadRecord_eq (r : DumpRecord) : loadRecord r = execute r.statement := by
  cases r <;> rfl

/-- What a load does between `BEGIN` and `COMMIT`. -/
def loadLines (lines : List (Except SqliteGraphError DumpRecord)) : SessionM Unit := do
  run fun db => { db with labels := [] }
  run fun db => { db with properties := [] }
  run fun db => { db with edges := [] }
  run fun db => { db with entities := [] }
  let _ ← forEach (fun line => do
    let record ← StoreM.ofExcept line
    loadRecord record) lines
  checkFault

theorem inside_loadLines (lines : List (Except SqliteGraphError DumpRecord)) :
    Inside (loadLines lines) :=
  .bind (inside_execute _) fun _ => .bind (inside_execute _) fun _ => .bind (inside_execute _) fun _ =>
    .bind (inside_execute _) fun _ => .bind (inside_forEach (fun _ => .bind (inside_ofExcept _)
      fun r => inside_loadRecord r) lines) fun _ => inside_execute _

/-- The records of all the lines are taken. -/
abbrev Records (db : Database) (lines : List (Except SqliteGraphError DumpRecord)) (db' : Database) :
    Prop :=
  Accepted (fun line => line) (fun _ => DumpRecord.statement) db.cleared lines db'

/-- All the records are taken, and the statements before `COMMIT` go through. -/
theorem loadLines_ok {lines : List (Except SqliteGraphError DumpRecord)} {u : Unit}
    (h : loadLines lines s = (.ok u, t)) :
    Records s.db lines t.db ∧ (∀ i < lines.length + 5, s.outcomes[i]?.join = none) ∧
      t.outcomes = s.outcomes.drop (lines.length + 5) := by
  obtain ⟨u₁, t₁, h₁, k₁⟩ := StoreM.bind_eq_ok h
  obtain ⟨u₂, t₂, h₂, k₂⟩ := StoreM.bind_eq_ok k₁
  obtain ⟨u₃, t₃, h₃, k₃⟩ := StoreM.bind_eq_ok k₂
  obtain ⟨u₄, t₄, h₄, k₄⟩ := StoreM.bind_eq_ok k₃
  obtain ⟨us, t₅, hlines, hfault⟩ := StoreM.bind_eq_ok k₄
  rw [checkFault] at hfault
  obtain ⟨o₁, rfl⟩ := run_ok h₁
  obtain ⟨o₂, rfl⟩ := run_ok h₂
  obtain ⟨o₃, rfl⟩ := run_ok h₃
  obtain ⟨o₄, rfl⟩ := run_ok h₄
  obtain ⟨o₅, rfl⟩ := run_ok hfault
  simp only [loadRecord_eq] at hlines
  obtain ⟨hacc, houts, hdrop⟩ := forEach_ok hlines
  refine ⟨hacc, ?_, ?_⟩
  · intro i hi
    match i with
    | 0 => rwa [← List.head?_eq_getElem?]
    | 1 => simpa [List.head?_eq_getElem?] using o₂
    | 2 => simpa [List.head?_eq_getElem?] using o₃
    | 3 => simpa [List.head?_eq_getElem?] using o₄
    | i + 4 =>
      rcases Nat.lt_or_ge i lines.length with hlt | hge
      · simpa using houts i hlt
      · have hi : i = lines.length := by omega
        simpa [hdrop, List.head?_eq_getElem?, hi] using o₅
  · change t₅.outcomes.tail = _
    rw [hdrop, List.tail_drop]
    change s.outcomes.tail.tail.tail.tail.drop (lines.length + 1) = _
    simp only [← List.drop_one, List.drop_drop]
    congr 1
    omega

section Loads
variable {lines : List (Except SqliteGraphError DumpRecord)} {db : Database}

theorem loadGraph_eq (lines : List (Except SqliteGraphError DumpRecord)) : loadGraph lines = (do
    begin
    match ← StoreM.attempt (loadLines lines) with
    | .ok () => do
      commit
      invalidateCaches
    | .error e => do
      rollback
      StoreM.throw e) := rfl

end Loads

end Session

end SqliteGraph.Sqlite
