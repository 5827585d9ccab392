import SqliteGraph.Sqlite.Session

/-! What the statements of a session do, and what a transaction leaves when it fails. -/
namespace SqliteGraph.Sqlite
open Lib

section Tables
variable {db db' : Database}

@[simp] theorem insertLabelOrIgnore_entities (id : Int64) (label : String) :
    (db.insertLabelOrIgnore id label).entities = db.entities := by
  rw [Database.insertLabelOrIgnore]
  split <;> rfl

theorem insertEntityRow_ok {e : GraphEntity} {id : Int64}
    (h : db.insertEntityRow e = .ok (id, db')) : db.entitySeq < i64Max ∧
      db' = { db with entities := db.entities ++ [{ e with id }], entitySeq := db.entitySeq + 1 } := by
  rw [Database.insertEntityRow] at h
  split at h
  · cases h
  · rename_i hlt
    cases h
    exact ⟨not_le.mp hlt, rfl⟩

/-- There is nothing to delete. -/
theorem deleteEntityRow_absent {id : Int64} (h : id ∉ db.allEntityIds) :
    db.deleteEntityRow id = (0, db) := by
  have hne : ∀ e ∈ db.entities, e.id ≠ id := by
    intro e he heq
    exact h (List.mem_map.mpr ⟨e, he, heq⟩)
  rw [Database.deleteEntityRow, List.countP_eq_zero.mpr (by simpa using hne),
    List.filter_eq_self.mpr (by simpa using hne)]

theorem insertEdgeRow_ok {e : EdgeRow} {id : Int} (h : db.insertEdgeRow e = .ok (id, db')) :
    db.edgeSeq < i64Max ∧
      db' = { db with edges := db.edges ++ [{ e with id }], edgeSeq := db.edgeSeq + 1 } := by
  rw [Database.insertEdgeRow] at h
  split at h
  · cases h
  · rename_i hlt
    cases h
    exact ⟨not_le.mp hlt, rfl⟩

theorem deleteEdgeRow_absent {id : Int} (h : (db.deleteEdgeRow id).1 = 0) :
    (db.deleteEdgeRow id).2 = db := by
  have hne : ∀ e ∈ db.edges, e.id ≠ id := by simpa using List.countP_eq_zero.mp h
  rw [Database.deleteEdgeRow, List.filter_eq_self.mpr (by simpa using hne)]

end Tables

namespace Session

section Outcomes
variable {outcomes : List (Option String)}

/-- The next `n` statements go through. -/
abbrev Unfailed (outcomes : List (Option String)) (n : Nat) : Prop :=
  ∀ i < n, outcomes[i]?.join = none

theorem unfailed_zero : Unfailed outcomes 0 := fun _ h => absurd h (Nat.not_lt_zero _)

theorem unfailed_add {m n : Nat} :
    Unfailed outcomes (m + n) ↔ Unfailed outcomes m ∧ Unfailed (outcomes.drop m) n := by
  constructor
  · intro h
    refine ⟨fun i hi => h i (by omega), ?_⟩
    intro i hi
    rw [List.getElem?_drop]
    exact h (m + i) (by omega)
  · rintro ⟨hm, hn⟩ i hi
    by_cases him : i < m
    · exact hm i him
    · have h := hn (i - m) (by omega)
      rwa [List.getElem?_drop, Nat.add_sub_cancel' (not_lt.mp him)] at h

theorem unfailed_one : Unfailed outcomes 1 ↔ outcomes.head?.join = none := by
  rw [List.head?_eq_getElem?]
  constructor
  · intro h
    exact h 0 Nat.one_pos
  · intro h i hi
    rwa [Nat.lt_one_iff.mp hi]

theorem unfailed_succ {n : Nat} :
    Unfailed outcomes (n + 1) ↔ outcomes.head?.join = none ∧ Unfailed outcomes.tail n := by
  rw [add_comm, unfailed_add, unfailed_one, List.drop_one]

end Outcomes

section Statements
variable {α : Type} {f : Database → Except SqliteGraphError (α × Database)} {s s' : Session} {a : α}
  {e : SqliteGraphError}

theorem execute_run {db : Database} (ho : s.outcomes.head?.join = none) (hf : f s.db = .ok (a, db)) :
    execute f s = (.ok a, { s with db, outcomes := s.outcomes.tail }) := by
  simp [execute, ho, hf]

theorem execute_ok (h : execute f s = (.ok a, s')) : s.outcomes.head?.join = none ∧
    ∃ db, f s.db = .ok (a, db) ∧ s' = { s with db, outcomes := s.outcomes.tail } := by
  rw [execute] at h
  cases ho : s.outcomes.head?.join with
  | some message => simp [ho] at h
  | none =>
    cases hr : f s.db with
    | error e => simp [ho, hr] at h
    | ok r =>
      obtain ⟨b, db⟩ := r
      simp only [ho, hr, Prod.mk.injEq, Except.ok.injEq] at h
      exact ⟨rfl, db, by rw [h.1], h.2.symm⟩

theorem execute_error (h : execute f s = (.error e, s')) :
    s' = { s with outcomes := s.outcomes.tail } := by
  rw [execute] at h
  cases ho : s.outcomes.head?.join with
  | some message =>
    simp only [ho, Prod.mk.injEq] at h
    exact h.2.symm
  | none =>
    cases hr : f s.db with
    | ok r => simp [ho, hr] at h
    | error e =>
      simp only [ho, hr, Prod.mk.injEq] at h
      exact h.2.symm

theorem run_ok {g : Database → Database} {u : Unit} (h : run g s = (.ok u, s')) :
    s.outcomes.head?.join = none ∧ s' = { s with db := g s.db, outcomes := s.outcomes.tail } := by
  obtain ⟨ho, db, hdb, hs'⟩ := execute_ok h
  cases hdb
  exact ⟨ho, hs'⟩

theorem run_run {g : Database → Database} (ho : s.outcomes.head?.join = none) :
    run g s = (.ok (), { s with db := g s.db, outcomes := s.outcomes.tail }) :=
  execute_run ho rfl

theorem checkFault_run (ho : s.outcomes.head?.join = none) :
    checkFault s = (.ok (), { s with outcomes := s.outcomes.tail }) := run_run ho

theorem begin_run (ho : s.outcomes.head?.join = none) (ht : s.txn = none) :
    begin s = (.ok (), { s with txn := some s.db, outcomes := s.outcomes.tail }) := by
  simp [begin, ho, ht]

theorem commit_run (ho : s.outcomes.head?.join = none) (ht : s.txn.isSome) :
    commit s = (.ok (), { s with txn := none, outcomes := s.outcomes.tail }) := by
  obtain ⟨db, hdb⟩ := Option.isSome_iff_exists.mp ht
  simp [commit, ho, hdb]

theorem begin_ok (h : begin s = (.ok (), s')) : s.outcomes.head?.join = none ∧ s.txn = none ∧
    s' = { s with txn := some s.db, outcomes := s.outcomes.tail } := by
  rw [begin] at h
  cases ho : s.outcomes.head?.join with
  | some message => simp [ho] at h
  | none =>
    cases ht : s.txn with
    | some old => simp [ho, ht] at h
    | none =>
      simp only [ho, ht, Prod.mk.injEq] at h
      exact ⟨rfl, rfl, h.2.symm⟩

theorem begin_error (h : begin s = (.error e, s')) :
    s' = { s with outcomes := s.outcomes.tail } := by
  rw [begin] at h
  cases ho : s.outcomes.head?.join with
  | some message =>
    simp only [ho, Prod.mk.injEq] at h
    exact h.2.symm
  | none =>
    cases ht : s.txn with
    | none => simp [ho, ht] at h
    | some old =>
      simp only [ho, ht, Prod.mk.injEq] at h
      rw [← h.2, ← ht]

theorem commit_ok (h : commit s = (.ok (), s')) : s.outcomes.head?.join = none ∧
    s' = { s with txn := none, outcomes := s.outcomes.tail } := by
  rw [commit] at h
  cases ho : s.outcomes.head?.join with
  | some message => simp [ho] at h
  | none =>
    cases ht : s.txn with
    | none => simp [ho, ht] at h
    | some old =>
      simp only [ho, ht, Prod.mk.injEq] at h
      exact ⟨rfl, h.2.symm⟩

theorem commit_error (h : commit s = (.error e, s')) :
    s' = { s with outcomes := s.outcomes.tail } := by
  rw [commit] at h
  cases ho : s.outcomes.head?.join with
  | some message =>
    simp only [ho, Prod.mk.injEq] at h
    exact h.2.symm
  | none =>
    cases ht : s.txn with
    | some old => simp [ho, ht] at h
    | none =>
      simp only [ho, ht, Prod.mk.injEq] at h
      rw [← h.2, ← ht]

/-- With a transaction open only the statement itself can make it fail. -/
theorem commit_fails (ht : s.txn.isSome) (h : commit s = (.error e, s')) :
    s.outcomes.head?.join ≠ none := by
  intro ho
  obtain ⟨old, hold⟩ := Option.isSome_iff_exists.mp ht
  simp [commit, ho, hold] at h

end Statements

section Rows
variable {α β γ : Type} {check : α → Except SqliteGraphError β}
  {f : α → β → Database → Except SqliteGraphError (γ × Database)} {s s' : Session} {as : List α}

/-- The tables take what the items stand for, one statement after the other. -/
inductive Accepted (check : α → Except SqliteGraphError β)
    (f : α → β → Database → Except SqliteGraphError (γ × Database)) :
    Database → List α → Database → Prop
  | nil {db} : Accepted check f db [] db
  | cons {db db' db'' a as b c} : check a = .ok b → f a b db = .ok (c, db') →
      Accepted check f db' as db'' → Accepted check f db (a :: as) db''

/-- Every item has had its statement, and every statement has gone through. -/
theorem forEach_ok {cs : List γ} (h : forEach (fun a => do
      let b ← StoreM.ofExcept (check a)
      execute (f a b)) as s = (.ok cs, s')) :
    Accepted check f s.db as s'.db ∧ (∀ i < as.length, s.outcomes[i]?.join = none) ∧
      s'.outcomes = s.outcomes.drop as.length := by
  induction as generalizing s cs with
  | nil =>
    cases h
    exact ⟨.nil, by simp, by simp⟩
  | cons a as ih =>
    obtain ⟨c, t, hone, h⟩ := StoreM.bind_eq_ok h
    obtain ⟨cs', t', hrest, h⟩ := StoreM.bind_eq_ok h
    cases h
    obtain ⟨b, t'', hcheck, hrow⟩ := StoreM.bind_eq_ok hone
    rw [StoreM.ofExcept_run, Prod.mk.injEq] at hcheck
    obtain ⟨hcheck, rfl⟩ := hcheck
    obtain ⟨ho, db, hdb, rfl⟩ := execute_ok hrow
    obtain ⟨hacc, houts, hdrop⟩ := ih hrest
    refine ⟨.cons hcheck hdb hacc, ?_, by simpa using hdrop⟩
    intro i hi
    cases i with
    | zero => rwa [← List.head?_eq_getElem?]
    | succ i => simpa using houts i (by simpa using hi)

/-- The other way round: accepted items go through with their statements. -/
theorem forEach_run {db : Database} (h : Accepted check f s.db as db)
    (ho : Unfailed s.outcomes as.length) :
    ∃ cs, forEach (fun a => do
      let b ← StoreM.ofExcept (check a)
      execute (f a b)) as s = (.ok cs, { s with db, outcomes := s.outcomes.drop as.length }) := by
  generalize hdb : s.db = db₀ at h
  induction h generalizing s with
  | nil =>
    subst hdb
    exact ⟨[], rfl⟩
  | @cons db db' db'' a as b c hcheck hrow _ ih =>
    subst hdb
    obtain ⟨hhead, htail⟩ := unfailed_succ.mp ho
    obtain ⟨cs, hcs⟩ := @ih { s with db := db', outcomes := s.outcomes.tail } htail rfl
    have hone : (StoreM.ofExcept (check a) >>= fun b => execute (f a b)) s =
        (.ok c, { s with db := db', outcomes := s.outcomes.tail }) := by
      rw [hcheck, StoreM.ofExcept_ok_bind_run]
      exact execute_run hhead hrow
    refine ⟨c :: cs, ?_⟩
    rw [forEach, StoreM.bind_ok _ hone, StoreM.bind_ok _ hcs]
    simp

theorem Accepted.append {db db' db'' : Database} {bs : List α} (h : Accepted check f db as db')
    (h' : Accepted check f db' bs db'') : Accepted check f db (as ++ bs) db'' := by
  induction h with
  | nil => exact h'
  | cons hcheck hrow _ ih => exact .cons hcheck hrow (ih h')

theorem Accepted.checked {db db' : Database} (h : Accepted check f db as db') :
    ∀ a ∈ as, ∃ b, check a = .ok b := by
  induction h with
  | nil => simp
  | cons hcheck _ _ ih => exact List.forall_mem_cons.mpr ⟨⟨_, hcheck⟩, ih⟩

/-- Checks leave the session as it is. -/
theorem forEach_checks {s : Session} {check : α → SessionM β} (hcheck : ∀ a, (check a s).2 = s)
    (as : List α) : (forEach check as s).2 = s ∧
      ∀ bs, (forEach check as s).1 = .ok bs → ∀ a ∈ as, ∃ b, check a s = (.ok b, s) := by
  induction as with
  | nil => exact ⟨rfl, by simp⟩
  | cons a as ih =>
    have ha := hcheck a
    rw [forEach]
    cases hr : check a s with
    | mk r t =>
      rw [hr] at ha
      obtain rfl : s = t := ha.symm
      cases r with
      | error e =>
        rw [StoreM.bind_error _ hr]
        exact ⟨rfl, by simp⟩
      | ok b =>
        rw [StoreM.bind_ok _ hr]
        cases hrest : forEach check as s with
        | mk r t =>
          rw [hrest] at ih
          cases r with
          | error e =>
            rw [StoreM.bind_error _ hrest]
            exact ⟨ih.1, by simp⟩
          | ok bs =>
            rw [StoreM.bind_ok _ hrest]
            exact ⟨ih.1, fun _ _ => List.forall_mem_cons.mpr ⟨⟨b, hr⟩, ih.2 bs rfl⟩⟩

end Rows

section Inside
variable {α β : Type}

/-- Work inside a transaction: it leaves the transaction open, and the caches alone. -/
abbrev Inside (x : SessionM α) : Prop := StoreM.Keeps (fun s => (s.txn, s.caches)) x

theorem inside_execute (f : Database → Except SqliteGraphError (α × Database)) :
    Inside (execute f) := by
  intro s
  cases h : execute f s with
  | mk r s' =>
    cases r with
    | ok a =>
      obtain ⟨-, db, -, rfl⟩ := execute_ok h
      rfl
    | error e =>
      rw [execute_error h]

theorem inside_ofExcept (r : Except SqliteGraphError α) : Inside (StoreM.ofExcept r) := fun _ => rfl

theorem inside_forEach {f : α → SessionM β} (hf : ∀ a, Inside (f a)) (as : List α) :
    Inside (forEach f as) := by
  induction as with
  | nil => exact .pure
  | cons a as ih => exact .bind (hf a) fun _ => .bind ih fun _ => .pure

theorem inside_insertEntityAndLabel (entity : GraphEntity) : Inside (insertEntityAndLabel entity) := by
  refine .bind (inside_execute _) fun id => ?_
  split
  · exact .pure
  · exact .bind (inside_execute _) fun _ => .pure

theorem inside_validateEndpointsExist (fromId toId : Int64) :
    Inside (validateEndpointsExist fromId toId) := by
  apply StoreM.Keeps.get_bind
  intro s
  split
  · exact .throw
  · exact .pure

theorem inside_insertUnseen (seen : List EdgeSpec) (entries : List EdgeRow) :
    Inside (insertUnseen seen entries) := by
  induction entries generalizing seen with
  | nil => exact .pure
  | cons entry entries ih =>
    refine .bind (inside_ofExcept _) fun _ => ?_
    split
    · exact ih seen
    · exact .bind (inside_validateEndpointsExist _ _) fun _ => .bind (inside_execute _) fun _ =>
        .bind (ih _) fun _ => .pure

theorem inside_loadRecord (r : DumpRecord) : Inside (loadRecord r) := by
  cases r with
  | entity e => exact inside_execute _
  | edge e => exact inside_execute _
  | label entityId label => exact inside_execute _
  | property entityId key value => exact inside_execute _

/-- The work of `bulk_insert_entities` on a chunk. -/
theorem inside_insertChunk (chunk : List GraphEntity) : Inside (do
    let ids ← forEach (fun entry => do
      StoreM.ofExcept (validateEntity entry)
      execute (·.insertEntityRow entry)) chunk
    checkFault
    pure ids) :=
  .bind (inside_forEach (fun _ => .bind (inside_ofExcept _) fun _ => inside_execute _) chunk) fun _ =>
    .bind (inside_execute _) fun _ => .pure

end Inside

section Transactions
variable {α : Type} {f : SessionM α} {s s' t : Session}

/-- A rollback brings back the tables of the transaction's beginning. -/
theorem rollback_inside (hf : Inside f) (hb : begin s = (.ok (), t)) :
    (rollback (f t).2).2.db = s.db ∧ (rollback (f t).2).2.caches = s.caches := by
  obtain ⟨-, -, rfl⟩ := begin_ok hb
  have hkeep := hf { s with txn := some s.db, outcomes := s.outcomes.tail }
  simp only [Prod.mk.injEq] at hkeep
  rw [rollback, StoreM.modify_run]
  simp [hkeep]

/-- A guarded transaction that fails has changed neither the tables nor the caches. -/
theorem transactionGuard_error {e : SqliteGraphError} (hf : Inside f)
    (h : transactionGuard f s = (.error e, s')) : s'.db = s.db ∧ s'.caches = s.caches := by
  rw [transactionGuard] at h
  cases hb : begin s with
  | mk r t =>
    cases r with
    | error e' =>
      rw [StoreM.bind_error _ hb] at h
      cases h
      rw [begin_error hb]
      exact ⟨rfl, rfl⟩
    | ok u =>
      have hroll := rollback_inside hf hb
      rw [StoreM.bind_ok _ hb, StoreM.attempt_bind_run] at h
      cases hr : f t with
      | mk r t' =>
        rw [hr] at hroll h
        cases r with
        | error e' =>
          cases h
          exact hroll
        | ok a =>
          simp only [StoreM.attempt_bind_run] at h
          cases hc : commit t' with
          | mk r t'' =>
            rw [hc] at h
            cases r with
            | ok u => cases h
            | error e' =>
              cases h
              rw [commit_error hc]
              exact hroll

theorem transactionGuard_run {f : SessionM α} {a : α} {t : Session}
    (ho : s.outcomes.head?.join = none) (ht : s.txn = none)
    (hf : f { s with txn := some s.db, outcomes := s.outcomes.tail } = (.ok a, t))
    (htxn : t.txn.isSome) (hout : t.outcomes.head?.join = none) :
    transactionGuard f s =
      (.ok a, { t with txn := none, outcomes := t.outcomes.tail, caches := .empty }) := by
  rw [transactionGuard, StoreM.bind_ok _ (begin_run ho ht), StoreM.attempt_bind_run, hf]
  simp only [StoreM.attempt_bind_run, commit_run hout htxn]
  rfl

/-- One that succeeds has seen all its statements go through, and has cleared the caches. -/
theorem transactionGuard_ok {a : α} (h : transactionGuard f s = (.ok a, s')) :
    s.outcomes.head?.join = none ∧ s.txn = none ∧ s'.caches = .empty ∧
      ∃ t, f { s with txn := some s.db, outcomes := s.outcomes.tail } = (.ok a, t) ∧
        t.outcomes.head?.join = none ∧ s'.db = t.db ∧ s'.outcomes = t.outcomes.tail := by
  rw [transactionGuard] at h
  obtain ⟨u, t, hb, h⟩ := StoreM.bind_eq_ok h
  obtain ⟨ho, ht, rfl⟩ := begin_ok hb
  rw [StoreM.attempt_bind_run] at h
  cases hr : f { s with txn := some s.db, outcomes := s.outcomes.tail } with
  | mk r t =>
    rw [hr] at h
    cases r with
    | error e => cases h
    | ok b =>
      simp only [StoreM.attempt_bind_run] at h
      cases hc : commit t with
      | mk r t' =>
        rw [hc] at h
        cases r with
        | error e => cases h
        | ok u =>
          obtain ⟨ho', rfl⟩ := commit_ok hc
          cases h
          exact ⟨ho, ht, rfl, t, rfl, ho', rfl, rfl⟩

end Transactions

end Session

end SqliteGraph.Sqlite
