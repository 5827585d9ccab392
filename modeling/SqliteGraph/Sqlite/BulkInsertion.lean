import SqliteGraph.Sqlite.ChunkInsertion

/-! Bulk insertion chunk by chunk, and what a failure on the way leaves behind. -/
namespace SqliteGraph.Sqlite
open Lib

namespace Session

section Batches
variable {α β : Type}

theorem chunks_cons {size fuel : Nat} {a : α} {as : List α} :
    chunks size (fuel + 1) (a :: as) =
      (a :: as).take size :: chunks size fuel ((a :: as).drop size) := rfl

theorem chunks_ne_nil {size : Nat} (hsize : 0 < size) (fuel : Nat) (items : List α) :
    ∀ c ∈ chunks size fuel items, c ≠ [] := by
  induction fuel generalizing items with
  | zero => simp [chunks]
  | succ fuel ih =>
    cases items with
    | nil => simp [chunks]
    | cons a as =>
      rw [chunks_cons]
      refine List.forall_mem_cons.mpr ⟨?_, ih _⟩
      simp [List.take_eq_nil_iff, hsize.ne']

/-- What an operation on a chunk does: `Passes` says that chunks go through in turn. -/
structure BatchRule (operation : List α → SessionM (List β))
    (Passes : Session → List (List α) → Prop) (after : Session → List α → Session)
    (rows : Database → Nat) : Prop where
  run {s c} : Passes s [c] → ∃ ids, operation c s = (.ok ids, after s c)
  ok {s c ids s'} : c ≠ [] → operation c s = (.ok ids, s') → Passes s [c]
  error {s c e s'} : operation c s = (.error e, s') → s'.db = s.db
  head {s c cs} : Passes s (c :: cs) → Passes s [c]
  cons {s c c' cs} : Passes s [c] → (Passes s (c :: c' :: cs) ↔ Passes (after s c) (c' :: cs))
  grows {s c} : c ≠ [] → rows s.db < rows (after s c).db

namespace BatchRule
variable {operation : List α → SessionM (List β)} {Passes : Session → List (List α) → Prop}
  {after : Session → List α → Session} {rows : Database → Nat} {s s' : Session} {c : List α}
  {cs : List (List α)} {e : SqliteGraphError}

theorem forEach_run (rule : BatchRule operation Passes after rows) (h : Passes s (c :: cs)) :
    ∃ bs, forEach operation (c :: cs) s = (.ok bs, (c :: cs).foldl after s) := by
  induction cs generalizing s c with
  | nil =>
    obtain ⟨ids, hids⟩ := rule.run h
    refine ⟨[ids], ?_⟩
    rw [forEach, StoreM.bind_ok _ hids]
    rfl
  | cons c' cs ih =>
    have hhead := rule.head h
    obtain ⟨ids, hids⟩ := rule.run hhead
    obtain ⟨bs, hbs⟩ := ih ((rule.cons hhead).mp h)
    refine ⟨ids :: bs, ?_⟩
    rw [forEach, StoreM.bind_ok _ hids, StoreM.bind_ok _ hbs]
    rfl

theorem forEach_ok (rule : BatchRule operation Passes after rows) {bs : List (List β)}
    (hne : ∀ d ∈ c :: cs, d ≠ []) (h : forEach operation (c :: cs) s = (.ok bs, s')) :
    Passes s (c :: cs) := by
  induction cs generalizing s s' c bs with
  | nil =>
    obtain ⟨ids, t, hids, -⟩ := StoreM.bind_eq_ok h
    exact rule.ok (hne c List.mem_cons_self) hids
  | cons c' cs ih =>
    obtain ⟨hc, hne⟩ := List.forall_mem_cons.mp hne
    obtain ⟨ids, t, hids, h⟩ := StoreM.bind_eq_ok h
    obtain ⟨bs', t', hrest, -⟩ := StoreM.bind_eq_ok h
    have hhead := rule.ok hc hids
    obtain ⟨ids', hrun⟩ := rule.run hhead
    rw [hids, Prod.mk.injEq] at hrun
    rw [hrun.2] at hrest
    exact (rule.cons hhead).mpr (ih hne hrest)

/-- A failure keeps the rows of the chunks before it. -/
theorem forEach_error (rule : BatchRule operation Passes after rows) (hne : ∀ d ∈ cs, d ≠ [])
    (h : forEach operation cs s = (.error e, s')) : rows s.db ≤ rows s'.db := by
  induction cs generalizing s with
  | nil => cases h
  | cons c cs ih =>
    obtain ⟨hc, hne⟩ := List.forall_mem_cons.mp hne
    cases hr : operation c s with
    | mk r t =>
      cases r with
      | error e' =>
        rw [forEach, StoreM.bind_error _ hr] at h
        cases h
        exact (congrArg rows (rule.error hr)).ge
      | ok ids =>
        obtain ⟨ids', hrun⟩ := rule.run (rule.ok hc hr)
        rw [hr, Prod.mk.injEq] at hrun
        rw [forEach, StoreM.bind_ok _ hr, hrun.2] at h
        cases hrest : forEach operation cs (after s c) with
        | mk r t' =>
          cases r with
          | ok bs =>
            rw [StoreM.bind_ok _ hrest] at h
            cases h
          | error e' =>
            rw [StoreM.bind_error _ hrest] at h
            cases h
            exact (rule.grows hc).le.trans (ih hne hrest)

theorem forEach_error_first (rule : BatchRule operation Passes after rows) (cs : List (List α))
    (hc : c ≠ []) (hp : ¬ Passes s [c]) : ∃ e s', forEach operation (c :: cs) s = (.error e, s') ∧
      s'.db = s.db := by
  cases hr : operation c s with
  | mk r t =>
    cases r with
    | ok ids => exact absurd (rule.ok hc hr) hp
    | error e => exact ⟨e, t, StoreM.bind_error _ hr, rule.error hr⟩

theorem forEach_error_later (rule : BatchRule operation Passes after rows)
    (hne : ∀ d ∈ c :: cs, d ≠ []) (hp : Passes s [c]) (hn : ¬ Passes s (c :: cs)) :
    ∃ e s', forEach operation (c :: cs) s = (.error e, s') ∧ rows s.db < rows s'.db := by
  obtain ⟨hc, hrest⟩ := List.forall_mem_cons.mp hne
  obtain ⟨ids, hids⟩ := rule.run hp
  cases hr : forEach operation cs (after s c) with
  | mk r t =>
    cases r with
    | ok bs =>
      have hall : forEach operation (c :: cs) s = (.ok (ids :: bs), t) := by
        rw [forEach, StoreM.bind_ok _ hids, StoreM.bind_ok _ hr]
        rfl
      exact absurd (rule.forEach_ok hne hall) hn
    | error e =>
      refine ⟨e, t, ?_, (rule.grows hc).trans_le (rule.forEach_error hrest hr)⟩
      rw [forEach, StoreM.bind_ok _ hids, StoreM.bind_error _ hr]

end BatchRule

/-- The list is handed over whole, for lack of chunking or of entries; chunks of no length stop the
call before it begins. -/
def Uncut (config : BatchConfig) (items : List α) : Prop :=
  config.enableChunking = false ∨ items.length ≤ config.maxBatchSize ∨ config.maxBatchSize = 0

/-- A call that fails leaves the entity and edge tables as they were. -/
def AllOrNothing (f : SessionM α) (s : Session) : Prop :=
  ∀ e s', f s = (.error e, s') → s'.db.entities = s.db.entities ∧ s'.db.edges = s.db.edges

variable {operation : List α → SessionM (List β)} {Passes : Session → List (List α) → Prop}
  {after : Session → List α → Session} {rows : Database → Nat}

theorem executeBatch_uncut (rule : BatchRule operation Passes after rows) {config : BatchConfig}
    {items : List α} (h : Uncut config items) (s : Session) :
    AllOrNothing (executeBatch items config operation) s := by
  intro e s' hr
  rw [executeBatch] at hr
  split at hr
  · rw [rule.error hr]
    exact ⟨rfl, rfl⟩
  · rename_i hcut
    simp only [Bool.or_eq_true, Bool.not_eq_true', decide_eq_true_eq, not_or] at hcut
    rcases h with h | h | h
    · exact absurd h hcut.1
    · exact absurd h hcut.2
    · rw [if_pos h] at hr
      cases hr
      exact ⟨rfl, rfl⟩

theorem executeBatch_cut (operation : List α → SessionM (List β)) {config : BatchConfig} {items : List α} (h : ¬ Uncut config items)
    (s : Session) : executeBatch items config operation s =
      (forEach operation (chunks config.maxBatchSize items.length items) >>=
        fun results => pure results.flatten) s := by
  simp only [Uncut, not_or, Bool.not_eq_false] at h
  rw [executeBatch, if_neg (by simp [h]), if_neg h.2.2]

/-- A failure is all or nothing where the list is not cut, where nothing or everything goes through. -/
theorem executeBatch_allOrNothing_iff (rule : BatchRule operation Passes after rows)
    (hrows : ∀ db db' : Database, db.entities = db'.entities → db.edges = db'.edges →
      rows db = rows db') (config : BatchConfig) (items : List α) (s : Session) :
    AllOrNothing (executeBatch items config operation) s ↔ Uncut config items ∨
      ¬ Passes s [items.take config.maxBatchSize] ∨
      Passes s (chunks config.maxBatchSize items.length items) := by
  by_cases hu : Uncut config items
  · exact iff_of_true (executeBatch_uncut rule hu s) (.inl hu)
  have hparts := hu
  simp only [Uncut, not_or, not_le] at hparts
  obtain ⟨-, hlen, hsize⟩ := hparts
  have hne := chunks_ne_nil (Nat.pos_of_ne_zero hsize) items.length items
  have hrun := executeBatch_cut operation hu s
  cases items with
  | nil => exact absurd hlen (Nat.not_lt_zero _)
  | cons a as =>
    rw [List.length_cons, chunks_cons] at hne hrun ⊢
    have hc := hne _ List.mem_cons_self
    constructor
    · intro hall
      by_contra hcond
      simp only [not_or, not_not] at hcond
      obtain ⟨e, s', hr, hlt⟩ := rule.forEach_error_later hne hcond.2.1 hcond.2.2
      rw [StoreM.bind_error _ hr] at hrun
      obtain ⟨hents, hedges⟩ := hall e s' hrun
      exact absurd (hrows _ _ hents hedges) hlt.ne'
    · rintro (h | h | h)
      · exact absurd h hu
      · obtain ⟨e', t, hr, hdb⟩ := rule.forEach_error_first
          (chunks config.maxBatchSize as.length ((a :: as).drop config.maxBatchSize)) hc h
        intro e s' herr
        rw [hrun, StoreM.bind_error _ hr] at herr
        cases herr
        rw [hdb]
        exact ⟨rfl, rfl⟩
      · obtain ⟨bs, hr⟩ := rule.forEach_run h
        intro e s' herr
        rw [hrun, StoreM.bind_ok _ hr] at herr
        cases herr

end Batches

section Rules

theorem insertEntries_rule : BatchRule (fun c => guarded (forEach insertEntry c)) EntitiesPass
    afterEntities (·.entities.length) where
  run := guarded_insertEntries_run
  ok := guarded_insertEntries_ok
  error := guarded_error (inside_forEach (fun _ => .bind (inside_ofExcept _) fun _ =>
    inside_execute _) _)
  head h := by
    obtain ⟨ht, hv, ho, hr⟩ := h
    rw [List.map_cons, List.sum_cons] at ho hr
    exact entitiesPass_one.mpr ⟨ht, hv _ List.mem_cons_self, (unfailed_add.mp ho).1, by omega⟩
  cons := entitiesPass_cons
  grows {s c} hc := by
    have hlen : (s.afterEntities c).db.entities.length = s.db.entities.length + c.length :=
      Database.foldl_appendEntity_length _ _
    have hpos := List.length_pos_iff.mpr hc
    omega

theorem insertUnseen_rule : BatchRule (fun c => guarded (insertUnseen [] c)) EdgesPass afterEdges
    (·.edges.length) where
  run := guarded_insertUnseen_run
  ok := guarded_insertUnseen_ok
  error := guarded_error (inside_insertUnseen _ _)
  head h := by
    obtain ⟨ht, hv, he, ho, hr⟩ := h
    rw [List.map_cons, List.sum_cons] at ho hr
    exact edgesPass_one.mpr ⟨ht, hv _ List.mem_cons_self, he _ List.mem_cons_self,
      (unfailed_add.mp ho).1, by omega⟩
  cons := edgesPass_cons
  grows {s c} hc := by
    have hspecs := congrArg List.length
      (Database.foldl_appendEdge_specs (unseen [] c) s.db)
    simp only [List.length_map, List.length_append] at hspecs
    have hpos := List.length_pos_iff.mpr (unseen_ne_nil hc)
    rw [afterEdges, hspecs]
    omega

end Rules

/-- A bulk insertion that fails is all or nothing exactly where its list is not cut into chunks, its
first chunk does not go through, or all of them do. -/
theorem bulk_insertion_all_or_nothing_iff (config : BatchConfig) (s : Session)
    (entities : List GraphEntity) (edges : List EdgeRow) :
    (AllOrNothing (bulkInsertEntities config entities) s ↔ Uncut config entities ∨
      ¬ EntitiesPass s [entities.take config.maxBatchSize] ∨
      EntitiesPass s (chunks config.maxBatchSize entities.length entities)) ∧
    (AllOrNothing (bulkInsertEdges config edges) s ↔ Uncut config edges ∨
      ¬ EdgesPass s [edges.take config.maxBatchSize] ∨
      EdgesPass s (chunks config.maxBatchSize edges.length edges)) := by
  constructor
  · rcases eq_or_ne entities [] with rfl | hne
    · exact iff_of_true (fun e s' h => by cases h) (.inl (.inr (.inl (Nat.zero_le _))))
    · rw [bulkInsertEntities, if_neg (by simpa using hne)]
      apply executeBatch_allOrNothing_iff insertEntries_rule
      intro db db' h _
      rw [h]
  · rcases eq_or_ne edges [] with rfl | hne
    · exact iff_of_true (fun e s' h => by cases h) (.inl (.inr (.inl (Nat.zero_le _))))
    · rw [bulkInsertEdges, if_neg (by simpa using hne)]
      apply executeBatch_allOrNothing_iff insertUnseen_rule
      intro db db' _ h
      rw [h]

/-- The second of two chunks has an entity without a kind: the first one stays. -/
theorem not_bulk_insertion_all_or_nothing : ¬ ∀ (config : BatchConfig) (s : Session)
    (entities : List GraphEntity) (edges : List EdgeRow),
    AllOrNothing (bulkInsertEntities config entities) s ∧
      AllOrNothing (bulkInsertEdges config edges) s := by
  intro h
  have hall := (h ⟨1, true⟩ (Session.open [])
    [⟨0, "function", "main", none, .null⟩, ⟨0, "", "main", none, .null⟩] []).1
  have hrows := (hall _ _ rfl).1
  have hone := congrArg List.length hrows
  revert hone
  decide

end Session

end SqliteGraph.Sqlite
