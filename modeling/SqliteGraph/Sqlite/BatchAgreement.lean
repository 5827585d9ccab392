import SqliteGraph.Sqlite.BulkInsertion
import SqliteGraph.Sqlite.SessionInvariant

/-! Bulk insertion of edges against their insertion one by one, for every size of the chunks. -/
namespace SqliteGraph.Sqlite
open Lib

section Endpoints
variable {ids : List Int64} {a b : Int64}

theorem countP_or_of_ne (hne : a ≠ b) (ids : List Int64) :
    ids.countP (fun id => decide (id = a ∨ id = b)) = ids.count a + ids.count b := by
  induction ids with
  | nil => rfl
  | cons id ids ih =>
    rw [List.countP_cons, ih, List.count_cons, List.count_cons]
    by_cases ha : id = a
    · subst ha
      simp [hne]
      omega
    · by_cases hb : id = b
      · subst hb
        simp [hne.symm]
        omega
      · simp [ha, hb]

/-- Among distinct ids both ends of an edge are counted when they are there and differ. -/
theorem two_le_countP_iff (hids : ids.Nodup) :
    2 ≤ ids.countP (fun id => decide (id = a ∨ id = b)) ↔ a ≠ b ∧ a ∈ ids ∧ b ∈ ids := by
  have hle := List.nodup_iff_count_le_one.mp hids
  rcases eq_or_ne a b with rfl | hne
  · have ha := hle a
    rw [List.count] at ha
    simp only [or_self, ne_eq, not_true_eq_false, false_and, iff_false, not_le]
    exact Nat.lt_succ_of_le ha
  · rw [countP_or_of_ne hne]
    have ha := hle a
    have hb := hle b
    rw [← List.one_le_count_iff, ← List.one_le_count_iff]
    constructor
    · intro h
      exact ⟨hne, by omega, by omega⟩
    · rintro ⟨-, h₁, h₂⟩
      omega

end Endpoints

namespace Database
variable {db : Database}

theorem entityExists_iff {id : Int64} : db.entityExists id ↔ id ∈ db.entities.map (·.id) := by
  simp [entityExists]

/-- The count of the two ends never finds both of a self-loop. -/
theorem endpointsExist_iff (h : db.RowIds) {e : EdgeSpec} :
    db.EndpointsExist e ↔ e.fromId ≠ e.toId ∧ db.entityExists e.fromId ∧ db.entityExists e.toId := by
  rw [entityExists_iff, entityExists_iff, ← two_le_countP_iff h.entities, List.countP_map]
  rfl

end Database

namespace Session

section Singles
variable {s s' : Session} {c : List EdgeRow} {e : EdgeRow}

theorem insertEdge_ok {id : Int} (h : insertEdge e s = (.ok id, s')) :
    validateEdge e.toEdgeSpec = .ok () ∧
      (s.db.entityExists e.fromId ∧ s.db.entityExists e.toId) ∧ s.outcomes.head?.join = none ∧
      s.db.edgeSeq < i64Max ∧
      s' = { s with db := s.db.appendEdge e, outcomes := s.outcomes.tail, caches := .empty } := by
  obtain ⟨u, t, hv, h⟩ := StoreM.bind_eq_ok h
  rw [StoreM.ofExcept_run, Prod.mk.injEq] at hv
  obtain ⟨hv, rfl⟩ := hv
  obtain ⟨u', t, hends, h⟩ := StoreM.bind_eq_ok h
  rw [checkEndpoints, StoreM.get_bind_run] at hends
  split at hends
  · cases hends
  rename_i hexist
  cases hends
  obtain ⟨id', t, hrow, h⟩ := StoreM.bind_eq_ok h
  obtain ⟨ho, db, hdb, rfl⟩ := execute_ok hrow
  obtain ⟨hlt, rfl⟩ := insertEdgeRow_ok hdb
  rw [Database.insertEdgeRow_of_lt e hlt] at hdb
  cases hdb
  cases h
  exact ⟨hv, by simpa using hexist, ho, hlt, rfl⟩

/-- What single insertions have found when each was accepted. -/
structure Singles (s s' : Session) (c : List EdgeRow) : Prop where
  valid : ∀ e ∈ c, validateEdge e.toEdgeSpec = .ok ()
  exist : ∀ e ∈ c, s.db.entityExists e.fromId ∧ s.db.entityExists e.toId
  db : s'.db = c.foldl Database.appendEdge s.db
  room : c ≠ [] → s.db.edgeSeq + c.length ≤ i64Max

theorem forEach_insertEdge_ok {ids : List Int} (h : forEach insertEdge c s = (.ok ids, s')) :
    Singles s s' c := by
  induction c generalizing s ids with
  | nil =>
    cases h
    exact ⟨by simp, by simp, rfl, fun hne => absurd rfl hne⟩
  | cons e c ih =>
    obtain ⟨id, t, hone, h⟩ := StoreM.bind_eq_ok h
    obtain ⟨ids', t', hrest, h⟩ := StoreM.bind_eq_ok h
    cases h
    obtain ⟨hv, he, -, hlt, rfl⟩ := insertEdge_ok hone
    obtain ⟨hvalid, hexist, hdb, hroom⟩ := ih hrest
    refine ⟨List.forall_mem_cons.mpr ⟨hv, hvalid⟩, List.forall_mem_cons.mpr ⟨he, hexist⟩, hdb, ?_⟩
    intro _
    rcases eq_or_ne c [] with rfl | hne
    · simpa using hlt
    · have hle := hroom hne
      simp only [Database.appendEdge] at hle
      rw [List.length_cons]
      push_cast
      omega

end Singles

section Unseen

theorem unseen_sublist (seen : List EdgeSpec) (c : List EdgeRow) : (unseen seen c).Sublist c := by
  induction c generalizing seen with
  | nil => exact .slnil
  | cons e c ih =>
    rw [unseen]
    split
    · exact (ih seen).cons e
    · exact (ih _).cons_cons e

theorem unseen_fresh (seen : List EdgeSpec) (c : List EdgeRow) :
    ((unseen seen c).map (·.toEdgeSpec)).Nodup ∧
      ∀ e ∈ unseen seen c, e.toEdgeSpec ∉ seen := by
  induction c generalizing seen with
  | nil => exact ⟨List.nodup_nil, by simp [unseen]⟩
  | cons e c ih =>
    rw [unseen]
    split
    · exact ih seen
    · rename_i hnew
      obtain ⟨hnodup, hfresh⟩ := ih (e.toEdgeSpec :: seen)
      refine ⟨?_, List.forall_mem_cons.mpr ⟨hnew, fun d hd hin => hfresh d hd (.tail _ hin)⟩⟩
      rw [List.map_cons, List.nodup_cons]
      refine ⟨?_, hnodup⟩
      intro hin
      obtain ⟨d, hd, heq⟩ := List.mem_map.mp hin
      exact hfresh d hd (heq ▸ List.mem_cons_self)

theorem unseen_eq_self {seen : List EdgeSpec} {c : List EdgeRow}
    (hnodup : (c.map (·.toEdgeSpec)).Nodup) (hseen : ∀ e ∈ c, e.toEdgeSpec ∉ seen) :
    unseen seen c = c := by
  induction c generalizing seen with
  | nil => rfl
  | cons e c ih =>
    obtain ⟨he, hseen⟩ := List.forall_mem_cons.mp hseen
    rw [List.map_cons, List.nodup_cons] at hnodup
    rw [unseen, if_neg he, ih hnodup.2]
    intro d hd hin
    rcases List.mem_cons.mp hin with heq | hin
    · exact hnodup.1 (heq ▸ List.mem_map_of_mem hd)
    · exact hseen d hd hin

/-- A chunk keeps all its entries only when each is an edge of its own. -/
theorem length_unseen_iff (c : List EdgeRow) :
    (unseen [] c).length = c.length ↔ (c.map (·.toEdgeSpec)).Nodup := by
  constructor
  · intro h
    have heq := (unseen_sublist [] c).eq_of_length h
    rw [← heq]
    exact (unseen_fresh [] c).1
  · intro h
    rw [unseen_eq_self h (by simp)]

end Unseen

section Pieces
variable {α β : Type} {size : Nat} {config : BatchConfig} {items : List α}

/-- Chunks have a length, where the list is cut at all. -/
def Sized (config : BatchConfig) : Prop := config.enableChunking = true → 0 < config.maxBatchSize

/-- The chunks that the operation of a batch is called on. -/
def pieces (config : BatchConfig) (items : List α) : List (List α) :=
  if !config.enableChunking || items.length ≤ config.maxBatchSize then [items]
  else chunks config.maxBatchSize items.length items

theorem chunks_flatten (hsize : 0 < size) {fuel : Nat} (hfuel : items.length ≤ fuel) :
    (chunks size fuel items).flatten = items := by
  induction fuel generalizing items with
  | zero =>
    rw [List.length_eq_zero_iff.mp (Nat.le_zero.mp hfuel)]
    rfl
  | succ fuel ih =>
    cases items with
    | nil => rfl
    | cons a as =>
      rw [chunks_cons, List.flatten_cons, ih, List.take_append_drop]
      rw [List.length_drop, List.length_cons]
      simp only [List.length_cons] at hfuel
      omega

theorem pieces_flatten (hc : Sized config) (items : List α) : (pieces config items).flatten = items := by
  rw [pieces]
  split
  · simp
  · rename_i hcut
    simp only [Bool.or_eq_true, Bool.not_eq_true', not_or, Bool.not_eq_false] at hcut
    exact chunks_flatten (hc hcut.1) le_rfl

theorem pieces_ne_nil (hc : Sized config) (hne : items ≠ []) : ∀ c ∈ pieces config items, c ≠ [] := by
  rw [pieces]
  split
  · simpa using hne
  · rename_i hcut
    simp only [Bool.or_eq_true, Bool.not_eq_true', not_or, Bool.not_eq_false] at hcut
    exact chunks_ne_nil (hc hcut.1) _ _

theorem pieces_cons (hc : Sized config) (hne : items ≠ []) : ∃ c cs, pieces config items = c :: cs := by
  cases hp : pieces config items with
  | cons c cs => exact ⟨c, cs, rfl⟩
  | nil =>
    have hflat := pieces_flatten hc items
    rw [hp] at hflat
    exact absurd hflat.symm hne

theorem chunks_one (items : List α) : chunks 1 items.length items = items.map ([·]) := by
  induction items with
  | nil => rfl
  | cons a as ih =>
    rw [List.length_cons, chunks_cons, List.map_cons, ← ih]
    rfl

theorem pieces_one (hne : items ≠ []) : pieces ⟨1, true⟩ items = items.map ([·]) := by
  rw [pieces]
  split
  · rename_i hlen
    obtain ⟨a, as, rfl⟩ := List.exists_cons_of_ne_nil hne
    have hnil : as = [] := by simpa using hlen
    rw [hnil]
    rfl
  · exact chunks_one items

/-- A batch is its operation on each of its pieces. -/
theorem executeBatch_pieces (hc : Sized config) (operation : List α → SessionM (List β))
    (s : Session) : executeBatch items config operation s =
      (forEach operation (pieces config items) >>= fun results => pure results.flatten) s := by
  rw [executeBatch, pieces]
  split
  · cases hr : operation items s with
    | mk r t =>
      cases r with
      | error e => rw [forEach, StoreM.bind_error _ (StoreM.bind_error _ hr)]
      | ok bs =>
        have hall : forEach operation [items] s = (.ok [bs], t) := by
          rw [forEach, StoreM.bind_ok _ hr]
          rfl
        rw [StoreM.bind_ok _ hall]
        simp
  · rename_i hcut
    simp only [Bool.or_eq_true, Bool.not_eq_true', not_or, Bool.not_eq_false] at hcut
    rw [if_neg (hc hcut.1).ne']

end Pieces

section Bulk
variable {s s' : Session} {entries : List EdgeRow} {config : BatchConfig}

theorem bulkInsertEdges_pieces (hc : Sized config) (hne : entries ≠ []) :
    bulkInsertEdges config entries s =
      (forEach (fun c => guarded (insertUnseen [] c)) (pieces config entries) >>=
        fun results => pure results.flatten) s := by
  rw [bulkInsertEdges, if_neg (by simpa using hne)]
  exact executeBatch_pieces hc _ s

/-- The edges of the table after the chunks, without their ids and data. -/
theorem foldl_afterEdges_specs (cs : List (List EdgeRow)) (s : Session) :
    (cs.foldl afterEdges s).db.edges.map (·.toEdgeSpec) =
      s.db.edges.map (·.toEdgeSpec) ++ (cs.flatMap (unseen [])).map (·.toEdgeSpec) := by
  induction cs generalizing s with
  | nil => simp
  | cons c cs ih =>
    rw [List.foldl_cons, ih, afterEdges, Database.foldl_appendEdge_specs]
    simp

/-- The chunks go through, and the table has the edges that each has taken. -/
theorem bulkInsertEdges_run (hc : Sized config) (hne : entries ≠ [])
    (h : EdgesPass s (pieces config entries)) :
    ∃ ids s', bulkInsertEdges config entries s = (.ok ids, s') ∧
      s'.db.edges.map (·.toEdgeSpec) = s.db.edges.map (·.toEdgeSpec) ++
        ((pieces config entries).flatMap (unseen [])).map (·.toEdgeSpec) := by
  obtain ⟨c, cs, hp⟩ := pieces_cons hc hne
  rw [hp] at h
  obtain ⟨bs, hbs⟩ := insertUnseen_rule.forEach_run h
  rw [← hp] at hbs
  refine ⟨bs.flatten, _, ?_, foldl_afterEdges_specs (pieces config entries) s⟩
  rw [bulkInsertEdges_pieces hc hne, StoreM.bind_ok _ hbs]
  rfl

theorem bulkInsertEdges_passes (hc : Sized config) (hne : entries ≠ []) {ids : List Int}
    (h : bulkInsertEdges config entries s = (.ok ids, s')) :
    EdgesPass s (pieces config entries) := by
  rw [bulkInsertEdges_pieces hc hne] at h
  obtain ⟨bs, t, hbs, -⟩ := StoreM.bind_eq_ok h
  have hchunks := pieces_ne_nil hc hne
  obtain ⟨c, cs, hp⟩ := pieces_cons hc hne
  rw [hp] at hbs hchunks ⊢
  exact insertUnseen_rule.forEach_ok hchunks hbs

/-- For every size of the chunks the call succeeds, leaves as many rows, and the edges that single
insertions leave. -/
def AgreesWithSingles (entries : List EdgeRow) (s s₁ : Session) : Prop :=
  ∃ rows, ∀ config, Sized config → ∃ ids s', bulkInsertEdges config entries s = (.ok ids, s') ∧
    s'.db.edges.length = rows ∧
    ∀ e, e ∈ s'.db.edges.map (·.toEdgeSpec) ↔ e ∈ s₁.db.edges.map (·.toEdgeSpec)

/-- No entry is a self-loop or stands twice in the list, and each can have a transaction of its own. -/
structure Batchable (entries : List EdgeRow) (s : Session) : Prop where
  txn : s.txn = none
  unfailed : Unfailed s.outcomes (4 * entries.length)
  loopless : ∀ e ∈ entries, e.fromId ≠ e.toId
  nodup : (entries.map (·.toEdgeSpec)).Nodup

/-- Chunks without duplicates are taken whole. -/
theorem map_unseen (cs : List (List EdgeRow)) (h : (cs.flatten.map (·.toEdgeSpec)).Nodup) :
    ∀ c ∈ cs, unseen [] c = c := by
  intro c hc
  apply unseen_eq_self
  · exact h.sublist ((List.sublist_flatten_of_mem hc).map _)
  · simp

theorem sum_lengths_le {cs : List (List EdgeRow)} (hne : ∀ c ∈ cs, c ≠ []) :
    (cs.map fun c => (unseen [] c).length + 3).sum ≤ 4 * cs.flatten.length := by
  induction cs with
  | nil => simp
  | cons c cs ih =>
    obtain ⟨hc, hne⟩ := List.forall_mem_cons.mp hne
    have hle := (unseen_sublist [] c).length_le
    have hpos := List.length_pos_iff.mpr hc
    have hrest := ih hne
    rw [List.map_cons, List.sum_cons, List.flatten_cons, List.length_append]
    omega

theorem Batchable.passes (h : Batchable entries s) (hids : s.db.RowIds) (hc : Sized config)
    (hne : entries ≠ []) (hone : Singles s s' entries) :
    EdgesPass s (pieces config entries) := by
  have hflat := pieces_flatten hc entries
  have hchunks := pieces_ne_nil hc hne
  have hmem : ∀ c ∈ pieces config entries, ∀ e ∈ c, e ∈ entries := by
    intro c hcs e he
    rw [← hflat]
    exact List.mem_flatten_of_mem hcs he
  have hwhole := map_unseen (pieces config entries) (by rw [hflat]; exact h.nodup)
  refine ⟨h.txn, fun c hcs e he => hone.valid e (hmem c hcs e he), ?_, ?_, ?_⟩
  · intro c hcs e he
    have hin := hmem c hcs e he
    exact (Database.endpointsExist_iff hids).mpr ⟨h.loopless e hin, hone.exist e hin⟩
  · intro i hi
    have hle := sum_lengths_le hchunks
    rw [hflat] at hle
    exact h.unfailed i (hi.trans_le hle)
  · have hsum : ((pieces config entries).map fun c => (unseen [] c).length).sum =
        entries.length := by
      conv_rhs => rw [← hflat, List.length_flatten]
      exact congrArg List.sum (List.map_congr_left fun c hcs => congrArg _ (hwhole c hcs))
    rw [hsum]
    exact hone.room hne

theorem Batchable.agrees (h : Batchable entries s) (hids : s.db.RowIds) (hne : entries ≠ [])
    (hone : Singles s s' entries) : AgreesWithSingles entries s s' := by
  refine ⟨s.db.edges.length + entries.length, fun config hc => ?_⟩
  obtain ⟨ids, t, hrun, hspecs⟩ := bulkInsertEdges_run hc hne (h.passes hids hc hne hone)
  have hflat := pieces_flatten hc entries
  have hall : (pieces config entries).flatMap (unseen []) = entries := by
    conv_rhs => rw [← hflat]
    rw [List.flatMap]
    congr 1
    have hwhole := map_unseen (pieces config entries) (by rw [hflat]; exact h.nodup)
    exact (List.map_congr_left hwhole).trans (List.map_id _)
  rw [hall] at hspecs
  refine ⟨ids, t, hrun, ?_, ?_⟩
  · have hlen := congrArg List.length hspecs
    simpa using hlen
  · intro e
    rw [hspecs, hone.db, Database.foldl_appendEdge_specs]

/-- The two extremes tell: chunks of one entry find every self-loop and need the most statements, and one
chunk for all drops every duplicate. -/
theorem AgreesWithSingles.batchable (h : AgreesWithSingles entries s s') (hids : s.db.RowIds)
    (hne : entries ≠ []) : Batchable entries s := by
  obtain ⟨rows, h⟩ := h
  have hsmall : Sized ⟨1, true⟩ := fun _ => Nat.one_pos
  have hwhole : Sized ⟨0, false⟩ := fun hf => absurd hf Bool.false_ne_true
  obtain ⟨ids₁, t₁, hr₁, hrows₁, -⟩ := h ⟨1, true⟩ hsmall
  obtain ⟨ids₂, t₂, hr₂, hrows₂, -⟩ := h ⟨0, false⟩ hwhole
  have hp₁ := bulkInsertEdges_passes hsmall hne hr₁
  have hp₂ := bulkInsertEdges_passes hwhole hne hr₂
  obtain ⟨ids₃, t₃, hr₃, hspecs₁⟩ := bulkInsertEdges_run hsmall hne hp₁
  obtain ⟨ids₄, t₄, hr₄, hspecs₂⟩ := bulkInsertEdges_run hwhole hne hp₂
  rw [hr₁] at hr₃
  rw [hr₂] at hr₄
  cases hr₃
  cases hr₄
  rw [pieces_one hne] at hp₁ hspecs₁
  have hsingle : (entries.map ([·])).flatMap (unseen []) = entries := by
    rw [List.flatMap_map]
    exact List.flatMap_singleton' entries
  have hlen₁ := congrArg List.length hspecs₁
  have hlen₂ := congrArg List.length hspecs₂
  rw [hsingle] at hlen₁
  have hpieces : pieces ⟨0, false⟩ entries = [entries] := rfl
  simp only [hpieces, List.flatMap_cons, List.flatMap_nil, List.append_nil, List.length_map,
    List.length_append] at hlen₁ hlen₂
  refine ⟨hp₁.txn, ?_, ?_, (length_unseen_iff entries).mp (by omega)⟩
  · have hout := hp₁.unfailed
    rw [List.map_map] at hout
    have hfour : (entries.map ((fun c => (unseen [] c).length + 3) ∘ ([·]))).sum =
        4 * entries.length := by
      rw [mul_comm]
      exact List.sum_eq_card_nsmul _ 4 (by simp [unseen]) |>.trans (by simp)
    rwa [hfour] at hout
  · intro e he
    have hends := hp₁.ends [e] (List.mem_map_of_mem he) e List.mem_cons_self
    exact ((Database.endpointsExist_iff hids).mp hends).1

end Bulk

/-- Bulk insertion agrees with single insertion, whatever the chunks, exactly where no entry is a
self-loop or a duplicate and every chunk can have its transaction. Chunks of no length stop it. -/
theorem bulk_edges_agree_iff (outcomes : List (Option String)) (ws : List Write)
    (entries : List EdgeRow) (ids : List Int) (s₁ : Session)
    (h : forEach insertEdge entries (ws.foldl write (Session.open outcomes)) = (.ok ids, s₁)) :
    (AgreesWithSingles entries (ws.foldl write (Session.open outcomes)) s₁ ↔
      entries = [] ∨ Batchable entries (ws.foldl write (Session.open outcomes))) ∧
    (entries ≠ [] → bulkInsertEdges ⟨0, true⟩ entries (ws.foldl write (Session.open outcomes)) =
      (.error (.aborted (.panic "chunk size must be non-zero")),
        ws.foldl write (Session.open outcomes))) := by
  have hids := rowIds_writes outcomes ws
  have hone := forEach_insertEdge_ok h
  constructor
  · rcases eq_or_ne entries [] with rfl | hne
    · refine iff_of_true ⟨_, fun config _ => ⟨[], _, rfl, rfl, fun e => ?_⟩⟩ (.inl rfl)
      rw [hone.db]
      rfl
    · constructor
      · intro hagree
        exact .inr (hagree.batchable hids hne)
      · rintro (hnil | hb)
        · exact absurd hnil hne
        · exact hb.agrees hids hne hone
  · intro hne
    rw [bulkInsertEdges, if_neg (by simpa using hne), executeBatch, if_neg (by simpa using hne),
      if_pos rfl]
    rfl

/-- A graph of two entities. -/
def twoEntities : List Write :=
  [.insertEntity ⟨0, "function", "main", none, .null⟩,
    .insertEntity ⟨0, "function", "run", none, .null⟩]

theorem bulk_edges_agree_one : AgreesWithSingles [⟨⟨⟨1, 2, "calls"⟩, 0⟩, .null⟩]
    (twoEntities.foldl write (Session.open []))
    (forEach insertEdge [⟨⟨⟨1, 2, "calls"⟩, 0⟩, .null⟩]
      (twoEntities.foldl write (Session.open []))).2 :=
  (bulk_edges_agree_iff [] twoEntities [⟨⟨⟨1, 2, "calls"⟩, 0⟩, .null⟩] [1] _ rfl).1.mpr
    (.inr ⟨rfl, by decide, by decide, by decide⟩)

/-- A self-loop. -/
theorem not_bulk_edges_agree : ¬ ∀ (outcomes : List (Option String)) (ws : List Write)
    (entries : List EdgeRow) (ids : List Int) (s₁ : Session),
    forEach insertEdge entries (ws.foldl write (Session.open outcomes)) = (.ok ids, s₁) →
    AgreesWithSingles entries (ws.foldl write (Session.open outcomes)) s₁ := by
  intro h
  obtain ⟨rows, hagree⟩ := h [] twoEntities [⟨⟨⟨1, 1, "calls"⟩, 0⟩, .null⟩] [1] _ rfl
  obtain ⟨ids, s', hrun, -⟩ := hagree ⟨1, true⟩ fun _ => Nat.one_pos
  have hfails : (bulkInsertEdges ⟨1, true⟩ [⟨⟨⟨1, 1, "calls"⟩, 0⟩, .null⟩]
    (twoEntities.foldl write (Session.open []))).1 =
    .error (.invalidInput "edge endpoints must exist") := rfl
  rw [hrun] at hfails
  cases hfails

end Session

end SqliteGraph.Sqlite
