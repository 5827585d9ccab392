import SqliteGraph.Lib.Sorting
import SqliteGraph.Sqlite.PatternEngine
import SqliteGraph.Sqlite.SessionInvariant

/-! When the fast path of the pattern engine finds what the query finds. -/
namespace SqliteGraph.Sqlite
open Lib

section Order

theorem tripleOrder_trans (a b c : TripleMatch) :
    tripleOrder a b → tripleOrder b c → tripleOrder a c := by
  simp only [tripleOrder, decide_eq_true_eq, Int64.lt_iff_toInt_lt, Int64.le_iff_toInt_le,
    ← Int64.toInt_inj]
  omega

theorem tripleOrder_total (a b : TripleMatch) : (tripleOrder a b || tripleOrder b a) = true := by
  simp only [tripleOrder, Bool.or_eq_true, decide_eq_true_eq, Int64.lt_iff_toInt_lt,
    Int64.le_iff_toInt_le, ← Int64.toInt_inj]
  omega

theorem tripleOrder_antisymm (a b : TripleMatch) (hab : tripleOrder a b) (hba : tripleOrder b a) :
    a = b := by
  obtain ⟨startId, endId, edgeId⟩ := a
  obtain ⟨startId', endId', edgeId'⟩ := b
  simp only [tripleOrder, decide_eq_true_eq, Int64.lt_iff_toInt_lt, Int64.le_iff_toInt_le,
    ← Int64.toInt_inj] at hab hba
  simp only [TripleMatch.mk.injEq, ← Int64.toInt_inj]
  omega

theorem sort_triples_eq_iff {l₁ l₂ : List TripleMatch} :
    l₁.mergeSort tripleOrder = l₂.mergeSort tripleOrder ↔ l₁.Perm l₂ :=
  mergeSort_eq_iff tripleOrder_trans tripleOrder_total tripleOrder_antisymm

end Order

/-- Each edge of the type starts at an entity, and no other edge joins the same nodes. -/
def FastPathExact (db : Database) (p : PatternTriple) : Prop :=
  ∀ e ∈ db.edges, e.edgeType = p.edgeType → p.startOf e ∈ db.allEntityIds ∧
    ∀ e' ∈ db.edges, e'.fromId = e.fromId → e'.toId = e.toId → e'.id = e.id

instance (db : Database) (p : PatternTriple) : Decidable (FastPathExact db p) :=
  inferInstanceAs (Decidable (∀ e ∈ db.edges, e.edgeType = p.edgeType → p.startOf e ∈ db.allEntityIds ∧
    ∀ e' ∈ db.edges, e'.fromId = e.fromId → e'.toId = e.toId → e'.id = e.id))

section FastPath
variable (db : Database) (p : PatternTriple)

/-- The least id of the edges of a type between two nodes. -/
def leastEdgeId (fromId toId : Int64) (edgeType : String) : Option Int :=
  ((db.edges.filter fun e => e.fromId = fromId ∧ e.toId = toId ∧ e.edgeType = edgeType).map
    (·.id)).min?

/-- What the fast path makes of a neighbor. -/
def fastMatch (sourceId targetId : Int64) : Option TripleMatch :=
  match p.direction with
  | .outgoing => (leastEdgeId db sourceId targetId p.edgeType).map (⟨sourceId, targetId, ·⟩)
  | .incoming => (leastEdgeId db targetId sourceId p.edgeType).map (⟨sourceId, targetId, ·⟩)

theorem edgeExistsWithType_iff (fromId toId : Int64) (edgeType : String) :
    edgeExistsWithType db fromId toId edgeType = (leastEdgeId db fromId toId edgeType).isSome := by
  rw [Bool.eq_iff_iff, Option.isSome_iff_ne_none, leastEdgeId, Ne, List.min?_eq_none_iff,
    List.map_eq_nil_iff, List.filter_eq_nil_iff]
  simp [edgeExistsWithType]

theorem validateCandidates_eq (sourceId : Int64) (candidates : List Int64) :
    validateCandidates db p sourceId candidates =
      .ok (candidates.filterMap (fastMatch db p sourceId)) := by
  induction candidates with
  | nil => rfl
  | cons targetId candidates ih =>
    rw [validateCandidates, ih, List.filterMap_cons, fastMatch]
    cases p.direction with
    | outgoing =>
      simp only [edgeExistsWithType_iff, getEdgeId]
      rw [← leastEdgeId]
      cases leastEdgeId db sourceId targetId p.edgeType <;> rfl
    | incoming =>
      simp only [edgeExistsWithType_iff, getEdgeId]
      rw [← leastEdgeId]
      cases leastEdgeId db targetId sourceId p.edgeType <;> rfl

theorem fastMatch_ends (e : EdgeRow) : fastMatch db p (p.startOf e) (p.endOf e) =
    (leastEdgeId db e.fromId e.toId p.edgeType).map (⟨p.startOf e, p.endOf e, ·⟩) := by
  rw [fastMatch]
  cases hd : p.direction <;> simp [PatternTriple.startOf, PatternTriple.endOf, hd]

theorem neighbors_perm (id : Int64) : (typedAdjacency db.tables id p.direction none).Perm
    ((db.edges.filter fun e => p.startOf e = id).map p.endOf) := by
  cases hd : p.direction with
  | outgoing =>
    have hend : p.endOf = (·.toId) := by
      funext e
      simp [PatternTriple.endOf, hd]
    refine ((List.mergeSort_perm _ _).map _).trans ?_
    rw [Database.tables, List.filter_map, List.map_map]
    simp [PatternTriple.startOf, hend, hd, Function.comp_def]
  | incoming =>
    have hend : p.endOf = (·.fromId) := by
      funext e
      simp [PatternTriple.endOf, hd]
    refine ((List.mergeSort_perm _ _).map _).trans ?_
    rw [Database.tables, List.filter_map, List.map_map]
    simp [PatternTriple.startOf, hend, hd, Function.comp_def]

/-- All that the fast path finds before it sorts. -/
def fastMatches : List TripleMatch :=
  db.allEntityIds.flatMap fun id =>
    (typedAdjacency db.tables id p.direction none).filterMap (fastMatch db p id)

/-- Each edge from an entity, whatever its type, gives the fast path one neighbor. -/
theorem fastMatches_perm (h : db.RowIds) : (fastMatches db p).Perm
    ((db.edges.filter fun e => p.startOf e ∈ db.allEntityIds).filterMap fun e =>
      fastMatch db p (p.startOf e) (p.endOf e)) := by
  have hgroup : (fastMatches db p).Perm (db.allEntityIds.flatMap fun id =>
      (db.edges.filter fun e => p.startOf e = id).filterMap fun e =>
        fastMatch db p (p.startOf e) (p.endOf e)) := by
    apply List.Perm.flatMap_left
    intro id _
    refine ((neighbors_perm db p id).filterMap _).trans (.of_eq ?_)
    rw [List.filterMap_map]
    apply List.filterMap_congr
    intro e he
    have he : p.startOf e = id := by simpa using (List.mem_filter.mp he).2
    rw [Function.comp_apply, he]
  refine hgroup.trans ?_
  rw [← List.filterMap_flatMap]
  exact (flatMap_filter_perm p.startOf db.edges h.entities).filterMap _

/-- What the query finds before it sorts. -/
def typeMatches : List TripleMatch := (db.edges.filter (·.edgeType = p.edgeType)).map p.triple

theorem leastEdgeId_mem {fromId toId : Int64} {edgeType : String} {id : Int}
    (h : leastEdgeId db fromId toId edgeType = some id) : ∃ e ∈ db.edges, e.fromId = fromId ∧
      e.toId = toId ∧ e.edgeType = edgeType ∧ e.id = id := by
  obtain ⟨e, he, rfl⟩ := List.mem_map.mp (List.min?_mem h)
  obtain ⟨he, hends⟩ := List.mem_filter.mp he
  simp only [decide_eq_true_eq] at hends
  exact ⟨e, he, hends.1, hends.2.1, hends.2.2, rfl⟩

theorem leastEdgeId_isSome {e : EdgeRow} (he : e ∈ db.edges) :
    ∃ id, leastEdgeId db e.fromId e.toId e.edgeType = some id := by
  apply Option.isSome_iff_exists.mp
  rw [← edgeExistsWithType_iff, edgeExistsWithType]
  exact List.any_eq_true.mpr ⟨e, he, by simp⟩

variable {db p}

/-- With no other edge between its ends an edge of the type is found as it is, and one of another type is
not found. -/
theorem fastMatch_exact (h : db.RowIds) (hx : FastPathExact db p) {e : EdgeRow} (he : e ∈ db.edges) :
    fastMatch db p (p.startOf e) (p.endOf e) =
      if e.edgeType = p.edgeType then some (p.triple e) else none := by
  rw [fastMatch_ends]
  split
  · rename_i ht
    obtain ⟨id, hid⟩ := leastEdgeId_isSome db he
    obtain ⟨e', he', hfrom, hto, -, rfl⟩ := leastEdgeId_mem db hid
    rw [← ht, hid, (hx e he ht).2 e' he' hfrom hto]
    rfl
  · rename_i ht
    cases hl : leastEdgeId db e.fromId e.toId p.edgeType with
    | none => rfl
    | some id =>
      obtain ⟨e', he', hfrom, hto, ht', -⟩ := leastEdgeId_mem db hl
      have hid := (hx e' he' ht').2 e he hfrom.symm hto.symm
      have hee : e = e' := List.inj_on_of_nodup_map h.edges he he' hid
      exact absurd (hee ▸ ht') ht

theorem fastMatches_perm_of_exact (h : db.RowIds) (hx : FastPathExact db p) :
    (fastMatches db p).Perm (typeMatches db p) := by
  refine (fastMatches_perm db p h).trans (.of_eq ?_)
  rw [typeMatches, List.filterMap_filter, ← List.filterMap_eq_map, List.filterMap_filter]
  apply List.filterMap_congr
  intro e he
  rw [fastMatch_exact h hx he]
  by_cases ht : e.edgeType = p.edgeType
  · simp [ht, (hx e he ht).1]
  · simp [ht]

theorem typeMatches_nodup (h : db.RowIds) : (typeMatches db p).Nodup := by
  apply List.Nodup.map_on
  · intro e he e' he' heq
    have hid : e.id = e'.id := congrArg TripleMatch.edgeId heq
    exact List.inj_on_of_nodup_map h.edges (List.mem_filter.mp he).1 (List.mem_filter.mp he').1 hid
  · exact h.edges.of_map.filter _

theorem exact_of_fastMatches_perm (h : db.RowIds)
    (hp : (fastMatches db p).Perm (typeMatches db p)) : FastPathExact db p := by
  have hp := (fastMatches_perm db p h).symm.trans hp
  have hpair := List.pairwise_filterMap.mp (hp.nodup_iff.mpr (typeMatches_nodup h))
  have hstart : ∀ e ∈ db.edges, e.edgeType = p.edgeType → p.startOf e ∈ db.allEntityIds := by
    intro e he ht
    have hmem : p.triple e ∈ typeMatches db p :=
      List.mem_map_of_mem (List.mem_filter.mpr ⟨he, by simpa using ht⟩)
    obtain ⟨e', he', hm⟩ := List.mem_filterMap.mp (hp.mem_iff.mpr hmem)
    rw [fastMatch_ends] at hm
    obtain ⟨id, -, hm⟩ := Option.map_eq_some_iff.mp hm
    have hs : p.startOf e' = p.startOf e := congrArg TripleMatch.startId hm
    rw [← hs]
    simpa using (List.mem_filter.mp he').2
  intro e he ht
  refine ⟨hstart e he ht, ?_⟩
  intro e' he' hfrom hto
  by_contra hid
  obtain ⟨id, hleast⟩ := leastEdgeId_isSome db he
  have hends : p.startOf e' = p.startOf e ∧ p.endOf e' = p.endOf e := by
    cases hd : p.direction <;> simp [PatternTriple.startOf, PatternTriple.endOf, hd, hfrom, hto]
  have hin : ∀ a ∈ db.edges, p.startOf a = p.startOf e →
      a ∈ db.edges.filter fun e => p.startOf e ∈ db.allEntityIds := by
    intro a ha has
    exact List.mem_filter.mpr ⟨ha, by simpa [has] using hstart e he ht⟩
  have hne : e ≠ e' := fun hee => hid (hee ▸ rfl)
  -- both edges give the same match
  have hfast : fastMatch db p (p.startOf e) (p.endOf e) = some ⟨p.startOf e, p.endOf e, id⟩ := by
    rw [fastMatch_ends, ← ht, hleast]
    rfl
  have hsymm : Std.Symm fun a b : EdgeRow =>
      ∀ m, fastMatch db p (p.startOf a) (p.endOf a) = some m →
        ∀ m', fastMatch db p (p.startOf b) (p.endOf b) = some m' → m ≠ m' :=
    ⟨fun a b hab m hm m' hm' => (hab m' hm' m hm).symm⟩
  refine hpair.forall (hin e he rfl) (hin e' he' hends.1) hne _ hfast _ ?_ rfl
  rw [hends.1, hends.2]
  exact hfast

theorem fastMatches_perm_iff (h : db.RowIds) :
    (fastMatches db p).Perm (typeMatches db p) ↔ FastPathExact db p :=
  ⟨exact_of_fastMatches_perm h, fastMatches_perm_of_exact h⟩

end FastPath

section Results
variable {p : PatternTriple}

theorem reads_executeFastPath : Session.Reads (Session.executeFastPath p) fun db =>
    .ok ((fastMatches db p).mergeSort tripleOrder) := by
  have hone : ∀ (s : Session) (id : Int64), Session.Reads (do
      let candidates ← Session.fetchNeighbors p.direction id
      StoreM.ofExcept (validateCandidates s.db p id candidates)) fun db =>
        .ok ((typedAdjacency db.tables id p.direction none).filterMap (fastMatch s.db p id)) := by
    intro s id
    apply ((Session.reads_fetchNeighbors p.direction id).bind fun _ => .ofExcept).congr
    intro d
    exact validateCandidates_eq _ _ _ _
  apply StoreM.Computes.get_bind
  · intro s _
    exact (Session.computes_forEach (hone s) s.db.allEntityIds).bind fun _ => .pure
  · intro s _
    rfl

theorem matchTriples_result {db : Database} (hv : p.validate = .ok ())
    (hf : canUseFastPath p) : matchTriples db p = .ok ((typeMatches db p).mergeSort tripleOrder) := by
  simp only [canUseFastPath, Bool.and_eq_true] at hf
  have hfilter : matchesPropertyFilters db p = fun _ => true := by
    funext m
    simp [matchesPropertyFilters, hf]
  rw [matchTriples, hv]
  simp only [hf, hfilter, List.filter_true, executeSimpleEdgeQuery, Bool.and_self, if_true]
  exact congrArg Except.ok (sort_triples_eq_iff.mpr (List.mergeSort_perm _ _))

/-- Over any tables whose rows have ids of their own. -/
theorem matchTriplesFast_eq_iff_exact {s : Session} (hs : s.db.RowIds) (hc : s.AdjacencyCoherent) :
    (Session.matchTriplesFast p s).1 = matchTriples s.db p ↔
      (canUseFastPath p → isBlank p.edgeType = false → FastPathExact s.db p) := by
  rw [Session.matchTriplesFast]
  cases hb : isBlank p.edgeType with
  | true =>
    have hv : p.validate = .error (.invalidInput "edge_type is required") := by
      simp [PatternTriple.validate, hb]
    rw [matchTriples, hv]
    simp
    rfl
  | false =>
    have hv : p.validate = .ok () := by simp [PatternTriple.validate, hb]
    rw [hv, StoreM.ofExcept_ok_bind_run]
    cases hf : canUseFastPath p with
    | false => simp
    | true =>
      rw [if_pos rfl, (reads_executeFastPath s hc).1, matchTriples_result hv hf]
      simpa [Session.view, sort_triples_eq_iff] using fastMatches_perm_iff hs

end Results

/-- The fast path finds what the query finds, in a graph reached by any writes, exactly when no other edge
of any type joins the nodes that an edge of the type joins. -/
theorem matchTriplesFast_eq_matchTriples (outcomes : List (Option String)) (ws : List Session.Write)
    (caches : Caches) (p : PatternTriple) (s : Session)
    (hs : s = { ws.foldl Session.write (.open outcomes) with caches }) (hc : s.AdjacencyCoherent) :
    (Session.matchTriplesFast p s).1 = matchTriples s.db p ↔
      (canUseFastPath p → isBlank p.edgeType = false → FastPathExact s.db p) := by
  apply matchTriplesFast_eq_iff_exact _ hc
  rw [hs]
  exact Session.rowIds_writes outcomes ws

section Examples

/-- Two functions, of which the first calls the second. -/
def oneCall : List Session.Write :=
  [.insertEntity ⟨0, "Function", "f", none, .null⟩, .insertEntity ⟨0, "Function", "g", none, .null⟩,
    .insertEdge { fromId := 1, toId := 2, edgeType := "CALLS", id := 0, data := .null }]

/-- The first calls the second in two places. -/
def twoCalls : List Session.Write :=
  oneCall ++ [.insertEdge { fromId := 1, toId := 2, edgeType := "CALLS", id := 0, data := .null }]

theorem adjacencyCoherent_empty (s : Session) : { s with caches := .empty }.AdjacencyCoherent :=
  ⟨fun _ _ h => by simp [Caches.empty] at h, fun _ _ h => by simp [Caches.empty] at h⟩

theorem matchTriplesFast_oneCall :
    (Session.matchTriplesFast (.new "CALLS") { oneCall.foldl Session.write (.open []) with
      caches := .empty }).1 = matchTriples (oneCall.foldl Session.write (.open [])).db (.new "CALLS") :=
  (matchTriplesFast_eq_matchTriples [] oneCall .empty (.new "CALLS") _ rfl
    (adjacencyCoherent_empty _)).mpr fun _ _ => by decide +kernel

/-- The first of two edges between the same nodes is found twice. -/
theorem not_matchTriplesFast_eq_matchTriples : ¬ ∀ (outcomes : List (Option String))
    (ws : List Session.Write) (caches : Caches) (p : PatternTriple) (s : Session),
    s = { ws.foldl Session.write (.open outcomes) with caches } → s.AdjacencyCoherent →
      (Session.matchTriplesFast p s).1 = matchTriples s.db p := by
  intro h
  have hc := adjacencyCoherent_empty (twoCalls.foldl Session.write (.open []))
  have hx := (matchTriplesFast_eq_iff_exact (Session.rowIds_writes [] twoCalls) hc).mp
    (h [] twoCalls .empty (.new "CALLS") _ rfl hc) (by decide +kernel) (by decide +kernel)
  exact absurd hx (by decide +kernel)

end Examples

end SqliteGraph.Sqlite
