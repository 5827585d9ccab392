import SqliteGraph.Cypher.Reads
import SqliteGraph.Sqlite.SearchEnds

/-! Patterns of variable depth against walks whose length is within the bounds. -/
namespace SqliteGraph.Cypher
open Lib Sqlite

/-- Where the edges of a type lead from a node. -/
def typedSuccessors (edges : List EdgeSpec) (relType : String) (u : Int64) : List Int64 :=
  (edges.filter fun e => e.fromId = u ∧ e.edgeType = relType).map (·.toId)

section Hops
variable {t : Tables} {relType : String} {start v : Int64} {depth : Nat}

theorem mem_adjacency_iff (u v : Int64) : v ∈ typedAdjacency t u .outgoing (some [relType]) ↔
    v ∈ typedSuccessors t.specs relType u := by
  simp [mem_typedAdjacency, typedSuccessors, EdgeSpec.Joins]
  grind

/-- At a distance above 0 within the depth is what another node at the end of a short walk is. -/
theorem found_iff {next : Int64 → List Int64} : (∃ d, Found next (· < depth) start v d ∧ 0 < d) ↔
    v ≠ start ∧ ∃ n ≤ depth, Walk next start n v := by
  constructor
  · rintro ⟨d, hd, hpos⟩
    refine ⟨?_, d, ?_, hd.walk⟩
    · rintro rfl
      have hle := hd.least 0 .nil
      omega
    · have hlast := hd.expands (d - 1) (by omega)
      omega
  · classical
    rintro ⟨hne, n, hn, hw⟩
    have hex : ∃ n, Walk next start n v := ⟨n, hw⟩
    have hle := Nat.find_min' hex hw
    refine ⟨Nat.find hex, ⟨Nat.find_spec hex, fun m hm => by omega, fun m hm => ?_⟩, ?_⟩
    · exact Nat.find_min' hex hm
    · refine Nat.pos_of_ne_zero fun hzero => hne ?_
      have hw₀ := Nat.find_spec hex
      rw [hzero] at hw₀
      cases hw₀
      rfl

theorem kHopFiltered_run (t : Tables) (relType : String) (start : Int64) (depth : Nat) :
    ∃ l, kHopFiltered t searchFuel start depth .outgoing [relType] = .ok l ∧
      ∀ v, v ∈ l ↔ v ≠ start ∧ ∃ n ≤ depth, Walk (typedSuccessors t.specs relType) start n v := by
  rw [kHopFiltered, if_neg (by simp), kHopInternal]
  rcases Nat.eq_zero_or_pos depth with rfl | hdepth
  · refine ⟨[], rfl, fun v => ?_⟩
    simp only [List.not_mem_nil, Nat.le_zero, exists_eq_left, false_iff, not_and]
    intro hne hw
    cases hw
    exact hne rfl
  · let next := fun u => typedAdjacency t u .outgoing (some [relType])
    obtain ⟨l, hl, hnodup, hfound⟩ : ∃ l, search next (· < depth) searchFuel {start}
        [(start, 0)] = some l ∧ _ ∧ _ :=
      search_found start (fun _ => V3.length_le_of_nodup) (Nat.lt_succ_self (2 ^ 64))
    have hfirst : (start, 0) :: ([] : List (Nat × Int64)).map Prod.swap = [] ++ [(start, 0)] := rfl
    obtain ⟨ordered, hrun, hordered⟩ := kHopLoop_search hl (by simp) hfirst
    rw [List.nil_append] at hordered
    have hstart : ∀ v, (v, 0) ∈ l ↔ v = start := by
      intro v
      rw [hfound]
      constructor
      · intro h
        cases h.walk
        rfl
      · rintro rfl
        exact ⟨.nil, by simp, by simp⟩
    rw [if_neg hdepth.ne', hrun]
    refine ⟨_, rfl, fun v => ?_⟩
    have hlisted : v ∈ (ordered.mergeSort fun a b =>
        decide (a.1 < b.1 ∨ a.1 = b.1 ∧ a.2 ≤ b.2)).map Prod.snd ↔ ∃ d, (d, v) ∈ ordered := by
      simp
    rw [hlisted, mem_kHop hnodup hstart hordered, ← found_iff]
    have hcongr : ∀ d, Found next (· < depth) start v d ↔
        Found (typedSuccessors t.specs relType) (· < depth) start v d :=
      fun d => Found.congr mem_adjacency_iff
    simp only [hfound, hcongr]

end Hops

section Rows
variable {ext : Externals} {db : Database} {query : CypherQuery} {relType : String} {start : Int64}
  {startPat endPat : NodePattern} {choices : Int64 → Nat → Nat}

theorem mem_foldl_reached (hops reached : List Int64) (v : Int64) :
    v ∈ hops.foldl (fun reached id => if id = start then reached else reached.insert id) reached ↔
      v ∈ reached ∨ v ≠ start ∧ v ∈ hops := by
  induction hops generalizing reached with
  | nil => simp
  | cons id hops ih =>
    rw [List.foldl_cons, ih]
    split
    · rename_i hid
      subst hid
      rw [List.mem_cons]
      tauto
    · rename_i hid
      rw [List.mem_insert_iff, List.mem_cons]
      grind

theorem nodup_foldl_reached (hops : List Int64) {reached : List Int64} (h : reached.Nodup) :
    (hops.foldl (fun reached id => if id = start then reached else reached.insert id)
      reached).Nodup := by
  induction hops generalizing reached with
  | nil => exact h
  | cons id hops ih =>
    rw [List.foldl_cons]
    split
    · exact ih h
    · exact ih (h.insert)

/-- The nodes other than the start within one of the depths, each once. -/
theorem reachedIds_run (db : Database) (relType : String) (start : Int64) (depths : List Nat)
    {reached : List Int64} (h : reached.Nodup) :
    ∃ l, reachedIds db relType start depths reached = .ok l ∧ l.Nodup ∧
      ∀ v, v ∈ l ↔ v ∈ reached ∨ v ≠ start ∧ ∃ d ∈ depths, ∃ n ≤ d % 2 ^ 32,
        Walk (typedSuccessors db.tables.specs relType) start n v := by
  induction depths generalizing reached with
  | nil => exact ⟨reached, rfl, h, by simp⟩
  | cons depth depths ih =>
    obtain ⟨hops, hhops, hmem⟩ := kHopFiltered_run db.tables relType start (depth % 2 ^ 32)
    obtain ⟨l, hl, hnodup, hl'⟩ := ih (nodup_foldl_reached hops h)
    refine ⟨l, ?_, hnodup, fun v => ?_⟩
    · rw [reachedIds, hhops]
      exact hl
    · rw [hl', mem_foldl_reached, hmem, List.exists_mem_cons_iff, and_self_left, or_assoc,
        ← and_or_left]

theorem depthRows_run (ext : Externals) (query : CypherQuery) (choices : Int64 → Nat → Nat)
    (relType : String) (startPat endPat : NodePattern) (h : db.RowIds) (depths : List Nat)
    {starts : List GraphEntity} (hstarts : starts.Nodup) :
    ∃ rows, depthRows ext db query choices relType depths startPat endPat starts = .ok rows ∧
      rows.Nodup ∧ ∀ u v, (u, v) ∈ rows ↔ u ∈ starts ∧ v ∈ db.entities ∧
        nodePatternMatches endPat v ∧
        whereClausesMatch ext query (startPat, u) (some (endPat, v)) ∧ v.id ≠ u.id ∧
        ∃ d ∈ depths, ∃ n ≤ d % 2 ^ 32,
          Walk (typedSuccessors db.tables.specs relType) u.id n v.id := by
  induction starts with
  | nil => exact ⟨[], rfl, List.nodup_nil, by simp⟩
  | cons w starts ih =>
    rw [List.nodup_cons] at hstarts
    obtain ⟨rest, hrest, hnodup, hmem⟩ := ih hstarts.2
    obtain ⟨ids, hids, hidsnodup, hreached⟩ := reachedIds_run db relType w.id depths List.nodup_nil
    have hperm := drain_perm (choices w.id) ids
    refine ⟨endRows ext db query startPat endPat w (drain (choices w.id) ids) ++ rest, ?_, ?_, ?_⟩
    · rw [depthRows, hids, hrest]
      rfl
    · rw [List.nodup_append]
      refine ⟨nodup_endRows (hperm.nodup_iff.mpr hidsnodup), hnodup, ?_⟩
      rintro ⟨u, v⟩ hin _ hin' rfl
      rw [mem_endRows h] at hin
      rw [hmem] at hin'
      exact hstarts.1 (hin.1 ▸ hin'.1)
    · intro u v
      rw [List.mem_append, mem_endRows h, hmem, List.mem_cons, hperm.mem_iff, hreached]
      constructor
      · rintro (⟨rfl, hv, hid, hpat, hwhere⟩ | ⟨hu, hrow⟩)
        · obtain ⟨hne, hwalk⟩ := hid.resolve_left (by simp)
          exact ⟨.inl rfl, hv, hpat, hwhere, hne, hwalk⟩
        · exact ⟨.inr hu, hrow⟩
      · rintro ⟨rfl | hu, hv, hpat, hwhere, hne, hwalk⟩
        · exact .inl ⟨rfl, hv, .inr ⟨hne, hwalk⟩, hpat, hwhere⟩
        · exact .inr ⟨hu, hv, hpat, hwhere, hne, hwalk⟩

/-- Two nodes that the patterns of the ends and WHERE allow. -/
structure EndsMatch (ext : Externals) (db : Database) (query : CypherQuery)
    (startPat endPat : NodePattern) (u v : GraphEntity) : Prop where
  startNode : u ∈ db.entities
  endNode : v ∈ db.entities
  differ : v.id ≠ u.id
  startMatches : nodePatternMatches startPat u
  endMatches : nodePatternMatches endPat v
  holds : whereClausesMatch ext query (startPat, u) (some (endPat, v))

/-- A walk of the type whose length is within the bounds. -/
def WalkWithin (db : Database) (relType : String) (minHops maxHops : Nat) (u v : GraphEntity) : Prop :=
  ∃ n, minHops ≤ n ∧ n ≤ maxHops ∧ Walk (typedSuccessors db.tables.specs relType) u.id n v.id

/-- A walk no longer than one of the depths of the bounds, as they are in 32 bits. -/
def WalkUpTo (db : Database) (relType : String) (minHops maxHops : Nat) (u v : GraphEntity) : Prop :=
  ∃ d, minHops ≤ d ∧ d ≤ maxHops ∧ ∃ n ≤ d % 2 ^ 32,
    Walk (typedSuccessors db.tables.specs relType) u.id n v.id

theorem variableDepthRows_run (ext : Externals) (query : CypherQuery) (choices : Int64 → Nat → Nat)
    (relType : String) (startPat endPat : NodePattern) (h : db.RowIds) {minHops maxHops : Nat}
    (hbounds : minHops ≤ maxHops) :
    ∃ rows, variableDepthRows ext db query choices relType minHops maxHops startPat endPat =
        .ok rows ∧ rows.Nodup ∧
      ∀ u v, (u, v) ∈ rows ↔ EndsMatch ext db query startPat endPat u v ∧
        WalkUpTo db relType minHops maxHops u v := by
  have hstarts : ((candidates db startPat).filter (nodePatternMatches startPat)).Nodup := by
    rw [filter_candidates_matches h]
    exact h.entities.of_map.filter _
  obtain ⟨rows, hrows, hnodup, hmem⟩ := depthRows_run ext query choices relType startPat endPat h
    (List.range' minHops (maxHops + 1 - minHops)) hstarts
  refine ⟨rows, hrows, hnodup, fun u v => ?_⟩
  have hdepths : ∀ d, d ∈ List.range' minHops (maxHops + 1 - minHops) ↔
      minHops ≤ d ∧ d ≤ maxHops := by
    intro d
    rw [List.mem_range'_1]
    omega
  rw [hmem, filter_candidates_matches h, List.mem_filter]
  simp only [hdepths, and_assoc]
  constructor
  · rintro ⟨hu, hstart, hv, hend, hwhere, hne, hwalk⟩
    exact ⟨⟨hu, hv, hne, hstart, hend, hwhere⟩, hwalk⟩
  · rintro ⟨⟨hu, hv, hne, hstart, hend, hwhere⟩, hwalk⟩
    exact ⟨hu, hstart, hv, hend, hwhere, hne, hwalk⟩

end Rows

theorem walk_zero {next : Int64 → List Int64} {start v : Int64} (h : Walk next start 0 v) :
    v = start := by
  cases h
  rfl

/-- A lower bound of at most one rules no walk to another node out. -/
theorem walkUpTo_iff_within {db : Database} {relType : String} {minHops maxHops : Nat}
    {u v : GraphEntity} (hmin : minHops ≤ 1) (hbounds : minHops ≤ maxHops) (hmax : maxHops < 2 ^ 32)
    (hne : v.id ≠ u.id) :
    WalkUpTo db relType minHops maxHops u v ↔ WalkWithin db relType minHops maxHops u v := by
  constructor
  · rintro ⟨d, hd, hd', n, hn, hw⟩
    rw [Nat.mod_eq_of_lt (by omega)] at hn
    have hpos : 0 < n := by
      refine Nat.pos_of_ne_zero fun hzero => hne ?_
      rw [hzero] at hw
      exact walk_zero hw
    exact ⟨n, by omega, by omega, hw⟩
  · rintro ⟨n, hn, hn', hw⟩
    exact ⟨maxHops, hbounds, le_rfl, n, by rwa [Nat.mod_eq_of_lt hmax], hw⟩

/-- The rows are, each once, the pairs of matching nodes that a walk within the bounds joins. -/
def RespectsBounds (ext : Externals) (db : Database) (query : CypherQuery)
    (choices : Int64 → Nat → Nat) (relType : String) (minHops maxHops : Nat)
    (startPat endPat : NodePattern) : Prop :=
  ∃ rows, variableDepthRows ext db query choices relType minHops maxHops startPat endPat =
      .ok rows ∧ rows.Nodup ∧
    ∀ u v, (u, v) ∈ rows ↔ EndsMatch ext db query startPat endPat u v ∧
      WalkWithin db relType minHops maxHops u v

/-- Both bounds are respected exactly where every two matching nodes joined by a walk up to one of the
depths are joined by a walk within the bounds, and the other way round. -/
theorem variable_depth_iff (ext : Externals) (outcomes : List (Option String))
    (ws : List Session.Write) (query : CypherQuery) (choices : Int64 → Nat → Nat) (relType : String)
    (minHops maxHops : Nat) (hbounds : minHops ≤ maxHops) (startPat endPat : NodePattern) :
    RespectsBounds ext (ws.foldl Session.write (Session.open outcomes)).db query choices relType
        minHops maxHops startPat endPat ↔
      ∀ u v, EndsMatch ext (ws.foldl Session.write (Session.open outcomes)).db query startPat
          endPat u v →
        (WalkUpTo (ws.foldl Session.write (Session.open outcomes)).db relType minHops maxHops u v ↔
          WalkWithin (ws.foldl Session.write (Session.open outcomes)).db relType minHops maxHops
            u v) := by
  have hids := Session.rowIds_writes outcomes ws
  generalize (ws.foldl Session.write (Session.open outcomes)).db = db at hids ⊢
  obtain ⟨rows, hrows, hnodup, hmem⟩ := variableDepthRows_run ext query choices relType
    startPat endPat hids hbounds
  constructor
  · rintro ⟨rows', hrows', -, hmem'⟩ u v hends
    rw [hrows] at hrows'
    cases hrows'
    have hboth := (hmem u v).symm.trans (hmem' u v)
    simpa [hends] using hboth
  · intro hwalks
    refine ⟨rows, hrows, hnodup, fun u v => ?_⟩
    rw [hmem]
    exact and_congr_right fun hends => hwalks u v hends

theorem variable_depth_calledOnce : RespectsBounds integerExternals
    (calledOnce.foldl Session.write (Session.open [])).db matchAll (fun _ _ => 0) "calls" 1 2
    ⟨"a", none, []⟩ ⟨"b", none, []⟩ :=
  (variable_depth_iff integerExternals [] calledOnce matchAll (fun _ _ => 0) "calls" 1 2 (by decide)
    ⟨"a", none, []⟩ ⟨"b", none, []⟩).mpr fun _ _ hends =>
      walkUpTo_iff_within (by decide) (by decide) (by decide) hends.differ

/-- Exactly two hops: the only call is one hop away, and is returned. -/
theorem not_variable_depth : ¬ ∀ (ext : Externals) (outcomes : List (Option String))
    (ws : List Session.Write) (query : CypherQuery) (choices : Int64 → Nat → Nat) (relType : String)
    (minHops maxHops : Nat) (startPat endPat : NodePattern), minHops ≤ maxHops →
    RespectsBounds ext (ws.foldl Session.write (Session.open outcomes)).db query choices relType
      minHops maxHops startPat endPat := by
  intro h
  have hids := Session.rowIds_writes [] calledOnce
  obtain ⟨rows, hrows, -, hmem⟩ := variableDepthRows_run integerExternals matchAll
    (fun _ _ => 0) "calls" ⟨"a", none, []⟩ ⟨"b", none, []⟩ hids (le_refl 2)
  obtain ⟨rows', hrows', -, hmem'⟩ := h integerExternals [] calledOnce matchAll (fun _ _ => 0) "calls"
    2 2 ⟨"a", none, []⟩ ⟨"b", none, []⟩ le_rfl
  rw [hrows] at hrows'
  cases hrows'
  have hends : EndsMatch integerExternals (calledOnce.foldl Session.write (Session.open [])).db matchAll
      ⟨"a", none, []⟩ ⟨"b", none, []⟩ ⟨1, "function", "main", none, .null⟩
      ⟨2, "function", "run", none, .null⟩ :=
    ⟨.head _, .tail _ (.head _), by decide, rfl, rfl, rfl⟩
  have hwalk : Walk (typedSuccessors (calledOnce.foldl Session.write (Session.open [])).db.tables.specs
      "calls") 1 1 2 := .step .nil (by decide)
  have hrow := (hmem _ _).mpr ⟨hends, 2, le_rfl, le_rfl, 1, by decide, hwalk⟩
  obtain ⟨-, n, hn, hn', hw⟩ := (hmem' _ _).mp hrow
  obtain rfl : n = 2 := by omega
  cases hw with
  | step hw hlast =>
    cases hw with
    | step hw hfirst =>
      cases hw
      have hone : typedSuccessors (calledOnce.foldl Session.write (Session.open [])).db.tables.specs
          "calls" 1 = [2] := rfl
      have htwo : typedSuccessors (calledOnce.foldl Session.write (Session.open [])).db.tables.specs
          "calls" 2 = [] := rfl
      rw [hone, List.mem_singleton] at hfirst
      rw [hfirst, htwo] at hlast
      cases hlast

end SqliteGraph.Cypher
