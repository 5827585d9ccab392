import SqliteGraph.Algo.PostDominators

/-! The automatic choice of an exit against a graph that has one exit more. -/
namespace SqliteGraph.Algo
open Lib Sqlite
variable {g : FiniteGraph} {v n m s : Int64}

theorem mem_exitNodes {t : Tables} : n ∈ exitNodes t ↔ n ∈ t.entities ∧ ∀ s, ¬ Joined t n s := by
  rw [exitNodes, List.mem_filter, List.isEmpty_iff, List.eq_nil_iff_forall_not_mem]
  simp only [mem_fetchOutgoing]

theorem FiniteGraph.exitNodes_nodup (g : FiniteGraph) : (exitNodes g.toTables).Nodup := g.nodup.filter _

def exitEdge (v exit : Int64) : GraphEdge := ⟨⟨exit, v, "virtual_exit"⟩, 0⟩

/-- The tables with one node more, to which an edge leads from every exit. -/
def extendTables (t : Tables) (v : Int64) : Tables where
  entities := t.entities.orderedInsert (· ≤ ·) v
  edges := t.edges ++ (exitNodes t).map (exitEdge v)

theorem mem_extendTables_edges {t : Tables} {e : GraphEdge} : e ∈ (extendTables t v).edges ↔
    e ∈ t.edges ∨ ∃ n ∈ exitNodes t, exitEdge v n = e := by
  rw [extendTables, List.mem_append, List.mem_map]

theorem mem_extendTables {t : Tables} : n ∈ (extendTables t v).entities ↔ n = v ∨ n ∈ t.entities :=
  List.mem_orderedInsert _

/-- The extended graph, for a node that is new. -/
def FiniteGraph.withExit (g : FiniteGraph) (v : Int64) (hv : v ∉ g.entities) : FiniteGraph where
  toTables := extendTables g.toTables v
  nodup := (List.perm_orderedInsert _ v g.entities).nodup_iff.mpr (List.nodup_cons.mpr ⟨hv, g.nodup⟩)
  closed := by
    intro e he
    rcases mem_extendTables_edges.mp he with he | ⟨n, hn, rfl⟩
    · obtain ⟨hfrom, hto⟩ := g.closed e he
      exact ⟨mem_extendTables.mpr (.inr hfrom), mem_extendTables.mpr (.inr hto)⟩
    · exact ⟨mem_extendTables.mpr (.inr (mem_exitNodes.mp hn).1), mem_extendTables.mpr (.inl rfl)⟩

section Lists

/-- The predecessor lists of a graph, together with one node whose list holds the exits. -/
structure ExitLists (g : FiniteGraph) (v : Int64) (preds : PredecessorMap) : Prop where
  fresh : v ∉ g.entities
  exits : preds.get v = exitNodes g.toTables
  others : ∀ n, n ≠ v → preds.get n = (buildPredecessorMap g.toTables).get n

theorem selectRows_singleton {t : Tables} {node neighbor : GraphEdge → Int64} {e : GraphEdge}
    (h : t.edges.filter (fun e => node e = n) = [e]) : selectRows t node neighbor n = [e] := by
  rw [selectRows, h, List.mergeSort_singleton]

theorem fetchOutgoing_extend (hn : n ∉ exitNodes g.toTables) :
    fetchOutgoing (extendTables g.toTables v) n = fetchOutgoing g.toTables n := by
  have hnone : ((exitNodes g.toTables).map (exitEdge v)).filter (fun e => e.fromId = n) = [] := by
    rw [List.filter_eq_nil_iff]
    rintro e he heq
    obtain ⟨exit, hexit, rfl⟩ := List.mem_map.mp he
    rw [decide_eq_true_eq] at heq
    exact hn (heq ▸ hexit)
  rw [fetchOutgoing, fetchOutgoing, selectRows, selectRows, extendTables, List.filter_append, hnone,
    List.append_nil]

theorem fetchOutgoing_exit (hn : n ∈ exitNodes g.toTables) :
    fetchOutgoing (extendTables g.toTables v) n = [v] := by
  have hold : g.edges.filter (fun e => e.fromId = n) = [] := by
    rw [List.filter_eq_nil_iff]
    rintro e he heq
    rw [decide_eq_true_eq] at heq
    exact (mem_exitNodes.mp hn).2 e.toId ⟨e, he, heq, rfl⟩
  have hnew : ((exitNodes g.toTables).map (exitEdge v)).filter (fun e => e.fromId = n) =
      [exitEdge v n] := by
    rw [List.filter_map, show ((fun e : GraphEdge => decide (e.fromId = n)) ∘ exitEdge v) =
      (fun exit => decide (exit = n)) from rfl, List.filter_eq,
      List.count_eq_one_of_mem g.exitNodes_nodup hn]
    rfl
  have hrows : (extendTables g.toTables v).edges.filter (fun e => e.fromId = n) = [exitEdge v n] := by
    rw [extendTables, List.filter_append, hold, hnew, List.nil_append]
  rw [fetchOutgoing, selectRows_singleton hrows]
  rfl

theorem flatMap_extend {t : Tables} {f : Int64 → List Int64} (hf : f v = []) :
    (extendTables t v).entities.flatMap f = t.entities.flatMap f := by
  rw [extendTables, List.orderedInsert_eq_take_drop, List.flatMap_append, List.flatMap_cons, hf,
    List.nil_append, ← List.flatMap_append, List.takeWhile_append_dropWhile]

theorem flatMap_filter {f : Int64 → List Int64} {p : Int64 → Bool} {l : List Int64}
    (h : ∀ a ∈ l, f a = if p a then [a] else []) : l.flatMap f = l.filter p := by
  induction l with
  | nil => rfl
  | cons a l ih =>
    obtain ⟨ha, hl⟩ := List.forall_mem_cons.mp h
    rw [List.flatMap_cons, ha, ih hl, List.filter_cons]
    split
    · rfl
    · rfl

theorem FiniteGraph.withExit_lists (hv : v ∉ g.entities) :
    ExitLists g v (buildPredecessorMap (g.withExit v hv).toTables) := by
  have hnone : fetchOutgoing g.toTables v = [] := by
    rw [List.eq_nil_iff_forall_not_mem]
    intro s hs
    exact hv (g.joined_mem (mem_fetchOutgoing.mp hs)).1
  have hout : fetchOutgoing (extendTables g.toTables v) v = [] := by
    rw [fetchOutgoing_extend fun hin => hv (mem_exitNodes.mp hin).1, hnone]
  have hget : ∀ s, (buildPredecessorMap (g.withExit v hv).toTables).get s = g.entities.flatMap
      fun n => List.replicate ((fetchOutgoing (extendTables g.toTables v) n).count s) n := by
    intro s
    rw [get_buildPredecessorMap]
    refine flatMap_extend ?_
    change List.replicate ((fetchOutgoing (extendTables g.toTables v) v).count s) v = []
    rw [hout]
    rfl
  refine ⟨hv, ?_, fun s hs => ?_⟩
  · rw [hget, exitNodes]
    refine flatMap_filter fun n hn => ?_
    by_cases hexit : n ∈ exitNodes g.toTables
    · rw [if_pos (List.mem_filter.mp hexit).2, fetchOutgoing_exit hexit, List.count_singleton_self]
      rfl
    · rw [fetchOutgoing_extend hexit, if_neg fun hempty => hexit (List.mem_filter.mpr ⟨hn, hempty⟩),
        List.count_eq_zero_of_not_mem]
      · rfl
      · exact fun hin => hv (g.joined_mem (mem_fetchOutgoing.mp hin)).2
  · rw [hget, get_buildPredecessorMap]
    refine List.flatMap_congr fun n _ => ?_
    by_cases hexit : n ∈ exitNodes g.toTables
    · have hempty : fetchOutgoing g.toTables n = [] := List.isEmpty_iff.mp (List.mem_filter.mp hexit).2
      rw [fetchOutgoing_exit hexit, hempty, List.count_eq_zero_of_not_mem (by simpa using hs),
        List.count_nil]
    · rw [fetchOutgoing_extend hexit]

/-- The lists that the code makes without a new row. -/
theorem FiniteGraph.virtualExit_lists (hv : v ∉ g.entities) :
    ExitLists g v ((buildPredecessorMap g.toTables).extend v (exitNodes g.toTables)) := by
  have hnone : (buildPredecessorMap g.toTables).get v = [] := by
    rw [List.eq_nil_iff_forall_not_mem]
    intro p hp
    exact hv (g.joined_mem (FiniteGraph.mem_predecessors.mp hp)).2
  refine ⟨hv, ?_, fun n hn => ?_⟩
  · rw [PredecessorMap.get_extend, if_pos rfl, hnone, List.nil_append]
  · rw [PredecessorMap.get_extend, if_neg hn]

end Lists

section Order
variable {preds preds' : PredecessorMap} {visited seen : Finset Int64} {l order nodes : List Int64}
  {stack bottom : List (Int64 × Bool)} {fuel : Nat}

theorem mem_pushPredecessors {x : Int64 × Bool}
    (h : x ∈ (pushPredecessors visited l seen stack).2) : x ∈ stack ∨ x.1 ∈ l := by
  induction l generalizing seen stack with
  | nil => exact .inl h
  | cons pred rest ih =>
    rw [pushPredecessors] at h
    split at h
    · rcases ih h with hx | hx
      · rcases List.mem_cons.mp hx with rfl | hx
        · exact .inr (.head _)
        · exact .inl hx
      · exact .inr (.tail _ hx)
    · exact (ih h).imp_right (.tail _)

/-- A node that is no one's predecessor may have been seen, and other entries wait below. -/
theorem pushPredecessors_below (hv : v ∉ l) :
    pushPredecessors visited l (insert v seen) (stack ++ bottom) =
      (insert v (pushPredecessors visited l seen stack).1,
        (pushPredecessors visited l seen stack).2 ++ bottom) := by
  induction l generalizing seen stack with
  | nil => rfl
  | cons pred rest ih =>
    obtain ⟨hne, hrest⟩ := not_or.mp (mt List.mem_cons.mpr hv)
    rw [pushPredecessors, pushPredecessors]
    by_cases hnew : pred ∉ visited ∧ pred ∉ seen
    · rw [if_pos hnew, if_pos ⟨hnew.1, by simp [Ne.symm hne, hnew.2]⟩, Finset.insert_comm,
        ← List.cons_append]
      exact ih hrest
    · rw [if_neg hnew, if_neg (by simpa [Ne.symm hne] using hnew)]
      exact ih hrest

/-- New nodes are all put on the stack. -/
theorem pushPredecessors_fresh (hnodup : l.Nodup) (hnew : ∀ n ∈ l, n ∉ seen) :
    pushPredecessors ∅ l seen stack = (seen ∪ l.toFinset, l.reverse.map (·, false) ++ stack) := by
  induction l generalizing seen stack with
  | nil => simp [pushPredecessors]
  | cons pred rest ih =>
    obtain ⟨hpred, hrest⟩ := List.nodup_cons.mp hnodup
    obtain ⟨hout, hnew⟩ := List.forall_mem_cons.mp hnew
    rw [pushPredecessors, if_pos ⟨Finset.notMem_empty _, hout⟩, ih hrest]
    · simp [Finset.insert_union, Finset.union_insert]
    · intro n hn
      rw [Finset.mem_insert, not_or]
      exact ⟨fun heq => hpred (heq ▸ hn), hnew n hn⟩

theorem reversedLoop_zero (preds : PredecessorMap) (h : stack ≠ []) :
    reversedLoop preds 0 visited seen order stack = .error .outOfFuel := by
  cases stack with
  | nil => exact absurd rfl h
  | cons x stack => rfl

/-- A search over a root below all other entries ends as it does without, and then with the root. -/
theorem reversedLoop_below (hsame : ∀ n, n ≠ v → preds'.get n = preds.get n)
    (hv : ∀ n, v ∉ preds.get n) (hstack : ∀ x ∈ stack, x.1 ≠ v) :
    reversedLoop preds' (fuel + 1) visited (insert v seen) order (stack ++ [(v, true)]) =
      (reversedLoop preds fuel visited seen order stack).map (v :: ·) := by
  induction fuel generalizing visited seen order stack with
  | zero =>
    rcases stack with _ | ⟨⟨node, _ | _⟩, stack⟩
    · rfl
    · rw [reversedLoop_zero preds (List.cons_ne_nil _ _), List.cons_append, reversedLoop,
        ← List.cons_append, pushPredecessors_below]
      · exact reversedLoop_zero preds' (by simp)
      · rw [List.mem_reverse, hsame node (hstack _ (.head _))]
        exact hv node
    · rw [reversedLoop_zero preds (List.cons_ne_nil _ _), List.cons_append, reversedLoop,
        reversedLoop_zero preds' (by simp)]
      rfl
  | succ fuel ih =>
    rcases stack with _ | ⟨⟨node, _ | _⟩, stack⟩
    · rfl
    · rw [List.cons_append, reversedLoop, ← List.cons_append, pushPredecessors_below,
        hsame node (hstack _ (.head _)), reversedLoop]
      · refine ih fun x hx => ?_
        rcases mem_pushPredecessors hx with hx | hx
        · rcases List.mem_cons.mp hx with rfl | hx
          · exact hstack (node, false) (.head _)
          · exact hstack x (.tail _ hx)
        · intro heq
          rw [List.mem_reverse, heq] at hx
          exact hv node hx
      · rw [List.mem_reverse, hsame node (hstack _ (.head _))]
        exact hv node
    · rw [List.cons_append, reversedLoop, reversedLoop]
      exact ih fun x hx => hstack x (.tail _ hx)

theorem mem_reversedLoop (hstack : ∀ x ∈ stack, x.1 ∈ nodes) (horder : ∀ n ∈ order, n ∈ nodes)
    (hpreds : ∀ n, ∀ p ∈ preds.get n, p ∈ nodes)
    (hrun : reversedLoop preds fuel visited seen order stack = .ok l) : ∀ n ∈ l, n ∈ nodes := by
  induction fuel generalizing visited seen order stack with
  | zero =>
    cases stack with
    | nil =>
      cases hrun
      exact horder
    | cons x stack => cases hrun
  | succ fuel ih =>
    rcases stack with _ | ⟨⟨node, _ | _⟩, stack⟩
    · cases hrun
      exact horder
    · rw [reversedLoop] at hrun
      refine ih (fun x hx => ?_) horder hrun
      rcases mem_pushPredecessors hx with hx | hx
      · rcases List.mem_cons.mp hx with rfl | hx
        · exact hstack (node, false) (.head _)
        · exact hstack x (.tail _ hx)
      · exact hpreds node x.1 (List.mem_reverse.mp hx)
    · rw [reversedLoop] at hrun
      refine ih (fun x hx => hstack x (.tail _ hx)) ?_ hrun
      exact List.forall_mem_cons.mpr ⟨hstack _ (.head _), horder⟩

/-- The search that has all exits on its stack. -/
def exitOrder (g : FiniteGraph) : Except SqliteGraphError (List Int64) :=
  reversedLoop (buildPredecessorMap g.toTables) (2 * g.entities.length) ∅
    (exitNodes g.toTables).toFinset [] ((exitNodes g.toTables).map (·, false))

theorem mem_exitOrder (hrun : exitOrder g = .ok order) : ∀ n ∈ order, n ∈ g.entities := by
  refine mem_reversedLoop ?_ (by simp) ?_ hrun
  · intro x hx
    obtain ⟨n, hn, rfl⟩ := List.mem_map.mp hx
    exact (mem_exitNodes.mp hn).1
  · intro n p hp
    exact (mem_buildPredecessorMap.mp hp).1

theorem ExitLists.rooted_order (h : ExitLists g v preds) (hlen : nodes.length = g.entities.length + 1) :
    reversePostorderReversed preds v nodes = (exitOrder g).map (v :: ·) := by
  have hexit : ∀ n ∈ exitNodes g.toTables, n ≠ v := by
    rintro n hn rfl
    exact h.fresh (mem_exitNodes.mp hn).1
  rw [reversePostorderReversed, hlen, show 2 * (g.entities.length + 1) =
    2 * g.entities.length + 1 + 1 from by omega, reversedLoop, h.exits, pushPredecessors_fresh
      (List.nodup_reverse.mpr g.exitNodes_nodup)
      (by simpa using hexit), List.reverse_reverse, List.toFinset_reverse, ← Finset.insert_eq]
  refine reversedLoop_below h.others ?_ ?_
  · intro n hv
    exact h.fresh (mem_buildPredecessorMap.mp hv).1
  · intro x hx
    obtain ⟨n, hn, rfl⟩ := List.mem_map.mp hx
    exact hexit n hn

end Order

end SqliteGraph.Algo
