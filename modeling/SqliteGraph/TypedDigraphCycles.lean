import SqliteGraph.TypedDigraphAlgo

/-! The cycle test and the sort agree on every graph; the nodes that the sort reports lie behind a
cycle. -/
namespace SqliteGraph
open Lib

section Vectors
variable {α : Type} {xs : List α} {a d : α} {i : Nat}

/-- A vector as a function of the index. -/
def valueAt (d : α) (xs : List α) (i : Nat) : α := xs.getD i d

theorem readAt_ok (h : i < xs.length) : readAt xs i = .ok (valueAt d xs i) := by
  simp [readAt, valueAt, h]

theorem writeAt_ok (h : i < xs.length) : writeAt xs i a = .ok (xs.set i a) := if_pos h

theorem valueAt_set (h : i < xs.length) :
    valueAt d (xs.set i a) = Function.update (valueAt d xs) i a := by
  funext j
  by_cases hj : j = i
  · subst j
    simp [valueAt, h]
  · rw [Function.update_of_ne hj]
    simp [valueAt, List.getD, List.getElem?_set_ne (Ne.symm hj)]

theorem valueAt_replicate (n : Nat) : valueAt d (List.replicate n d) = fun _ => d := by
  funext i
  simp [valueAt, List.getD, List.getElem?_replicate]
  split <;> rfl

end Vectors

namespace TypedDiGraph
variable {N E : Type} {g : TypedDiGraph N E} {color : List Color} {inDegree : List Nat}
  {nodes queue result : List NodeIndex} {stack : List (NodeIndex × Bool)} {fuel : Nat}
  {u v w : NodeIndex}

/-- There is an edge from one node to the other. -/
def Joins (g : TypedDiGraph N E) (u v : NodeIndex) : Prop :=
  ∃ (e : Nat) (entry : EdgeEntry E), g.edges[e]? = some (some entry) ∧ entry.fromNode = u ∧
    entry.toNode = v

def targets (g : TypedDiGraph N E) (v : NodeIndex) : List NodeIndex :=
  g.neighborsDirected v .outgoing

theorem mem_nodeIndices : v ∈ g.nodeIndices ↔ g.containsNode v := by
  rw [nodeIndices, containsNode_iff]
  simp only [List.mem_map, List.mem_filter, Prod.exists, List.mem_zipIdx_iff_getElem?,
    exists_eq_right, Option.isSome_iff_exists]
  constructor
  · rintro ⟨a, ha, w, rfl⟩
    exact ⟨w, ha⟩
  · rintro ⟨w, hw⟩
    exact ⟨some w, hw, w, rfl⟩

theorem nodup_nodeIndices : g.nodeIndices.Nodup := by
  have hall : (g.nodes.zipIdx.map Prod.snd).Nodup := by
    rw [List.zipIdx_map_snd]
    exact List.nodup_range'
  exact hall.sublist (List.filter_sublist.map _)

namespace Wf

theorem mem_targets (h : g.Wf) : v ∈ g.targets u ↔ g.Joins u v := by
  rcases hl : g.adjOut[u]? with _ | l
  · simp only [targets, neighborsDirected, hl, Option.getD_none, List.map_nil, List.not_mem_nil,
      false_iff]
    rintro ⟨e, entry, he, rfl, -⟩
    rw [List.getElem?_eq_none_iff, h.lengthOut] at hl
    exact absurd (h.range e entry he).1 (Nat.not_lt.mpr hl)
  · simp only [targets, neighborsDirected, hl, Option.getD_some, List.mem_map, Prod.exists,
      exists_eq_right, (h.outgoing u l hl).2]
    rfl

theorem arc_iff (h : g.Wf) : Arc g.targets u v ↔ g.Joins u v := h.mem_targets

theorem live_of_joins (h : g.Wf) (hj : g.Joins u v) : u ∈ g.nodeIndices ∧ v ∈ g.nodeIndices := by
  obtain ⟨e, entry, he, rfl, rfl⟩ := hj
  exact ⟨mem_nodeIndices.mpr (h.live e entry he).1, mem_nodeIndices.mpr (h.live e entry he).2⟩

end Wf

theorem lt_of_mem_nodeIndices (hv : v ∈ g.nodeIndices) : v < g.rawNodeCount :=
  containsNode_lt (mem_nodeIndices.mp hv)

theorem Wf.target_lt (h : g.Wf) (hv : v ∈ g.targets u) : v < g.rawNodeCount :=
  lt_of_mem_nodeIndices (h.live_of_joins (h.mem_targets.mp hv)).2

section CycleTest

theorem scanNeighbors_eq (hws : ∀ w ∈ nodes, w < color.length) :
    scanNeighbors color nodes stack = .ok (pushWhite (valueAt .white color) nodes stack) := by
  induction nodes generalizing stack with
  | nil => rfl
  | cons w ws ih =>
    rw [List.forall_mem_cons] at hws
    rw [scanNeighbors, readAt_ok (d := .white) hws.1, pushWhite]
    simp only [bind, Except.bind]
    cases valueAt Color.white color w with
    | white => exact ih hws.2
    | gray => rfl
    | black => exact ih hws.2

/-- With a color for every node, the loop on the stack is the search. -/
theorem Wf.cycleLoop_eq (h : g.Wf) (hlen : color.length = g.rawNodeCount)
    (hstack : ∀ x ∈ stack, x.1 < g.rawNodeCount) {found : Option (NodeIndex → Color)}
    (hrun : colorLoop g.targets fuel (valueAt .white color) stack = some found) :
    ∃ found', g.cycleLoop fuel color stack = .ok found' ∧
      found'.map (valueAt .white) = found ∧
      ∀ c, found' = some c → c.length = g.rawNodeCount := by
  induction fuel generalizing color stack with
  | zero =>
    cases stack with
    | nil =>
      cases hrun
      exact ⟨some color, rfl, rfl, by rintro _ ⟨⟩; exact hlen⟩
    | cons x rest => cases hrun
  | succ fuel ih =>
    rcases stack with _ | ⟨⟨node, _ | _⟩, rest⟩
    · cases hrun
      exact ⟨some color, rfl, rfl, by rintro _ ⟨⟩; exact hlen⟩
    · have hnode : node < g.rawNodeCount := hstack _ List.mem_cons_self
      have hrest : ∀ x ∈ rest, x.1 < g.rawNodeCount :=
        fun x hx => hstack x (List.mem_cons_of_mem _ hx)
      rw [colorLoop] at hrun
      rw [cycleLoop, readAt_ok (d := .white) (hlen ▸ hnode)]
      simp only [bind, Except.bind]
      cases hc : valueAt Color.white color node with
      | gray =>
        rw [if_neg (by simp [hc])] at hrun
        exact ih hlen hrest hrun
      | black =>
        rw [if_neg (by simp [hc])] at hrun
        exact ih hlen hrest hrun
      | white =>
        have hlen' : (color.set node .gray).length = g.rawNodeCount := by rwa [List.length_set]
        rw [if_pos hc, ← valueAt_set (hlen ▸ hnode)] at hrun
        have hscan : scanNeighbors (color.set node .gray) (g.neighborsDirected node .outgoing)
            ((node, true) :: rest) = .ok (pushWhite (valueAt .white (color.set node .gray))
              (g.targets node) ((node, true) :: rest)) :=
          scanNeighbors_eq fun w hw => hlen' ▸ h.target_lt hw
        rw [writeAt_ok (hlen ▸ hnode)]
        simp only [hscan]
        cases hpush : pushWhite (valueAt .white (color.set node .gray)) (g.targets node)
          ((node, true) :: rest) with
        | none =>
          rw [hpush] at hrun
          cases hrun
          exact ⟨none, rfl, rfl, by simp⟩
        | some stack =>
          rw [hpush] at hrun
          obtain ⟨new, rfl, -, hnew, -⟩ := pushWhite_some hpush
          refine ih hlen' (fun x hx => ?_) hrun
          rcases List.mem_append.mp hx with hx | hx
          · obtain ⟨w, hw, rfl⟩ := List.mem_map.mp hx
            exact h.target_lt (hnew w hw).1
          · rcases List.mem_cons.mp hx with rfl | hx
            · exact hnode
            · exact hrest x hx
    · have hnode : node < g.rawNodeCount := hstack _ List.mem_cons_self
      rw [colorLoop, ← valueAt_set (hlen ▸ hnode)] at hrun
      rw [cycleLoop, writeAt_ok (hlen ▸ hnode)]
      exact ih (by rwa [List.length_set]) (fun x hx => hstack x (List.mem_cons_of_mem _ hx)) hrun

theorem Wf.cycleStarts_eq {starts : List NodeIndex} (h : g.Wf)
    (hlen : color.length = g.rawNodeCount) (hstarts : ∀ v ∈ starts, v < g.rawNodeCount)
    {found : Option (NodeIndex → Color)}
    (hrun : colorStarts g.targets fuel (valueAt .white color) starts = some found) :
    g.cycleStarts fuel color starts = .ok found.isNone := by
  induction starts generalizing color with
  | nil =>
    cases hrun
    rfl
  | cons start starts ih =>
    rw [List.forall_mem_cons] at hstarts
    rw [colorStarts] at hrun
    rw [cycleStarts, readAt_ok (d := .white) (hlen ▸ hstarts.1)]
    simp only [bind, Except.bind]
    by_cases hwhite : valueAt Color.white color start = .white
    · rw [if_pos hwhite] at hrun
      rw [if_neg (by simp [hwhite])]
      cases hloop : colorLoop g.targets fuel (valueAt .white color) [(start, false)] with
      | none =>
        rw [hloop] at hrun
        cases hrun
      | some reached =>
        obtain ⟨found', hrun', rfl, hlen'⟩ := h.cycleLoop_eq hlen (by simpa using hstarts.1) hloop
        rw [hloop] at hrun
        rw [hrun']
        cases found' with
        | none =>
          cases hrun
          rfl
        | some color' => exact ih (hlen' _ rfl) hstarts.2 hrun
    · rw [if_neg hwhite] at hrun
      rw [if_pos hwhite]
      exact ih hlen hstarts.2 hrun

/-- The rounds that a search from a node takes at most. -/
def searchBound (g : TypedDiGraph N E) : Nat :=
  1 + ∑ v ∈ g.nodeIndices.toFinset, ((g.targets v).length + 1)

/-- The test tells whether there is a cycle. -/
theorem Wf.isCyclicDirected_iff (h : g.Wf) (hfuel : g.searchBound ≤ fuel) :
    ∃ cyclic, g.isCyclicDirected fuel = .ok cyclic ∧
      (cyclic = true ↔ ∃ v, OnCycle g.targets v) := by
  have hall : ∀ v, g.targets v ≠ [] → v ∈ g.nodeIndices := by
    intro v hv
    obtain ⟨w, hw⟩ := List.exists_mem_of_ne_nil _ hv
    exact (h.live_of_joins (h.mem_targets.mp hw)).1
  have hclosed : ∀ v ∈ g.nodeIndices.toFinset, ∀ w ∈ g.targets v, w ∈ g.nodeIndices.toFinset := by
    intro v _ w hw
    exact List.mem_toFinset.mpr (h.live_of_joins (h.mem_targets.mp hw)).2
  obtain ⟨found, hrun, hfound⟩ := colorStarts_iff hclosed hall (by simp) hfuel
  rw [← valueAt_replicate g.rawNodeCount] at hrun
  have heq := h.cycleStarts_eq List.length_replicate (fun v hv => lt_of_mem_nodeIndices hv) hrun
  refine ⟨found.isNone, ?_, by rw [Option.isNone_iff_eq_none, hfound]⟩
  rw [isCyclicDirected]
  split
  · rename_i hn
    have hempty : g.nodeIndices = [] := by
      refine List.eq_nil_iff_forall_not_mem.mpr fun v hv => ?_
      have hlt := lt_of_mem_nodeIndices hv
      rw [show g.rawNodeCount = 0 from hn] at hlt
      exact absurd hlt (Nat.not_lt_zero v)
    rw [hempty] at hrun
    cases hrun
    rfl
  · exact heq

end CycleTest

section Toposort
variable {ws arcs : List NodeIndex}

theorem increments_ok (inDegree : List Nat) (hws : ∀ w ∈ ws, w < inDegree.length) :
    ∃ inDegree', ws.foldlM increment inDegree = .ok inDegree' ∧
      inDegree'.length = inDegree.length ∧
      valueAt 0 inDegree' = countArcs (valueAt 0 inDegree) ws := by
  induction ws generalizing inDegree with
  | nil => exact ⟨inDegree, rfl, rfl, rfl⟩
  | cons w ws ih =>
    rw [List.forall_mem_cons] at hws
    obtain ⟨inDegree', hrun, hlen, heq⟩ :=
      ih (inDegree.set w (valueAt 0 inDegree w + 1)) (by rw [List.length_set]; exact hws.2)
    rw [List.length_set] at hlen
    refine ⟨inDegree', ?_, hlen, ?_⟩
    · rw [List.foldlM_cons, increment, readAt_ok (d := 0) hws.1]
      simp only [bind, Except.bind, writeAt_ok hws.1]
      exact hrun
    · rw [heq, valueAt_set hws.1]
      rfl

theorem Wf.countDegrees_ok (h : g.Wf) (nodes : List Nat) (hlen : inDegree.length = g.rawNodeCount) :
    ∃ inDegree', g.countDegrees inDegree nodes = .ok inDegree' ∧
      inDegree'.length = g.rawNodeCount ∧
      valueAt 0 inDegree' = countArcs (valueAt 0 inDegree) (nodes.flatMap g.targets) := by
  induction nodes generalizing inDegree with
  | nil => exact ⟨inDegree, rfl, hlen, rfl⟩
  | cons node nodes ih =>
    obtain ⟨inDegree₁, hrun₁, hlen₁, heq₁⟩ := increments_ok inDegree fun (w : Nat) hw =>
      (hlen ▸ h.target_lt hw : w < inDegree.length)
    obtain ⟨inDegree₂, hrun₂, hlen₂, heq₂⟩ := ih (hlen₁.trans hlen)
    refine ⟨inDegree₂, ?_, hlen₂, ?_⟩
    · rw [countDegrees, List.foldlM_cons]
      change ((g.targets node).foldlM increment inDegree >>= _) = _
      rw [hrun₁]
      exact hrun₂
    · rw [heq₂, heq₁, List.flatMap_cons, countArcs, countArcs, countArcs, List.foldl_append]

theorem filterDegree_ok {keep : Nat → Bool} (hws : ∀ w ∈ ws, w < inDegree.length) :
    filterDegree inDegree keep ws = .ok (ws.filter fun w => keep (valueAt 0 inDegree w)) := by
  induction ws with
  | nil => rfl
  | cons w ws ih =>
    rw [List.forall_mem_cons] at hws
    rw [filterDegree, readAt_ok (d := 0) hws.1, ih hws.2, List.filter_cons]
    rfl

/-- No degree goes below zero. -/
theorem decrements_ok (hinv : ElimInv g.targets nodes queue result (ws ++ arcs) (valueAt 0 inDegree))
    (hws : ∀ w ∈ ws, w ∈ nodes ∧ w < inDegree.length) :
    ∃ inDegree' queue', ws.foldlM decrement (inDegree, queue) = .ok (inDegree', queue') ∧
      inDegree'.length = inDegree.length ∧
      (valueAt 0 inDegree', queue') = ws.foldl release (valueAt 0 inDegree, queue) := by
  induction ws generalizing inDegree queue with
  | nil => exact ⟨inDegree, queue, rfl, rfl, rfl⟩
  | cons w ws ih =>
    rw [List.forall_mem_cons] at hws
    have hpos : 0 < valueAt 0 inDegree w := hinv.degree_pos
    have hstep : release (valueAt 0 inDegree, queue) w =
        (valueAt 0 (inDegree.set w (valueAt 0 inDegree w - 1)),
          if valueAt 0 inDegree w - 1 = 0 then queue ++ [w] else queue) := by
      rw [valueAt_set hws.1.2]
      simp [release]
    have hnext := hinv.release hws.1.1
    rw [hstep] at hnext
    obtain ⟨inDegree', queue', hrun, hlen, heq⟩ :=
      ih hnext (by rw [List.length_set]; exact hws.2)
    rw [List.length_set] at hlen
    refine ⟨inDegree', queue', ?_, hlen, ?_⟩
    · rw [List.foldlM_cons, decrement, readAt_ok (d := 0) hws.1.2]
      simp only [bind, Except.bind, if_neg (Nat.pos_iff_ne_zero.mp hpos), writeAt_ok hws.1.2]
      exact hrun
    · rw [List.foldl_cons, hstep, heq]

theorem Wf.toposortLoop_ok (h : g.Wf) (hlen : inDegree.length = g.rawNodeCount)
    (hinv : ElimInv g.targets g.nodeIndices queue result (arcsLeft g.targets g.nodeIndices result)
      (valueAt 0 inDegree)) (hfuel : g.nodeIndices.length ≤ fuel + result.length) :
    ∃ inDegree' result', g.toposortLoop fuel inDegree queue result = .ok (inDegree', result') ∧
      inDegree'.length = g.rawNodeCount ∧
      Eliminated g.targets g.nodeIndices result' (valueAt 0 inDegree') := by
  induction fuel generalizing inDegree queue result with
  | zero =>
    cases queue with
    | nil => exact ⟨inDegree, result, rfl, hlen, hinv.finish⟩
    | cons node queue =>
      have := hinv.length_le
      simp only [List.length_cons] at this
      omega
  | succ fuel ih =>
    cases queue with
    | nil => exact ⟨inDegree, result, rfl, hlen, hinv.finish⟩
    | cons node queue =>
      have hws : ∀ w ∈ g.targets node, w ∈ g.nodeIndices ∧ w < inDegree.length := fun w hw =>
        ⟨(h.live_of_joins (h.mem_targets.mp hw)).2, hlen ▸ h.target_lt hw⟩
      have htaken := hinv.take nodup_nodeIndices
      obtain ⟨inDegree', queue', hrun, hlen', heq⟩ := decrements_ok htaken hws
      have hnext := htaken.releaseAll fun w hw => (hws w hw).1
      rw [← heq] at hnext
      obtain ⟨inDegree'', result', hloop, hdone⟩ := ih (hlen'.trans hlen) hnext
        (by simp only [List.length_append, List.length_singleton]; omega)
      refine ⟨inDegree'', result', ?_, hdone⟩
      rw [toposortLoop]
      change ((g.targets node).foldlM decrement (inDegree, queue) >>= _) = _
      rw [hrun]
      exact hloop

/-- The sort returns the order if it has all nodes, and else the nodes that it lacks. -/
theorem Wf.toposort_ok (h : g.Wf) (hfuel : g.nodeIndices.length ≤ fuel) :
    ∃ inDegree result, Eliminated g.targets g.nodeIndices result inDegree ∧
      g.toposort fuel = .ok (if result.length ≠ g.nodeIndices.length then
        .error ⟨g.nodeIndices.filter (· ∉ result)⟩ else .ok result) := by
  have hrange : ∀ v ∈ g.nodeIndices, v < g.rawNodeCount := fun v hv => lt_of_mem_nodeIndices hv
  obtain ⟨inDegree₁, hrun₁, hlen₁, heq₁⟩ := h.countDegrees_ok g.nodeIndices
    (List.length_replicate (n := g.rawNodeCount) (a := 0))
  have hstart : ElimInv g.targets g.nodeIndices _ [] _ _ := ElimInv.start nodup_nodeIndices
  rw [valueAt_replicate] at heq₁
  rw [← heq₁] at hstart
  obtain ⟨inDegree₂, result, hrun₂, hlen₂, hdone⟩ := h.toposortLoop_ok hlen₁ hstart (by simpa)
  have hremaining : filterDegree inDegree₂ (0 < ·) g.nodeIndices =
      .ok (g.nodeIndices.filter (· ∉ result)) := by
    rw [filterDegree_ok (hlen₂ ▸ hrange)]
    refine congrArg _ (List.filter_congr fun v hv => ?_)
    rw [decide_eq_decide, ← hdone.zero v hv, Nat.pos_iff_ne_zero]
  refine ⟨_, result, hdone, ?_⟩
  rw [toposort, hrun₁]
  simp only [bind, Except.bind, filterDegree_ok (hlen₁ ▸ hrange), hrun₂, hremaining]
  split <;> rfl

end Toposort

/-- The node lies on a directed cycle of the graph. -/
def InCycle (g : TypedDiGraph N E) (v : NodeIndex) : Prop := Relation.TransGen g.Joins v v

/-- What the test and the sort say of a graph: whether it has a cycle, and if not an order. -/
structure SortAgreement (g : TypedDiGraph N E) (cyclic : Bool)
    (sorted : Except CycleError (List NodeIndex)) : Prop where
  test : cyclic = true ↔ ∃ v, g.InCycle v
  error : cyclic = true ↔ ∃ err, sorted = .error err
  once : ∀ order, sorted = .ok order → order.Nodup ∧ ∀ v, v ∈ order ↔ g.containsNode v
  forward : ∀ order, sorted = .ok order → ∀ u v, g.Joins u v → order.idxOf u < order.idxOf v

/-- Every node of the error lies on a cycle. -/
def ReportsCycles (g : TypedDiGraph N E) (sorted : Except CycleError (List NodeIndex)) : Prop :=
  ∀ err, sorted = .error err → ∀ v ∈ err.cycle, g.InCycle v

/-- No edges lead from the cycles to nodes that are on none. -/
def CyclesClosed (g : TypedDiGraph N E) : Prop :=
  ∀ u v, g.InCycle u → Relation.ReflTransGen g.Joins u v → g.InCycle v

section Agreement
variable {degree : NodeIndex → Nat} {cyclic : Bool}

/-- What the sort returns after the elimination. -/
def sortResult (g : TypedDiGraph N E) (result : List NodeIndex) :
    Except CycleError (List NodeIndex) :=
  if result.length ≠ g.nodeIndices.length then .error ⟨g.nodeIndices.filter (· ∉ result)⟩
  else .ok result

theorem Wf.arc_eq (h : g.Wf) : Arc g.targets = g.Joins :=
  funext₂ fun _ _ => propext h.mem_targets

theorem Wf.onCycle_iff (h : g.Wf) : OnCycle g.targets v ↔ g.InCycle v := by
  rw [OnCycle, InCycle, h.arc_eq]

theorem Wf.mem_of_targets (h : g.Wf) (hv : g.targets v ≠ []) : v ∈ g.nodeIndices := by
  obtain ⟨w, hw⟩ := List.exists_mem_of_ne_nil _ hv
  exact (h.live_of_joins (h.mem_targets.mp hw)).1

theorem Wf.length_eq_iff (h : g.Wf) (hdone : Eliminated g.targets g.nodeIndices result degree) :
    result.length = g.nodeIndices.length ↔ ¬ ∃ v, g.InCycle v := by
  rw [hdone.complete_iff nodup_nodeIndices fun v => h.mem_of_targets, not_exists]
  exact forall_congr' fun v => not_congr h.onCycle_iff

theorem Wf.sortAgreement (h : g.Wf) (hdone : Eliminated g.targets g.nodeIndices result degree)
    (hcyclic : cyclic = true ↔ ∃ v, g.InCycle v) :
    SortAgreement g cyclic (g.sortResult result) := by
  have hok : ∀ order, g.sortResult result = .ok order →
      order = result ∧ result.length = g.nodeIndices.length := by
    intro order ho
    rw [sortResult] at ho
    split at ho
    · cases ho
    · rename_i hlen
      cases ho
      exact ⟨rfl, not_not.mp hlen⟩
  refine ⟨hcyclic, ?_, ?_, ?_⟩
  · rw [hcyclic, ← not_iff_not, ← h.length_eq_iff hdone, sortResult]
    by_cases hlen : result.length = g.nodeIndices.length <;> simp [hlen]
  · intro order ho
    obtain ⟨rfl, hlen⟩ := hok order ho
    refine ⟨hdone.nodup, fun v => ?_⟩
    rw [← mem_nodeIndices]
    exact ⟨hdone.mem v, (hdone.length_eq_iff nodup_nodeIndices).mp hlen v⟩
  · intro order ho u v huv
    obtain ⟨rfl, hlen⟩ := hok order ho
    obtain ⟨hu, hv⟩ := h.live_of_joins huv
    exact hdone.before_of_mem ((hdone.length_eq_iff nodup_nodeIndices).mp hlen v hv) hu
      (h.mem_targets.mpr huv)

theorem Wf.reportsCycles_iff (h : g.Wf)
    (hdone : Eliminated g.targets g.nodeIndices result degree) :
    ReportsCycles g (g.sortResult result) ↔ g.CyclesClosed := by
  by_cases hlen : result.length = g.nodeIndices.length
  · have hnone := (h.length_eq_iff hdone).mp hlen
    constructor
    · intro _ u v hu
      exact absurd ⟨u, hu⟩ hnone
    · intro _ err herr
      rw [sortResult, if_neg (not_not.mpr hlen)] at herr
      cases herr
  · have herror : g.sortResult result = .error ⟨g.nodeIndices.filter (· ∉ result)⟩ := if_pos hlen
    have hmem : ∀ v, v ∈ g.nodeIndices.filter (· ∉ result) ↔
        v ∈ g.nodeIndices ∧ BehindCycle g.targets v := by
      intro v
      rw [List.mem_filter, decide_eq_true_eq]
      exact and_congr_right fun hv => hdone.notMem_iff (fun v => h.mem_of_targets) hv
    rw [herror]
    constructor
    · intro hreports u v hu huv
      have hv : v ∈ g.nodeIndices := by
        obtain ⟨w, -, hwu⟩ := Relation.TransGen.tail'_iff.mp hu
        rcases Relation.ReflTransGen.cases_tail huv with rfl | ⟨w', -, hwv⟩
        · exact (h.live_of_joins hwu).2
        · exact (h.live_of_joins hwv).2
      refine hreports _ rfl v ((hmem v).mpr ⟨hv, u, h.onCycle_iff.mpr hu, ?_⟩)
      rwa [h.arc_eq]
    · rintro hclosed _ ⟨⟩ v hv
      obtain ⟨-, u, hu, huv⟩ := (hmem v).mp hv
      rw [h.arc_eq] at huv
      exact hclosed u v (h.onCycle_iff.mp hu) huv

end Agreement

/-- The test and the sort agree; what the sort reports are cycles only where these are closed. -/
theorem toposort_agreement (h : Reaches g) : ∃ bound, ∀ fuel ≥ bound, ∃ cyclic sorted,
    g.isCyclicDirected fuel = .ok cyclic ∧ g.toposort fuel = .ok sorted ∧
      SortAgreement g cyclic sorted ∧ (ReportsCycles g sorted ↔ g.CyclesClosed) := by
  have hw := reaches_wf h
  refine ⟨g.searchBound + g.nodeIndices.length, fun fuel hfuel => ?_⟩
  obtain ⟨cyclic, htest, hcyclic⟩ := hw.isCyclicDirected_iff
    (show g.searchBound ≤ fuel by omega)
  obtain ⟨degree, result, hdone, hsort⟩ := hw.toposort_ok
    (show g.nodeIndices.length ≤ fuel by omega)
  have hiff : cyclic = true ↔ ∃ v, g.InCycle v := by
    rw [hcyclic]
    exact exists_congr fun v => hw.onCycle_iff
  exact ⟨cyclic, g.sortResult result, htest, hsort, hw.sortAgreement hdone hiff,
    hw.reportsCycles_iff hdone⟩

/-- Two nodes on a cycle and one behind it. -/
def tailedCycle : TypedDiGraph Unit Unit :=
  ⟨[some (), some (), some ()],
    [some ⟨0, 1, some ()⟩, some ⟨1, 0, some ()⟩, some ⟨1, 2, some ()⟩],
    [[(0, 1)], [(1, 0), (2, 2)], []], [[(1, 1)], [(0, 0)], [(2, 1)]], [], [], 3, 3⟩

theorem reaches_tailedCycle : Reaches tailedCycle := by
  have h₁ : Reaches (⟨[some ()], [], [[]], [[]], [], [], 1, 0⟩ : TypedDiGraph Unit Unit) :=
    .step .new (rfl : apply _ (.addNode ()) = _)
  have h₂ := Reaches.step h₁ (rfl : apply _ (.addNode ()) = _)
  have h₃ := Reaches.step h₂ (rfl : apply _ (.addNode ()) = _)
  have h₄ := Reaches.step h₃ (rfl : apply _ (.addEdge 0 1 ()) = _)
  have h₅ := Reaches.step h₄ (rfl : apply _ (.addEdge 1 0 ()) = _)
  exact Reaches.step h₅ (rfl : apply _ (.addEdge 1 2 ()) = _)

theorem toposort_agreement_tailedCycle : ∃ bound, ∀ fuel ≥ bound, ∃ cyclic sorted,
    tailedCycle.isCyclicDirected fuel = .ok cyclic ∧ tailedCycle.toposort fuel = .ok sorted ∧
      SortAgreement tailedCycle cyclic sorted ∧
      (ReportsCycles tailedCycle sorted ↔ tailedCycle.CyclesClosed) :=
  toposort_agreement reaches_tailedCycle

/-- The node behind the cycle is reported as one of it. -/
theorem not_reportsCycles : ¬ ∀ (g : TypedDiGraph Unit Unit), Reaches g → ∀ fuel sorted,
    g.toposort fuel = .ok sorted → ReportsCycles g sorted := by
  intro hall
  have hreports := hall tailedCycle reaches_tailedCycle 0 (.error ⟨[0, 1, 2]⟩) (by decide)
  have hcycle : tailedCycle.InCycle 2 := hreports ⟨[0, 1, 2]⟩ rfl 2 (by decide)
  obtain ⟨w, ⟨e, entry, he, hfrom, -⟩, -⟩ := Relation.TransGen.head'_iff.mp hcycle
  rcases e with _ | _ | _ | e <;> cases he <;> cases hfrom

end TypedDiGraph

end SqliteGraph
