import SqliteGraph.Lib.Cycles

/-! Topological order by elimination: a node is taken when no arc into it is left. -/
namespace SqliteGraph.Lib

section Search
variable {V : Type} [DecidableEq V]

/-- One more arc into each of the nodes. -/
def countArcs (degree : V → Nat) (targets : List V) : V → Nat :=
  targets.foldl (fun degree w => Function.update degree w (degree w + 1)) degree

/-- An arc into the node is taken away, and the node is queued after the last one. -/
def release (s : (V → Nat) × List V) (w : V) : (V → Nat) × List V :=
  let degree := Function.update s.1 w (s.1 w - 1)
  (degree, if degree w = 0 then s.2 ++ [w] else s.2)

/-- The elimination from a queue: without fuel nothing, else the arcs that are left and the order. -/
def eliminate (next : V → List V) :
    Nat → (V → Nat) → List V → List V → Option ((V → Nat) × List V)
  | _, degree, [], result => some (degree, result)
  | 0, _, _ :: _, _ => none
  | fuel + 1, degree, node :: queue, result =>
    let (degree, queue) := (next node).foldl release (degree, queue)
    eliminate next fuel degree queue (result ++ [node])

end Search

variable {V : Type} {next : V → List V} {nodes queue result arcs ws : List V}
  {degree : V → Nat} {fuel : Nat} {u v w : V}

/-- The nodes in an order: each once, and none before those with an arc into it. -/
structure Ordered (next : V → List V) (nodes result : List V) : Prop where
  nodup : result.Nodup
  mem : ∀ v ∈ result, v ∈ nodes
  earlier : ∀ pre w post, result = pre ++ w :: post → ∀ u ∈ nodes, w ∈ next u → u ∈ pre

namespace Ordered

/-- A way that ends at a node in the order has all of it in the order. -/
theorem mem_of_reaches (h : Ordered next nodes result)
    (hnodes : ∀ v, next v ≠ [] → v ∈ nodes) (huw : Relation.ReflTransGen (Arc next) u w)
    (hw : w ∈ result) : u ∈ result := by
  induction huw using Relation.ReflTransGen.head_induction_on with
  | refl => exact hw
  | head harc _ ih =>
    obtain ⟨pre, post, hsplit⟩ := List.append_of_mem ih
    have hpre := h.earlier pre _ post hsplit _ (hnodes _ (List.ne_nil_of_mem harc)) harc
    rw [hsplit]
    exact List.mem_append_left _ hpre

theorem length_eq_iff (h : Ordered next nodes result) (hnd : nodes.Nodup) :
    result.length = nodes.length ↔ ∀ v ∈ nodes, v ∈ result := by
  have hsub : result.Subperm nodes := h.nodup.subperm h.mem
  constructor
  · intro hlen v hv
    exact (hsub.perm_of_length_le hlen.ge).mem_iff.mpr hv
  · intro hall
    exact Nat.le_antisymm hsub.length_le (hnd.subperm hall).length_le

end Ordered

variable [DecidableEq V]

/-- The degrees count the arcs that are left, and those without any are taken or queued. -/
structure ElimInv (next : V → List V) (nodes queue result arcs : List V) (degree : V → Nat) : Prop
    where
  nodup : (result ++ queue).Nodup
  mem : ∀ v ∈ result ++ queue, v ∈ nodes
  count : ∀ w, degree w = arcs.count w
  zero : ∀ w ∈ nodes, degree w = 0 ↔ w ∈ result ++ queue
  earlier : ∀ pre w post, result = pre ++ w :: post → ∀ u ∈ nodes, w ∈ next u → u ∈ pre

/-- What is left when the queue is empty. -/
structure Eliminated (next : V → List V) (nodes result : List V) (degree : V → Nat) : Prop
    extends Ordered next nodes result where
  zero : ∀ w ∈ nodes, degree w = 0 ↔ w ∈ result
  entered : ∀ w ∈ nodes, w ∉ result → ∃ u ∈ nodes, u ∉ result ∧ w ∈ next u

/-- The arcs from the nodes that are not taken yet. -/
def arcsLeft (next : V → List V) (nodes result : List V) : List V :=
  (nodes.filter (· ∉ result)).flatMap next

theorem mem_arcsLeft : w ∈ arcsLeft next nodes result ↔ ∃ u ∈ nodes, u ∉ result ∧ w ∈ next u := by
  simp [arcsLeft, and_assoc]

theorem arcsLeft_take (hnd : nodes.Nodup) (hu : u ∈ nodes) (hout : u ∉ result) :
    (arcsLeft next nodes result).Perm (next u ++ arcsLeft next nodes (result ++ [u])) := by
  have hperm : (nodes.filter (· ∉ result)).Perm
      (u :: nodes.filter (· ∉ result ++ [u])) := by
    refine (List.perm_ext_iff_of_nodup (hnd.filter _) ?_).mpr ?_
    · refine List.nodup_cons.mpr ⟨by simp, hnd.filter _⟩
    · intro v
      by_cases hv : v = u
      · subst v
        simp [hu, hout]
      · simp [hv]
  exact hperm.flatMap_right next

theorem countArcs_eq (targets : List V) (w : V) :
    countArcs degree targets w = degree w + targets.count w := by
  induction targets generalizing degree with
  | nil => rfl
  | cons t targets ih =>
    rw [countArcs, List.foldl_cons, ← countArcs, ih, List.count_cons]
    by_cases ht : w = t
    · subst w
      simp only [Function.update_self, beq_self_eq_true, if_true]
      omega
    · rw [Function.update_of_ne ht]
      simp [Ne.symm ht]

namespace ElimInv

theorem perm {arcs' : List V} (h : ElimInv next nodes queue result arcs degree)
    (hp : arcs.Perm arcs') : ElimInv next nodes queue result arcs' degree :=
  ⟨h.nodup, h.mem, fun w => (h.count w).trans (hp.count_eq w), h.zero, h.earlier⟩

theorem degree_pos (h : ElimInv next nodes queue result (w :: arcs) degree) : 0 < degree w := by
  rw [h.count, List.count_cons_self]
  omega

/-- One arc is taken away. -/
theorem release (h : ElimInv next nodes queue result (w :: arcs) degree) (hw : w ∈ nodes) :
    ElimInv next nodes (Lib.release (degree, queue) w).2 result arcs
      (Lib.release (degree, queue) w).1 := by
  have hcount := h.count w
  rw [List.count_cons_self] at hcount
  have hout : w ∉ result ++ queue := fun hmem => by
    have := (h.zero w hw).mpr hmem
    omega
  have hother : ∀ v, v ≠ w → arcs.count v = degree v := by
    intro v hv
    rw [h.count v, List.count_cons_of_ne (Ne.symm hv)]
  have hdegree : ∀ v, Function.update degree w (degree w - 1) v = arcs.count v := by
    intro v
    by_cases hv : v = w
    · subst v
      rw [Function.update_self]
      omega
    · rw [Function.update_of_ne hv, hother v hv]
  by_cases hz : degree w - 1 = 0
  · have hqueue : (Lib.release (degree, queue) w).2 = queue ++ [w] := by
      simp [Lib.release, hz]
    rw [hqueue]
    refine ⟨?_, ?_, hdegree, ?_, h.earlier⟩
    · rw [← List.append_assoc]
      exact List.nodup_append.mpr ⟨h.nodup, List.nodup_singleton w, by
        rintro a ha b hb rfl
        exact hout (List.mem_singleton.mp hb ▸ ha)⟩
    · intro v hv
      rw [← List.append_assoc, List.mem_append, List.mem_singleton] at hv
      rcases hv with hv | rfl
      · exact h.mem v hv
      · exact hw
    · intro v hv
      rw [← List.append_assoc, List.mem_append, List.mem_singleton]
      by_cases hvw : v = w
      · subst v
        simp [Lib.release, hz]
      · simp only [Lib.release, Function.update_of_ne hvw, h.zero v hv, hvw, or_false]
  · have hqueue : (Lib.release (degree, queue) w).2 = queue := by
      simp [Lib.release, hz]
    rw [hqueue]
    refine ⟨h.nodup, h.mem, hdegree, ?_, h.earlier⟩
    intro v hv
    by_cases hvw : v = w
    · subst v
      simp [Lib.release, hz, hout]
    · simp only [Lib.release, Function.update_of_ne hvw, h.zero v hv]

theorem releaseAll (h : ElimInv next nodes queue result (ws ++ arcs) degree)
    (hws : ∀ w ∈ ws, w ∈ nodes) :
    ElimInv next nodes (ws.foldl Lib.release (degree, queue)).2 result arcs
      (ws.foldl Lib.release (degree, queue)).1 := by
  induction ws generalizing degree queue with
  | nil => exact h
  | cons w ws ih =>
    rw [List.forall_mem_cons] at hws
    exact ih (h.release hws.1) hws.2

/-- The first of the queue is taken: all arcs into it came from nodes taken before. -/
theorem take {node : V} (hnd : nodes.Nodup)
    (h : ElimInv next nodes (node :: queue) result (arcsLeft next nodes result) degree) :
    ElimInv next nodes queue (result ++ [node])
      (next node ++ arcsLeft next nodes (result ++ [node])) degree := by
  have hmem : node ∈ result ++ node :: queue := by simp
  have hnode : node ∈ nodes := h.mem node hmem
  have hout : node ∉ result := by
    have := h.nodup
    rw [List.nodup_append] at this
    exact fun hr => this.2.2 node hr node List.mem_cons_self rfl
  have hsame : result ++ [node] ++ queue = result ++ node :: queue := by simp
  refine ElimInv.perm ⟨?_, ?_, h.count, ?_, ?_⟩ (arcsLeft_take hnd hnode hout)
  · rw [hsame]
    exact h.nodup
  · rw [hsame]
    exact h.mem
  · rw [hsame]
    exact h.zero
  · intro pre w post hsplit u hu hw
    rcases List.eq_nil_or_concat post with rfl | ⟨post, x, rfl⟩
    · obtain ⟨rfl, hlast⟩ := List.append_inj' hsplit rfl
      obtain rfl : node = w := by simpa using hlast
      by_contra hur
      have hzero := (h.zero node hnode).mpr hmem
      rw [h.count, List.count_eq_zero] at hzero
      exact hzero (mem_arcsLeft.mpr ⟨u, hu, hur, hw⟩)
    · rw [List.concat_eq_append, ← List.cons_append, ← List.append_assoc] at hsplit
      obtain ⟨hpre, -⟩ := List.append_inj' hsplit rfl
      exact h.earlier pre w post hpre u hu hw

theorem length_le (h : ElimInv next nodes queue result arcs degree) :
    result.length + queue.length ≤ nodes.length := by
  rw [← List.length_append]
  exact (h.nodup.subperm h.mem).length_le

theorem finish (h : ElimInv next nodes [] result (arcsLeft next nodes result) degree) :
    Eliminated next nodes result degree := by
  have hzero : ∀ w ∈ nodes, degree w = 0 ↔ w ∈ result := by
    simpa only [List.append_nil] using h.zero
  refine ⟨⟨?_, ?_, h.earlier⟩, hzero, ?_⟩
  · simpa only [List.append_nil] using h.nodup
  · simpa only [List.append_nil] using h.mem
  · intro w hw hout
    have hpos : (arcsLeft next nodes result).count w ≠ 0 := by
      rw [← h.count, ne_eq, hzero w hw]
      exact hout
    exact mem_arcsLeft.mp (List.count_pos_iff.mp (Nat.pos_of_ne_zero hpos))

/-- Before the first node is taken. -/
theorem start (hnd : nodes.Nodup) :
    ElimInv next nodes (nodes.filter fun w => countArcs (fun _ => 0) (nodes.flatMap next) w = 0) []
      (arcsLeft next nodes []) (countArcs (fun _ => 0) (nodes.flatMap next)) := by
  have hall : arcsLeft next nodes [] = nodes.flatMap next := by simp [arcsLeft]
  refine ⟨hnd.filter _, ?_, ?_, ?_, by simp⟩
  · intro v hv
    exact (List.mem_filter.mp hv).1
  · intro w
    rw [hall, countArcs_eq, Nat.zero_add]
  · intro w hw
    simp [hw]

end ElimInv

/-- Each round takes a node, so with a round for each node the queue runs empty. -/
theorem eliminate_run (hnd : nodes.Nodup) (hnext : ∀ v ∈ nodes, ∀ w ∈ next v, w ∈ nodes)
    (h : ElimInv next nodes queue result (arcsLeft next nodes result) degree)
    (hfuel : nodes.length ≤ fuel + result.length) :
    ∃ degree' result', eliminate next fuel degree queue result = some (degree', result') ∧
      Eliminated next nodes result' degree' := by
  induction fuel generalizing queue result degree with
  | zero =>
    cases queue with
    | nil => exact ⟨degree, result, rfl, h.finish⟩
    | cons node queue =>
      have := h.length_le
      simp only [List.length_cons] at this
      omega
  | succ fuel ih =>
    cases queue with
    | nil => exact ⟨degree, result, rfl, h.finish⟩
    | cons node queue =>
      have hnode : node ∈ nodes := h.mem node (by simp)
      have htaken := (h.take hnd).releaseAll (hnext node hnode)
      rw [eliminate]
      exact ih htaken (by simp only [List.length_append, List.length_singleton]; omega)

namespace Eliminated

/-- Where a node comes in the order, after the nodes with an arc into it. -/
theorem before_of_mem (h : Eliminated next nodes result degree) (hw : w ∈ result) (hu : u ∈ nodes)
    (harc : w ∈ next u) : result.idxOf u < result.idxOf w := by
  obtain ⟨pre, post, hsplit⟩ := List.append_of_mem hw
  have hpre : u ∈ pre := h.earlier pre w post hsplit u hu harc
  have hout : w ∉ pre := by
    have hnd := h.nodup
    rw [hsplit, List.nodup_append] at hnd
    exact fun hmem => hnd.2.2 w hmem w List.mem_cons_self rfl
  rw [hsplit, List.idxOf_append_of_mem hpre, List.idxOf_append_of_notMem hout,
    List.idxOf_cons_self]
  exact List.idxOf_lt_length_of_mem hpre

theorem notMem_of_onCycle (h : Eliminated next nodes result degree)
    (hnodes : ∀ v, next v ≠ [] → v ∈ nodes) (hv : OnCycle next v) : v ∉ result := by
  intro hmem
  have hbefore : ∀ {x y}, Relation.TransGen (Arc next) x y → y ∈ result →
      result.idxOf x < result.idxOf y := by
    intro x y hxy hy
    induction hxy with
    | single harc => exact h.before_of_mem hy (hnodes _ (List.ne_nil_of_mem harc)) harc
    | tail _ harc ih =>
      have hlt := h.before_of_mem hy (hnodes _ (List.ne_nil_of_mem harc)) harc
      exact (ih (h.mem_of_reaches hnodes (.single harc) hy)).trans hlt
  exact Nat.lt_irrefl _ (hbefore hv hmem)

/-- The nodes that are left out are those behind a cycle, not only those on one. -/
theorem notMem_iff (h : Eliminated next nodes result degree)
    (hnodes : ∀ v, next v ≠ [] → v ∈ nodes) (hv : v ∈ nodes) :
    v ∉ result ↔ BehindCycle next v := by
  constructor
  · intro hout
    have hleft : v ∈ (nodes.filter (· ∉ result)).toFinset := by simp [hv, hout]
    refine behindCycle_of_entered (fun w hw => ?_) hleft
    simp only [List.mem_toFinset, List.mem_filter, decide_eq_true_eq] at hw ⊢
    obtain ⟨u, hu, hur, harc⟩ := h.entered w hw.1 hw.2
    exact ⟨u, ⟨hu, hur⟩, harc⟩
  · rintro ⟨c, hc, hcv⟩ hmem
    exact h.notMem_of_onCycle hnodes hc (h.mem_of_reaches hnodes hcv hmem)

/-- All nodes are taken exactly when the graph has no cycle. -/
theorem complete_iff (h : Eliminated next nodes result degree) (hnd : nodes.Nodup)
    (hnodes : ∀ v, next v ≠ [] → v ∈ nodes) :
    result.length = nodes.length ↔ ∀ v, ¬ OnCycle next v := by
  rw [h.length_eq_iff hnd]
  constructor
  · intro hall v hv
    obtain ⟨w, hw, -⟩ := Relation.TransGen.head'_iff.mp hv
    exact h.notMem_of_onCycle hnodes hv (hall v (hnodes v (List.ne_nil_of_mem hw)))
  · intro hnone v hv
    by_contra hout
    obtain ⟨c, hc, -⟩ := (h.notMem_iff hnodes hv).mp hout
    exact hnone c hc

end Eliminated

end SqliteGraph.Lib
