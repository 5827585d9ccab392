import SqliteGraph.Algo.DominanceFlow
import SqliteGraph.Lib.Bytes

/-! Dominators of a control-flow graph: the sets, and the tree that is extracted from them. -/
namespace SqliteGraph.Algo
open Lib Sqlite

structure DominatorResult where
  dom : NodeSets
  idom : Int64 → Option (Option Int64)

namespace DominatorResult
variable (result : DominatorResult)

def dominates (dominator node : Int64) : Bool := (result.dom node).any (dominator ∈ ·)

def immediateDominator (node : Int64) : Option Int64 := (result.idom node).join

def isEntry (node : Int64) : Bool := (result.idom node).any (·.isNone)

end DominatorResult

section Postorder
variable (successors : Int64 → List Int64)

/-- The stack holds nodes with whether their successors have been visited. -/
def reversePostorderLoop :
    Nat → Finset Int64 → List Int64 → List (Int64 × Bool) → Except SqliteGraphError (List Int64)
  | _, _, order, [] => .ok order
  | 0, _, _, _ :: _ => .error .outOfFuel
  | fuel + 1, visited, order, (node, true) :: stack =>
    reversePostorderLoop fuel visited (node :: order) stack
  | fuel + 1, visited, order, (node, false) :: stack =>
    if node ∈ visited then reversePostorderLoop fuel visited order stack
    else
      let visited := insert node visited
      let unvisited := (successors node).filter (· ∉ visited)
      reversePostorderLoop fuel visited order
        (unvisited.map (·, false) ++ (node, true) :: stack)

/-- A bound on the entries that the stack of a search ever holds. -/
def stackBound (nodes : List Int64) : Nat :=
  (nodes.map fun v => (successors v).length + 2).sum + 1

end Postorder

/-- The order of a depth-first search turned round, so that the entry comes first. -/
def reversePostorder (t : Tables) (entry : Int64) : Except SqliteGraphError (List Int64) :=
  reversePostorderLoop (fetchOutgoing t) (stackBound (fetchOutgoing t) t.entities) ∅ []
    [(entry, false)]

def maxIterations : Nat := 1000

def dominators (choices : Int64 → Nat → Nat) (t : Tables) (entry : Int64) :
    Except SqliteGraphError DominatorResult := do
  if entry ∉ t.entities then .error (.notFound s!"Entry node {entry} not found in graph")
  else
    let order ← reversePostorder t entry
    let dom ← iterateSets (fetchIncoming t) order
      (.queryError s!"Dominator computation failed to converge after {maxIterations} iterations")
      maxIterations (initializeSets t.entities entry)
    return ⟨dom, extractImmediate choices dom entry⟩

section Search
variable {successors : Int64 → List Int64} {nodes order l : List Int64} {visited : Finset Int64}
  {stack : List (Int64 × Bool)} {root node v : Int64} {fuel : Nat} {E : Int64 → Int64 → Prop}

/-- What a search has still to do: its stack, and the nodes that it has not visited. -/
def postorderWork (successors : Int64 → List Int64) (nodes : List Int64) (visited : Finset Int64)
    (stack : List (Int64 × Bool)) : Nat :=
  ((nodes.filter (· ∉ visited)).map fun v => (successors v).length + 2).sum + stack.length

theorem sum_filter_insert (f : Int64 → Nat) (hmem : node ∈ l) (hnew : node ∉ visited) :
    ((l.filter (· ∉ insert node visited)).map f).sum + f node ≤
      ((l.filter (· ∉ visited)).map f).sum := by
  induction l with
  | nil => cases hmem
  | cons v l ih =>
    have hmono : ∀ l : List Int64, ((l.filter (· ∉ insert node visited)).map f).sum ≤
        ((l.filter (· ∉ visited)).map f).sum := by
      intro l
      refine List.Sublist.sum_le_sum (List.Sublist.map f ?_) (by simp)
      refine List.monotone_filter_right l fun v hv => ?_
      simp only [Finset.mem_insert, not_or, decide_eq_true_eq] at hv ⊢
      exact hv.2
    by_cases hv : v = node
    · subst hv
      have hle := hmono l
      simp only [List.filter_cons, Finset.mem_insert_self, not_true_eq_false, decide_false,
        Bool.false_eq_true, if_false, hnew, not_false_eq_true, decide_true, if_true, List.map_cons,
        List.sum_cons]
      omega
    · have ih := ih ((List.mem_cons.mp hmem).resolve_left (Ne.symm hv))
      by_cases hvis : v ∈ visited
      · simpa [List.filter_cons, hv, hvis] using ih
      · have hins : v ∉ insert node visited := by simp [hv, hvis]
        simp only [List.filter_cons, hins, hvis, not_false_eq_true, decide_true, if_true,
          List.map_cons, List.sum_cons]
        omega

/-- The search has visited nodes that are reached, and knows where their successors are. -/
structure PostorderInv (E : Int64 → Int64 → Prop) (root : Int64) (visited : Finset Int64)
    (order : List Int64) (stack : List (Int64 × Bool)) : Prop where
  reached : ∀ v ∈ visited, Reached E root v
  pending : ∀ x ∈ stack, Reached E root x.1
  kept : ∀ v ∈ visited, v ∈ order ∨ (v, true) ∈ stack
  done : ∀ v ∈ order, v ∈ visited
  marked : ∀ v, (v, true) ∈ stack → v ∈ visited
  follows : ∀ v ∈ visited, ∀ w, E v w → w ∈ visited ∨ (w, false) ∈ stack
  bottom : visited = ∅ ∧ stack = [(root, false)] ∨ root ∈ visited ∧
    (stack.getLast? = some (root, true) ∨ stack = [] ∧ order.head? = some root)

namespace PostorderInv

theorem start : PostorderInv E root ∅ [] [(root, false)] := by
  refine ⟨by simp, ?_, by simp, by simp, by simp, by simp, .inl ⟨rfl, rfl⟩⟩
  intro x hx
  rw [List.mem_singleton.mp hx]
  exact .start

theorem ends (h : PostorderInv E root visited order []) : order.head? = some root ∧
    ∀ v, v ∈ order ↔ Reached E root v := by
  have hroot : root ∈ visited ∧ order.head? = some root := by
    rcases h.bottom with ⟨-, hstack⟩ | ⟨hroot, hlast | ⟨-, hhead⟩⟩
    · cases hstack
    · cases hlast
    · exact ⟨hroot, hhead⟩
  refine ⟨hroot.2, fun v => ⟨fun hv => h.reached v (h.done v hv), fun hv => ?_⟩⟩
  obtain ⟨p, hp⟩ := hv
  have hvisited : v ∈ visited := by
    induction hp with
    | nil => exact hroot.1
    | step _ he ih => exact (h.follows _ ih _ he).resolve_right (by simp)
  exact (h.kept v hvisited).resolve_right (by simp)

theorem leave (h : PostorderInv E root visited order ((node, true) :: stack)) :
    PostorderInv E root visited (node :: order) stack := by
  refine ⟨h.reached, fun x hx => h.pending x (.tail _ hx), ?_, ?_, ?_, ?_, ?_⟩
  · intro v hv
    have hkept := h.kept v hv
    simp only [List.mem_cons, Prod.mk.injEq, and_true] at hkept ⊢
    tauto
  · refine List.forall_mem_cons.mpr ⟨h.marked node (.head _), h.done⟩
  · exact fun v hv => h.marked v (.tail _ hv)
  · intro v hv w he
    simpa using h.follows v hv w he
  · right
    rcases h.bottom with ⟨-, hstack⟩ | ⟨hroot, hlast | ⟨hstack, -⟩⟩
    · cases hstack
    · refine ⟨hroot, ?_⟩
      cases stack with
      | nil =>
        cases hlast
        exact .inr ⟨rfl, rfl⟩
      | cons x stack => exact .inl (by rwa [List.getLast?_cons_cons] at hlast)
    · cases hstack

theorem skip (h : PostorderInv E root visited order ((node, false) :: stack)) (hnode : node ∈ visited) :
    PostorderInv E root visited order stack := by
  refine ⟨h.reached, fun x hx => h.pending x (.tail _ hx), ?_, h.done,
    fun v hv => h.marked v (.tail _ hv), ?_, ?_⟩
  · intro v hv
    simpa using h.kept v hv
  · intro v hv w he
    have hfollows := h.follows v hv w he
    simp only [List.mem_cons, Prod.mk.injEq, and_true] at hfollows
    rcases hfollows with hw | rfl | hw
    · exact .inl hw
    · exact .inl hnode
    · exact .inr hw
  · right
    rcases h.bottom with ⟨hempty, -⟩ | ⟨hroot, hlast | ⟨hstack, -⟩⟩
    · rw [hempty] at hnode
      cases hnode
    · refine ⟨hroot, .inl ?_⟩
      cases stack with
      | nil => cases hlast
      | cons x stack => rwa [List.getLast?_cons_cons] at hlast
    · cases hstack

theorem enter (h : PostorderInv E root visited order ((node, false) :: stack))
    (hsucc : ∀ u v, v ∈ successors u ↔ E u v) :
    PostorderInv E root (insert node visited) order
      (((successors node).filter (· ∉ insert node visited)).map (·, false) ++
        (node, true) :: stack) := by
  have hnode := h.pending _ (.head _)
  refine ⟨?_, ?_, ?_, ?_, ?_, ?_, ?_⟩
  · intro v hv
    rcases Finset.mem_insert.mp hv with rfl | hv
    · exact hnode
    · exact h.reached v hv
  · intro x hx
    rcases List.mem_append.mp hx with hx | hx
    · obtain ⟨w, hw, rfl⟩ := List.mem_map.mp hx
      exact hnode.step ((hsucc node w).mp (List.mem_filter.mp hw).1)
    · rcases List.mem_cons.mp hx with rfl | hx
      · exact hnode
      · exact h.pending x (.tail _ hx)
  · intro v hv
    rcases Finset.mem_insert.mp hv with rfl | hv
    · exact .inr (by simp)
    · have hkept := h.kept v hv
      simp only [List.mem_cons, Prod.mk.injEq, Bool.true_eq_false, and_false, false_or] at hkept
      rcases hkept with hdone | hstack
      · exact .inl hdone
      · exact .inr (by simp [hstack])
  · exact fun v hv => Finset.mem_insert_of_mem (h.done v hv)
  · intro v hv
    simp only [List.mem_append, List.mem_map, Prod.mk.injEq, Bool.false_eq_true, and_false,
      exists_false, List.mem_cons, and_true, false_or] at hv
    rcases hv with rfl | hv
    · exact Finset.mem_insert_self _ _
    · exact Finset.mem_insert_of_mem (h.marked v (.tail _ hv))
  · intro v hv w he
    by_cases hw : w ∈ insert node visited
    · exact .inl hw
    refine .inr ?_
    rcases Finset.mem_insert.mp hv with rfl | hv
    · exact List.mem_append_left _ (List.mem_map.mpr
        ⟨w, List.mem_filter.mpr ⟨(hsucc v w).mpr he, by simpa using hw⟩, rfl⟩)
    · have hfollows := (h.follows v hv w he).resolve_left fun hin => hw (Finset.mem_insert_of_mem hin)
      rcases List.mem_cons.mp hfollows with heq | hstack
      · cases heq
        exact absurd (Finset.mem_insert_self _ _) hw
      · simp [hstack]
  · right
    have hlast : ((node, true) :: stack).getLast? = some (root, true) ∧ root ∈ insert node visited := by
      rcases h.bottom with ⟨-, hstack⟩ | ⟨hroot, hlast | ⟨hstack, -⟩⟩
      · cases hstack
        exact ⟨rfl, Finset.mem_insert_self _ _⟩
      · refine ⟨?_, Finset.mem_insert_of_mem hroot⟩
        cases stack with
        | nil => cases hlast
        | cons x stack =>
          rw [List.getLast?_cons_cons] at hlast ⊢
          exact hlast
      · cases hstack
    exact ⟨hlast.2, .inl (by rw [List.getLast?_append, hlast.1]; rfl)⟩

end PostorderInv

/-- The search ends, with the nodes that are reached, the root first. -/
theorem reversePostorderLoop_run (hsucc : ∀ u v, v ∈ successors u ↔ E u v)
    (hnodes : ∀ v, Reached E root v → v ∈ nodes) (h : PostorderInv E root visited order stack)
    (hfuel : postorderWork successors nodes visited stack ≤ fuel) :
    ∃ order', reversePostorderLoop successors fuel visited order stack = .ok order' ∧
      order'.head? = some root ∧ ∀ v, v ∈ order' ↔ Reached E root v := by
  induction fuel generalizing visited order stack with
  | zero =>
    cases stack with
    | nil => exact ⟨order, rfl, h.ends⟩
    | cons x stack => simp [postorderWork] at hfuel
  | succ fuel ih =>
    rcases stack with _ | ⟨⟨node, _ | _⟩, stack⟩
    · exact ⟨order, rfl, h.ends⟩
    · rw [reversePostorderLoop]
      split
      · rename_i hnode
        refine ih (h.skip hnode) ?_
        simp only [postorderWork, List.length_cons] at hfuel ⊢
        omega
      · rename_i hnew
        refine ih (h.enter hsucc) ?_
        have hsum := sum_filter_insert (fun v => (successors v).length + 2)
          (hnodes node (h.pending _ (.head _))) hnew
        have hlen : ((successors node).filter (· ∉ insert node visited)).length ≤
            (successors node).length := List.length_filter_le _ _
        simp only [postorderWork, List.length_cons, List.length_append, List.length_map] at hfuel ⊢
        omega
    · rw [reversePostorderLoop]
      refine ih h.leave ?_
      simp only [postorderWork, List.length_cons] at hfuel ⊢
      omega

end Search

section Exactness
variable {g : FiniteGraph} {choices : Int64 → Nat → Nat} {entry n d : Int64} {result : DominatorResult}

theorem FiniteGraph.reached_entities (hentry : entry ∈ g.entities) {v : Int64}
    (h : Reached (Joined g.toTables) entry v) : v ∈ g.entities :=
  g.reached_mem (fun _ _ he => (g.joined_mem he).2) hentry h

theorem reversePostorder_run (hentry : entry ∈ g.entities) :
    ∃ order, reversePostorder g.toTables entry = .ok order ∧
      FlowGraph (Joined g.toTables) (fetchIncoming g.toTables) g.entities entry order := by
  obtain ⟨order, hrun, hhead, horder⟩ := reversePostorderLoop_run
    (fun _ _ => mem_fetchOutgoing) (fun v hv => FiniteGraph.reached_entities hentry hv)
    PostorderInv.start (show postorderWork (fetchOutgoing g.toTables) g.entities _ _ ≤
      stackBound (fetchOutgoing g.toTables) g.entities by simp [postorderWork, stackBound])
  exact ⟨order, hrun, fun _ _ => mem_fetchIncoming, fun _ _ he => g.joined_mem he, hentry, hhead,
    horder⟩

/-- What the result is made of, where there is one. -/
theorem dominators_sets (h : dominators choices g.toTables entry = .ok result) :
    entry ∈ g.entities ∧ DominatorSets (Joined g.toTables) g.entities entry result.dom ∧
      result.idom = extractImmediate choices result.dom entry := by
  rw [dominators] at h
  split at h
  · cases h
  rename_i hentry
  rw [not_not] at hentry
  obtain ⟨order, hrun, hg⟩ := reversePostorder_run hentry
  obtain ⟨order', hrun', h⟩ := except_bind_eq_ok h
  rw [hrun] at hrun'
  cases hrun'
  obtain ⟨dom, hdom, h⟩ := except_bind_eq_ok h
  cases h
  exact ⟨hentry, hg.iterateSets_solved hg.initial hdom, rfl⟩

/-- The search does not use up its rounds. -/
theorem dominators_error {e : SqliteGraphError} (h : dominators choices g.toTables entry = .error e) :
    e ≠ .outOfFuel := by
  rw [dominators] at h
  split at h
  · cases h
    simp
  rename_i hentry
  rw [not_not] at hentry
  obtain ⟨order, hrun, -⟩ := reversePostorder_run hentry
  rw [hrun] at h
  cases hdom : iterateSets (fetchIncoming g.toTables) order
      (.queryError s!"Dominator computation failed to converge after {maxIterations} iterations")
      maxIterations (initializeSets g.entities entry) with
  | ok dom =>
    simp only [bind, Except.bind, hdom] at h
    cases h
  | error e' =>
    simp only [bind, Except.bind, hdom] at h
    cases h
    rw [iterateSets_error hdom]
    simp

/-- The sets, the tree and what is asked of them agree with the paths, for each node that is reached. -/
structure DominatorResult.Exact (result : DominatorResult) (g : FiniteGraph) (entry : Int64) :
    Prop where
  dom : ∀ n, Reached (Joined g.toTables) entry n → ∃ set, result.dom n = some set ∧
    ∀ d, d ∈ set ↔ Dominates (Joined g.toTables) entry d n
  dominates : ∀ n, Reached (Joined g.toTables) entry n →
    ∀ d, result.dominates d n = true ↔ Dominates (Joined g.toTables) entry d n
  idom : ∀ n, Reached (Joined g.toTables) entry n → n ≠ entry →
    ∀ i, result.immediateDominator n = some i ↔ ImmediatelyDominates (Joined g.toTables) entry i n
  found : ∀ n, Reached (Joined g.toTables) entry n → n ≠ entry →
    (result.immediateDominator n).isSome
  root : result.idom entry = some none

/-- Sets of dominators give the tree, in whatever order they are looked through. -/
theorem DominatorSets.result_exact
    (hsets : DominatorSets (Joined g.toTables) g.entities entry result.dom)
    (hentry : entry ∈ g.entities) (hidom : result.idom = extractImmediate choices result.dom entry) :
    result.Exact g entry := by
  have hnodes := fun v (hv : Reached _ entry v) => FiniteGraph.reached_entities hentry hv
  have hget : ∀ n, Reached (Joined g.toTables) entry n → ∃ set, result.dom n = some set ∧
      ∀ d, d ∈ set ↔ Dominates (Joined g.toTables) entry d n := by
    intro n hn
    obtain ⟨set, hset, -⟩ := hsets.get n (hnodes n hn)
    exact ⟨set, hset, hsets.exact n set hn hset⟩
  have htree : ∀ n, Reached (Joined g.toTables) entry n → n ≠ entry →
      ∃ i, result.immediateDominator n = some i ∧
        ImmediatelyDominates (Joined g.toTables) entry i n := by
    intro n hn hne
    obtain ⟨i, hi, himm⟩ := hsets.extract choices hnodes hn hne
    exact ⟨i, by rw [DominatorResult.immediateDominator, hidom, hi]; rfl, himm⟩
  refine ⟨hget, ?_, ?_, ?_, ?_⟩
  · intro n hn d
    obtain ⟨set, hset, hmem⟩ := hget n hn
    simp [DominatorResult.dominates, hset, hmem]
  · intro n hn hne i
    obtain ⟨j, hj, himm⟩ := htree n hn hne
    rw [hj, Option.some.injEq]
    constructor
    · rintro rfl
      exact himm
    · exact fun hi => himm.unique hi hn
  · intro n hn hne
    obtain ⟨i, hi, -⟩ := htree n hn hne
    rw [hi]
    rfl
  · rw [hidom, extractImmediate, if_pos rfl]

theorem dominators_exact (g : FiniteGraph) (choices : Int64 → Nat → Nat) (entry : Int64)
    (result : DominatorResult) (h : dominators choices g.toTables entry = .ok result) :
    result.Exact g entry := by
  obtain ⟨hentry, hsets, hidom⟩ := dominators_sets h
  exact hsets.result_exact hentry hidom

/-- Two nodes that lead to one another. -/
def mutualGraph : FiniteGraph where
  entities := [1, 2]
  edges := [⟨⟨1, 2, "flow"⟩, 1⟩, ⟨⟨2, 1, "flow"⟩, 2⟩]
  nodup := by decide
  closed := by decide

theorem dominators_mutualGraph : ∃ result,
    dominators (fun _ _ => 0) mutualGraph.toTables 1 = .ok result := by
  cases h : dominators (fun _ _ => 0) mutualGraph.toTables 1 with
  | ok result => exact ⟨result, rfl⟩
  | error e =>
    have hok : (dominators (fun _ _ => 0) mutualGraph.toTables 1).isOk = true := by decide +kernel
    rw [h] at hok
    cases hok

theorem mutualGraph_exact : ∃ result,
    dominators (fun _ _ => 0) mutualGraph.toTables 1 = .ok result ∧ result.Exact mutualGraph 1 := by
  obtain ⟨result, h⟩ := dominators_mutualGraph
  exact ⟨result, h, dominators_exact mutualGraph (fun _ _ => 0) 1 result h⟩

end Exactness

end SqliteGraph.Algo
