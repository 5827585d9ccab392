import SqliteGraph.Algo.Dominators

/-! Post-dominators: the same iteration against the edges, from one exit or from a virtual one. -/
namespace SqliteGraph.Algo
open Lib Sqlite

structure PostDominatorResult where
  postDom : NodeSets
  ipdom : Int64 → Option (Option Int64)

namespace PostDominatorResult
variable (result : PostDominatorResult)

def postDominates (postDominator node : Int64) : Bool :=
  (result.postDom node).any (postDominator ∈ ·)

def immediatePostDominator (node : Int64) : Option Int64 := (result.ipdom node).join

def isExit (node : Int64) : Bool := (result.ipdom node).any (·.isNone)

/-- The node is taken out of the maps and of the sets, and is no one's immediate post-dominator. -/
def remove (node : Int64) : PostDominatorResult where
  postDom n := if n = node then none else (result.postDom n).map fun set => set.filter (· ≠ node)
  ipdom n := if n = node then none
    else (result.ipdom n).map fun i => if i = some node then none else i

end PostDominatorResult

/-- For each node the nodes with an edge to it. -/
abbrev PredecessorMap := AList fun _ : Int64 => List Int64

namespace PredecessorMap
variable (preds : PredecessorMap)

def get (node : Int64) : List Int64 := (preds.lookup node).getD []

/-- `entry(node).or_insert_with(Vec::new)`, and what is added to it. -/
def extend (node : Int64) (more : List Int64) : PredecessorMap :=
  preds.insert node (preds.get node ++ more)

/-- The nodes in whose lists the node is. -/
def successors (node : Int64) : List Int64 := preds.keys.filter fun succ => node ∈ preds.get succ

end PredecessorMap

def addSuccessors (t : Tables) (preds : PredecessorMap) (node : Int64) : PredecessorMap :=
  ((fetchOutgoing t node).foldl (fun preds succ => preds.extend succ [node]) preds).extend node []

def buildPredecessorMap (t : Tables) : PredecessorMap := t.entities.foldl (addSuccessors t) ∅

def pushPredecessors (visited : Finset Int64) :
    List Int64 → Finset Int64 → List (Int64 × Bool) → Finset Int64 × List (Int64 × Bool)
  | [], seen, stack => (seen, stack)
  | pred :: rest, seen, stack =>
    if pred ∉ visited ∧ pred ∉ seen then
      pushPredecessors visited rest (insert pred seen) ((pred, false) :: stack)
    else pushPredecessors visited rest seen stack

/-- The stack holds nodes with whether their predecessors have been visited. -/
def reversedLoop (preds : PredecessorMap) : Nat → Finset Int64 → Finset Int64 → List Int64 →
    List (Int64 × Bool) → Except SqliteGraphError (List Int64)
  | _, _, _, order, [] => .ok order
  | 0, _, _, _, _ :: _ => .error .outOfFuel
  | fuel + 1, visited, seen, order, (node, true) :: stack =>
    reversedLoop preds fuel (insert node visited) seen (node :: order) stack
  | fuel + 1, visited, seen, order, (node, false) :: stack =>
    let (seen, stack) :=
      pushPredecessors visited (preds.get node).reverse seen ((node, true) :: stack)
    reversedLoop preds fuel visited seen order stack

def reversePostorderReversed (preds : PredecessorMap) (exit : Int64) (allNodes : List Int64) :
    Except SqliteGraphError (List Int64) :=
  reversedLoop preds (2 * allNodes.length) ∅ {exit} [] [(exit, false)]

/-- The sets that the rounds end with. -/
def postDominatorSets (preds : PredecessorMap) (allNodes : List Int64) (exit : Int64) :
    Except SqliteGraphError NodeSets := do
  let order ← reversePostorderReversed preds exit allNodes
  iterateSets preds.successors order (.queryError
    s!"Post-dominator computation failed to converge after {maxIterations} iterations")
    maxIterations (initializeSets allNodes exit)

def postDominators (choices : Int64 → Nat → Nat) (t : Tables) (exit : Int64) :
    Except SqliteGraphError PostDominatorResult := do
  if exit ∉ t.entities then .error (.notFound s!"Exit node {exit} not found in graph")
  else
    let postDom ← postDominatorSets (buildPredecessorMap t) t.entities exit
    return ⟨postDom, extractImmediate choices postDom exit⟩

def virtualExit : Int64 := -1

def postDominatorsWithVirtualExit (choices : Int64 → Nat → Nat) (t : Tables) (exits : List Int64) :
    Except SqliteGraphError PostDominatorResult := do
  let preds := (buildPredecessorMap t).extend virtualExit exits
  let postDom ← postDominatorSets preds (t.entities ++ [virtualExit]) virtualExit
  return PostDominatorResult.remove ⟨postDom, extractImmediate choices postDom virtualExit⟩
    virtualExit

/-- The nodes without outgoing edges. -/
def exitNodes (t : Tables) : List Int64 := t.entities.filter fun node => (fetchOutgoing t node).isEmpty

def postDominatorsAutoExit (choices : Int64 → Nat → Nat) (t : Tables) :
    Except SqliteGraphError PostDominatorResult :=
  if t.entities.isEmpty then .ok ⟨fun _ => none, fun _ => none⟩
  else
    match exitNodes t with
    | [] => .error (.queryError ("Cannot compute post-dominators: graph has no exit nodes " ++
        "(all nodes have outgoing edges)"))
    | [exit] => postDominators choices t exit
    | exits => postDominatorsWithVirtualExit choices t exits

section Predecessors
variable {preds : PredecessorMap} {t : Tables} {n p s : Int64} {l : List Int64}

namespace PredecessorMap

theorem get_extend (n m : Int64) (more : List Int64) :
    (preds.extend n more).get m = if m = n then preds.get n ++ more else preds.get m := by
  split
  · rename_i heq
    subst heq
    rw [extend, get, AList.lookup_insert]
    rfl
  · rename_i hne
    rw [extend, get, AList.lookup_insert_ne hne]
    rfl

theorem mem_successors : s ∈ preds.successors n ↔ n ∈ preds.get s := by
  rw [successors, List.mem_filter, decide_eq_true_eq, and_iff_right_iff_imp]
  intro hn
  rw [get] at hn
  cases hs : preds.lookup s with
  | none => simp [hs] at hn
  | some l => exact AList.mem_keys.mp (AList.lookup_isSome.mp (by rw [hs]; rfl))

theorem get_pushes (node : Int64) :
    (l.foldl (fun preds succ => preds.extend succ [node]) preds).get s =
      preds.get s ++ List.replicate (l.count s) node := by
  induction l generalizing preds with
  | nil => simp
  | cons succ l ih =>
    rw [List.foldl_cons, ih, get_extend]
    by_cases hs : s = succ
    · subst hs
      simp [List.replicate_succ, List.append_assoc]
    · rw [if_neg hs, List.count_cons_of_ne (Ne.symm hs)]

end PredecessorMap

theorem get_addSuccessors (node : Int64) : (addSuccessors t preds node).get s =
    preds.get s ++ List.replicate ((fetchOutgoing t node).count s) node := by
  rw [addSuccessors, PredecessorMap.get_extend]
  split
  · rename_i heq
    rw [← heq, List.append_nil, PredecessorMap.get_pushes]
  · rw [PredecessorMap.get_pushes]

/-- A node is listed once for each edge. -/
theorem get_buildPredecessorMap : (buildPredecessorMap t).get s =
    t.entities.flatMap fun node => List.replicate ((fetchOutgoing t node).count s) node := by
  have hfold : ∀ (l : List Int64) (preds : PredecessorMap),
      (l.foldl (addSuccessors t) preds).get s = preds.get s ++
        l.flatMap fun node => List.replicate ((fetchOutgoing t node).count s) node := by
    intro l
    induction l with
    | nil => simp
    | cons node l ih =>
      intro preds
      rw [List.foldl_cons, ih, get_addSuccessors, List.flatMap_cons, List.append_assoc]
  exact hfold t.entities ∅

theorem mem_buildPredecessorMap :
    p ∈ (buildPredecessorMap t).get s ↔ p ∈ t.entities ∧ Joined t p s := by
  rw [get_buildPredecessorMap, List.mem_flatMap]
  constructor
  · rintro ⟨node, hnode, hp⟩
    obtain ⟨hcount, rfl⟩ := List.mem_replicate.mp hp
    exact ⟨hnode, mem_fetchOutgoing.mp (List.count_pos_iff.mp (Nat.pos_of_ne_zero hcount))⟩
  · rintro ⟨hp, hjoined⟩
    refine ⟨p, hp, List.mem_replicate.mpr ⟨?_, rfl⟩⟩
    exact Nat.ne_of_gt (List.count_pos_iff.mpr (mem_fetchOutgoing.mpr hjoined))

end Predecessors

section Search
variable {preds : PredecessorMap} {nodes order l : List Int64} {visited seen : Finset Int64}
  {stack : List (Int64 × Bool)} {root node v : Int64} {fuel fuel' : Nat} {E : Int64 → Int64 → Prop}

/-- Those not seen before are put on the stack. -/
theorem pushPredecessors_run (l : List Int64) (stack : List (Int64 × Bool))
    (hvisited : visited ⊆ seen) :
    ∃ fresh : List Int64, fresh.Nodup ∧ (∀ v, v ∈ fresh ↔ v ∈ l ∧ v ∉ seen) ∧
      pushPredecessors visited l seen stack =
        (seen ∪ fresh.toFinset, fresh.map (·, false) ++ stack) := by
  induction l generalizing seen stack with
  | nil => exact ⟨[], List.nodup_nil, by simp, by simp [pushPredecessors]⟩
  | cons pred rest ih =>
    rw [pushPredecessors]
    split
    · rename_i hnew
      obtain ⟨fresh, hnodup, hmem, hrun⟩ := ih ((pred, false) :: stack)
        (hvisited.trans (Finset.subset_insert pred seen))
      refine ⟨fresh ++ [pred], ?_, fun v => ?_, ?_⟩
      · refine List.nodup_append.mpr ⟨hnodup, List.nodup_singleton pred, ?_⟩
        rintro v hv w hw rfl
        exact ((hmem v).mp hv).2 (by simp [List.mem_singleton.mp hw])
      · rw [List.mem_append, hmem, List.mem_singleton, List.mem_cons, Finset.mem_insert, not_or]
        by_cases hv : v = pred
        · simp [hv, hnew.2]
        · simp [hv]
      · rw [hrun, List.map_append, List.append_assoc]
        congr 1
        ext v
        simp only [Finset.mem_union, Finset.mem_insert, List.mem_toFinset, List.mem_append,
          List.mem_singleton]
        tauto
    · rename_i hold
      have hpred : pred ∈ seen := by
        by_contra hpred
        exact hold ⟨fun hin => hpred (hvisited hin), hpred⟩
      obtain ⟨fresh, hnodup, hmem, hrun⟩ := ih stack hvisited
      refine ⟨fresh, hnodup, fun v => ?_, hrun⟩
      rw [hmem, List.mem_cons]
      refine and_congr_left fun hv => (or_iff_right ?_).symm
      rintro rfl
      exact hv hpred

/-- What has been seen is in the order or on the stack; the predecessors of what is in the order or
waits below its predecessors have been seen. -/
structure ReversedInv (E : Int64 → Int64 → Prop) (root : Int64) (visited seen : Finset Int64)
    (order : List Int64) (stack : List (Int64 × Bool)) : Prop where
  reached : ∀ v ∈ seen, Reached E root v
  kept : ∀ v ∈ seen, v ∈ order ∨ ∃ b, (v, b) ∈ stack
  pending : ∀ x ∈ stack, x.1 ∈ seen
  done : ∀ v ∈ order, v ∈ seen
  finished : visited ⊆ seen
  follows : ∀ v, v ∈ order ∨ (v, true) ∈ stack → ∀ w, E v w → w ∈ seen
  bottom : (∃ b, stack.getLast? = some (root, b)) ∨ stack = [] ∧ order.head? = some root

namespace ReversedInv

theorem start : ReversedInv E root ∅ {root} [] [(root, false)] := by
  refine ⟨?_, ?_, by simp, by simp, by simp, by simp, .inl ⟨false, rfl⟩⟩
  · intro v hv
    rw [Finset.mem_singleton.mp hv]
    exact .start
  · intro v hv
    rw [Finset.mem_singleton.mp hv]
    exact .inr ⟨false, List.mem_singleton_self _⟩

theorem ends (h : ReversedInv E root visited seen order []) : order.head? = some root ∧
    ∀ v, v ∈ order ↔ Reached E root v := by
  have hhead : order.head? = some root := by
    rcases h.bottom with ⟨b, hlast⟩ | ⟨-, hhead⟩
    · cases hlast
    · exact hhead
  refine ⟨hhead, fun v => ⟨fun hv => h.reached v (h.done v hv), fun hv => ?_⟩⟩
  obtain ⟨p, hp⟩ := hv
  induction hp with
  | nil => exact List.mem_of_mem_head? hhead
  | step _ he ih => exact (h.kept _ (h.follows _ (.inl ih) _ he)).resolve_right (by simp)

theorem leave (h : ReversedInv E root visited seen order ((node, true) :: stack)) :
    ReversedInv E root (insert node visited) seen (node :: order) stack := by
  have hnode := h.pending _ (.head _)
  refine ⟨h.reached, ?_, fun x hx => h.pending x (.tail _ hx), ?_, ?_, ?_, ?_⟩
  · intro v hv
    rcases h.kept v hv with hdone | ⟨b, hstack⟩
    · exact .inl (.tail _ hdone)
    · rcases List.mem_cons.mp hstack with heq | hstack
      · cases heq
        exact .inl (.head _)
      · exact .inr ⟨b, hstack⟩
  · exact List.forall_mem_cons.mpr ⟨hnode, h.done⟩
  · exact Finset.insert_subset hnode h.finished
  · rintro v (hv | hv) w he
    · rcases List.mem_cons.mp hv with rfl | hv
      · exact h.follows v (.inr (.head _)) w he
      · exact h.follows v (.inl hv) w he
    · exact h.follows v (.inr (.tail _ hv)) w he
  · rcases h.bottom with ⟨b, hlast⟩ | ⟨hstack, -⟩
    · cases stack with
      | nil =>
        cases hlast
        exact .inr ⟨rfl, rfl⟩
      | cons x stack => exact .inl ⟨b, by rwa [List.getLast?_cons_cons] at hlast⟩
    · cases hstack

theorem enter (h : ReversedInv E root visited seen order ((node, false) :: stack))
    (hpreds : ∀ v, v ∈ l ↔ E node v) {fresh : List Int64} (hfresh : ∀ v, v ∈ fresh ↔ v ∈ l ∧ v ∉ seen) :
    ReversedInv E root visited (seen ∪ fresh.toFinset) order
      (fresh.map (·, false) ++ (node, true) :: stack) := by
  have hnode := h.pending _ (.head _)
  have hold : ∀ v ∈ seen, v ∈ seen ∪ fresh.toFinset := fun v hv => Finset.mem_union_left _ hv
  refine ⟨?_, ?_, ?_, fun v hv => hold v (h.done v hv),
    h.finished.trans Finset.subset_union_left, ?_, ?_⟩
  · intro v hv
    rcases Finset.mem_union.mp hv with hv | hv
    · exact h.reached v hv
    · have hv := (hfresh v).mp (List.mem_toFinset.mp hv)
      exact (h.reached node hnode).step ((hpreds v).mp hv.1)
  · intro v hv
    rcases Finset.mem_union.mp hv with hv | hv
    · rcases h.kept v hv with hdone | ⟨b, hstack⟩
      · exact .inl hdone
      · rcases List.mem_cons.mp hstack with heq | hstack
        · cases heq
          exact .inr ⟨true, by simp⟩
        · exact .inr ⟨b, by simp [hstack]⟩
    · exact .inr ⟨false, by simp [List.mem_toFinset.mp hv]⟩
  · intro x hx
    rcases List.mem_append.mp hx with hx | hx
    · obtain ⟨w, hw, rfl⟩ := List.mem_map.mp hx
      exact Finset.mem_union_right _ (List.mem_toFinset.mpr hw)
    · rcases List.mem_cons.mp hx with rfl | hx
      · exact hold node hnode
      · exact hold x.1 (h.pending x (.tail _ hx))
  · rintro v (hv | hv) w he
    · exact hold w (h.follows v (.inl hv) w he)
    · simp only [List.mem_append, List.mem_map, Prod.mk.injEq, Bool.false_eq_true, and_false,
        exists_false, List.mem_cons, and_true, false_or] at hv
      rcases hv with rfl | hv
      · by_cases hw : w ∈ seen
        · exact hold w hw
        · exact Finset.mem_union_right _
            (List.mem_toFinset.mpr ((hfresh w).mpr ⟨(hpreds w).mpr he, hw⟩))
      · exact hold w (h.follows v (.inr (.tail _ hv)) w he)
  · rcases h.bottom with ⟨b, hlast⟩ | ⟨hstack, -⟩
    · refine .inl ?_
      cases stack with
      | nil =>
        cases hlast
        exact ⟨true, by simp⟩
      | cons x stack =>
        rw [List.getLast?_cons_cons] at hlast
        exact ⟨b, by rw [List.getLast?_append, List.getLast?_cons_cons, hlast]; rfl⟩
    · cases hstack

end ReversedInv

/-- Each node is put on the stack once, and taken off twice. -/
def reversedWork (nodes : List Int64) (seen : Finset Int64) (stack : List (Int64 × Bool)) : Nat :=
  2 * (nodes.toFinset \ seen).card + (stack.map fun x => if x.2 then 1 else 2).sum

theorem card_unseen (nodes : List Int64) {fresh : List Int64} (hnodup : fresh.Nodup)
    (hfresh : ∀ v ∈ fresh, v ∈ nodes ∧ v ∉ seen) :
    (nodes.toFinset \ (seen ∪ fresh.toFinset)).card + fresh.length = (nodes.toFinset \ seen).card := by
  have hsub : fresh.toFinset ⊆ nodes.toFinset \ seen := by
    intro v hv
    obtain ⟨hv, hnot⟩ := hfresh v (List.mem_toFinset.mp hv)
    exact Finset.mem_sdiff.mpr ⟨List.mem_toFinset.mpr hv, hnot⟩
  rw [← Finset.sup_eq_union, ← sdiff_sdiff_left, ← List.toFinset_card_of_nodup hnodup]
  exact Finset.card_sdiff_add_card_eq_card hsub

/-- The search ends, with the nodes that are reached, the root first. -/
theorem reversedLoop_run (hpreds : ∀ u v, v ∈ preds.get u ↔ E u v)
    (hnodes : ∀ v, Reached E root v → v ∈ nodes) (h : ReversedInv E root visited seen order stack)
    (hfuel : reversedWork nodes seen stack ≤ fuel) :
    ∃ order', reversedLoop preds fuel visited seen order stack = .ok order' ∧
      order'.head? = some root ∧ ∀ v, v ∈ order' ↔ Reached E root v := by
  induction fuel generalizing visited seen order stack with
  | zero =>
    rcases stack with _ | ⟨⟨node, _ | _⟩, stack⟩
    · exact ⟨order, rfl, h.ends⟩
    · simp [reversedWork] at hfuel
    · simp [reversedWork] at hfuel
  | succ fuel ih =>
    rcases stack with _ | ⟨⟨node, _ | _⟩, stack⟩
    · exact ⟨order, rfl, h.ends⟩
    · obtain ⟨fresh, hnodup, hfresh, hrun⟩ := pushPredecessors_run
        (preds.get node).reverse ((node, true) :: stack) h.finished
      rw [reversedLoop, hrun]
      have hmem : ∀ v, v ∈ (preds.get node).reverse ↔ E node v := by
        simp [hpreds]
      refine ih (h.enter hmem hfresh) ?_
      have hcard := card_unseen nodes hnodup fun v hv => by
        have hv := (hfresh v).mp hv
        have hnode := h.reached node (h.pending _ (.head _))
        exact ⟨hnodes v (hnode.step ((hmem v).mp hv.1)), hv.2⟩
      simp only [reversedWork, List.map_append, List.map_map, List.map_cons, List.sum_append,
        List.sum_cons, Function.comp_def, Bool.false_eq_true, if_false, if_true, List.map_const',
        List.sum_replicate, smul_eq_mul] at hfuel ⊢
      omega
    · rw [reversedLoop]
      refine ih h.leave ?_
      simp only [reversedWork, List.map_cons, List.sum_cons, if_true] at hfuel ⊢
      omega

end Search

section Exactness
variable {g : FiniteGraph} {choices : Int64 → Nat → Nat} {exit n d : Int64}
  {result : PostDominatorResult}

theorem FiniteGraph.mem_predecessors {u v : Int64} :
    u ∈ (buildPredecessorMap g.toTables).get v ↔ Joined g.toTables u v := by
  rw [mem_buildPredecessorMap, and_iff_right_iff_imp]
  exact fun he => (g.joined_mem he).1

theorem reversePostorderReversed_run (hexit : exit ∈ g.entities) :
    ∃ order, reversePostorderReversed (buildPredecessorMap g.toTables) exit g.entities = .ok order ∧
      FlowGraph (flip (Joined g.toTables)) (buildPredecessorMap g.toTables).successors g.entities exit
        order := by
  have hnodes : ∀ v, Reached (flip (Joined g.toTables)) exit v → v ∈ g.entities :=
    fun v hv => g.reached_mem (fun _ _ he => (g.joined_mem he).1) hexit hv
  have hlen : 0 < g.entities.toFinset.card := by
    rw [Finset.card_pos]
    exact ⟨exit, List.mem_toFinset.mpr hexit⟩
  have hwork : reversedWork g.entities {exit} [(exit, false)] ≤ 2 * g.entities.length := by
    have hle := g.entities.toFinset_card_le
    rw [reversedWork, Finset.card_sdiff_of_subset
      (Finset.singleton_subset_iff.mpr (List.mem_toFinset.mpr hexit)), Finset.card_singleton]
    simp only [List.map_cons, List.map_nil, List.sum_cons, List.sum_nil, Bool.false_eq_true, if_false]
    omega
  obtain ⟨order, hrun, hhead, horder⟩ := reversedLoop_run
    (fun u v => show v ∈ (buildPredecessorMap g.toTables).get u ↔ flip (Joined g.toTables) u v from
      FiniteGraph.mem_predecessors) hnodes ReversedInv.start hwork
  refine ⟨order, hrun, fun u v => ?_, fun u v he => ?_, hexit, hhead, horder⟩
  · rw [PredecessorMap.mem_successors, FiniteGraph.mem_predecessors]
    rfl
  · exact ⟨(g.joined_mem he).2, (g.joined_mem he).1⟩

/-- What the result is made of, where there is one. -/
theorem postDominators_sets (h : postDominators choices g.toTables exit = .ok result) :
    exit ∈ g.entities ∧
      DominatorSets (flip (Joined g.toTables)) g.entities exit result.postDom ∧
      result.ipdom = extractImmediate choices result.postDom exit := by
  rw [postDominators] at h
  split at h
  · cases h
  rename_i hexit
  rw [not_not] at hexit
  obtain ⟨order, hrun, hg⟩ := reversePostorderReversed_run hexit
  obtain ⟨postDom, hsets, h⟩ := except_bind_eq_ok h
  cases h
  obtain ⟨order', hrun', hsets⟩ := except_bind_eq_ok hsets
  rw [hrun] at hrun'
  cases hrun'
  exact ⟨hexit, hg.iterateSets_solved hg.initial hsets, rfl⟩

/-- The sets, the tree and what is asked of them agree with the paths, for each node with a path to the
exit. -/
structure PostDominatorResult.Exact (result : PostDominatorResult) (g : FiniteGraph) (exit : Int64) :
    Prop where
  postDom : ∀ n, Reached (Joined g.toTables) n exit → ∃ set, result.postDom n = some set ∧
    ∀ d, d ∈ set ↔ PostDominates (Joined g.toTables) exit d n
  postDominates : ∀ n, Reached (Joined g.toTables) n exit →
    ∀ d, result.postDominates d n = true ↔ PostDominates (Joined g.toTables) exit d n
  ipdom : ∀ n, Reached (Joined g.toTables) n exit → n ≠ exit → ∀ i,
    result.immediatePostDominator n = some i ↔ ImmediatelyPostDominates (Joined g.toTables) exit i n
  found : ∀ n, Reached (Joined g.toTables) n exit → n ≠ exit →
    (result.immediatePostDominator n).isSome
  isExit : result.ipdom exit = some none

/-- A run that ends well has found the post-dominators. -/
theorem postDominators_ok_exact (h : postDominators choices g.toTables exit = .ok result) :
    result.Exact g exit := by
  obtain ⟨hexit, hsets, hidom⟩ := postDominators_sets h
  have hnodes : ∀ v, Reached (flip (Joined g.toTables)) exit v → v ∈ g.entities :=
    fun v hv => g.reached_mem (fun _ _ he => (g.joined_mem he).1) hexit hv
  have hget : ∀ n, Reached (Joined g.toTables) n exit → ∃ set, result.postDom n = some set ∧
      ∀ d, d ∈ set ↔ PostDominates (Joined g.toTables) exit d n := by
    intro n hn
    have hn := reached_flip.mpr hn
    obtain ⟨set, hset, -⟩ := hsets.get n (hnodes n hn)
    refine ⟨set, hset, fun d => ?_⟩
    rw [hsets.exact n set hn hset, postDominates_iff]
  have htree : ∀ n, Reached (Joined g.toTables) n exit → n ≠ exit →
      ∃ i, result.immediatePostDominator n = some i ∧
        ImmediatelyPostDominates (Joined g.toTables) exit i n := by
    intro n hn hne
    obtain ⟨i, hi, himm⟩ := hsets.extract choices hnodes (reached_flip.mpr hn) hne
    refine ⟨i, ?_, immediatelyPostDominates_iff.mpr himm⟩
    rw [PostDominatorResult.immediatePostDominator, hidom, hi]
    rfl
  refine ⟨hget, ?_, ?_, ?_, ?_⟩
  · intro n hn d
    obtain ⟨set, hset, hmem⟩ := hget n hn
    simp [PostDominatorResult.postDominates, hset, hmem]
  · intro n hn hne i
    obtain ⟨j, hj, himm⟩ := htree n hn hne
    rw [hj, Option.some.injEq]
    constructor
    · rintro rfl
      exact himm
    · intro hi
      rw [immediatelyPostDominates_iff] at himm hi
      exact himm.unique hi (reached_flip.mpr hn)
  · intro n hn hne
    obtain ⟨i, hi, -⟩ := htree n hn hne
    rw [hi]
    rfl
  · rw [hidom, extractImmediate, if_pos rfl]

end Exactness

end SqliteGraph.Algo
