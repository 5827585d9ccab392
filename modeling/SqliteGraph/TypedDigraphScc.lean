import SqliteGraph.TypedDigraphCycles
import SqliteGraph.Lib.Tarjan

/-! The components of the in-memory directed graph are those of mutual reachability. -/
namespace SqliteGraph
open Lib Lib.Tarjan

namespace TypedDiGraph
variable {N E : Type} {g : TypedDiGraph N E} {s s' : SccVectors} {a : Tarjan NodeIndex}
  {u v w : NodeIndex} {frames : List (Frame NodeIndex)} {rest above stack : List NodeIndex}
  {work : List (NodeIndex × Nat)} {n i fuel state : Nat}

/-- The vectors, which have an entry for each slot, hold what the abstract run knows. -/
structure Holds (n : Nat) (s : SccVectors) (a : Tarjan NodeIndex) : Prop where
  indexLength : s.nodeIndex.length = n
  lowLength : s.lowlink.length = n
  stackLength : s.onStack.length = n
  indexCounter : s.indexCounter = a.counter
  nodeIndex : valueAt none s.nodeIndex = a.index
  lowlink : ∀ v, a.index v ≠ none → valueAt 0 s.lowlink v = a.low v
  onStack : ∀ v, valueAt false s.onStack v = true ↔ v ∈ a.stack
  stack : s.stack = a.stack
  components : s.components = a.components

namespace Holds

theorem init : Holds n (.init n) ⟨fun _ => none, fun _ => 0, 0, [], []⟩ where
  indexLength := List.length_replicate
  lowLength := List.length_replicate
  stackLength := List.length_replicate
  indexCounter := rfl
  nodeIndex := valueAt_replicate n
  lowlink v h := absurd rfl h
  onStack v := by simp [SccVectors.init, valueAt_replicate]
  stack := rfl
  components := rfl

theorem lt (h : Holds n s a) (hv : a.index v ≠ none) : v < n := by
  by_contra hge
  refine hv ?_
  rw [← h.nodeIndex, valueAt, List.getD_eq_getElem?_getD,
    List.getElem?_eq_none (h.indexLength ▸ Nat.not_lt.mp hge), Option.getD_none]

theorem enter (h : Holds n s a) (hv : v < n) : ∃ s', s.enter v = .ok s' ∧ Holds n s' (a.enter v) := by
  refine ⟨{ s with
    nodeIndex := s.nodeIndex.set v (some s.indexCounter)
    lowlink := s.lowlink.set v s.indexCounter
    onStack := s.onStack.set v true
    indexCounter := s.indexCounter + 1
    stack := v :: s.stack }, ?_, ?_⟩
  · rw [SccVectors.enter, writeAt_ok (h.indexLength ▸ hv), writeAt_ok (h.lowLength ▸ hv),
      writeAt_ok (h.stackLength ▸ hv)]
    rfl
  · refine ⟨by simp [h.indexLength], by simp [h.lowLength], by simp [h.stackLength],
      by simp [h.indexCounter], ?_, fun w hw => ?_, fun w => ?_, by simp [h.stack], h.components⟩
    · rw [valueAt_set (h.indexLength ▸ hv), h.nodeIndex, h.indexCounter]
      rfl
    · rw [valueAt_set (h.lowLength ▸ hv)]
      by_cases heq : w = v
      · simp [heq, h.indexCounter]
      · rw [Function.update_of_ne heq, enter_low heq]
        exact h.lowlink w (enter_index heq ▸ hw)
    · rw [valueAt_set (h.stackLength ▸ hv)]
      by_cases heq : w = v
      · simp [heq]
      · simp [heq, h.onStack]

theorem lower (h : Holds n s a) (hv : a.index v ≠ none) (i : Nat) :
    ∃ s', s.lower v i = .ok s' ∧ Holds n s' (a.lower v i) := by
  have hlt := h.lt hv
  refine ⟨{ s with lowlink := s.lowlink.set v (min (a.low v) i) }, ?_, ?_⟩
  · rw [SccVectors.lower, readAt_ok (d := 0) (h.lowLength ▸ hlt), h.lowlink v hv]
    simp only [bind, Except.bind, writeAt_ok (h.lowLength ▸ hlt)]
    rfl
  · refine ⟨h.indexLength, by simp [h.lowLength], h.stackLength, h.indexCounter, h.nodeIndex,
      fun w hw => ?_, h.onStack, h.stack, h.components⟩
    rw [valueAt_set (h.lowLength ▸ hlt)]
    by_cases heq : w = v
    · simp [heq]
    · rw [Function.update_of_ne heq, lower_low heq]
      exact h.lowlink w hw

end Holds

/-- What is popped is what stands above the root on the stack. -/
theorem popComponent_run (component stack : List NodeIndex) (hv : v ∉ above)
    (hlen : s.onStack.length = n) (hlt : ∀ w ∈ above ++ [v], w < n) :
    ∃ onStack, s.popComponent v component (above ++ v :: stack) = .ok { s with
      stack, onStack, components := s.components ++ [component ++ (above ++ [v])] } ∧
    onStack.length = n ∧ ∀ w, valueAt false onStack w = true ↔
      valueAt false s.onStack w = true ∧ w ∉ above ++ [v] := by
  induction above generalizing s component with
  | nil =>
    have hlt := hlt v (by simp)
    refine ⟨s.onStack.set v false, ?_, by simp [hlen], fun w => ?_⟩
    · rw [List.nil_append, SccVectors.popComponent, writeAt_ok (hlen ▸ hlt)]
      simp [bind, Except.bind]
    · rw [valueAt_set (hlen ▸ hlt)]
      by_cases heq : w = v <;> simp [heq]
  | cons x above ih =>
    rw [List.mem_cons, not_or] at hv
    rw [List.cons_append, List.forall_mem_cons] at hlt
    obtain ⟨onStack, hrun, hlen', hmem⟩ := ih (s := { s with
        stack := above ++ v :: stack, onStack := s.onStack.set x false })
      (component ++ [x]) hv.2 (by simp [hlen]) hlt.2
    refine ⟨onStack, ?_, hlen', fun w => ?_⟩
    · rw [List.cons_append, SccVectors.popComponent, writeAt_ok (hlen ▸ hlt.1)]
      simp only [bind, Except.bind, if_neg (Ne.symm hv.1), hrun]
      simp
    · rw [hmem, valueAt_set (hlen ▸ hlt.1)]
      by_cases heq : w = x
      · simp [heq]
      · simp [heq]

namespace Holds

theorem popComponent (h : Holds n s a) (hv : v ∉ above) (hlt : ∀ w ∈ above ++ [v], w < n)
    (hnodup : (above ++ [v] ++ stack).Nodup) (hstack : a.stack = above ++ v :: stack) :
    ∃ s', s.popComponent v [] s.stack = .ok s' ∧ Holds n s' (a.pop (above ++ [v]) stack) := by
  obtain ⟨onStack, hrun, hlen, hmem⟩ :=
    popComponent_run (s := s) [] stack hv h.stackLength hlt
  refine ⟨_, by rw [h.stack, hstack]; exact hrun, ?_⟩
  refine ⟨h.indexLength, h.lowLength, hlen, h.indexCounter, h.nodeIndex, h.lowlink, fun w => ?_, rfl, ?_⟩
  · rw [hmem, h.onStack, hstack]
    have hdisjoint := (List.nodup_append.mp hnodup).2.2 w
    simp only [List.mem_append, List.mem_cons, Tarjan.pop] at hdisjoint ⊢
    grind
  · simp [Tarjan.pop, h.components]

end Holds

section Scan

/-- A looked at successor brings the low link down when it is on the stack. -/
theorem look_run (h : Holds g.rawNodeCount s a) (hinv : Inv g.Joins a (⟨v, w :: rest, above⟩ :: frames))
    (hw : a.index w = some i) (hstack : w ∈ a.stack) : ∃ s', s.lower v i = .ok s' ∧
    Holds g.rawNodeCount s' (a.lower v i) ∧ Inv g.Joins (a.lower v i) (⟨v, rest, above⟩ :: frames) := by
  have hv : a.index v ≠ none := hinv.stack_indexed (hinv.node_mem (f := ⟨v, w :: rest, above⟩) (.head _))
  have hedge : g.Joins v w := (hinv.frame _ (.head _)).rest w (.head _)
  obtain ⟨s', hlower, hholds⟩ := h.lower hv i
  refine ⟨s', hlower, hholds, ?_⟩
  have hlow := hinv.lower hstack (.single hedge)
  rw [rank_eq hw] at hlow
  refine Inv.look [] hlow (by simp [hw]) fun _ => ?_
  rw [lower_low_self, lower_rank, rank_eq hw]
  exact min_le_right _ _

/-- The scan ends at a successor without an index, or when all of them are looked at. -/
theorem Wf.scanSuccessors_run (hg : g.Wf) {neighbors : List NodeIndex} (h : Holds g.rawNodeCount s a)
    (hinv : Inv g.Joins a (⟨v, rest, above⟩ :: frames)) (hstate : 1 ≤ state)
    (hrest : rest = neighbors.drop (state - 1)) : ∃ s' a' state', Holds g.rawNodeCount s' a' ∧
      a'.index = a.index ∧
      (scanSuccessors v rest state s = .ok (s', state', none) ∧
          Inv g.Joins a' (⟨v, [], above⟩ :: frames) ∨
        ∃ w, scanSuccessors v rest state s = .ok (s', state', some w) ∧ 1 ≤ state' ∧ a'.index w = none ∧
          Inv g.Joins a' (⟨v, w :: neighbors.drop (state' - 1), above⟩ :: frames)) := by
  induction rest generalizing s a state with
  | nil => exact ⟨s, a, state, h, rfl, .inl ⟨rfl, hinv⟩⟩
  | cons w rest ih =>
    have hedge : g.Joins v w := (hinv.frame _ (.head _)).rest w (.head _)
    have hlt : w < g.rawNodeCount := lt_of_mem_nodeIndices (hg.live_of_joins hedge).2
    have htail : rest = neighbors.drop (state + 1 - 1) := by
      rw [show state + 1 - 1 = state - 1 + 1 by omega, ← List.tail_drop, ← hrest, List.tail_cons]
    have hread : readAt s.nodeIndex w = .ok (a.index w) := by
      rw [readAt_ok (d := none) (h.indexLength ▸ hlt), h.nodeIndex]
    have hstack : readAt s.onStack w = .ok (valueAt false s.onStack w) :=
      readAt_ok (h.stackLength ▸ hlt)
    rw [scanSuccessors, hread, hstack]
    cases hw : a.index w with
    | none =>
      refine ⟨s, a, state + 1, h, rfl, .inr ⟨w, rfl, by omega, hw, ?_⟩⟩
      rw [← htail]
      exact hinv
    | some i =>
      by_cases hin : w ∈ a.stack
      · obtain ⟨s₁, hlower, hholds, hinv₁⟩ := look_run h hinv hw hin
        obtain ⟨s', a', state', hholds', hindex, hcases⟩ := ih hholds hinv₁ (by omega) htail
        refine ⟨s', a', state', hholds', hindex, ?_⟩
        simp only [bind, Except.bind, (h.onStack w).mpr hin, if_true, hlower]
        exact hcases
      · obtain ⟨s', a', state', hholds', hindex, hcases⟩ :=
          ih h (Inv.look [] hinv (by simp [hw]) fun hmem => absurd hmem hin) (by omega) htail
        refine ⟨s', a', state', hholds', hindex, ?_⟩
        simp only [bind, Except.bind, mt (h.onStack w).mp hin]
        exact hcases

end Scan

/-- The work stack holds the open nodes, each with what is left of its successors. -/
def Pending (g : TypedDiGraph N E) : List (NodeIndex × Nat) → List (Frame NodeIndex) → Prop :=
  List.Forall₂ fun entry f => entry.1 = f.node ∧ 1 ≤ entry.2 ∧ f.rest = (g.targets f.node).drop (entry.2 - 1)

/-- The run between two rounds: all nodes of the work stack are entered, or all but the top; and a
number that the rounds bring down. -/
inductive Running (g : TypedDiGraph N E) (s : SccVectors) (a : Tarjan NodeIndex) :
    List (NodeIndex × Nat) → Nat → Prop
  | entered {work : List (NodeIndex × Nat)} {frames : List (Frame NodeIndex)}
    (hholds : Holds g.rawNodeCount s a) (hinv : Inv g.Joins a frames)
    (hwork : Pending g work frames) : Running g s a work (2 * unindexed g.nodeIndices.toFinset a + work.length)
  | start {v : NodeIndex} (hholds : Holds g.rawNodeCount s a) (hinv : Inv g.Joins a [])
    (hv : a.index v = none) (hmem : v ∈ g.nodeIndices) : Running g s a [(v, 0)] (2 * unindexed g.nodeIndices.toFinset a)
  | pushed {u v : NodeIndex} {rest above : List NodeIndex} {work : List (NodeIndex × Nat)}
    {frames : List (Frame NodeIndex)} (hholds : Holds g.rawNodeCount s a)
    (hinv : Inv g.Joins a (⟨u, v :: rest, above⟩ :: frames)) (hv : a.index v = none)
    (hwork : Pending g work (⟨u, rest, above⟩ :: frames)) :
    Running g s a ((v, 0) :: work) (2 * unindexed g.nodeIndices.toFinset a + work.length - 1)

section Rounds

/-- A node that is done gives its component, or its low link, to what is below it. -/
theorem finish_eq {low i : Nat} {parent : Option NodeIndex} (hlow : readAt s.lowlink v = .ok low)
    (hindex : readAt s.nodeIndex v = .ok (some i)) : s.finish v parent = (do
      let s ← if low = i then s.popComponent v [] s.stack else .ok s
      match parent with
      | none => return s
      | some parent => s.lower parent low) := by
  rw [SccVectors.finish, hlow, hindex]
  rfl

theorem finish_run (h : Holds g.rawNodeCount s a) (hinv : Inv g.Joins a (⟨v, [], above⟩ :: frames))
    (hwork : Pending g work frames) : ∃ s' a' frames',
      s.finish v (work.head?.map Prod.fst) = .ok s' ∧ a'.index = a.index ∧
      Holds g.rawNodeCount s' a' ∧ Inv g.Joins a' frames' ∧ Pending g work frames' := by
  have hv : a.index v ≠ none := hinv.stack_indexed (hinv.node_mem (f := ⟨v, [], above⟩) (.head _))
  have hlt := h.lt hv
  obtain ⟨i, hi⟩ := Option.ne_none_iff_exists'.mp hv
  have hrank := rank_eq hi
  have hlow : readAt s.lowlink v = .ok (a.low v) := by
    rw [readAt_ok (d := 0) (h.lowLength ▸ hlt), h.lowlink v hv]
  have hindex : readAt s.nodeIndex v = .ok (some i) := by
    rw [readAt_ok (d := none) (h.indexLength ▸ hlt), h.nodeIndex, hi]
  have hnodup := hinv.top_nodup
  have hfresh : v ∉ above := fun hin =>
    (List.nodup_append.mp (List.nodup_append.mp hnodup).1).2.2 v hin v (.head _) rfl
  have hstack : a.stack = above ++ v :: held frames := by rw [hinv.stack, held_cons]
  have hcut : (above ++ [v] ++ held frames).Nodup := by
    rw [← List.append_assoc] at hnodup
    exact (List.nodup_append.mp hnodup).1
  have hbelow : ∀ w ∈ above ++ [v], w < g.rawNodeCount := fun w hw =>
    h.lt (hinv.stack_indexed (hinv.mem_stack.mpr (.inl hw)))
  rw [finish_eq hlow hindex]
  cases hwork with
  | nil =>
    have hroot := hinv.start_root
    obtain ⟨s', hpop, hholds⟩ := h.popComponent hfresh hbelow hcut hstack
    refine ⟨s', a.pop (above ++ [v]) (held []), [], ?_, rfl, hholds, hinv.pop hroot, .nil⟩
    rw [if_pos (hroot.trans hrank), hpop]
    rfl
  | @cons entry f work frames hentry hrest =>
    obtain ⟨hnode, hstate, hleft⟩ := hentry
    have hu : a.index f.node ≠ none := hinv.stack_indexed (hinv.node_mem (.tail _ (.head _)))
    rw [List.head?_cons, Option.map_some, hnode]
    by_cases hroot : a.low v = a.rank v
    · obtain ⟨s₁, hpop, hholds₁⟩ := h.popComponent hfresh hbelow hcut hstack
      obtain ⟨s₂, hlower, hholds₂⟩ := hholds₁.lower hu (a.low v)
      refine ⟨s₂, (a.pop (above ++ [v]) (held (f :: frames))).lower f.node (a.low v), f :: frames, ?_, rfl,
        hholds₂, hinv.pop_child hroot, .cons ⟨hnode, hstate, hleft⟩ hrest⟩
      rw [if_pos (hroot.trans hrank), hpop]
      exact hlower
    · obtain ⟨s₂, hlower, hholds₂⟩ := h.lower hu (a.low v)
      refine ⟨s₂, a.lower f.node (a.low v), _, ?_, rfl, hholds₂, hinv.merge_child hroot,
        .cons ⟨hnode, hstate, hleft⟩ hrest⟩
      rw [if_neg (hrank ▸ hroot)]
      exact hlower

/-- The scan of an entered node, and what it leads to. -/
theorem Wf.scan_round (hg : g.Wf) (h : Holds g.rawNodeCount s a)
    (hinv : Inv g.Joins a (⟨v, rest, above⟩ :: frames)) (hstate : 1 ≤ state)
    (hrest : rest = (g.targets v).drop (state - 1)) (hwork : Pending g work frames) :
    ∃ s' a' work' m, g.sccRound s v state work = .ok (s', work') ∧ a'.index = a.index ∧
      Running g s' a' work' m ∧ m ≤ 2 * unindexed g.nodeIndices.toFinset a + work.length := by
  have hne : state ≠ 0 := by omega
  subst hrest
  obtain ⟨s₁, a₁, state', hholds, hindex, hscan | ⟨w, hscan, hstate', hw, hinv₁⟩⟩ :=
    hg.scanSuccessors_run h hinv hstate rfl
  · obtain ⟨hscan, hinv₁⟩ := hscan
    obtain ⟨s₂, a₂, frames', hfinish, hindex₂, hholds₂, hinv₂, hwork₂⟩ := finish_run hholds hinv₁ hwork
    refine ⟨s₂, a₂, work, _, ?_, hindex₂.trans hindex, .entered hholds₂ hinv₂ hwork₂, ?_⟩
    · rw [sccRound, if_neg hne, if_neg hne, ← targets]
      simp only [bind, Except.bind, hscan, hfinish]
      rfl
    · rw [unindexed, unindexed, hindex₂, hindex]
  · refine ⟨s₁, a₁, (w, 0) :: (v, state') :: work, _, ?_, hindex,
      .pushed hholds hinv₁ hw (.cons ⟨rfl, hstate', rfl⟩ hwork), ?_⟩
    · rw [sccRound, if_neg hne, if_neg hne, ← targets]
      simp only [bind, Except.bind, hscan]
      rfl
    · rw [unindexed, unindexed, hindex, List.length_cons]
      omega

theorem sccRound_start (h : s.enter v = .ok s') : g.sccRound s v 0 work = g.sccRound s' v 1 work := by
  rw [sccRound, sccRound, if_pos rfl, h]
  rfl

/-- A round: the top of the work stack has an index, and the number has come down. -/
theorem Wf.sccRound_run (hg : g.Wf) {m : Nat} (h : Running g s a ((v, state) :: work) m) :
    ∃ s' a' work' m', g.sccRound s v state work = .ok (s', work') ∧
      Extends g.nodeIndices.toFinset a a' ∧ a'.index v ≠ none ∧ Running g s' a' work' m' ∧ m' < m := by
  cases h with
  | entered hholds hinv hwork =>
    cases hwork with
    | @cons _ f _ frames hentry hrest =>
      obtain ⟨rfl, hstate, hleft⟩ := hentry
      obtain ⟨s', a', work', m', hrun, hindex, hrunning, hle⟩ :=
        hg.scan_round hholds hinv hstate hleft hrest
      refine ⟨s', a', work', m', hrun, extends_of_index hindex, ?_, hrunning, ?_⟩
      · rw [hindex]
        exact hinv.stack_indexed (hinv.node_mem (.head _))
      · rw [List.length_cons]
        omega
  | start hholds hinv hv hmem =>
    obtain ⟨s₁, henter, hholds₁⟩ := hholds.enter (lt_of_mem_nodeIndices hmem)
    have hinv₁ := hinv.enter hv (fun w => hg.mem_targets) (by simp)
    obtain ⟨s', a', work', m', hrun, hindex, hrunning, hle⟩ :=
      hg.scan_round hholds₁ hinv₁ le_rfl (by simp) .nil
    have hless := unindexed_enter (List.mem_toFinset.mpr hmem) hv
    refine ⟨s', a', work', m', (sccRound_start henter).trans hrun,
      (extends_enter (List.mem_toFinset.mpr hmem)).trans (extends_of_index hindex), ?_, hrunning, ?_⟩
    · rw [hindex]
      exact enter_indexed.mpr (.inl rfl)
    · rw [List.length_nil] at hle
      omega
  | pushed hholds hinv hv hwork =>
    have hedge := (hinv.frame _ (.head _)).rest v (.head _)
    have hmem := (hg.live_of_joins hedge).2
    obtain ⟨s₁, henter, hholds₁⟩ := hholds.enter (lt_of_mem_nodeIndices hmem)
    have hinv₁ := hinv.descend hv fun w => hg.mem_targets
    obtain ⟨s', a', work', m', hrun, hindex, hrunning, hle⟩ :=
      hg.scan_round hholds₁ hinv₁ le_rfl (by simp) hwork
    have hless := unindexed_enter (List.mem_toFinset.mpr hmem) hv
    refine ⟨s', a', work', m', (sccRound_start henter).trans hrun,
      (extends_enter (List.mem_toFinset.mpr hmem)).trans (extends_of_index hindex), ?_, hrunning, ?_⟩
    · rw [hindex]
      exact enter_indexed.mpr (.inl rfl)
    · omega

/-- With a round for each unit of the number, the work stack runs empty. -/
theorem Wf.sccLoop_run (hg : g.Wf) {m : Nat} (h : Running g s a work m) (hfuel : m ≤ fuel) :
    ∃ s' a', g.sccLoop fuel s work = .ok s' ∧ Holds g.rawNodeCount s' a' ∧ Inv g.Joins a' [] ∧
      Extends g.nodeIndices.toFinset a a' ∧ ∀ entry ∈ work.head?, a'.index entry.1 ≠ none := by
  induction fuel generalizing s a work m with
  | zero =>
    cases work with
    | nil =>
      cases h with
      | entered hholds hinv hwork =>
        cases hwork
        exact ⟨s, a, rfl, hholds, hinv, .refl, by simp⟩
    | cons entry work =>
      obtain ⟨-, -, -, m', -, -, -, -, hlt⟩ := hg.sccRound_run h
      omega
  | succ fuel ih =>
    cases work with
    | nil =>
      cases h with
      | entered hholds hinv hwork =>
        cases hwork
        exact ⟨s, a, rfl, hholds, hinv, .refl, by simp⟩
    | cons entry work =>
      obtain ⟨s₁, a₁, work₁, m₁, hrun, hextend, hindexed, hrunning, hlt⟩ := hg.sccRound_run h
      obtain ⟨s', a', hloop, hholds, hinv, hextend', -⟩ := ih hrunning (by omega)
      refine ⟨s', a', ?_, hholds, hinv, hextend.trans hextend', ?_⟩
      · rw [sccLoop, hrun]
        exact hloop
      · rintro _ ⟨⟩
        exact hextend'.keeps _ hindexed

theorem Wf.sccStarts_run (hg : g.Wf) {starts : List NodeIndex} (h : Holds g.rawNodeCount s a)
    (hinv : Inv g.Joins a []) (hstarts : ∀ v ∈ starts, v ∈ g.nodeIndices)
    (hfuel : 2 * g.nodeIndices.length ≤ fuel) :
    ∃ s' a', g.sccStarts fuel s starts = .ok s' ∧ Holds g.rawNodeCount s' a' ∧ Inv g.Joins a' [] ∧
      Extends g.nodeIndices.toFinset a a' ∧ ∀ v ∈ starts, a'.index v ≠ none := by
  induction starts generalizing s a with
  | nil => exact ⟨s, a, rfl, h, hinv, .refl, by simp⟩
  | cons v starts ih =>
    obtain ⟨hv, hstarts⟩ := List.forall_mem_cons.mp hstarts
    have hread : readAt s.nodeIndex v = .ok (a.index v) := by
      rw [readAt_ok (d := none) (h.indexLength ▸ lt_of_mem_nodeIndices hv), h.nodeIndex]
    by_cases hindex : a.index v = none
    · have hcard : unindexed g.nodeIndices.toFinset a ≤ g.nodeIndices.length :=
        (Finset.card_filter_le _ _).trans g.nodeIndices.toFinset_card_le
      obtain ⟨s₁, a₁, hloop, hholds, hinv₁, hextend, hindexed⟩ :=
        hg.sccLoop_run (.start h hinv hindex hv) (show _ ≤ fuel by omega)
      obtain ⟨s', a', hrun, hholds', hinv', hextend', hall⟩ := ih hholds hinv₁ hstarts
      refine ⟨s', a', ?_, hholds', hinv', hextend.trans hextend',
        List.forall_mem_cons.mpr ⟨hextend'.keeps v (hindexed _ rfl), hall⟩⟩
      rw [sccStarts, hread, hindex]
      simp only [bind, Except.bind, Option.isSome_none, hloop]
      exact hrun
    · obtain ⟨i, hi⟩ := Option.ne_none_iff_exists'.mp hindex
      obtain ⟨s', a', hrun, hholds', hinv', hextend', hall⟩ := ih h hinv hstarts
      refine ⟨s', a', ?_, hholds', hinv', hextend',
        List.forall_mem_cons.mpr ⟨hextend'.keeps v hindex, hall⟩⟩
      rw [sccStarts, hread, hi]
      exact hrun

end Rounds

/-- The components part the live nodes by mutual reachability, and edges lead to earlier ones. -/
structure Components (g : TypedDiGraph N E) (components : List (List NodeIndex)) : Prop where
  nodup : components.flatten.Nodup
  nodes : ∀ v, v ∈ components.flatten ↔ g.containsNode v
  nonempty : ∀ c ∈ components, c ≠ []
  reachable : ∀ c ∈ components, ∀ u ∈ c, ∀ v, v ∈ c ↔
    Relation.ReflTransGen g.Joins u v ∧ Relation.ReflTransGen g.Joins v u
  reverse : ∀ (i : Nat) (c : List NodeIndex), components[i]? = some c → ∀ u ∈ c, ∀ v, g.Joins u v →
    ∃ j ≤ i, ∃ c', components[j]? = some c' ∧ v ∈ c'

/-- The search returns the components, sinks first. -/
theorem tarjan_scc_exact (h : Reaches g) : ∃ bound, ∀ fuel ≥ bound, ∃ components,
    g.tarjanScc fuel = .ok components ∧ Components g components := by
  have hg := reaches_wf h
  refine ⟨2 * g.nodeIndices.length, fun fuel hfuel => ?_⟩
  obtain ⟨s, a, hrun, hholds, hinv, hextend, hall⟩ := hg.sccStarts_run .init
    (.init (fun _ => rfl) rfl rfl) (fun v (hv : v ∈ g.nodeIndices) => hv) hfuel
  have hstack : ∀ v, v ∉ a.stack := fun v => by
    rw [hinv.stack]
    simp
  refine ⟨a.components, ?_, hinv.condensed.nodup, fun v => ?_, hinv.condensed.nonempty, ?_, ?_⟩
  · rw [tarjanScc]
    split
    · rename_i hzero
      have hnil : g.nodeIndices = [] := List.eq_nil_iff_forall_not_mem.mpr fun v hv => by
        exact Nat.not_lt_zero v (hzero ▸ lt_of_mem_nodeIndices hv)
      rw [hnil] at hrun
      cases hrun
      rw [← hholds.components]
      rfl
    · rw [hrun, ← hholds.components]
      rfl
  · rw [← mem_nodeIndices]
    constructor
    · intro hv
      have hindexed := (hinv.indexed v).mpr (.inr hv)
      exact List.mem_toFinset.mp ((hextend.inside v hindexed).resolve_left (not_not.mpr rfl))
    · exact fun hv => ((hinv.indexed v).mp (hall v hv)).resolve_left (hstack v)
  · exact fun c hc u hu v => hinv.condensed.same_iff hc hu
  · exact fun i c hc u hu v he => hinv.condensed.edge_earlier hc hu he

/-- Three nodes, of which two lie on a cycle. -/
theorem tarjan_scc_tailedCycle : ∃ bound, ∀ fuel ≥ bound, ∃ components,
    tailedCycle.tarjanScc fuel = .ok components ∧ Components tailedCycle components :=
  tarjan_scc_exact reaches_tailedCycle

end TypedDiGraph

end SqliteGraph
