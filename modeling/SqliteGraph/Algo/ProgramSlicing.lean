import SqliteGraph.Algo.Reachability
import SqliteGraph.Algo.ControlDependence

/-! Backward and forward slices: a closure of the dependences and a reachable set. -/
namespace SqliteGraph.Algo
open Lib Sqlite

structure SliceResult where
  criterion : Int64
  sliceNodes : Finset Int64
  controlNodes : Finset Int64
  dataNodes : Finset Int64
  size : Nat

def SliceResult.contains (slice : SliceResult) (node : Int64) : Bool := node ∈ slice.sliceNodes

/-- What the search along the dependences has found. -/
structure ControlSearch where
  visited : Finset Int64
  controlNodes : Finset Int64
  sliceNodes : Finset Int64
  queue : List Int64

/-- The loop over what depends on one node. -/
def visitDependences : List Int64 → ControlSearch → ControlSearch
  | [], search => search
  | dep :: rest, search =>
    if dep ∈ search.visited then visitDependences rest search
    else visitDependences rest {
      visited := insert dep search.visited
      controlNodes := insert dep search.controlNodes
      sliceNodes := insert dep search.sliceNodes
      queue := search.queue ++ [dep] }

def controlLoop (dependences : NodeSets) : Nat → ControlSearch →
    Except SqliteGraphError ControlSearch
  | 0, search => if search.queue = [] then .ok search else .error .outOfFuel
  | fuel + 1, search =>
    match search.queue with
    | [] => .ok search
    | node :: queue =>
      match dependences node with
      | some deps => controlLoop dependences fuel (visitDependences deps { search with queue })
      | none => controlLoop dependences fuel { search with queue }

/-- One slice, by the dependences and the search of its direction. -/
def sliceFrom (dependences : NodeSets)
    (reachable : Int64 → Except SqliteGraphError (Finset Int64)) (fuel : Nat) (criterion : Int64) :
    Except SqliteGraphError SliceResult := do
  let search ← controlLoop dependences fuel ⟨{criterion}, ∅, {criterion}, [criterion]⟩
  let dataNodes ← reachable criterion
  let sliceNodes := search.sliceNodes ∪ dataNodes
  return ⟨criterion, sliceNodes, search.controlNodes, dataNodes, sliceNodes.card⟩

def backwardSlice (fuel : Nat) (t : Tables) (cdgResult : ControlDependenceResult) (target : Int64) :
    Except SqliteGraphError SliceResult :=
  sliceFrom cdgResult.reverseCdg (reverseReachableFrom fuel t) fuel target

def forwardSlice (fuel : Nat) (t : Tables) (cdgResult : ControlDependenceResult) (source : Int64) :
    Except SqliteGraphError SliceResult :=
  sliceFrom cdgResult.cdg (reachableFrom fuel t) fuel source

/-- The second map is the first one turned around. -/
def ControlDependenceResult.Inverse (result : ControlDependenceResult) : Prop :=
  ∀ x y, result.dependsOn y x = result.controls x y

section Control
variable {dependences : NodeSets} {search : ControlSearch} {criterion v : Int64}
  {l queue : List Int64} {fuel : Nat}

theorem visitDependences_eq : visitDependences l search = {
    visited := search.visited ∪ (discover search.visited l).toFinset
    controlNodes := search.controlNodes ∪ (discover search.visited l).toFinset
    sliceNodes := search.sliceNodes ∪ (discover search.visited l).toFinset
    queue := search.queue ++ discover search.visited l } := by
  induction l generalizing search with
  | nil => simp [visitDependences, discover]
  | cons dep rest ih =>
    rw [visitDependences, discover]
    by_cases hdep : dep ∈ search.visited
    · rw [if_pos hdep, if_pos hdep, ih]
    · rw [if_neg hdep, if_neg hdep, ih]
      simp

/-- The one node is listed under the other. -/
def Lists (dependences : NodeSets) (u v : Int64) : Prop := v ∈ (dependences u).getD []

variable (dependences search) in
theorem controlLoop_run (h : Exploring (Lists dependences) {criterion} search.visited search.queue)
    (hslice : search.sliceNodes = search.visited)
    (hfuel : remaining search.visited search.queue ≤ fuel) :
    ∃ found, controlLoop dependences fuel search = .ok found ∧
      ∀ v, v ∈ found.sliceNodes ↔ Relation.ReflTransGen (Lists dependences) criterion v := by
  obtain ⟨visited, controlNodes, sliceNodes, queue⟩ := search
  dsimp only at h hslice hfuel
  subst sliceNodes
  induction fuel generalizing visited controlNodes queue with
  | zero =>
    rcases queue with _ | ⟨node, queue⟩
    · exact ⟨_, rfl, fun v => by simp [h.ends]⟩
    · simp [remaining] at hfuel
  | succ fuel ih =>
    rcases queue with _ | ⟨node, queue⟩
    · exact ⟨_, rfl, fun v => by simp [h.ends]⟩
    · have hless := remaining_discover visited node queue ((dependences node).getD [])
      have hstep : controlLoop dependences (fuel + 1) ⟨visited, controlNodes, visited, node :: queue⟩ =
          controlLoop dependences fuel (visitDependences ((dependences node).getD [])
            ⟨visited, controlNodes, visited, queue⟩) := by
        simp only [controlLoop]
        cases dependences node <;> rfl
      rw [hstep, visitDependences_eq]
      apply ih
      · exact h.enqueue fun w => Iff.rfl
      · dsimp only
        omega

variable (dependences) in
/-- A slice is what the dependences lead to, and what is reached. -/
theorem sliceFrom_run (reachable : Int64 → Except SqliteGraphError (Finset Int64))
    {reached : Finset Int64} (hreach : reachable criterion = .ok reached)
    (hfuel : remaining {criterion} [criterion] ≤ fuel) :
    ∃ slice, sliceFrom dependences reachable fuel criterion = .ok slice ∧
      ∀ v, slice.contains v = true ↔
        Relation.ReflTransGen (Lists dependences) criterion v ∨ v ∈ reached := by
  obtain ⟨found, hrun, hfound⟩ := controlLoop_run dependences
    ⟨{criterion}, ∅, {criterion}, [criterion]⟩ (.single criterion) rfl hfuel
  refine ⟨_, by rw [sliceFrom, hrun, hreach]; rfl, fun v => ?_⟩
  rw [SliceResult.contains, decide_eq_true_eq, Finset.mem_union, hfound]

end Control

section Duality
variable {result : ControlDependenceResult} {t : Tables} {x y : Int64}

/-- A chain of dependences is a chain of the inverse, the other way. -/
theorem ControlDependenceResult.Inverse.chain (h : result.Inverse) :
    Relation.ReflTransGen (Lists result.reverseCdg) y x ↔
      Relation.ReflTransGen (Lists result.cdg) x y := by
  have hlists : ∀ {sets : NodeSets} {u v}, Lists sets u v ↔ (sets u).any (v ∈ ·) = true := by
    intro sets u v
    rw [Lists]
    cases sets u <;> simp
  have hswap : Lists result.reverseCdg = Function.swap (Lists result.cdg) := by
    funext u v
    apply propext
    rw [Function.swap, hlists, hlists]
    exact Bool.eq_iff_iff.mp (h v u)
  rw [hswap, Relation.reflTransGen_swap]

/-- Enough fuel for every search. -/
theorem remaining_single (v : Int64) : remaining {v} [v] ≤ (Set.finite_univ (α := Int64)).toFinset.card := by
  have hless := Finset.card_lt_card (s := Set.finite_univ.toFinset \ {v})
    (t := (Set.finite_univ (α := Int64)).toFinset) (Finset.sdiff_ssubset (by simp) (by simp))
  rw [remaining, List.length_singleton]
  omega

/-- A node is in the forward slice of another just when that one is in its backward slice. -/
theorem slices_dual (t : Tables) (hinverse : result.Inverse) :
    ∃ bound, ∀ fuel ≥ bound, ∀ x y, ∃ forward backward,
      forwardSlice fuel t result x = .ok forward ∧ backwardSlice fuel t result y = .ok backward ∧
      (forward.contains y ↔ backward.contains x) := by
  refine ⟨(Set.finite_univ (α := Int64)).toFinset.card, fun fuel hfuel x y => ?_⟩
  have hx := (remaining_single x).trans hfuel
  have hy := (remaining_single y).trans hfuel
  obtain ⟨outgoing, hout, hreached⟩ := reachableLoop_run
    (fun u v => mem_fetchOutgoing (t := t) (u := u) (v := v)) (.single x) hx
  obtain ⟨incoming, hin, hreaching⟩ := reachableLoop_run
    (E := fun v u => Joined t u v) (fun v u => mem_fetchIncoming) (.single y) hy
  obtain ⟨forward, hforward, hfmem⟩ := sliceFrom_run result.cdg (reachableFrom fuel t) hout hx
  obtain ⟨backward, hbackward, hbmem⟩ := sliceFrom_run result.reverseCdg
    (reverseReachableFrom fuel t) hin hy
  refine ⟨forward, backward, hforward, hbackward, ?_⟩
  have hturn : Relation.ReflTransGen (fun v u => Joined t u v) y x ↔
      Relation.ReflTransGen (Joined t) x y := Relation.reflTransGen_swap
  rw [hfmem, hbmem, hreached, hreaching, hinverse.chain, hturn]

/-- The graph of control dependences that is computed comes with its inverse. -/
theorem controlDependenceGraph_inverse (postResult : PostDominatorResult) :
    (controlDependenceGraph t postResult).Inverse := fun _ _ =>
  Bool.eq_iff_iff.mpr (controls_iff postResult).2

end Duality

/-- Without post-dominators each edge of the chain is a dependence. -/
theorem slices_dual_chain :
    let result := controlDependenceGraph chainGraph.toTables ⟨fun _ => none, fun _ => none⟩
    ∃ bound, ∀ fuel ≥ bound, ∀ x y, ∃ forward backward,
      forwardSlice fuel chainGraph.toTables result x = .ok forward ∧
      backwardSlice fuel chainGraph.toTables result y = .ok backward ∧
      (forward.contains y ↔ backward.contains x) :=
  slices_dual chainGraph.toTables (controlDependenceGraph_inverse _)

end SqliteGraph.Algo
