import SqliteGraph.Algo.PostDominators

/-! Control dependence, edge by edge, against post-dominance on the paths. -/
namespace SqliteGraph.Algo
open Lib Sqlite

structure ControlDependenceResult where
  cdg : NodeSets
  reverseCdg : NodeSets

namespace ControlDependenceResult
variable (result : ControlDependenceResult)

def controls (controller controlled : Int64) : Bool := (result.cdg controller).any (controlled ∈ ·)

def dependsOn (dependent dependency : Int64) : Bool :=
  (result.reverseCdg dependent).any (dependency ∈ ·)

end ControlDependenceResult

/-- `entry(key).or_default().insert(node)`. -/
def insertAt (sets : NodeSets) (key node : Int64) : NodeSets :=
  Function.update sets key (some (((sets key).getD []).insert node))

def isControlDependent (postResult : PostDominatorResult) (source target : Int64) : Bool :=
  if postResult.postDominates source target then false
  else if postResult.immediatePostDominator target = some source then false
  else true

def addDependence (postResult : PostDominatorResult) (source : Int64)
    (result : ControlDependenceResult) (target : Int64) : ControlDependenceResult :=
  if isControlDependent postResult source target then
    ⟨insertAt result.cdg source target, insertAt result.reverseCdg target source⟩
  else result

def controlDependenceGraph (t : Tables) (postResult : PostDominatorResult) :
    ControlDependenceResult :=
  t.entities.foldl (fun result source =>
    (fetchOutgoing t source).foldl (addDependence postResult source) result)
    ⟨fun _ => none, fun _ => none⟩

section Listing
variable {t : Tables} {postResult : PostDominatorResult} {result : ControlDependenceResult}
  {sets : NodeSets} {x y u v : Int64} {l : List Int64}

theorem mem_insertAt : (insertAt sets u v x).any (y ∈ ·) = true ↔
    x = u ∧ y = v ∨ (sets x).any (y ∈ ·) = true := by
  by_cases hx : x = u
  · subst hx
    rw [insertAt, Function.update_self]
    cases sets x with
    | none => simp
    | some set => simp
  · rw [insertAt, Function.update_of_ne hx]
    simp [hx]

theorem controls_addDependence (u v : Int64) :
    ((addDependence postResult u result v).controls x y = true ↔
      (x = u ∧ y = v ∧ isControlDependent postResult u v = true) ∨ result.controls x y = true) ∧
    ((addDependence postResult u result v).dependsOn y x = true ↔
      (x = u ∧ y = v ∧ isControlDependent postResult u v = true) ∨ result.dependsOn y x = true) := by
  rw [addDependence]
  split
  · rename_i hdep
    rw [ControlDependenceResult.controls, ControlDependenceResult.dependsOn, mem_insertAt, mem_insertAt]
    simp [hdep, ControlDependenceResult.controls, ControlDependenceResult.dependsOn, and_comm]
  · rename_i hdep
    simp [hdep]

theorem controls_successors (u : Int64) (l : List Int64) (result : ControlDependenceResult) :
    ((l.foldl (addDependence postResult u) result).controls x y = true ↔
      (x = u ∧ y ∈ l ∧ isControlDependent postResult x y = true) ∨ result.controls x y = true) ∧
    ((l.foldl (addDependence postResult u) result).dependsOn y x = true ↔
      (x = u ∧ y ∈ l ∧ isControlDependent postResult x y = true) ∨
        result.dependsOn y x = true) := by
  induction l generalizing result with
  | nil => simp
  | cons v l ih =>
    obtain ⟨hcontrols, hdepends⟩ := ih (addDependence postResult u result v)
    obtain ⟨hfirst, hfirst'⟩ := controls_addDependence u v
    rw [List.foldl_cons, hcontrols, hdepends, hfirst, hfirst', List.mem_cons]
    constructor
    · constructor <;> grind
    · constructor <;> grind

/-- A pair is listed, in both directions, for an edge that passes the test. -/
theorem controls_iff (postResult : PostDominatorResult) :
    ((controlDependenceGraph t postResult).controls x y = true ↔
      x ∈ t.entities ∧ Joined t x y ∧ isControlDependent postResult x y = true) ∧
    ((controlDependenceGraph t postResult).dependsOn y x = true ↔
      (controlDependenceGraph t postResult).controls x y = true) := by
  have hfold : ∀ (l : List Int64) (result : ControlDependenceResult),
      ((l.foldl (fun result u => (fetchOutgoing t u).foldl (addDependence postResult u) result)
          result).controls x y = true ↔
        (x ∈ l ∧ Joined t x y ∧ isControlDependent postResult x y = true) ∨
          result.controls x y = true) ∧
      ((l.foldl (fun result u => (fetchOutgoing t u).foldl (addDependence postResult u) result)
          result).dependsOn y x = true ↔
        (x ∈ l ∧ Joined t x y ∧ isControlDependent postResult x y = true) ∨
          result.dependsOn y x = true) := by
    intro l
    induction l with
    | nil => simp
    | cons u l ih =>
      intro result
      obtain ⟨hcontrols, hdepends⟩ := ih ((fetchOutgoing t u).foldl (addDependence postResult u) result)
      obtain ⟨hfirst, hfirst'⟩ := controls_successors u (fetchOutgoing t u) result
      rw [List.foldl_cons, hcontrols, hdepends, hfirst, hfirst', List.mem_cons, mem_fetchOutgoing]
      constructor
      · constructor <;> grind
      · constructor <;> grind
  obtain ⟨hcontrols, hdepends⟩ := hfold t.entities ⟨fun _ => none, fun _ => none⟩
  rw [controlDependenceGraph, hcontrols, hdepends]
  exact ⟨or_iff_left (by simp [ControlDependenceResult.controls]), by
    simp [ControlDependenceResult.controls, ControlDependenceResult.dependsOn]⟩

end Listing

/-- Some arc of `x` decides that `y` will be passed, which `x` alone does not. -/
def Controls (E : Int64 → Int64 → Prop) (exit x y : Int64) : Prop :=
  ∃ s, E x s ∧ PostDominates E exit y s ∧ ¬ StrictlyPostDominates E exit y x

/-- What is listed is control dependence, and without branches nothing is. -/
def ControlDependenceCorrect (g : FiniteGraph) (exit : Int64) (postResult : PostDominatorResult) :
    Prop :=
  (∀ x y, (controlDependenceGraph g.toTables postResult).controls x y = true ↔
    Controls (Joined g.toTables) exit x y) ∧
  ((∀ x u v, Joined g.toTables x u → Joined g.toTables x v → u = v) →
    ∀ x y, (controlDependenceGraph g.toTables postResult).controls x y = false)

section Exactness
variable {g : FiniteGraph} {exit u v w : Int64} {postResult : PostDominatorResult} {p : List Int64}

/-- A path to the exit from another node enters it from another node. -/
theorem entered {E : Int64 → Int64 → Prop} (h : Route E u v p) (hv : v = exit) (hu : u ≠ exit) :
    ∃ w, E w exit ∧ w ≠ exit := by
  induction h with
  | nil => exact absurd hv hu
  | @step w _ _ _ he ih =>
    by_cases hw : w = exit
    · exact ih hw
    · exact ⟨w, hv ▸ he, hw⟩

/-- An edge into the exit is listed, but the exit is passed in any case. -/
theorem entering_wrong (h : postResult.Exact g exit) (he : Joined g.toTables w exit) (hw : w ≠ exit) :
    (controlDependenceGraph g.toTables postResult).controls w exit = true ∧
      ¬ Controls (Joined g.toTables) exit w exit := by
  have hnot : postResult.postDominates w exit = false := by
    rw [Bool.eq_false_iff, ne_eq, h.postDominates exit .start]
    intro hpost
    exact hw (List.mem_singleton.mp (hpost [exit] .nil))
  have hnone : postResult.immediatePostDominator exit = none := by
    rw [PostDominatorResult.immediatePostDominator, h.isExit]
    rfl
  constructor
  · rw [(controls_iff postResult).1]
    refine ⟨(g.joined_mem he).1, he, ?_⟩
    rw [isControlDependent, hnot, hnone]
    rfl
  · rintro ⟨s, -, -, hstrict⟩
    exact hstrict ⟨fun p hp => hp.last_mem, Ne.symm hw⟩

/-- An edge from the exit to itself is not listed, but leads the exit to itself. -/
theorem loop_wrong (h : postResult.Exact g exit) (he : Joined g.toTables exit exit) :
    (controlDependenceGraph g.toTables postResult).controls exit exit = false ∧
      Controls (Joined g.toTables) exit exit exit := by
  constructor
  · rw [Bool.eq_false_iff, ne_eq, (controls_iff postResult).1]
    rintro ⟨-, -, hdep⟩
    have hself : postResult.postDominates exit exit = true :=
      (h.postDominates exit .start exit).mpr fun p hp => hp.last_mem
    rw [isControlDependent, hself] at hdep
    cases hdep
  · exact ⟨exit, he, fun p hp => hp.last_mem, fun hstrict => hstrict.2 rfl⟩

end Exactness

/-- Where every node has a path to the exit, the listing is right only of a graph without edges. -/
theorem control_dependence_iff (g : FiniteGraph) (choices : Int64 → Nat → Nat) (exit : Int64)
    (postResult : PostDominatorResult) (h : postDominators choices g.toTables exit = .ok postResult)
    (hreach : ∀ n ∈ g.entities, Reached (Joined g.toTables) n exit) :
    ControlDependenceCorrect g exit postResult ↔ g.edges = [] := by
  have hexact := postDominators_ok_exact h
  constructor
  · rintro ⟨hcorrect, -⟩
    by_contra hedges
    obtain ⟨e, he⟩ := List.exists_mem_of_ne_nil g.edges hedges
    have hentered : ∀ u ∈ g.entities, u ≠ exit → False := by
      intro u hu hne
      obtain ⟨p, hp⟩ := hreach u hu
      obtain ⟨w, hw, hne⟩ := entered hp rfl hne
      obtain ⟨hlisted, hnot⟩ := entering_wrong hexact hw hne
      exact hnot ((hcorrect w exit).mp hlisted)
    obtain ⟨hfrom, hto⟩ := g.closed e he
    have hloop : Joined g.toTables exit exit := by
      refine ⟨e, he, ?_, ?_⟩
      · exact not_not.mp (hentered e.fromId hfrom)
      · exact not_not.mp (hentered e.toId hto)
    obtain ⟨hnot, hcontrols⟩ := loop_wrong hexact hloop
    rw [(hcorrect exit exit).mpr hcontrols] at hnot
    cases hnot
  · intro hedges
    have hnone : ∀ u v, ¬ Joined g.toTables u v := by
      rintro u v ⟨e, he, -⟩
      rw [hedges] at he
      cases he
    have hlisted : ∀ x y, ¬ (controlDependenceGraph g.toTables postResult).controls x y = true := by
      intro x y hxy
      exact hnone x y ((controls_iff postResult).1.mp hxy).2.1
    refine ⟨fun x y => iff_of_false (hlisted x y) ?_, fun _ x y => Bool.eq_false_iff.mpr (hlisted x y)⟩
    rintro ⟨s, he, -⟩
    exact hnone x s he

/-- One node after another. -/
def chainGraph : FiniteGraph :=
  .of ⟨[1, 2], [⟨⟨1, 2, "flow"⟩, 1⟩]⟩ (Eq.refl true)

theorem chainGraph_reached : ∀ n ∈ chainGraph.entities,
    Reached (Joined chainGraph.toTables) n 2 := by
  have he : Joined chainGraph.toTables 1 2 := ⟨_, List.mem_singleton_self _, rfl, rfl⟩
  intro n hn
  rcases List.mem_cons.mp hn with rfl | hn
  · exact .step .start he
  · rw [List.mem_singleton.mp hn]
    exact .start

theorem postDominators_chainGraph : ∃ postResult,
    postDominators (fun _ _ => 0) chainGraph.toTables 2 = .ok postResult := by
  cases h : postDominators (fun _ _ => 0) chainGraph.toTables 2 with
  | ok postResult => exact ⟨postResult, rfl⟩
  | error e =>
    have hok : (postDominators (fun _ _ => 0) chainGraph.toTables 2).isOk = true := by decide +kernel
    rw [h] at hok
    cases hok

theorem control_dependence_chainGraph : ∃ postResult,
    postDominators (fun _ _ => 0) chainGraph.toTables 2 = .ok postResult ∧
      (ControlDependenceCorrect chainGraph 2 postResult ↔ chainGraph.edges = []) := by
  obtain ⟨postResult, h⟩ := postDominators_chainGraph
  exact ⟨postResult, h, control_dependence_iff chainGraph (fun _ _ => 0) 2 postResult h
    chainGraph_reached⟩

theorem not_control_dependence : ¬ ∀ (g : FiniteGraph) (choices : Int64 → Nat → Nat) (exit : Int64)
    (postResult : PostDominatorResult), postDominators choices g.toTables exit = .ok postResult →
    (∀ n ∈ g.entities, Reached (Joined g.toTables) n exit) →
    ControlDependenceCorrect g exit postResult := by
  intro hall
  obtain ⟨postResult, h⟩ := postDominators_chainGraph
  obtain ⟨hcorrect, -⟩ := hall chainGraph (fun _ _ => 0) 2 postResult h chainGraph_reached
  have he : Joined chainGraph.toTables 1 2 := ⟨_, List.mem_singleton_self _, rfl, rfl⟩
  obtain ⟨hlisted, hnot⟩ := entering_wrong (postDominators_ok_exact h) he (by decide)
  exact hnot ((hcorrect 1 2).mp hlisted)

end SqliteGraph.Algo
