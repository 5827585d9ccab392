import SqliteGraph.Algo.FiniteGraph
import SqliteGraph.Lib.Tarjan
import Mathlib.Data.List.AList

/-! Strongly connected components by Tarjan's algorithm. -/
namespace SqliteGraph.Algo
open Lib Sqlite

def expect {α : Type} (message : String) : Option α → Except SqliteGraphError α
  | some a => .ok a
  | none => .error (.aborted (.panic message))

/-- What the visits change; the top of the stack is its head. -/
structure SccState where
  indexCounter : Nat
  stack : List Int64
  onStack : Finset Int64
  indices : Int64 → Option Nat
  lowlink : Int64 → Option Nat
  components : List (Finset Int64)
  nodeToComponent : AList fun _ : Int64 => Nat

namespace SccState

def init : SccState where
  indexCounter := 0
  stack := []
  onStack := ∅
  indices _ := none
  lowlink _ := none
  components := []
  nodeToComponent := ∅

def enter (s : SccState) (v : Int64) : SccState :=
  { s with
    indices := Function.update s.indices v (some s.indexCounter)
    lowlink := Function.update s.lowlink v (some s.indexCounter)
    indexCounter := s.indexCounter + 1
    stack := v :: s.stack
    onStack := insert v s.onStack }

def lower (s : SccState) (v : Int64) (other : Option Nat) (message : String) :
    Except SqliteGraphError SccState := do
  let own ← expect "invariant: v in lowlink from DFS entry" (s.lowlink v)
  let other ← expect message other
  return { s with lowlink := Function.update s.lowlink v (some (min own other)) }

/-- The stack is popped until the root of the component. -/
def popComponent (v : Int64) (s : SccState) (component : Finset Int64) :
    List Int64 → Except SqliteGraphError SccState
  | [] => .error (.aborted (.panic "invariant: stack non-empty when processing SCC root"))
  | w :: stack =>
    let s := { s with
      stack := stack
      onStack := s.onStack.erase w
      nodeToComponent := s.nodeToComponent.insert w s.components.length }
    if w = v then .ok { s with components := s.components ++ [insert w component] }
    else popComponent v s (insert w component) stack

end SccState

def visitSuccessor (visit : Int64 → SccState → Except SqliteGraphError SccState) (v : Int64)
    (s : SccState) (w : Int64) : Except SqliteGraphError SccState :=
  if s.indices w = none then do
    let s ← visit w s
    s.lower v (s.lowlink w) "invariant: w in lowlink from DFS entry"
  else if w ∈ s.onStack then s.lower v (s.indices w) "invariant: w has index from DFS visit"
  else .ok s

def strongconnect (t : Tables) : Nat → Int64 → SccState → Except SqliteGraphError SccState
  | 0, _, _ => .error .outOfFuel
  | fuel + 1, v, s => do
    let s ← (fetchOutgoing t v).foldlM (visitSuccessor (strongconnect t fuel) v) (s.enter v)
    if s.lowlink v = s.indices v then s.popComponent v ∅ s.stack else return s

def processNode (t : Tables) (s : SccState) (node : Int64) : Except SqliteGraphError SccState :=
  if s.indices node = none then strongconnect t t.entities.length node s else .ok s

section Run
open Tarjan
variable {t : Tables} {g : FiniteGraph} {s s' : SccState} {a : Tarjan Int64} {u v w : Int64}
  {frames : List (Frame Int64)} {rest above stack : List Int64} {fuel i : Nat} {message : String}

/-- What is popped is what stands above the root on the stack. -/
theorem popComponent_eq {component : Finset Int64} (hv : v ∉ above) :
    s.popComponent v component (above ++ v :: stack) = .ok { s with
      stack := stack
      onStack := (above ++ [v]).foldl Finset.erase s.onStack
      nodeToComponent := (above ++ [v]).foldl (fun m w => m.insert w s.components.length) s.nodeToComponent
      components := s.components ++ [component ∪ (above ++ [v]).toFinset] } := by
  induction above generalizing s component with
  | nil => simp [SccState.popComponent]
  | cons w above ih =>
    rw [List.mem_cons, not_or] at hv
    rw [List.cons_append, SccState.popComponent, if_neg (Ne.symm hv.1), ih hv.2]
    simp [Finset.insert_comm w v]

theorem mem_foldl_erase {l : List Int64} {onStack : Finset Int64} :
    v ∈ l.foldl Finset.erase onStack ↔ v ∈ onStack ∧ v ∉ l := by
  induction l generalizing onStack with
  | nil => simp
  | cons w l ih =>
    rw [List.foldl_cons, ih, Finset.mem_erase, List.mem_cons, not_or]
    tauto

theorem lookup_foldl_insert {l : List Int64} {m : AList fun _ : Int64 => Nat} :
    (l.foldl (fun m w => m.insert w i) m).lookup v = if v ∈ l then some i else m.lookup v := by
  induction l generalizing m with
  | nil => rfl
  | cons w l ih =>
    rw [List.foldl_cons, ih]
    by_cases hl : v ∈ l
    · simp [hl]
    · rw [if_neg hl]
      by_cases hw : v = w
      · subst hw
        rw [if_pos (.head _)]
        exact AList.lookup_insert m
      · simp [hl, hw, AList.lookup_insert_ne]

theorem getElem?_snoc {α : Type} {l : List α} {x y : α} :
    (l ++ [x])[i]? = some y ↔ l[i]? = some y ∨ i = l.length ∧ y = x := by
  rcases Nat.lt_trichotomy i l.length with hi | rfl | hi
  · rw [List.getElem?_append_left hi]
    have := hi.ne
    tauto
  · simp [eq_comm]
  · rw [List.getElem?_eq_none (by simp; omega), List.getElem?_eq_none hi.le]
    have := hi.ne'
    simp_all

/-- The maps hold what the abstract run knows. -/
structure Models (s : SccState) (a : Tarjan Int64) : Prop where
  indexCounter : s.indexCounter = a.counter
  stack : s.stack = a.stack
  onStack : ∀ v, v ∈ s.onStack ↔ v ∈ a.stack
  indices : s.indices = a.index
  lowlink : ∀ v, a.index v ≠ none → s.lowlink v = some (a.low v)
  components : s.components = a.components.map List.toFinset
  nodeToComponent : ∀ v i, s.nodeToComponent.lookup v = some i ↔
    ∃ c, a.components[i]? = some c ∧ v ∈ c

namespace Models

theorem init : Models .init ⟨fun _ => none, fun _ => 0, 0, [], []⟩ where
  indexCounter := rfl
  stack := rfl
  onStack := by simp [SccState.init]
  indices := rfl
  lowlink v h := absurd rfl h
  components := rfl
  nodeToComponent v i := by simp [SccState.init]

theorem enter (h : Models s a) : Models (s.enter v) (a.enter v) where
  indexCounter := by simp [SccState.enter, h.indexCounter]
  stack := by simp [SccState.enter, h.stack]
  onStack w := by simp [SccState.enter, h.onStack]
  indices := by simp [SccState.enter, Tarjan.enter, h.indices, h.indexCounter]
  lowlink w hw := by
    by_cases heq : w = v
    · simp [SccState.enter, heq, h.indexCounter]
    · rw [enter_low heq]
      simpa [SccState.enter, heq] using h.lowlink w (enter_index heq ▸ hw)
  components := h.components
  nodeToComponent := h.nodeToComponent

theorem lower (h : Models s a) (hv : a.index v ≠ none) (i : Nat) (message : String) : ∃ s',
    s.lower v (some i) message = .ok s' ∧ Models s' (a.lower v i) := by
  refine ⟨_, by rw [SccState.lower, h.lowlink v hv]; rfl, ?_⟩
  refine ⟨h.indexCounter, h.stack, h.onStack, h.indices, fun w hw => ?_, h.components, h.nodeToComponent⟩
  by_cases heq : w = v
  · simp [heq]
  · rw [lower_low heq]
    simpa [heq] using h.lowlink w hw

theorem popComponent (h : Models s a) (hnodup : (above ++ v :: stack).Nodup)
    (hfresh : ∀ x ∈ above ++ [v], x ∉ a.components.flatten) (hstack : a.stack = above ++ v :: stack) :
    ∃ s', s.popComponent v ∅ s.stack = .ok s' ∧ Models s' (a.pop (above ++ [v]) stack) := by
  have hcut : (above ++ [v] ++ stack).Nodup := by simpa using hnodup
  have hv : v ∉ above := fun hin => (List.nodup_append.mp hnodup).2.2 v hin v (.head _) rfl
  have hlen : s.components.length = a.components.length := by rw [h.components, List.length_map]
  refine ⟨_, by rw [h.stack, hstack]; exact popComponent_eq hv, ?_⟩
  refine ⟨h.indexCounter, rfl, fun x => ?_, h.indices, h.lowlink, ?_, fun x i => ?_⟩
  · rw [mem_foldl_erase, h.onStack, hstack]
    have hdisjoint := (List.nodup_append.mp hcut).2.2 x
    simp only [List.mem_append, List.mem_cons, Tarjan.pop] at hdisjoint ⊢
    grind
  · simp [Tarjan.pop, h.components]
  · rw [lookup_foldl_insert, hlen]
    simp only [Tarjan.pop, getElem?_snoc]
    split
    · rename_i hx
      constructor
      · rintro ⟨⟩
        exact ⟨_, .inr ⟨rfl, rfl⟩, hx⟩
      · rintro ⟨c, hc | ⟨rfl, -⟩, hxc⟩
        · exact absurd (List.mem_flatten.mpr ⟨c, List.mem_of_getElem? hc, hxc⟩) (hfresh x hx)
        · rfl
    · rename_i hx
      rw [h.nodeToComponent]
      constructor
      · rintro ⟨c, hc, hxc⟩
        exact ⟨c, .inl hc, hxc⟩
      · rintro ⟨c, hc | ⟨-, rfl⟩, hxc⟩
        · exact ⟨c, hc, hxc⟩
        · exact absurd hxc hx

end Models

/-- A visit leaves its node with the successors looked at, and pops it when it is a root. -/
structure Visited (g : FiniteGraph) (s' : SccState) (a a' : Tarjan Int64) (v : Int64)
    (above : List Int64) (frames : List (Frame Int64)) : Prop where
  inv : Inv (Joined g.toTables) a' (⟨v, [], above⟩ :: frames)
  extend : Extends g.entities.toFinset (a.enter v) a'
  root : a'.low v = a'.rank v → Models s' (a'.pop (above ++ [v]) (held frames))
  inner : a'.low v ≠ a'.rank v → Models s' a'

end Run

end SqliteGraph.Algo
