import SqliteGraph.Lib.Condensation
import Mathlib.Logic.Function.Basic
import Mathlib.Order.MinMax
import Mathlib.Data.Finset.Card

/-! Tarjan's algorithm on an abstract state: what a run has entered, left on the stack and popped. -/
namespace SqliteGraph.Lib
variable {V : Type}

/-- The state of a run; the top of the stack is its head. -/
structure Tarjan (V : Type) where
  index : V → Option Nat
  low : V → Nat
  counter : Nat
  stack : List V
  components : List (List V)

namespace Tarjan

/-- A node that is not yet left, the successors it still has to look at, and the nodes that were left
above it on the stack. -/
structure Frame (V : Type) where
  node : V
  rest : List V
  above : List V

def held (frames : List (Frame V)) : List V := frames.flatMap fun f => f.above ++ [f.node]

variable (s : Tarjan V)

def rank (v : V) : Nat := (s.index v).getD 0

def enter [DecidableEq V] (v : V) : Tarjan V :=
  { s with
    index := Function.update s.index v (some s.counter)
    low := Function.update s.low v s.counter
    counter := s.counter + 1
    stack := v :: s.stack }

def lower [DecidableEq V] (v : V) (i : Nat) : Tarjan V := { s with low := Function.update s.low v (min (s.low v) i) }

/-- The component of a root is popped, and the stack below it is left. -/
def pop (component stack : List V) : Tarjan V :=
  { s with stack := stack, components := s.components ++ [component] }

variable {s} (E : V → V → Prop)

/-- The nodes above a node on the stack reach it and are reached from it; its low link is the rank of a
node it reaches, and no greater than that of a node on the stack that an edge was looked at to. -/
structure FrameInv (s : Tarjan V) (f : Frame V) : Prop where
  connected : ∀ x ∈ f.above, Relation.ReflTransGen E f.node x ∧ Relation.ReflTransGen E x f.node
  rest : ∀ w ∈ f.rest, E f.node w
  low : ∃ y ∈ s.stack, s.rank y = s.low f.node ∧ Relation.ReflTransGen E f.node y
  low_le : s.low f.node ≤ s.rank f.node
  follows : ∀ x ∈ f.node :: f.above, ∀ w, E x w → x = f.node ∧ w ∈ f.rest ∨
    s.index w ≠ none ∧ (w ∈ s.stack → s.low f.node ≤ s.rank w)

structure Inv (s : Tarjan V) (frames : List (Frame V)) : Prop where
  stack : s.stack = held frames
  indexed : ∀ v, s.index v ≠ none ↔ v ∈ s.stack ∨ v ∈ s.components.flatten
  nodup : (s.stack ++ s.components.flatten).Nodup
  bound : ∀ v, s.index v ≠ none → s.rank v < s.counter
  sorted : s.stack.Pairwise fun u v => s.rank v < s.rank u
  chain : frames.Pairwise fun f g => Relation.ReflTransGen E g.node f.node
  frame : ∀ f ∈ frames, FrameInv E s f
  condensed : Condensed E s.components

variable {E} {frames pre : List (Frame V)} {f : Frame V} {u v w x y : V} {rest rest' above above' : List V} {i : Nat}

@[simp] theorem held_nil : held ([] : List (Frame V)) = [] := rfl

@[simp] theorem held_cons : held (f :: frames) = f.above ++ f.node :: held frames := by simp [held]

@[simp] theorem held_append {frames' : List (Frame V)} :
    held (frames ++ frames') = held frames ++ held frames' := by simp [held]

theorem node_mem_held (h : f ∈ frames) : f.node ∈ held frames :=
  List.mem_flatMap.mpr ⟨f, h, by simp⟩

theorem above_mem_held (h : f ∈ frames) (hx : x ∈ f.node :: f.above) : x ∈ held frames := by
  refine List.mem_flatMap.mpr ⟨f, h, ?_⟩
  simpa [or_comm] using hx

theorem rank_eq (h : s.index v = some i) : s.rank v = i := by simp [rank, h]

section Enter
variable [DecidableEq V]

@[simp] theorem enter_counter : (s.enter v).counter = s.counter + 1 := rfl
@[simp] theorem enter_stack : (s.enter v).stack = v :: s.stack := rfl
@[simp] theorem enter_components : (s.enter v).components = s.components := rfl
@[simp] theorem enter_index_self : (s.enter v).index v = some s.counter := by simp [enter]
@[simp] theorem enter_low_self : (s.enter v).low v = s.counter := by simp [enter]
@[simp] theorem enter_rank_self : (s.enter v).rank v = s.counter := by simp [rank]

theorem enter_index (h : w ≠ v) : (s.enter v).index w = s.index w := by simp [enter, h]
theorem enter_low (h : w ≠ v) : (s.enter v).low w = s.low w := by simp [enter, h]
theorem enter_rank (h : w ≠ v) : (s.enter v).rank w = s.rank w := by simp [rank, enter_index h]

theorem enter_indexed : (s.enter v).index w ≠ none ↔ w = v ∨ s.index w ≠ none := by
  by_cases h : w = v
  · simp [h]
  · rw [enter_index h]
    simp [h]

end Enter

section Lower
variable [DecidableEq V]

@[simp] theorem lower_index : (s.lower v i).index = s.index := rfl
@[simp] theorem lower_counter : (s.lower v i).counter = s.counter := rfl
@[simp] theorem lower_stack : (s.lower v i).stack = s.stack := rfl
@[simp] theorem lower_components : (s.lower v i).components = s.components := rfl
@[simp] theorem lower_rank : (s.lower v i).rank = s.rank := rfl
@[simp] theorem lower_low_self : (s.lower v i).low v = min (s.low v) i := by simp [lower]

theorem lower_low (h : w ≠ v) : (s.lower v i).low w = s.low w := by simp [lower, h]

theorem lower_low_le : (s.lower v i).low w ≤ s.low w := by
  by_cases h : w = v
  · rw [h, lower_low_self]
    exact min_le_left _ _
  · exact (lower_low h).le

/-- A low link that is no greater stays. -/
theorem lower_of_le (h : s.low v ≤ i) : s.lower v i = s := by simp [lower, h]

end Lower

namespace Inv

theorem init (hindex : ∀ v, s.index v = none) (hstack : s.stack = []) (hcomponents : s.components = []) :
    Inv E s [] where
  stack := hstack
  indexed v := by simp [hindex, hstack, hcomponents]
  nodup := by simp [hstack, hcomponents]
  bound v h := absurd (hindex v) h
  sorted := by simp [hstack]
  chain := .nil
  frame := by simp
  condensed := hcomponents ▸ .nil

section Facts
variable (h : Inv E s frames)
include h

theorem stack_indexed (hv : v ∈ s.stack) : s.index v ≠ none := (h.indexed v).mpr (.inl hv)

theorem node_mem (hf : f ∈ frames) : f.node ∈ s.stack := h.stack ▸ node_mem_held hf

theorem not_mem_stack (hv : s.index v = none) : v ∉ s.stack := fun hin => h.stack_indexed hin hv

theorem node_ne (hf : f ∈ frames) (hv : s.index v = none) : f.node ≠ v := by
  rintro rfl
  exact h.not_mem_stack hv (h.node_mem hf)

end Facts

/-- A node without an index is entered; the one on top of the open nodes leads to it. -/
theorem enter [DecidableEq V] (h : Inv E s frames) (hv : s.index v = none) (hrest : ∀ w, w ∈ rest ↔ E v w)
    (hfrom : ∀ f ∈ frames.head?, E f.node v) :
    Inv E (s.enter v) (⟨v, rest, []⟩ :: frames) where
  stack := by simp [h.stack]
  indexed w := by
    rw [enter_indexed, h.indexed]
    simp [or_assoc]
  nodup := by
    have hnot := mt (h.indexed v).mpr (not_not.mpr hv)
    rw [enter_stack, enter_components, List.cons_append, List.nodup_cons, List.mem_append]
    exact ⟨hnot, h.nodup⟩
  bound w hw := by
    by_cases hwv : w = v
    · simp [hwv]
    · rw [enter_rank hwv, enter_counter]
      have := h.bound w (enter_index hwv ▸ hw)
      omega
  sorted := by
    refine List.pairwise_cons.mpr ⟨fun w hw => ?_, h.sorted.imp_of_mem fun {a b} ha hb hlt => ?_⟩
    · rw [enter_rank_self, enter_rank (ne_of_mem_of_not_mem hw (h.not_mem_stack hv))]
      exact h.bound w (h.stack_indexed hw)
    · rw [enter_rank (ne_of_mem_of_not_mem ha (h.not_mem_stack hv)),
        enter_rank (ne_of_mem_of_not_mem hb (h.not_mem_stack hv))]
      exact hlt
  chain := by
    refine List.pairwise_cons.mpr ⟨fun g hg => ?_, h.chain⟩
    rcases frames with _ | ⟨f, frames⟩
    · cases hg
    · have hlast : E f.node v := hfrom f rfl
      rcases List.mem_cons.mp hg with rfl | hg
      · exact .single hlast
      · exact ((List.pairwise_cons.mp h.chain).1 g hg).tail hlast
  frame := by
    refine List.forall_mem_cons.mpr ⟨⟨by simp, fun w hw => (hrest w).mp hw, ?_, by simp, ?_⟩, ?_⟩
    · exact ⟨v, by simp, by simp, .refl⟩
    · intro x hx w he
      obtain rfl : x = v := by simpa using hx
      exact .inl ⟨rfl, (hrest w).mpr he⟩
    · intro f hf
      have hne := h.node_ne hf hv
      have hinv := h.frame f hf
      refine ⟨hinv.connected, hinv.rest, ?_, ?_, ?_⟩
      · obtain ⟨y, hy, hrank, hreach⟩ := hinv.low
        refine ⟨y, List.mem_cons_of_mem _ hy, ?_, hreach⟩
        rw [enter_rank (ne_of_mem_of_not_mem hy (h.not_mem_stack hv)), enter_low hne, hrank]
      · rw [enter_low hne, enter_rank hne]
        exact hinv.low_le
      · intro x hx w he
        refine (hinv.follows x hx w he).imp_right fun ⟨hw, hle⟩ => ?_
        have hwv : w ≠ v := by
          rintro rfl
          exact hw hv
        rw [enter_index hwv, enter_low hne, enter_rank hwv, enter_stack, List.mem_cons]
        exact ⟨hw, fun hin => hle (hin.resolve_left hwv)⟩
  condensed := h.condensed

/-- The low link of a node comes down to the rank of a node on the stack that it reaches. -/
theorem lower [DecidableEq V] (h : Inv E s frames) (hy : y ∈ s.stack)
    (hreach : Relation.ReflTransGen E u y) : Inv E (s.lower u (s.rank y)) frames where
  stack := h.stack
  indexed := h.indexed
  nodup := h.nodup
  bound := h.bound
  sorted := h.sorted
  chain := h.chain
  condensed := h.condensed
  frame g hg := by
    have hinv := h.frame g hg
    refine ⟨hinv.connected, hinv.rest, ?_, lower_low_le.trans hinv.low_le, ?_⟩
    · by_cases heq : g.node = u
      · rw [heq, lower_low_self]
        rcases min_choice (s.low u) (s.rank y) with hmin | hmin
        · rw [hmin, ← heq]
          exact hinv.low
        · rw [hmin]
          exact ⟨y, hy, rfl, hreach⟩
      · rw [lower_low heq]
        exact hinv.low
    · intro x hx w he
      exact (hinv.follows x hx w he).imp_right fun ⟨hw, hle⟩ =>
        ⟨hw, fun hin => lower_low_le.trans (hle hin)⟩

/-- A successor is looked at when it has an index that the low link is no greater than. -/
theorem look (pre : List (Frame V)) (h : Inv E s (pre ++ ⟨v, w :: rest, above⟩ :: frames)) (hw : s.index w ≠ none)
    (hle : w ∈ s.stack → s.low v ≤ s.rank w) : Inv E s (pre ++ ⟨v, rest, above⟩ :: frames) where
  stack := by rw [h.stack]; simp
  indexed := h.indexed
  nodup := h.nodup
  bound := h.bound
  sorted := h.sorted
  chain := by
    have := h.chain
    rw [List.pairwise_append, List.pairwise_cons] at this ⊢
    simpa using this
  condensed := h.condensed
  frame g hg := by
    have hall := h.frame
    rw [List.mem_append, List.mem_cons] at hg
    rcases hg with hg | rfl | hg
    · exact hall g (by simp [hg])
    · have hinv := hall ⟨v, w :: rest, above⟩ (by simp)
      refine ⟨hinv.connected, fun z hz => hinv.rest z (.tail _ hz), hinv.low, hinv.low_le, ?_⟩
      intro x hx z he
      rcases hinv.follows x hx z he with ⟨hxv, hz⟩ | hz
      · rcases List.mem_cons.mp hz with rfl | hz
        · exact .inr ⟨hw, hle⟩
        · exact .inl ⟨hxv, hz⟩
      · exact .inr hz
    · exact hall g (by simp [hg])

/-- A successor without an index is entered, and is no longer to be looked at. -/
theorem descend [DecidableEq V] (h : Inv E s (⟨u, v :: rest, above⟩ :: frames)) (hv : s.index v = none)
    (hrest : ∀ w, w ∈ rest' ↔ E v w) :
    Inv E (s.enter v) (⟨v, rest', []⟩ :: ⟨u, rest, above⟩ :: frames) := by
  have hhead := h.frame ⟨u, v :: rest, above⟩ (.head _)
  have hin := h.node_mem (f := ⟨u, v :: rest, above⟩) (.head _)
  have hne : u ≠ v := h.node_ne (f := ⟨u, v :: rest, above⟩) (.head _) hv
  have hedge : E u v := hhead.rest v (.head _)
  refine look [⟨v, rest', []⟩] (h.enter hv hrest ?_) (enter_indexed.mpr (.inl rfl)) fun _ => ?_
  · rintro f ⟨⟩
    exact hedge
  · rw [enter_low hne, enter_rank_self]
    exact hhead.low_le.trans (h.bound u (h.stack_indexed hin)).le

section Leave

theorem rank_le (h : Inv E s (⟨v, rest, above⟩ :: frames)) (hx : x ∈ above ++ [v]) : s.rank v ≤ s.rank x := by
  have hsorted := h.sorted
  rw [h.stack, held_cons, List.pairwise_append] at hsorted
  rcases List.mem_append.mp hx with hx | hx
  · exact (hsorted.2.2 x hx v (.head _)).le
  · rw [List.mem_singleton.mp hx]

theorem rank_lt (h : Inv E s (⟨v, rest, above⟩ :: frames)) (hx : x ∈ held frames) : s.rank x < s.rank v := by
  have hsorted := h.sorted
  rw [h.stack, held_cons, List.pairwise_append, List.pairwise_cons] at hsorted
  exact hsorted.2.1.1 x hx

theorem mem_stack (h : Inv E s (⟨v, rest, above⟩ :: frames)) :
    x ∈ s.stack ↔ x ∈ above ++ [v] ∨ x ∈ held frames := by
  rw [h.stack, held_cons]
  simp [or_assoc]

theorem top_nodup (h : Inv E s (⟨v, rest, above⟩ :: frames)) :
    ((above ++ [v]) ++ (held frames ++ s.components.flatten)).Nodup := by
  have hnodup := h.nodup
  rw [h.stack, held_cons] at hnodup
  simpa using hnodup

/-- The node that was started from reaches none that is below it. -/
theorem start_root (h : Inv E s [⟨v, rest, above⟩]) : s.low v = s.rank v := by
  have hinv := h.frame _ (.head _)
  obtain ⟨y, hy, hrank, -⟩ := hinv.low
  have hle := h.rank_le (h.mem_stack.mp hy |>.resolve_right (by simp))
  exact hinv.low_le.antisymm (hrank ▸ hle)

theorem top_connected (h : Inv E s (⟨v, rest, above⟩ :: frames)) (hx : x ∈ above ++ [v]) :
    Relation.ReflTransGen E v x ∧ Relation.ReflTransGen E x v := by
  rcases List.mem_append.mp hx with hx | hx
  · exact (h.frame _ (.head _)).connected x hx
  · rw [List.mem_singleton.mp hx]
    exact ⟨.refl, .refl⟩

/-- What is below the top reaches the node that the top was entered from. -/
theorem below_reaches (h : Inv E s (f :: ⟨u, rest, above⟩ :: frames))
    (hx : x ∈ held (⟨u, rest, above⟩ :: frames)) : Relation.ReflTransGen E x u := by
  obtain ⟨g, hg, hx⟩ := List.mem_flatMap.mp hx
  have hreach : Relation.ReflTransGen E x g.node := by
    rcases List.mem_append.mp hx with hx | hx
    · exact ((h.frame g (.tail _ hg)).connected x hx).2
    · rw [List.mem_singleton.mp hx]
  rcases List.mem_cons.mp hg with rfl | hg
  · exact hreach
  · exact hreach.trans ((List.pairwise_cons.mp (List.pairwise_cons.mp h.chain).2).1 g hg)

/-- A root takes what is above it on the stack for its component. -/
theorem pop (h : Inv E s (⟨v, [], above⟩ :: frames)) (hroot : s.low v = s.rank v) :
    Inv E (s.pop (above ++ [v]) (held frames)) frames where
  stack := rfl
  indexed x := by
    rw [show (s.pop (above ++ [v]) (held frames)).index = s.index from rfl, h.indexed, h.mem_stack]
    simp only [Tarjan.pop, List.flatten_append, List.mem_append, List.flatten_singleton]
    tauto
  nodup := by
    have hnodup := List.nodup_append_comm.mp h.top_nodup
    simpa [Tarjan.pop] using hnodup
  bound := h.bound
  sorted := by
    have hsorted := h.sorted
    rw [h.stack, held_cons, List.pairwise_append, List.pairwise_cons] at hsorted
    exact hsorted.2.1.2
  chain := (List.pairwise_cons.mp h.chain).2
  frame f hf := by
    have hinv := h.frame f (.tail _ hf)
    refine ⟨hinv.connected, hinv.rest, ?_, hinv.low_le, ?_⟩
    · obtain ⟨y, hy, hrank, hreach⟩ := hinv.low
      refine ⟨y, (h.mem_stack.mp hy).resolve_left fun hin => ?_, hrank, hreach⟩
      have habove := h.rank_le hin
      have hbelow := h.rank_lt (node_mem_held hf)
      have hle := hinv.low_le
      omega
    · intro x hx w he
      exact (hinv.follows x hx w he).imp_right fun ⟨hw, hle⟩ =>
        ⟨hw, fun hin => hle (h.mem_stack.mpr (.inr hin))⟩
  condensed := by
    have hinv := h.frame _ (.head _)
    refine h.condensed.snoc (by simp) ?_ ?_ ?_
    · exact fun x hx y hy => (h.top_connected hx).2.trans (h.top_connected hy).1
    · intro x hx w he
      obtain ⟨hw, hle⟩ := (hinv.follows x (by simpa [or_comm] using hx) w he).resolve_left (by simp)
      refine ((h.indexed w).mp hw).imp_left fun hin => ?_
      refine (h.mem_stack.mp hin).resolve_right fun hbelow => ?_
      have hlt := h.rank_lt hbelow
      have hroot : s.rank v ≤ s.rank w := hroot ▸ hle hin
      omega
    · exact h.top_nodup.sublist ((List.sublist_append_right _ _).append_left _)

/-- A node that is no root is left on the stack, above the node it was entered from. -/
theorem merge (h : Inv E s (⟨v, [], above⟩ :: ⟨u, rest, above'⟩ :: frames)) (hle : s.low u ≤ s.low v)
    (hlt : s.low v ≠ s.rank v) : Inv E s (⟨u, rest, above ++ v :: above'⟩ :: frames) where
  stack := by rw [h.stack]; simp
  indexed := h.indexed
  nodup := h.nodup
  bound := h.bound
  sorted := h.sorted
  chain := by
    have hchain := h.chain
    rw [List.pairwise_cons, List.pairwise_cons] at hchain
    exact List.pairwise_cons.mpr hchain.2
  condensed := h.condensed
  frame := by
    have htop := h.frame ⟨v, [], above⟩ (.head _)
    have hnext := h.frame ⟨u, rest, above'⟩ (.tail _ (.head _))
    have hto : Relation.ReflTransGen E u v := (List.pairwise_cons.mp h.chain).1 _ (.head _)
    have hback : Relation.ReflTransGen E v u := by
      obtain ⟨y, hy, hrank, hreach⟩ := htop.low
      have hlow := htop.low_le
      refine hreach.trans (h.below_reaches ((h.mem_stack.mp hy).resolve_left fun hin => ?_))
      have hge := h.rank_le hin
      exact hlt (hlow.antisymm (hrank ▸ hge))
    refine List.forall_mem_cons.mpr ⟨⟨?_, hnext.rest, hnext.low, hnext.low_le, ?_⟩, ?_⟩
    · intro x hx
      rcases List.mem_append.mp hx with hx | hx
      · have hcon := htop.connected x hx
        exact ⟨hto.trans hcon.1, hcon.2.trans hback⟩
      · rcases List.mem_cons.mp hx with rfl | hx
        · exact ⟨hto, hback⟩
        · exact hnext.connected x hx
    · intro x hx w he
      rw [List.mem_cons, List.mem_append, List.mem_cons, or_left_comm, ← or_assoc] at hx
      have hcases : x ∈ v :: above ∨ x ∈ u :: above' := by
        simp only [List.mem_cons]
        tauto
      rcases hcases with hx | hx
      · obtain ⟨hw, hvw⟩ := (htop.follows x hx w he).resolve_left (by simp)
        exact .inr ⟨hw, fun hin => hle.trans (hvw hin)⟩
      · exact hnext.follows x hx w he
    · exact fun f hf => h.frame f (.tail _ (.tail _ hf))

/-- A component is popped, and the low link of the node it was entered from stays as it is. -/
theorem pop_child [DecidableEq V] (h : Inv E s (⟨v, [], above⟩ :: ⟨u, rest, above'⟩ :: frames))
    (hroot : s.low v = s.rank v) :
    Inv E ((s.pop (above ++ [v]) (held (⟨u, rest, above'⟩ :: frames))).lower u (s.low v))
      (⟨u, rest, above'⟩ :: frames) := by
  have hbelow : s.rank u < s.rank v := h.rank_lt (node_mem_held (f := ⟨u, rest, above'⟩) (.head _))
  have hle : s.low u ≤ s.rank u := (h.frame ⟨u, rest, above'⟩ (.tail _ (.head _))).low_le
  have hkeep : (s.pop (above ++ [v]) (held (⟨u, rest, above'⟩ :: frames))).low u ≤ s.low v :=
    hle.trans (hbelow.le.trans hroot.ge)
  rw [lower_of_le hkeep]
  exact h.pop hroot

/-- A node that is no root hands its low link to the node it was entered from. -/
theorem merge_child [DecidableEq V] (h : Inv E s (⟨v, [], above⟩ :: ⟨u, rest, above'⟩ :: frames))
    (hroot : s.low v ≠ s.rank v) :
    Inv E (s.lower u (s.low v)) (⟨u, rest, above ++ v :: above'⟩ :: frames) := by
  have hto : Relation.ReflTransGen E u v := (List.pairwise_cons.mp h.chain).1 _ (.head _)
  have hbelow : s.rank u < s.rank v := h.rank_lt (node_mem_held (f := ⟨u, rest, above'⟩) (.head _))
  have hne : v ≠ u := by
    rintro rfl
    omega
  obtain ⟨y, hy, hrank, hreach⟩ := (h.frame ⟨v, [], above⟩ (.head _)).low
  have hlower := h.lower hy (hto.trans hreach)
  rw [hrank] at hlower
  refine hlower.merge ?_ ?_
  · rw [lower_low hne, lower_low_self]
    exact min_le_right _ _
  · rwa [lower_low hne]

end Leave

end Inv

section Extension
variable {s' s'' : Tarjan V} {nodes : Finset V}

/-- What has an index keeps one, and only nodes of the graph get one. -/
structure Extends (nodes : Finset V) (s s' : Tarjan V) : Prop where
  keeps : ∀ v, s.index v ≠ none → s'.index v ≠ none
  inside : ∀ v, s'.index v ≠ none → s.index v ≠ none ∨ v ∈ nodes

theorem Extends.refl : Extends nodes s s := ⟨fun _ h => h, fun _ h => .inl h⟩

theorem Extends.trans (h : Extends nodes s s') (h' : Extends nodes s' s'') : Extends nodes s s'' :=
  ⟨fun v hv => h'.keeps v (h.keeps v hv), fun v hv => (h'.inside v hv).elim (h.inside v) .inr⟩

theorem extends_of_index (h : s'.index = s.index) : Extends nodes s s' :=
  ⟨fun _ hv => h ▸ hv, fun _ hv => .inl (h ▸ hv)⟩

theorem extends_enter [DecidableEq V] (hmem : v ∈ nodes) : Extends nodes s (s.enter v) := by
  refine ⟨fun w h => enter_indexed.mpr (.inr h), fun w h => ?_⟩
  rcases enter_indexed.mp h with rfl | h
  · exact .inr hmem
  · exact .inl h

def unindexed (nodes : Finset V) (s : Tarjan V) : Nat := (nodes.filter fun v => s.index v = none).card

theorem unindexed_enter [DecidableEq V] (hmem : v ∈ nodes) (hv : s.index v = none) :
    unindexed nodes (s.enter v) < unindexed nodes s := by
  refine Finset.card_lt_card (Finset.ssubset_iff_subset_ne.mpr ⟨fun w hw => ?_, fun heq => ?_⟩)
  · rw [Finset.mem_filter] at hw ⊢
    exact ⟨hw.1, by_contra fun hs => enter_indexed.mpr (.inr hs) hw.2⟩
  · have hin : v ∈ nodes.filter fun w => (s.enter v).index w = none := by
      rw [heq, Finset.mem_filter]
      exact ⟨hmem, hv⟩
    have hnone := (Finset.mem_filter.mp hin).2
    rw [enter_index_self] at hnone
    cases hnone

end Extension

end Tarjan

end SqliteGraph.Lib
