import Mathlib.Algebra.Order.Group.Defs
import Mathlib.Data.List.Chain
import Mathlib.Order.Bounds.Basic
import Mathlib.Tactic.Abel

/-! Longest weighted paths: labels that no arc can raise, each with the arc that gave it. -/
namespace SqliteGraph.Lib
variable {V W : Type} [AddCommGroup W]

structure PathTo (E : V → V → Prop) (v : V) (path : List V) : Prop where
  chain : path.IsChain E
  last : path.getLast? = some v

section Paths
variable {E : V → V → Prop} {weight : V → V → W} {u v w : V} {path pre post : List V}

theorem PathTo.single (E : V → V → Prop) (v : V) : PathTo E v [v] := ⟨.singleton v, rfl⟩

theorem PathTo.snoc (h : PathTo E u path) (he : E u v) : PathTo E v (path ++ [v]) := by
  refine ⟨h.chain.append (.singleton v) ?_, List.getLast?_concat⟩
  intro x hx y hy
  obtain rfl : u = x := Option.some.inj (h.last.symm.trans hx)
  obtain rfl : v = y := Option.some.inj hy
  exact he

/-- A path to the node and one from it. -/
theorem PathTo.trans (h : PathTo E v path) (hpost : PathTo E w (v :: post)) :
    PathTo E w (path ++ post) := by
  obtain ⟨before, rfl⟩ := List.getLast?_eq_some_iff.mp h.last
  have hsplit : before ++ [v] ++ post = before ++ v :: post := by simp
  have hchain := List.isChain_append.mp h.chain
  rw [hsplit]
  refine ⟨List.isChain_append.mpr ⟨hchain.1, hpost.chain, ?_⟩, ?_⟩
  · intro x hx y hy
    exact hchain.2.2 x hx y (by simpa using hy)
  · rw [List.getLast?_append, hpost.last]
    rfl

theorem PathTo.split (h : PathTo E w (pre ++ v :: post)) :
    PathTo E v (pre ++ [v]) ∧ PathTo E w (v :: post) := by
  have hchain := List.isChain_append.mp h.chain
  refine ⟨⟨List.isChain_append.mpr ⟨hchain.1, .singleton v, by simpa using hchain.2.2⟩,
    List.getLast?_concat⟩, hchain.2.1, ?_⟩
  have hlast := h.last
  rw [List.getLast?_append] at hlast
  simpa using hlast

end Paths

variable [LinearOrder W]

/-- A distance and a predecessor for each node. -/
structure Labels (V W : Type) where
  dist : V → W
  pred : V → Option V

/-- The arcs out of the nodes that are done cannot raise a distance, and each distance is what its
predecessor gives. -/
structure Relaxed (E : V → V → Prop) (weight : V → V → W) (done : V → Prop) (l : Labels V W) : Prop
    where
  nonneg : ∀ v, 0 ≤ l.dist v
  settled : ∀ u v, done u → E u v → l.dist u + weight u v ≤ l.dist v
  root : ∀ v, l.pred v = none → l.dist v = 0
  step : ∀ u v, l.pred v = some u → done u ∧ E u v ∧ l.dist v = l.dist u + weight u v

namespace Labels
variable [DecidableEq V]

/-- The longer way to a node is taken. -/
def relax (weight : V → V → W) (u : V) (l : Labels V W) (v : V) : Labels V W :=
  if l.dist v < l.dist u + weight u v then
    ⟨Function.update l.dist v (l.dist u + weight u v), Function.update l.pred v (some u)⟩
  else l

end Labels

section Relaxing
variable {E : V → V → Prop} {weight : V → V → W} {done : V → Prop} {l : Labels V W} {u v w : V}
  {ws part : List V}

/-- In the middle of a node: some of its arcs are done as well. -/
structure Between (E : V → V → Prop) (weight : V → V → W) (done : V → Prop) (u : V) (part : List V)
    (l : Labels V W) : Prop where
  nonneg : ∀ v, 0 ≤ l.dist v
  settled : ∀ x v, done x → E x v → l.dist x + weight x v ≤ l.dist v
  partly : ∀ v ∈ part, l.dist u + weight u v ≤ l.dist v
  root : ∀ v, l.pred v = none → l.dist v = 0
  step : ∀ x v, l.pred v = some x → (done x ∨ x = u) ∧ E x v ∧ l.dist v = l.dist x + weight x v

theorem Relaxed.between (h : Relaxed E weight done l) (u : V) : Between E weight done u [] l :=
  ⟨h.nonneg, h.settled, by simp, h.root, fun x v hx => ⟨.inl (h.step x v hx).1, (h.step x v hx).2⟩⟩

variable [DecidableEq V]

/-- One arc more, to a node that is neither done nor the one whose arcs are looked at. -/
theorem Between.relax (h : Between E weight done u part l) (he : E u w) (hdone : ¬ done w)
    (hne : w ≠ u) : Between E weight done u (part ++ [w]) (l.relax weight u w) := by
  rw [Labels.relax]
  split
  case isFalse hle =>
    refine ⟨h.nonneg, h.settled, fun v hv => ?_, h.root, h.step⟩
    rcases List.mem_append.mp hv with hv | hv
    · exact h.partly v hv
    · rw [List.mem_singleton.mp hv]
      exact not_lt.mp hle
  case isTrue hlt =>
    -- only the distance of `w` changes, and it grows
    have hsame : ∀ x, x ≠ w → Function.update l.dist w (l.dist u + weight u w) x = l.dist x :=
      fun x hx => Function.update_of_ne hx _ _
    have hgrows : ∀ x, l.dist x ≤ Function.update l.dist w (l.dist u + weight u w) x := by
      intro x
      by_cases hx : x = w
      · rw [hx, Function.update_self]
        exact hlt.le
      · rw [hsame x hx]
    have huw : u ≠ w := Ne.symm hne
    refine ⟨fun v => (h.nonneg v).trans (hgrows v), ?_, ?_, ?_, ?_⟩
    · intro x v hx hv
      have hxw : x ≠ w := fun heq => hdone (heq ▸ hx)
      simp only [hsame x hxw]
      exact (h.settled x v hx hv).trans (hgrows v)
    · intro v hv
      simp only [hsame u huw]
      rcases List.mem_append.mp hv with hv | hv
      · exact (h.partly v hv).trans (hgrows v)
      · rw [List.mem_singleton.mp hv, Function.update_self]
    · intro v hv
      have hvw : v ≠ w := by
        rintro rfl
        simp at hv
      simp only [Function.update_of_ne hvw] at hv ⊢
      exact h.root v hv
    · intro x v hx
      by_cases hvw : v = w
      · subst hvw
        simp only [Function.update_self] at hx ⊢
        obtain rfl : u = x := Option.some.inj hx
        exact ⟨.inr rfl, he, by rw [hsame u huw]⟩
      · simp only [Function.update_of_ne hvw] at hx ⊢
        obtain ⟨hfrom, hexv, hdist⟩ := h.step x v hx
        have hxw : x ≠ w := by
          rintro rfl
          exact hfrom.elim hdone hne
        exact ⟨hfrom, hexv, by rw [hsame x hxw]; exact hdist⟩

theorem Between.relaxes (h : Between E weight done u part l) (he : ∀ w ∈ ws, E u w)
    (hdone : ∀ w ∈ ws, ¬ done w) (hne : ∀ w ∈ ws, w ≠ u) :
    Between E weight done u (part ++ ws) (ws.foldl (Labels.relax weight u) l) := by
  induction ws generalizing part l with
  | nil => rwa [List.append_nil]
  | cons w ws ih =>
    have hstep := h.relax (he w (.head ws)) (hdone w (.head ws)) (hne w (.head ws))
    have hrest := ih hstep (fun v hv => he v (.tail w hv)) (fun v hv => hdone v (.tail w hv))
      (fun v hv => hne v (.tail w hv))
    rwa [List.append_assoc, List.singleton_append] at hrest

/-- All arcs of a node are relaxed, and none of them leads back. -/
theorem Relaxed.node (h : Relaxed E weight done l) (hws : ∀ w, w ∈ ws ↔ E u w)
    (hforward : ∀ w, E u w → ¬ done w ∧ w ≠ u) :
    Relaxed E weight (fun x => done x ∨ x = u) (ws.foldl (Labels.relax weight u) l) := by
  have hall := (h.between u).relaxes (fun w hw => (hws w).mp hw)
    (fun w hw => (hforward w ((hws w).mp hw)).1) (fun w hw => (hforward w ((hws w).mp hw)).2)
  refine ⟨hall.nonneg, ?_, hall.root, hall.step⟩
  rintro x v (hx | rfl) hv
  · exact hall.settled x v hx hv
  · exact hall.partly v ((hws v).mpr hv)

end Relaxing

section Relaxed
variable [IsOrderedAddMonoid W] {E : V → V → Prop} {weight : V → V → W} {l : Labels V W} {u v : V}
  {path pre post : List V}

/-- The labels are as they are when all nodes are done. -/
abbrev Settled (E : V → V → Prop) (weight : V → V → W) (l : Labels V W) : Prop :=
  Relaxed E weight (fun _ => True) l

end Relaxed

end SqliteGraph.Lib
