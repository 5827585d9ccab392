import Mathlib

/-! Dominators: the nodes on every path from a root, and the tree that they make. -/
namespace SqliteGraph.Lib
variable {V : Type} {E : V → V → Prop} {root a b c d i u v w : V} {p : List V}

/-- A path from the root, the last node first. -/
inductive Route (E : V → V → Prop) (root : V) : V → List V → Prop
  | nil : Route E root root [root]
  | step {u v : V} {p : List V} : Route E root u p → E u v → Route E root v (v :: p)

namespace Route

theorem last_mem (h : Route E root v p) : v ∈ p := by
  cases h <;> exact List.mem_cons_self

theorem root_mem (h : Route E root v p) : root ∈ p := by
  induction h with
  | nil => exact List.mem_cons_self
  | step _ _ ih => exact List.mem_cons_of_mem _ ih

/-- A path up to a node on it; up to a node before its end it is shorter. -/
theorem upTo (h : Route E root v p) (hu : u ∈ p) :
    ∃ q, Route E root u q ∧ q <:+ p ∧ (u ≠ v → q.length < p.length) := by
  induction h with
  | nil =>
    obtain rfl := List.mem_singleton.mp hu
    exact ⟨[u], .nil, List.suffix_rfl, fun hne => absurd rfl hne⟩
  | @step w v p hp he ih =>
    rcases List.mem_cons.mp hu with rfl | hu
    · exact ⟨u :: p, hp.step he, List.suffix_rfl, fun hne => absurd rfl hne⟩
    · obtain ⟨q, hq, hsuffix, -⟩ := ih hu
      refine ⟨q, hq, hsuffix.trans (List.suffix_cons v p), fun _ => ?_⟩
      exact Nat.lt_succ_of_le hsuffix.length_le

theorem cons (h : Route E u v p) (he : E w u) : Route E w v (p ++ [w]) := by
  induction h with
  | nil => exact .step .nil he
  | step _ he' ih => exact ih.step he'

/-- The same path along the arcs turned round. -/
theorem reverse (h : Route E u v p) : Route (flip E) v u p.reverse := by
  induction h with
  | nil => exact .nil
  | @step w x p _ he ih =>
    rw [List.reverse_cons]
    exact ih.cons he

end Route

/-- A path leads from the root to the node. -/
def Reached (E : V → V → Prop) (root v : V) : Prop := ∃ p, Route E root v p

theorem Reached.start : Reached E root root := ⟨[root], .nil⟩

theorem Reached.step (h : Reached E root u) (he : E u v) : Reached E root v := by
  obtain ⟨p, hp⟩ := h
  exact ⟨v :: p, hp.step he⟩

/-- A node that is reached is the root or follows one that is reached. -/
theorem Reached.cases (h : Reached E root v) : v = root ∨ ∃ u, Reached E root u ∧ E u v := by
  obtain ⟨p, hp⟩ := h
  cases hp with
  | nil => exact .inl rfl
  | step hp he => exact .inr ⟨_, ⟨_, hp⟩, he⟩

/-- Every path from the root to `v` passes `d`. -/
def Dominates (E : V → V → Prop) (root d v : V) : Prop := ∀ p, Route E root v p → d ∈ p

def StrictlyDominates (E : V → V → Prop) (root d v : V) : Prop := Dominates E root d v ∧ d ≠ v

/-- The strict dominator that all strict dominators dominate. -/
structure ImmediatelyDominates (E : V → V → Prop) (root d v : V) : Prop where
  strict : StrictlyDominates E root d v
  nearest : ∀ c, StrictlyDominates E root c v → Dominates E root c d

namespace Dominates

theorem refl : Dominates E root v v := fun _ hp => hp.last_mem

theorem root_dominates : Dominates E root root v := fun _ hp => hp.root_mem

theorem reached (h : Dominates E root d v) (hv : Reached E root v) : Reached E root d := by
  obtain ⟨p, hp⟩ := hv
  obtain ⟨q, hq, -⟩ := hp.upTo (h p hp)
  exact ⟨q, hq⟩

theorem trans (h : Dominates E root a b) (h' : Dominates E root b v) : Dominates E root a v := by
  intro p hp
  obtain ⟨q, hq, hsuffix, -⟩ := hp.upTo (h' p hp)
  exact hsuffix.subset (h q hq)

/-- Two nodes that dominate one another are one: else the shortest path to one of them would pass the
other first, and that one it again. -/
theorem antisymm (h : Dominates E root a b) (h' : Dominates E root b a) (ha : Reached E root a) :
    a = b := by
  by_contra hne
  have hnone : ∀ k p, Route E root a p → p.length = k → False := by
    intro k
    induction k using Nat.strong_induction_on with
    | _ k ih =>
      rintro p hp rfl
      obtain ⟨q, hq, -, hlt⟩ := hp.upTo (h' p hp)
      obtain ⟨r, hr, -, hlt'⟩ := hq.upTo (h q hq)
      exact ih r.length ((hlt' hne).trans (hlt (Ne.symm hne))) r hr rfl
  obtain ⟨p, hp⟩ := ha
  exact hnone _ p hp rfl

theorem eq_root (h : Dominates E root d root) : d = root := List.mem_singleton.mp (h [root] .nil)

/-- What dominates a node, but the node itself, dominates all nodes before it. -/
theorem before (h : Dominates E root d v) (hne : d ≠ v) (he : E u v) : Dominates E root d u := by
  intro p hp
  exact (List.mem_cons.mp (h (v :: p) (hp.step he))).resolve_left hne

/-- Of two dominators of a node one dominates the other: were there paths to each without the other,
every path could be led past one of them. -/
theorem total (ha : Dominates E root a v) (hb : Dominates E root b v) (hv : Reached E root v) :
    Dominates E root a b ∨ Dominates E root b a := by
  by_contra hnone
  simp only [not_or, Dominates, not_forall] at hnone
  obtain ⟨⟨q, hq, haq⟩, r, hr, hbr⟩ := hnone
  have havoid : ∀ w p, Route E root w p →
      (∃ p', Route E root w p' ∧ a ∉ p') ∨ ∃ p', Route E root w p' ∧ b ∉ p' := by
    intro w p hp
    induction hp with
    | nil =>
      refine .inl ⟨[root], .nil, fun hin => haq ?_⟩
      rw [List.mem_singleton.mp hin]
      exact hq.root_mem
    | @step w x p _ he ih =>
      by_cases hxa : x = a
      · exact .inr ⟨r, hxa ▸ hr, hbr⟩
      by_cases hxb : x = b
      · exact .inl ⟨q, hxb ▸ hq, haq⟩
      rcases ih with ⟨p', hp', hnot⟩ | ⟨p', hp', hnot⟩
      · exact .inl ⟨x :: p', hp'.step he, by simp [Ne.symm hxa, hnot]⟩
      · exact .inr ⟨x :: p', hp'.step he, by simp [Ne.symm hxb, hnot]⟩
  obtain ⟨p, hp⟩ := hv
  rcases havoid v p hp with ⟨p', hp', hnot⟩ | ⟨p', hp', hnot⟩
  · exact hnot (ha p' hp')
  · exact hnot (hb p' hp')

end Dominates

/-- Sets that start with the root alone and take from one node to the next no node but this are sets of
dominators. -/
theorem dominates_of_flow (dom : V → Set V) (hroot : ∀ d ∈ dom root, d = root)
    (hflow : ∀ u v, Reached E root u → E u v → v ≠ root → ∀ d ∈ dom v, d = v ∨ d ∈ dom u)
    (hd : d ∈ dom v) : Dominates E root d v := by
  intro p hp
  induction hp generalizing d with
  | nil => exact List.mem_singleton.mpr (hroot d hd)
  | @step u w p hp he ih =>
    by_cases hw : w = root
    · subst hw
      rw [hroot d hd]
      exact List.mem_cons_self
    · rcases hflow u w ⟨p, hp⟩ he hw d hd with rfl | hd
      · exact List.mem_cons_self
      · exact List.mem_cons_of_mem _ (ih hd)

namespace ImmediatelyDominates

theorem unique (h : ImmediatelyDominates E root i v) (h' : ImmediatelyDominates E root d v)
    (hv : Reached E root v) : i = d :=
  (h'.nearest i h.strict).antisymm (h.nearest d h'.strict) (h.strict.1.reached hv)

/-- The dominators of a node are the node and those of its immediate dominator. -/
theorem dominates_iff (h : ImmediatelyDominates E root i v) :
    Dominates E root d v ↔ d = v ∨ Dominates E root d i := by
  constructor
  · intro hd
    by_cases hdv : d = v
    · exact .inl hdv
    · exact .inr (h.nearest d ⟨hd, hdv⟩)
  · rintro (rfl | hd)
    · exact .refl
    · exact hd.trans h.strict.1

theorem not_dominates (h : ImmediatelyDominates E root i v) (hv : Reached E root v) :
    ¬ Dominates E root v i := by
  intro hvi
  exact h.strict.2 (h.strict.1.antisymm hvi (h.strict.1.reached hv))

/-- A node strictly dominates another exactly if it dominates its immediate dominator. -/
theorem strict_iff (h : ImmediatelyDominates E root i v) (hv : Reached E root v) :
    StrictlyDominates E root d v ↔ Dominates E root d i := by
  constructor
  · exact h.nearest d
  · intro hd
    refine ⟨hd.trans h.strict.1, ?_⟩
    rintro rfl
    exact h.not_dominates hv hd

end ImmediatelyDominates

/-- Among finitely many nodes that all dominate one node, there is one that all of them dominate. -/
theorem exists_nearest {l : List V} (hne : l ≠ []) (hdom : ∀ d ∈ l, Dominates E root d v)
    (hv : Reached E root v) : ∃ i ∈ l, ∀ d ∈ l, Dominates E root d i := by
  induction l with
  | nil => exact absurd rfl hne
  | cons a l ih =>
    rw [List.forall_mem_cons] at hdom
    by_cases hl : l = []
    · subst hl
      exact ⟨a, List.mem_cons_self, by simpa using .refl⟩
    obtain ⟨i, hi, hnear⟩ := ih hl hdom.2
    rcases hdom.1.total (hdom.2 i hi) hv with hai | hia
    · exact ⟨i, List.mem_cons_of_mem _ hi, List.forall_mem_cons.mpr ⟨hai, hnear⟩⟩
    · refine ⟨a, List.mem_cons_self, List.forall_mem_cons.mpr ⟨.refl, fun d hd => ?_⟩⟩
      exact (hnear d hd).trans hia

/-- Every path from `v` to the exit passes `d`. -/
def PostDominates (E : V → V → Prop) (exit d v : V) : Prop := ∀ p, Route E v exit p → d ∈ p

def StrictlyPostDominates (E : V → V → Prop) (exit d v : V) : Prop :=
  PostDominates E exit d v ∧ d ≠ v

/-- The strict post-dominator that all strict post-dominators post-dominate. -/
structure ImmediatelyPostDominates (E : V → V → Prop) (exit d v : V) : Prop where
  strict : StrictlyPostDominates E exit d v
  nearest : ∀ c, StrictlyPostDominates E exit c v → PostDominates E exit c d

section Flip
variable {exit : V}

/-- Post-dominance is dominance along the arcs turned round. -/
theorem postDominates_iff : PostDominates E exit d v ↔ Dominates (flip E) exit d v := by
  constructor
  · intro h p hp
    exact List.mem_reverse.mp (h p.reverse hp.reverse)
  · intro h p hp
    exact List.mem_reverse.mp (h p.reverse hp.reverse)

theorem reached_flip : Reached (flip E) exit v ↔ Reached E v exit := by
  constructor
  · rintro ⟨p, hp⟩
    exact ⟨p.reverse, hp.reverse⟩
  · rintro ⟨p, hp⟩
    exact ⟨p.reverse, hp.reverse⟩

theorem strictlyPostDominates_iff :
    StrictlyPostDominates E exit d v ↔ StrictlyDominates (flip E) exit d v :=
  and_congr_left fun _ => postDominates_iff

theorem immediatelyPostDominates_iff :
    ImmediatelyPostDominates E exit d v ↔ ImmediatelyDominates (flip E) exit d v := by
  constructor
  · rintro ⟨hstrict, hnear⟩
    refine ⟨strictlyPostDominates_iff.mp hstrict, fun c hc => ?_⟩
    exact postDominates_iff.mp (hnear c (strictlyPostDominates_iff.mpr hc))
  · rintro ⟨hstrict, hnear⟩
    refine ⟨strictlyPostDominates_iff.mpr hstrict, fun c hc => ?_⟩
    exact postDominates_iff.mpr (hnear c (strictlyPostDominates_iff.mp hc))

end Flip

end SqliteGraph.Lib
