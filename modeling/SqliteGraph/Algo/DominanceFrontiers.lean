import SqliteGraph.Algo.Dominators

/-! Dominance frontiers, found by climbing the dominator tree from each predecessor. -/
namespace SqliteGraph.Algo
open Lib Sqlite

/-- `entry(runner).or_default().insert(n)`. -/
def addFrontier (frontiers : NodeSets) (runner n : Int64) : NodeSets :=
  Function.update frontiers runner (some (((frontiers runner).getD []).insert n))

def inFrontier (frontiers : NodeSets) (n m : Int64) : Bool := (frontiers n).any (m ∈ ·)

section Climb
variable (idom : Int64 → Option (Option Int64)) (n : Int64)

/-- The runner stops before it adds anything. -/
def climbStops (runner : Int64) : Bool :=
  decide (some runner = (idom n).join) ||
    ((idom runner).join.isNone && (idom n).join.isNone && decide (runner ≠ n) &&
      ((idom runner).isSome || decide (runner = n)))

def climb : Nat → Int64 → NodeSets → Except SqliteGraphError NodeSets
  | 0, _, _ => .error .outOfFuel
  | fuel + 1, runner, frontiers =>
    if climbStops idom n runner then .ok frontiers
    else
      let frontiers := addFrontier frontiers runner n
      match (idom runner).join with
      | some next => climb fuel next frontiers
      | none => .ok frontiers

/-- From each predecessor of the node. -/
def climbAll (fuel : Nat) (predecessors : List Int64) (frontiers : NodeSets) :
    Except SqliteGraphError NodeSets :=
  predecessors.foldlM (fun frontiers p => climb idom n fuel p frontiers) frontiers

end Climb

def dominanceFrontiers (fuel : Nat) (t : Tables) (result : DominatorResult) :
    Except SqliteGraphError NodeSets :=
  t.entities.foldlM (fun frontiers n => climbAll result.idom n fuel (fetchIncoming t n) frontiers)
    fun _ => none

section Climbs
variable {idom : Int64 → Option (Option Int64)} {n m r runner next : Int64} {l preds : List Int64}
  {fuel : Nat} {frontiers frontiers' : NodeSets}

/-- The runner climbs from a node through those of the list, and stops. -/
inductive Climbs (idom : Int64 → Option (Option Int64)) (n : Int64) : Int64 → List Int64 → Prop
  | stop {runner : Int64} : climbStops idom n runner = true → Climbs idom n runner []
  | last {runner : Int64} : climbStops idom n runner = false → (idom runner).join = none →
      Climbs idom n runner [runner]
  | next {runner next : Int64} {l : List Int64} : climbStops idom n runner = false →
      (idom runner).join = some next → Climbs idom n next l → Climbs idom n runner (runner :: l)

theorem Climbs.run (h : Climbs idom n runner l) (hfuel : l.length < fuel) :
    climb idom n fuel runner frontiers =
      .ok (l.foldl (fun frontiers r => addFrontier frontiers r n) frontiers) := by
  obtain ⟨fuel, rfl⟩ : ∃ k, fuel = k + 1 := ⟨fuel - 1, by omega⟩
  induction h generalizing fuel frontiers with
  | stop hstop => rw [climb, if_pos hstop, List.foldl_nil]
  | last hgo hnone =>
    rw [climb, if_neg (by simp [hgo]), hnone]
    rfl
  | next hgo hnext _ ih =>
    rw [List.length_cons] at hfuel
    obtain ⟨k, rfl⟩ : ∃ k, fuel = k + 1 := ⟨fuel - 1, by omega⟩
    rw [climb, if_neg (by simp [hgo]), hnext]
    exact ih k (by omega)

theorem climbs_of_climb (h : climb idom n fuel runner frontiers = .ok frontiers') :
    ∃ l, Climbs idom n runner l := by
  induction fuel generalizing runner frontiers with
  | zero => cases h
  | succ fuel ih =>
    rw [climb] at h
    split at h
    · rename_i hstop
      exact ⟨[], .stop hstop⟩
    · rename_i hgo
      rw [Bool.not_eq_true] at hgo
      cases hnext : (idom runner).join with
      | none => exact ⟨[runner], .last hgo hnext⟩
      | some next =>
        rw [hnext] at h
        obtain ⟨l, hl⟩ := ih h
        exact ⟨runner :: l, .next hgo hnext hl⟩

theorem inFrontier_addFrontier :
    inFrontier (addFrontier frontiers runner n) r m = true ↔
      inFrontier frontiers r m = true ∨ r = runner ∧ m = n := by
  by_cases hr : r = runner
  · subst hr
    cases hset : frontiers r with
    | none => simp [inFrontier, addFrontier, hset]
    | some set => simp [inFrontier, addFrontier, hset, or_comm]
  · simp [inFrontier, addFrontier, hr]

theorem inFrontier_foldl :
    inFrontier (l.foldl (fun frontiers r => addFrontier frontiers r n) frontiers) r m = true ↔
      inFrontier frontiers r m = true ∨ r ∈ l ∧ m = n := by
  induction l generalizing frontiers with
  | nil => simp
  | cons x l ih =>
    rw [List.foldl_cons, ih, inFrontier_addFrontier, List.mem_cons]
    tauto

theorem Climbs.unique {l' : List Int64} (h : Climbs idom n runner l) (h' : Climbs idom n runner l') :
    l = l' := by
  induction h generalizing l' with
  | stop hstop =>
    cases h' with
    | stop _ => rfl
    | last hgo _ => simp [hstop] at hgo
    | next hgo _ _ => simp [hstop] at hgo
  | last hgo hnone =>
    cases h' with
    | stop hstop => simp [hgo] at hstop
    | last _ _ => rfl
    | next _ hnext _ => simp [hnone] at hnext
  | next hgo hnext _ ih =>
    cases h' with
    | stop hstop => simp [hgo] at hstop
    | last _ hnone => simp [hnone] at hnext
    | next _ hnext' hrest =>
      rw [hnext, Option.some.injEq] at hnext'
      subst hnext'
      rw [ih hrest]

/-- Runners that all stop leave the node in the frontiers of the nodes that they pass. -/
theorem climbAll_run (h : ∀ p ∈ preds, ∃ l, Climbs idom n p l) : ∃ bound, ∀ fuel ≥ bound,
    ∀ frontiers, ∃ frontiers', climbAll idom n fuel preds frontiers = .ok frontiers' ∧
      ∀ r m, inFrontier frontiers' r m = true ↔ inFrontier frontiers r m = true ∨
        m = n ∧ ∃ p ∈ preds, ∃ l, Climbs idom n p l ∧ r ∈ l := by
  induction preds with
  | nil => exact ⟨0, fun fuel _ frontiers => ⟨frontiers, rfl, by simp⟩⟩
  | cons p preds ih =>
    rw [List.forall_mem_cons] at h
    obtain ⟨bound, hbound⟩ := ih h.2
    obtain ⟨l, hl⟩ := h.1
    refine ⟨max bound (l.length + 1), fun fuel hfuel frontiers => ?_⟩
    obtain ⟨frontiers', hrun, hmem⟩ := hbound fuel (le_of_max_le_left hfuel)
      (l.foldl (fun frontiers r => addFrontier frontiers r n) frontiers)
    refine ⟨frontiers', ?_, fun r m => ?_⟩
    · rw [climbAll, List.foldlM_cons, hl.run (le_of_max_le_right hfuel)]
      exact hrun
    · have hl' : r ∈ l ↔ ∃ l', Climbs idom n p l' ∧ r ∈ l' := by
        constructor
        · exact fun hr => ⟨l, hl, hr⟩
        · rintro ⟨l', hclimbs, hr⟩
          rwa [hl.unique hclimbs]
      rw [hmem, inFrontier_foldl, List.exists_mem_cons_iff, ← hl']
      tauto

theorem climbs_of_climbAll {p : Int64} (h : climbAll idom n fuel preds frontiers = .ok frontiers')
    (hp : p ∈ preds) : ∃ l, Climbs idom n p l := by
  induction preds generalizing frontiers with
  | nil => cases hp
  | cons q preds ih =>
    rw [climbAll, List.foldlM_cons] at h
    obtain ⟨frontiers₁, hfirst, hrest⟩ := except_bind_eq_ok h
    rcases List.mem_cons.mp hp with rfl | hp
    · exact climbs_of_climb hfirst
    · exact ih hrest hp

/-- The construction ends exactly if every runner stops. -/
theorem climbAlls_run {idom : Int64 → Option (Option Int64)} {preds : Int64 → List Int64}
    {nodes : List Int64} (h : ∀ n ∈ nodes, ∀ p ∈ preds n, ∃ l, Climbs idom n p l) :
    ∃ bound, ∀ fuel ≥ bound, ∀ frontiers, ∃ frontiers',
      nodes.foldlM (fun frontiers n => climbAll idom n fuel (preds n) frontiers) frontiers =
        .ok frontiers' ∧
      ∀ r m, inFrontier frontiers' r m = true ↔ inFrontier frontiers r m = true ∨
        m ∈ nodes ∧ ∃ p ∈ preds m, ∃ l, Climbs idom m p l ∧ r ∈ l := by
  induction nodes with
  | nil => exact ⟨0, fun fuel _ frontiers => ⟨frontiers, rfl, by simp⟩⟩
  | cons n nodes ih =>
    rw [List.forall_mem_cons] at h
    obtain ⟨bound, hbound⟩ := ih h.2
    obtain ⟨bound', hbound'⟩ := climbAll_run h.1
    refine ⟨max bound bound', fun fuel hfuel frontiers => ?_⟩
    obtain ⟨frontiers₁, hfirst, hmem₁⟩ := hbound' fuel (le_of_max_le_right hfuel) frontiers
    obtain ⟨frontiers₂, hrest, hmem₂⟩ := hbound fuel (le_of_max_le_left hfuel) frontiers₁
    refine ⟨frontiers₂, ?_, fun r m => ?_⟩
    · rw [List.foldlM_cons, hfirst]
      exact hrest
    · rw [hmem₂, hmem₁, List.mem_cons]
      constructor
      · rintro ((hold | ⟨rfl, hclimb⟩) | ⟨hm, hclimb⟩)
        · exact .inl hold
        · exact .inr ⟨.inl rfl, hclimb⟩
        · exact .inr ⟨.inr hm, hclimb⟩
      · rintro (hold | ⟨rfl | hm, hclimb⟩)
        · exact .inl (.inl hold)
        · exact .inl (.inr ⟨rfl, hclimb⟩)
        · exact .inr ⟨hm, hclimb⟩

theorem climbs_of_climbAlls {preds : Int64 → List Int64} {nodes : List Int64} {p : Int64}
    (h : nodes.foldlM (fun frontiers n => climbAll idom n fuel (preds n) frontiers) frontiers =
      .ok frontiers') (hn : n ∈ nodes) (hp : p ∈ preds n) : ∃ l, Climbs idom n p l := by
  induction nodes generalizing frontiers with
  | nil => cases hn
  | cons m nodes ih =>
    rw [List.foldlM_cons] at h
    obtain ⟨frontiers₁, hfirst, hrest⟩ := except_bind_eq_ok h
    rcases List.mem_cons.mp hn with rfl | hn
    · exact climbs_of_climbAll hfirst hp
    · exact ih hrest hn

end Climbs

section Tree
variable {g : FiniteGraph} {entry n r p : Int64} {result : DominatorResult}

/-- The runner stops at the immediate dominator of the node, and else only where it has none. -/
theorem climbStops_of_some {idom : Int64 → Option (Option Int64)} {i : Int64}
    (h : (idom n).join = some i ∨ (idom r).join = some i) :
    climbStops idom n r = decide (some r = (idom n).join) := by
  rcases h with h | h <;> simp [climbStops, h]

/-- A shorter path leads to the immediate dominator. -/
theorem shorter_route {E : Int64 → Int64 → Prop} {i : Int64} {path : List Int64}
    (hr : Route E entry r path) (hi : ImmediatelyDominates E entry i r) :
    ∃ path', Route E entry i path' ∧ path'.length < path.length := by
  obtain ⟨path', hroute, -, hlt⟩ := hr.upTo (hi.strict.1 path hr)
  exact ⟨path', hroute, hlt hi.strict.2⟩

/-- From a node that is reached every runner climbs to the entry at most. -/
theorem DominatorResult.Exact.climbs (h : result.Exact g entry)
    (hr : Reached (Joined g.toTables) entry r) : ∃ l, Climbs result.idom n r l := by
  obtain ⟨path, hroute⟩ := hr
  obtain ⟨k, hk⟩ : ∃ k, path.length = k := ⟨_, rfl⟩
  induction k using Nat.strong_induction_on generalizing r path with
  | _ k ih =>
    subst hk
    cases hstop : climbStops result.idom n r with
    | true => exact ⟨[], .stop hstop⟩
    | false =>
      by_cases hentry : r = entry
      · subst hentry
        exact ⟨[r], .last hstop (by rw [h.root]; rfl)⟩
      · obtain ⟨i, hi⟩ := Option.isSome_iff_exists.mp (h.found r ⟨path, hroute⟩ hentry)
        have himm := (h.idom r ⟨path, hroute⟩ hentry i).mp hi
        obtain ⟨path', hroute', hlt⟩ := shorter_route hroute himm
        obtain ⟨l, hl⟩ := ih path'.length hlt path' hroute' rfl
        exact ⟨r :: l, .next hstop hi hl⟩

/-- A node that strictly dominates another is where its runners stop, or above. -/
theorem DominatorResult.Exact.not_strict (h : result.Exact g entry)
    (hn : Reached (Joined g.toTables) entry n) (hr : Reached (Joined g.toTables) entry r)
    (hbelow : ∀ d, StrictlyDominates (Joined g.toTables) entry d n →
      Dominates (Joined g.toTables) entry d r)
    (hgo : climbStops result.idom n r = false) :
    ¬ StrictlyDominates (Joined g.toTables) entry r n := by
  intro hstrict
  have hne : n ≠ entry := by
    rintro rfl
    exact hstrict.2 hstrict.1.eq_root
  obtain ⟨i, hi⟩ := Option.isSome_iff_exists.mp (h.found n hn hne)
  have himm := (h.idom n hn hne i).mp hi
  have hir := hbelow i himm.strict
  obtain rfl := ((himm.strict_iff hn).mp hstrict).antisymm hir hr
  rw [climbStops_of_some (.inl hi)] at hgo
  rw [DominatorResult.immediateDominator] at hi
  simp [hi] at hgo

/-- The nodes that a runner passes are the dominators of its start that do not strictly dominate the
node. -/
theorem DominatorResult.Exact.mem_climbs {l : List Int64} (h : result.Exact g entry)
    (hn : Reached (Joined g.toTables) entry n) (hr : Reached (Joined g.toTables) entry r)
    (hbelow : ∀ d, StrictlyDominates (Joined g.toTables) entry d n →
      Dominates (Joined g.toTables) entry d r)
    (hl : Climbs result.idom n r l) (x : Int64) :
    x ∈ l ↔ Dominates (Joined g.toTables) entry x r ∧
      ¬ StrictlyDominates (Joined g.toTables) entry x n := by
  have hentry : ∀ r, Reached (Joined g.toTables) entry r → (result.idom r).join = none →
      r = entry := by
    intro r hr hnone
    by_contra hne
    have hfound := h.found r hr hne
    rw [DominatorResult.immediateDominator, hnone] at hfound
    cases hfound
  induction hl with
  | @stop r hstop =>
    refine iff_of_false (by simp) ?_
    rintro ⟨hxr, hnot⟩
    by_cases hne : n = entry
    · subst hne
      have hnone : (result.idom n).join = none := by rw [h.root]; rfl
      simp only [climbStops, hnone, reduceCtorEq, decide_false, Bool.false_or, Option.isNone_none,
        Bool.and_true, Bool.and_eq_true, Option.isNone_iff_eq_none, decide_eq_true_eq] at hstop
      exact hstop.1.2 (hentry r hr hstop.1.1)
    · obtain ⟨i, hi⟩ := Option.isSome_iff_exists.mp (h.found n hn hne)
      have himm := (h.idom n hn hne i).mp hi
      rw [climbStops_of_some (.inl hi)] at hstop
      rw [DominatorResult.immediateDominator] at hi
      simp only [hi, Option.some.injEq, decide_eq_true_eq] at hstop
      subst hstop
      exact hnot ((himm.strict_iff hn).mpr hxr)
  | @last r hgo hnone =>
    have hnot := h.not_strict hn hr hbelow hgo
    obtain rfl := hentry r hr hnone
    rw [List.mem_singleton]
    constructor
    · rintro rfl
      exact ⟨.refl, hnot⟩
    · exact fun hx => hx.1.eq_root
  | @next r j l hgo hj _ ih =>
    have hnot := h.not_strict hn hr hbelow hgo
    have hne : r ≠ entry := by
      rintro rfl
      rw [h.root] at hj
      cases hj
    have himm := (h.idom r hr hne j).mp hj
    have hbelow' : ∀ d, StrictlyDominates (Joined g.toTables) entry d n →
        Dominates (Joined g.toTables) entry d j := by
      intro d hd
      refine himm.nearest d ⟨hbelow d hd, ?_⟩
      rintro rfl
      exact hnot hd
    have hrest : x ∈ l ↔ Dominates (Joined g.toTables) entry x j ∧
        ¬ StrictlyDominates (Joined g.toTables) entry x n :=
      ih (himm.strict.1.reached hr) hbelow'
    rw [List.mem_cons, hrest, himm.dominates_iff]
    constructor
    · rintro (rfl | hx)
      · exact ⟨.inl rfl, hnot⟩
      · exact ⟨.inr hx.1, hx.2⟩
    · rintro ⟨rfl | hx, hxn⟩
      · exact .inl rfl
      · exact .inr ⟨hx, hxn⟩

end Tree

/-- The frontier of a node: it dominates a predecessor, but does not strictly dominate the node. -/
def InFrontier (g : FiniteGraph) (entry n m : Int64) : Prop :=
  (∃ p, Joined g.toTables p m ∧ Dominates (Joined g.toTables) entry n p) ∧
    ¬ StrictlyDominates (Joined g.toTables) entry n m

theorem dominance_frontiers_exact (g : FiniteGraph) (choices : Int64 → Nat → Nat) (entry : Int64)
    (result : DominatorResult) (hall : ∀ v ∈ g.entities, Reached (Joined g.toTables) entry v)
    (h : dominators choices g.toTables entry = .ok result) :
    ∃ bound, ∀ fuel ≥ bound, ∃ frontiers, dominanceFrontiers fuel g.toTables result = .ok frontiers ∧
      ∀ n m, inFrontier frontiers n m = true ↔ InFrontier g entry n m := by
  obtain ⟨hentry, hsets, hidom⟩ := dominators_sets h
  have hexact := hsets.result_exact hentry hidom
  have hclimbs : ∀ n ∈ g.entities, ∀ p ∈ fetchIncoming g.toTables n,
      ∃ l, Climbs result.idom n p l := by
    intro n _ p hp
    exact hexact.climbs (hall p (g.joined_mem (mem_fetchIncoming.mp hp)).1)
  obtain ⟨bound, hbound⟩ := climbAlls_run hclimbs
  refine ⟨bound, fun fuel hfuel => ?_⟩
  obtain ⟨frontiers, hrun, hmem⟩ := hbound fuel hfuel fun _ => none
  refine ⟨frontiers, hrun, fun n m => ?_⟩
  have hnone : ¬ inFrontier (fun _ => none) n m = true := by simp [inFrontier]
  rw [hmem, or_iff_right hnone, InFrontier]
  have hstep : ∀ p, Joined g.toTables p m → ∀ l, Climbs result.idom m p l →
      (n ∈ l ↔ Dominates (Joined g.toTables) entry n p ∧
        ¬ StrictlyDominates (Joined g.toTables) entry n m) := by
    intro p hp l hl
    obtain ⟨hpmem, hmmem⟩ := g.joined_mem hp
    exact hexact.mem_climbs (hall m hmmem) (hall p hpmem)
      (fun d hd => hd.1.before hd.2 hp) hl n
  constructor
  · rintro ⟨-, p, hp, l, hl, hn⟩
    rw [mem_fetchIncoming] at hp
    obtain ⟨hdom, hnot⟩ := (hstep p hp l hl).mp hn
    exact ⟨⟨p, hp, hdom⟩, hnot⟩
  · rintro ⟨⟨p, hp, hdom⟩, hnot⟩
    have hm := (g.joined_mem hp).2
    obtain ⟨l, hl⟩ := hclimbs m hm p (mem_fetchIncoming.mpr hp)
    exact ⟨hm, p, mem_fetchIncoming.mpr hp, l, hl, (hstep p hp l hl).mpr ⟨hdom, hnot⟩⟩

theorem dominance_frontiers_mutualGraph : ∃ result,
    dominators (fun _ _ => 0) mutualGraph.toTables 1 = .ok result ∧
    ∃ bound, ∀ fuel ≥ bound, ∃ frontiers,
      dominanceFrontiers fuel mutualGraph.toTables result = .ok frontiers ∧
      ∀ n m, inFrontier frontiers n m = true ↔ InFrontier mutualGraph 1 n m := by
  obtain ⟨result, h⟩ := dominators_mutualGraph
  refine ⟨result, h, dominance_frontiers_exact mutualGraph (fun _ _ => 0) 1 result ?_ h⟩
  have hstep : Joined mutualGraph.toTables 1 2 := ⟨⟨⟨1, 2, "flow"⟩, 1⟩, .head _, rfl, rfl⟩
  exact List.forall_mem_cons.mpr ⟨.start, List.forall_mem_singleton.mpr (Reached.start.step hstep)⟩

end SqliteGraph.Algo
