import SqliteGraph.Algo.DominanceFrontiers

/-! Where the climb from a predecessor ends: nodes that are not reached make no tree. -/
namespace SqliteGraph.Algo
open Lib Sqlite
variable {E : Int64 → Int64 → Prop} {nodes strict l : List Int64} {root c i n p u v : Int64}
  {sets : NodeSets} {best : Option Int64} {maxSize : Nat} {choices : Int64 → Nat → Nat}

theorem findImmediate_mem (h : findImmediate sets strict l best maxSize = some i) :
    i ∈ l ∨ best = some i := by
  induction l generalizing best maxSize with
  | nil => exact .inr h
  | cons candidate rest ih =>
    rw [findImmediate] at h
    cases hset : sets candidate with
    | none =>
      rw [hset] at h
      exact (ih h).imp_left (List.mem_cons_of_mem _)
    | some set =>
      rw [hset] at h
      dsimp only at h
      split at h
      · cases h
        exact .inl List.mem_cons_self
      · split at h
        · rcases ih h with hin | hbest
          · exact .inl (List.mem_cons_of_mem _ hin)
          · cases hbest
            exact .inl List.mem_cons_self
        · exact (ih h).imp_left (List.mem_cons_of_mem _)

section FirstUnreached

open Classical in
/-- The first other node that is not reached, in the order of the node's set. -/
noncomputable def firstUnreached (choices : Int64 → Nat → Nat) (E : Int64 → Int64 → Prop)
    (nodes : List Int64) (root u : Int64) : Option Int64 :=
  (drain (choices u) nodes.dedup).find? fun v => v ≠ u ∧ ¬ Reached E root v

theorem firstUnreached_spec (h : firstUnreached choices E nodes root u = some v) :
    v ∈ nodes ∧ v ≠ u ∧ ¬ Reached E root v := by
  have hmem := List.mem_of_find?_eq_some h
  rw [(drain_perm _ _).mem_iff, List.mem_dedup] at hmem
  exact ⟨hmem, by simpa using List.find?_some h⟩

theorem exists_firstUnreached (hv : v ∈ nodes) (hne : v ≠ u) (hnot : ¬ Reached E root v) :
    ∃ f, firstUnreached choices E nodes root u = some f := by
  refine Option.isSome_iff_exists.mp (List.find?_isSome.mpr ⟨v, ?_, by simp [hne, hnot]⟩)
  rwa [(drain_perm _ _).mem_iff, List.mem_dedup]

open Classical in
/-- A candidate that is reached lacks a node that is not; the first that is not has all of them. -/
theorem DominatorSets.findImmediate_unreached (h : DominatorSets E nodes root sets)
    (hstrict : ∀ x ∈ strict, x ∈ nodes) (hl : ∀ x ∈ l, x ∈ nodes) (hv : v ∈ strict)
    (hnot : ¬ Reached E root v) (hfirst : l.find? (fun x => ¬ Reached E root x) = some i) :
    findImmediate sets strict l best maxSize = some i := by
  induction l generalizing best maxSize with
  | nil => cases hfirst
  | cons candidate rest ih =>
    rw [List.forall_mem_cons] at hl
    obtain ⟨set, hset, -⟩ := h.get candidate hl.1
    rw [findImmediate, hset]
    dsimp only
    rw [List.find?_cons] at hfirst
    by_cases hreached : Reached E root candidate
    · rw [if_neg]
      · simp only [hreached, not_true_eq_false, decide_false] at hfirst
        split
        · exact ih hl.2 hfirst
        · exact ih hl.2 hfirst
      · intro hall
        have hin := List.all_eq_true.mp hall v hv
        simp only [Bool.or_eq_true, decide_eq_true_eq] at hin
        rcases hin with rfl | hin
        · exact hnot hreached
        · exact hnot (((h.exact candidate set hreached hset v).mp hin).reached hreached)
    · simp only [hreached, not_false_eq_true, decide_true, Option.some.injEq] at hfirst
      subst hfirst
      rw [h.unreached candidate hl.1 hreached, Option.some.injEq] at hset
      refine if_pos (List.all_eq_true.mpr fun x hx => ?_)
      simp [← hset, hstrict x hx]

end FirstUnreached

theorem mem_strict {x : Int64} : x ∈ (drain (choices u) nodes.dedup).filter (· ≠ u) ↔
    x ∈ nodes ∧ x ≠ u := by
  rw [List.mem_filter, (drain_perm _ _).mem_iff, List.mem_dedup, decide_eq_true_iff]

section Unreached
variable (h : DominatorSets E nodes root sets)
include h

theorem DominatorSets.extract_eq (hu : u ∈ nodes) (hnot : ¬ Reached E root u) :
    extractImmediate choices sets root u = some (findImmediate sets
      ((drain (choices u) nodes.dedup).filter (· ≠ u)) ((drain (choices u) nodes.dedup).filter (· ≠ u))
      none 0) := by
  have hne : u ≠ root := by
    rintro rfl
    exact hnot .start
  rw [extractImmediate, if_neg hne, h.unreached u hu hnot]
  rfl

/-- Beside another node that is not reached, the one that comes first is extracted. -/
theorem DominatorSets.extract_unreached (hu : u ∈ nodes) (hnot : ¬ Reached E root u)
    (hfirst : firstUnreached choices E nodes root u = some v) :
    (extractImmediate choices sets root u).join = some v := by
  classical
  obtain ⟨hv, hne, hvnot⟩ := firstUnreached_spec hfirst
  rw [h.extract_eq hu hnot]
  refine h.findImmediate_unreached (fun x hx => (mem_strict.mp hx).1)
    (fun x hx => (mem_strict.mp hx).1) (mem_strict.mpr ⟨hv, hne⟩) hvnot ?_
  rw [List.find?_filter, ← hfirst, firstUnreached]
  refine congrArg (List.find? · _) (funext fun x => ?_)
  simp [Bool.decide_and]

/-- What is extracted is another node. -/
theorem DominatorSets.extract_mem (hu : u ∈ nodes) (hnot : ¬ Reached E root u)
    (hc : (extractImmediate choices sets root u).join = some c) : c ∈ nodes ∧ c ≠ u := by
  rw [h.extract_eq hu hnot] at hc
  exact mem_strict.mp ((findImmediate_mem hc).resolve_right (by simp))

end Unreached

section Ends
variable {g : FiniteGraph} {entry : Int64} {result : DominatorResult}

/-- A runner that starts at one of several nodes that are not reached stops only at the one that was
extracted for its node. -/
theorem DominatorSets.climb_unreached
    (h : DominatorSets (Joined g.toTables) g.entities entry result.dom)
    (hentry : entry ∈ g.entities) (hidom : result.idom = extractImmediate choices result.dom entry)
    (hother : ∀ u ∈ g.entities, ¬ Reached (Joined g.toTables) entry u →
      ∃ f, firstUnreached choices (Joined g.toTables) g.entities entry u = some f)
    (hn : n ∈ g.entities) (hp : p ∈ g.entities) (hnot : ¬ Reached (Joined g.toTables) entry p)
    (hl : Climbs result.idom n p l) :
    ¬ Reached (Joined g.toTables) entry n ∧ ∃ v,
      firstUnreached choices (Joined g.toTables) g.entities entry n = some v ∧
      Relation.ReflTransGen (fun a b =>
        firstUnreached choices (Joined g.toTables) g.entities entry a = some b) p v := by
  have hexact := h.result_exact hentry hidom
  have hnext : ∀ u ∈ g.entities, ¬ Reached (Joined g.toTables) entry u → ∃ f,
      firstUnreached choices (Joined g.toTables) g.entities entry u = some f ∧
        (result.idom u).join = some f := by
    intro u hu hunot
    obtain ⟨f, hf⟩ := hother u hu hunot
    exact ⟨f, hf, by rw [hidom, h.extract_unreached hu hunot hf]⟩
  induction hl with
  | @stop p hstop =>
    obtain ⟨f, -, hjoin⟩ := hnext p hp hnot
    rw [climbStops_of_some (.inr hjoin), decide_eq_true_eq] at hstop
    by_cases hreached : Reached (Joined g.toTables) entry n
    · exfalso
      by_cases hne : n = entry
      · rw [hne, hexact.root] at hstop
        cases hstop
      · have himm := (hexact.idom n hreached hne p).mp hstop.symm
        exact hnot (himm.strict.1.reached hreached)
    · obtain ⟨f', hf', hjoin'⟩ := hnext n hn hreached
      rw [hjoin', Option.some.injEq] at hstop
      exact ⟨hreached, p, hstop ▸ hf', .refl⟩
  | @last p _ hnone =>
    obtain ⟨f, -, hjoin⟩ := hnext p hp hnot
    rw [hnone] at hjoin
    cases hjoin
  | @next p q l _ hq _ ih =>
    obtain ⟨f, hf, hjoin⟩ := hnext p hp hnot
    rw [hq, Option.some.injEq] at hjoin
    subst hjoin
    obtain ⟨hq, -, hqnot⟩ := firstUnreached_spec hf
    obtain ⟨hnnot, v, hv, hchain⟩ := ih hq hqnot
    exact ⟨hnnot, v, hv, hchain.head hf⟩

/-- A runner that follows the nodes that are not reached up to the one extracted for its node. -/
theorem DominatorSets.climbs_unreached
    (h : DominatorSets (Joined g.toTables) g.entities entry result.dom)
    (hidom : result.idom = extractImmediate choices result.dom entry)
    (hn : n ∈ g.entities) (hnnot : ¬ Reached (Joined g.toTables) entry n)
    (hv : firstUnreached choices (Joined g.toTables) g.entities entry n = some v)
    (hp : p ∈ g.entities) (hnot : ¬ Reached (Joined g.toTables) entry p)
    (hchain : Relation.ReflTransGen (fun a b =>
      firstUnreached choices (Joined g.toTables) g.entities entry a = some b) p v) :
    ∃ l, Climbs result.idom n p l := by
  have hidomn : (result.idom n).join = some v := by rw [hidom, h.extract_unreached hn hnnot hv]
  induction hchain using Relation.ReflTransGen.head_induction_on with
  | refl => exact ⟨[], .stop (by rw [climbStops_of_some (.inl hidomn), hidomn]; simp)⟩
  | @head p q hfirst _ ih =>
    cases hstop : climbStops result.idom n p with
    | true => exact ⟨[], .stop hstop⟩
    | false =>
      obtain ⟨hq, -, hqnot⟩ := firstUnreached_spec hfirst
      obtain ⟨l, hl⟩ := ih hq hqnot
      exact ⟨p :: l, .next hstop (by rw [hidom, h.extract_unreached hp hnot hfirst]) hl⟩

/-- The only node that is not reached is below nodes that are. -/
theorem DominatorSets.climbs_single
    (h : DominatorSets (Joined g.toTables) g.entities entry result.dom)
    (hentry : entry ∈ g.entities) (hidom : result.idom = extractImmediate choices result.dom entry)
    (hp : p ∈ g.entities) (hnot : ¬ Reached (Joined g.toTables) entry p)
    (hsingle : ∀ q ∈ g.entities, ¬ Reached (Joined g.toTables) entry q → q = p) :
    ∃ l, Climbs result.idom n p l := by
  have hexact := h.result_exact hentry hidom
  cases hstop : climbStops result.idom n p with
  | true => exact ⟨[], .stop hstop⟩
  | false =>
    cases hjoin : (result.idom p).join with
    | none => exact ⟨[p], .last hstop hjoin⟩
    | some c =>
      obtain ⟨hc, hne⟩ := h.extract_mem hp hnot (hidom ▸ hjoin)
      have hreached : Reached (Joined g.toTables) entry c := by
        by_contra hcnot
        exact hne (hsingle c hc hcnot)
      obtain ⟨l, hl⟩ := hexact.climbs hreached
      exact ⟨p :: l, .next hstop hjoin hl⟩

end Ends

/-- The construction ends exactly if every edge from a node that is not reached either starts at the
only such node, or leads to such a node too, from where the runner comes to the node extracted for it. -/
theorem frontiers_end_iff (g : FiniteGraph) (choices : Int64 → Nat → Nat) (entry : Int64)
    (result : DominatorResult) (h : dominators choices g.toTables entry = .ok result) :
    (∃ fuel frontiers, dominanceFrontiers fuel g.toTables result = .ok frontiers) ↔
      ∀ p n, Joined g.toTables p n → ¬ Reached (Joined g.toTables) entry p →
        (∀ q ∈ g.entities, ¬ Reached (Joined g.toTables) entry q → q = p) ∨
        ¬ Reached (Joined g.toTables) entry n ∧ ∃ v,
          firstUnreached choices (Joined g.toTables) g.entities entry n = some v ∧
          Relation.ReflTransGen (fun a b =>
            firstUnreached choices (Joined g.toTables) g.entities entry a = some b) p v := by
  obtain ⟨hentry, hsets, hidom⟩ := dominators_sets h
  have hexact := hsets.result_exact hentry hidom
  constructor
  · rintro ⟨fuel, frontiers, hrun⟩ p n hpn hnot
    obtain ⟨hp, hn⟩ := g.joined_mem hpn
    obtain ⟨l, hl⟩ := climbs_of_climbAlls hrun hn (mem_fetchIncoming.mpr hpn)
    by_cases hsingle : ∀ q ∈ g.entities, ¬ Reached (Joined g.toTables) entry q → q = p
    · exact .inl hsingle
    refine .inr (hsets.climb_unreached hentry hidom ?_ hn hp hnot hl)
    simp only [not_forall] at hsingle
    obtain ⟨q, hq, hqnot, hqp⟩ := hsingle
    intro u _ _
    by_cases hup : u = p
    · exact exists_firstUnreached hq (hup ▸ hqp) hqnot
    · exact exists_firstUnreached hp (Ne.symm hup) hnot
  · intro hedges
    have hclimbs : ∀ n ∈ g.entities, ∀ p ∈ fetchIncoming g.toTables n,
        ∃ l, Climbs result.idom n p l := by
      intro n hn p hpn
      rw [mem_fetchIncoming] at hpn
      have hp := (g.joined_mem hpn).1
      by_cases hreached : Reached (Joined g.toTables) entry p
      · exact hexact.climbs hreached
      · rcases hedges p n hpn hreached with hsingle | ⟨hnnot, v, hv, hchain⟩
        · exact hsets.climbs_single hentry hidom hp hreached hsingle
        · exact hsets.climbs_unreached hidom hn hnnot hv hp hreached hchain
    obtain ⟨bound, hbound⟩ := climbAlls_run hclimbs
    obtain ⟨frontiers, hrun, -⟩ := hbound bound le_rfl fun _ => none
    exact ⟨bound, frontiers, hrun⟩

theorem frontiers_end_mutualGraph : ∃ result,
    dominators (fun _ _ => 0) mutualGraph.toTables 1 = .ok result ∧
    ∃ fuel frontiers, dominanceFrontiers fuel mutualGraph.toTables result = .ok frontiers := by
  obtain ⟨result, h⟩ := dominators_mutualGraph
  refine ⟨result, h, (frontiers_end_iff mutualGraph (fun _ _ => 0) 1 result h).mpr ?_⟩
  intro p n hpn hnot
  have hstep : Joined mutualGraph.toTables 1 2 := ⟨⟨⟨1, 2, "flow"⟩, 1⟩, .head _, rfl, rfl⟩
  have hall : ∀ v ∈ mutualGraph.entities, Reached (Joined mutualGraph.toTables) 1 v :=
    List.forall_mem_cons.mpr ⟨.start, List.forall_mem_singleton.mpr (Reached.start.step hstep)⟩
  exact absurd (hall p (mutualGraph.joined_mem hpn).1) hnot

/-- Two nodes that the entry does not reach, with an edge to the entry. -/
def strandedGraph : FiniteGraph where
  entities := [1, 2, 3]
  edges := [⟨⟨2, 1, "flow"⟩, 1⟩]
  nodup := by decide
  closed := by decide

/-- The runner goes round between the two. -/
theorem not_frontiers_end : ¬ ∀ (g : FiniteGraph) (choices : Int64 → Nat → Nat) (entry : Int64)
    (result : DominatorResult), dominators choices g.toTables entry = .ok result →
    ∃ fuel frontiers, dominanceFrontiers fuel g.toTables result = .ok frontiers := by
  intro hall
  have hreached : ∀ v, Reached (Joined strandedGraph.toTables) 1 v → v = 1 := by
    rintro v ⟨path, hroute⟩
    induction hroute with
    | nil => rfl
    | step _ he ih =>
      subst ih
      obtain ⟨e, he, hfrom, -⟩ := he
      rw [List.mem_singleton.mp he] at hfrom
      exact absurd hfrom (by decide)
  have h2 : ¬ Reached (Joined strandedGraph.toTables) 1 2 := fun h => absurd (hreached 2 h) (by decide)
  have h3 : ¬ Reached (Joined strandedGraph.toTables) 1 3 := fun h => absurd (hreached 3 h) (by decide)
  have hok : (dominators (fun _ _ => 0) strandedGraph.toTables 1).isOk = true := by decide +kernel
  cases h : dominators (fun _ _ => 0) strandedGraph.toTables 1 with
  | error e =>
    rw [h] at hok
    cases hok
  | ok result =>
    obtain ⟨fuel, frontiers, hrun⟩ := hall strandedGraph (fun _ _ => 0) 1 result h
    obtain ⟨hentry, hsets, hidom⟩ := dominators_sets h
    have hpn : Joined strandedGraph.toTables 2 1 := ⟨⟨⟨2, 1, "flow"⟩, 1⟩, .head _, rfl, rfl⟩
    obtain ⟨l, hl⟩ := climbs_of_climbAlls hrun hentry (mem_fetchIncoming.mpr hpn)
    have hnot := hsets.climb_unreached hentry hidom ?_ hentry (by decide) h2 hl
    · exact hnot.1 .start
    intro u _ _
    by_cases hu : u = 2
    · exact exists_firstUnreached (show 3 ∈ _ by decide) (hu ▸ by decide) h3
    · exact exists_firstUnreached (show 2 ∈ _ by decide) (Ne.symm hu) h2

end SqliteGraph.Algo
