import SqliteGraph.Algo.FiniteGraph
import SqliteGraph.Lib.Exploration

/-! The transitive closure, by a search from each node. -/
namespace SqliteGraph.Algo
open Lib Sqlite

structure TransitiveClosureBounds where
  maxDepth : Option Nat := none
  maxSources : Option Nat := none
  maxPairs : Option Nat := none

section Search
variable (bounds : TransitiveClosureBounds) (t : Tables) (source : Int64)

/-- The neighbors of a node; on the left what is returned when there are pairs enough. -/
def closureNeighbors (depth : Nat) : List Int64 → Finset (Int64 × Int64) → Finset Int64 →
    List (Int64 × Nat) →
    Finset (Int64 × Int64) ⊕ (Finset (Int64 × Int64) × Finset Int64 × List (Int64 × Nat))
  | [], closure, visited, queue => .inr (closure, visited, queue)
  | neighbor :: rest, closure, visited, queue =>
    if neighbor ∈ visited then closureNeighbors depth rest closure visited queue
    else
      let closure := insert (source, neighbor) closure
      if bounds.maxPairs.any (· ≤ closure.card) then .inl closure
      else closureNeighbors depth rest closure (insert neighbor visited)
        (if bounds.maxDepth.all (depth + 1 < ·) then queue ++ [(neighbor, depth + 1)] else queue)

def closureSearch : Nat → Finset (Int64 × Int64) → Finset Int64 → List (Int64 × Nat) →
    Except SqliteGraphError (Finset (Int64 × Int64) ⊕ Finset (Int64 × Int64))
  | _, closure, _, [] => .ok (.inr closure)
  | 0, _, _, _ :: _ => .error .outOfFuel
  | fuel + 1, closure, visited, (node, depth) :: queue =>
    if bounds.maxDepth.any (· ≤ depth) then closureSearch fuel closure visited queue
    else
      match closureNeighbors bounds source depth (fetchOutgoing t node) closure visited queue with
      | .inl closure => .ok (.inl closure)
      | .inr (closure, visited, queue) => closureSearch fuel closure visited queue

end Search

def closureSources (bounds : TransitiveClosureBounds) (t : Tables) :
    List Int64 → Finset (Int64 × Int64) → Except SqliteGraphError (Finset (Int64 × Int64))
  | [], closure => .ok closure
  | source :: rest, closure => do
    match ← closureSearch bounds t source t.entities.length (insert (source, source) closure) {source}
      [(source, 0)] with
    | .inl closure => return closure
    | .inr closure => closureSources bounds t rest closure

/-- The pairs that are mapped to `true`. -/
def transitiveClosure (t : Tables) (bounds : Option TransitiveClosureBounds) :
    Except SqliteGraphError (Finset (Int64 × Int64)) :=
  if t.entities.length = 0 then .ok ∅
  else
    let bounds := bounds.getD {}
    closureSources bounds t (t.entities.take (bounds.maxSources.getD t.entities.length)) ∅

section Closure
variable {g : FiniteGraph} {source u v : Int64} {closure base : Finset (Int64 × Int64)}
  {visited : Finset Int64} {queue : List (Int64 × Nat)} {l : List Int64} {fuel depth : Nat}

/-- Without bounds all neighbors are taken. -/
theorem closureNeighbors_unbounded : closureNeighbors {} source depth l closure visited queue =
    .inr (closure ∪ ((discover visited l).map (source, ·)).toFinset,
      visited ∪ (discover visited l).toFinset, queue ++ (discover visited l).map (·, depth + 1)) := by
  induction l generalizing closure visited queue with
  | nil => simp [closureNeighbors, discover]
  | cons neighbor rest ih =>
    rw [closureNeighbors, discover]
    split
    · exact ih
    · rw [if_neg (by simp), if_pos (by simp), ih]
      simp

/-- One search adds the pairs of its source. -/
theorem closureSearch_run (base closure : Finset (Int64 × Int64))
    (h : Exploring (Joined g.toTables) {source} visited (queue.map Prod.fst))
    (hpairs : ∀ p, p ∈ closure ↔ p ∈ base ∨ p.1 = source ∧ p.2 ∈ visited)
    (hsub : visited ⊆ g.entities.toFinset)
    (hfuel : (g.entities.toFinset \ visited).card + queue.length ≤ fuel) :
    ∃ closure', closureSearch {} g.toTables source fuel closure visited queue = .ok (.inr closure') ∧
      ∀ p, p ∈ closure' ↔ p ∈ base ∨ p.1 = source ∧
        Relation.ReflTransGen (Joined g.toTables) source p.2 := by
  induction fuel generalizing closure visited queue with
  | zero =>
    cases queue with
    | nil => exact ⟨closure, rfl, fun p => by rw [hpairs, h.ends]; simp⟩
    | cons x queue => simp at hfuel
  | succ fuel ih =>
    rcases queue with _ | ⟨⟨node, depth⟩, queue⟩
    · exact ⟨closure, rfl, fun p => by rw [hpairs, h.ends]; simp⟩
    · rw [closureSearch, if_neg (by simp), closureNeighbors_unbounded]
      obtain ⟨hsub', hcard⟩ := card_discover hsub fun w hw =>
        List.mem_toFinset.mpr (g.joined_mem (mem_fetchOutgoing.mp hw : Joined _ node w)).2
      refine ih _ ?_ (fun p => ?_) hsub' ?_
      · have hnext := h.enqueue (l := fetchOutgoing g.toTables node) fun _ => mem_fetchOutgoing
        simpa [Function.comp_def] using hnext
      · rw [Finset.mem_union, hpairs, Finset.mem_union, List.mem_toFinset, List.mem_toFinset,
          List.mem_map]
        constructor
        · rintro ((hp | ⟨heq, hp⟩) | ⟨w, hw, rfl⟩)
          · exact .inl hp
          · exact .inr ⟨heq, .inl hp⟩
          · exact .inr ⟨rfl, .inr hw⟩
        · rintro (hp | ⟨heq, hp | hp⟩)
          · exact .inl (.inl hp)
          · exact .inl (.inr ⟨heq, hp⟩)
          · exact .inr ⟨p.2, hp, by rw [← heq]⟩
      · simp only [List.length_cons, List.length_append, List.length_map] at hfuel ⊢
        omega

theorem closureSources_run (hl : ∀ s ∈ l, s ∈ g.entities) (base : Finset (Int64 × Int64)) :
    ∃ closure, closureSources {} g.toTables l base = .ok closure ∧
      ∀ p, p ∈ closure ↔ p ∈ base ∨ p.1 ∈ l ∧
        Relation.ReflTransGen (Joined g.toTables) p.1 p.2 := by
  induction l generalizing base with
  | nil => exact ⟨base, rfl, by simp⟩
  | cons source l ih =>
    obtain ⟨hsource, hl⟩ := List.forall_mem_cons.mp hl
    have hsub : ({source} : Finset Int64) ⊆ g.entities.toFinset :=
      Finset.singleton_subset_iff.mpr (List.mem_toFinset.mpr hsource)
    have hfuel : (g.entities.toFinset \ {source}).card + [(source, 0)].length ≤ g.entities.length := by
      have hcard := Finset.card_le_card hsub
      have hle := g.entities.toFinset_card_le
      rw [Finset.card_sdiff_of_subset hsub]
      simp only [Finset.card_singleton, List.length_singleton] at hcard ⊢
      omega
    obtain ⟨first, hfirst, hmem⟩ := closureSearch_run base
      (insert (source, source) base) (.single source) (fun p => by simp [Prod.ext_iff, or_comm]) hsub hfuel
    obtain ⟨closure, hrun, hall⟩ := ih hl first
    refine ⟨closure, ?_, fun p => ?_⟩
    · rw [closureSources, hfirst]
      exact hrun
    · rw [hall, hmem, List.mem_cons]
      grind

/-- The closure holds the pairs with a path from the one node to the other. -/
theorem transitiveClosure_run (g : FiniteGraph) :
    ∃ closure, transitiveClosure g.toTables none = .ok closure ∧ ∀ u v, (u, v) ∈ closure ↔
      u ∈ g.entities ∧ Relation.ReflTransGen (Joined g.toTables) u v := by
  by_cases hempty : g.entities.length = 0
  · have hnil := List.length_eq_zero_iff.mp hempty
    exact ⟨∅, by rw [transitiveClosure, if_pos hempty], by simp [hnil]⟩
  · obtain ⟨closure, hrun, hmem⟩ := closureSources_run (g := g) (fun _ hs => hs) ∅
    refine ⟨closure, ?_, fun u v => by rw [hmem]; simp⟩
    rw [transitiveClosure, if_neg hempty]
    simpa using hrun

end Closure

end SqliteGraph.Algo
