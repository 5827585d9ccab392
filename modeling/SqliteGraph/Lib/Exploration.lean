import SqliteGraph.Lib.Search

/-! Exploration of a graph with a list of nodes that are still to be left, in whatever order. -/
namespace SqliteGraph.Lib
variable {V : Type} {E : V → V → Prop} {S : Set V} {visited visited' nodes : Finset V}
  {pending pending' l : List V} {node v : V}

/-- The visited nodes are reached; the successors of those that are not pending are visited. -/
structure Exploring (E : V → V → Prop) (S : Set V) (visited : Finset V) (pending : List V) : Prop where
  starts : ∀ s ∈ S, s ∈ visited
  reached : ∀ v ∈ visited, ∃ s ∈ S, Relation.ReflTransGen E s v
  known : ∀ v ∈ pending, v ∈ visited
  follows : ∀ v ∈ visited, v ∈ pending ∨ ∀ w, E v w → w ∈ visited

namespace Exploring

theorem init (hvisited : ∀ v, v ∈ visited ↔ v ∈ S) (hpending : ∀ v, v ∈ pending ↔ v ∈ S) :
    Exploring E S visited pending := by
  refine ⟨fun s hs => (hvisited s).mpr hs, fun v hv => ⟨v, (hvisited v).mp hv, .refl⟩, ?_, ?_⟩
  · exact fun v hv => (hvisited v).mpr ((hpending v).mp hv)
  · exact fun v hv => .inl ((hpending v).mpr ((hvisited v).mp hv))

theorem single (v : V) : Exploring E {v} {v} [v] := init (by simp) (by simp)

/-- A node is left, and its new successors are pending. -/
theorem expand (h : Exploring E S visited (node :: pending))
    (hvisited : ∀ v, v ∈ visited' ↔ v ∈ visited ∨ E node v)
    (hpending : ∀ v, v ∈ pending' ↔ v ∈ pending ∨ E node v ∧ v ∉ visited) :
    Exploring E S visited' pending' := by
  have hnode := h.known node (.head _)
  refine ⟨fun s hs => (hvisited s).mpr (.inl (h.starts s hs)), ?_, ?_, ?_⟩
  · intro v hv
    rcases (hvisited v).mp hv with hv | he
    · exact h.reached v hv
    · obtain ⟨s, hs, hreached⟩ := h.reached node hnode
      exact ⟨s, hs, hreached.tail he⟩
  · intro v hv
    rcases (hpending v).mp hv with hv | ⟨he, -⟩
    · exact (hvisited v).mpr (.inl (h.known v (.tail _ hv)))
    · exact (hvisited v).mpr (.inr he)
  · intro v hv
    by_cases hvnode : v = node
    · exact .inr fun w he => (hvisited w).mpr (.inr (hvnode ▸ he))
    by_cases hold : v ∈ visited
    · rcases h.follows v hold with hin | hall
      · exact .inl ((hpending v).mpr (.inl ((List.mem_cons.mp hin).resolve_left hvnode)))
      · exact .inr fun w he => (hvisited w).mpr (.inl (hall w he))
    · exact .inl ((hpending v).mpr (.inr ⟨((hvisited v).mp hv).resolve_left hold, hold⟩))

/-- The successors are queued in their order, each once. -/
theorem enqueue [DecidableEq V] (h : Exploring E S visited (node :: pending)) (hl : ∀ w, w ∈ l ↔ E node w) :
    Exploring E S (visited ∪ (discover visited l).toFinset) (pending ++ discover visited l) := by
  refine h.expand (fun v => ?_) fun v => ?_
  · rw [Finset.mem_union, List.mem_toFinset, mem_discover, hl]
    tauto
  · rw [List.mem_append, mem_discover, hl]

/-- With nothing pending the visited nodes are those that are reached. -/
theorem ends (h : Exploring E S visited []) :
    v ∈ visited ↔ ∃ s ∈ S, Relation.ReflTransGen E s v := by
  constructor
  · exact h.reached v
  · rintro ⟨s, hs, hreached⟩
    induction hreached with
    | refl => exact h.starts s hs
    | tail _ he ih => exact (h.follows _ ih).resolve_left (by simp) _ he

end Exploring

/-- Each new node is one less to be visited. -/
theorem card_discover [DecidableEq V] (hsub : visited ⊆ nodes) (hl : ∀ w ∈ l, w ∈ nodes) :
    visited ∪ (discover visited l).toFinset ⊆ nodes ∧
      (nodes \ (visited ∪ (discover visited l).toFinset)).card + (discover visited l).length =
        (nodes \ visited).card := by
  have hnew : (discover visited l).toFinset ⊆ nodes \ visited := by
    intro v hv
    obtain ⟨hv, hnot⟩ := mem_discover.mp (List.mem_toFinset.mp hv)
    exact Finset.mem_sdiff.mpr ⟨hl v hv, hnot⟩
  refine ⟨Finset.union_subset hsub (hnew.trans Finset.sdiff_subset), ?_⟩
  rw [← Finset.sup_eq_union, ← sdiff_sdiff_left, ← List.toFinset_card_of_nodup nodup_discover]
  exact Finset.card_sdiff_add_card_eq_card hnew

/-- How much is left for a search: the nodes to be found, and those to be left. -/
def unexplored [DecidableEq V] (nodes visited : Finset V) (pending : Nat) : Nat :=
  (nodes \ visited).card + pending

/-- One node is left, and the new ones among its successors are pending. -/
theorem unexplored_expand [DecidableEq V] (hsub : visited ⊆ nodes) (hl : ∀ w ∈ l, w ∈ nodes) (n : Nat) :
    unexplored nodes (visited ∪ (discover visited l).toFinset) (n + (discover visited l).length) + 1 =
      unexplored nodes visited (n + 1) := by
  have h := (card_discover hsub hl).2
  simp only [unexplored]
  omega

end SqliteGraph.Lib
