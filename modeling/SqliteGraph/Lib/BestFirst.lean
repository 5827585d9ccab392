import Mathlib

/-! Best-first search that keeps the nearest `k` of the nodes it has expanded. -/
namespace SqliteGraph.Lib
variable {V D : Type} [LinearOrder D] {E : V → V → Prop} {S : Set V} {dist : V → D} {k : Nat}
  {results kept all candidates candidates' rest fresh : List V} {c u v w : V}

/-- A path leads to the node from one of the starts. -/
def ReachedFrom (E : V → V → Prop) (S : Set V) (v : V) : Prop :=
  ∃ s ∈ S, Relation.ReflTransGen E s v

theorem ReachedFrom.step (h : ReachedFrom E S u) (he : E u v) : ReachedFrom E S v := by
  obtain ⟨s, hs, hreached⟩ := h
  exact ⟨s, hs, hreached.tail he⟩

/-- What a bounded search finds: nothing that it passes by is nearer than what it keeps. -/
structure Nearest (E : V → V → Prop) (S : Set V) (dist : V → D) (k : Nat) (results : List V) :
    Prop where
  nodup : results.Nodup
  reached : ∀ v ∈ results, ReachedFrom E S v
  bounded : results.length ≤ k
  closed : ∀ v, (v ∈ S ∨ ∃ u ∈ results, E u v) → v ∉ results →
    results.length = k ∧ ∀ r ∈ results, dist r ≤ dist v

namespace Nearest

/-- A search that leaves out a node passes one by. -/
theorem passes (hv : ReachedFrom E S v) (hnot : v ∉ results) :
    ∃ w, ReachedFrom E S w ∧ (w ∈ S ∨ ∃ u ∈ results, E u w) ∧ w ∉ results := by
  by_contra hnone
  have hall : ∀ w, ReachedFrom E S w → (w ∈ S ∨ ∃ u ∈ results, E u w) → w ∈ results := by
    intro w hw hpassed
    by_contra hout
    exact hnone ⟨w, hw, hpassed, hout⟩
  obtain ⟨s, hs, hreached⟩ := hv
  apply hnot
  induction hreached with
  | refl => exact hall s ⟨s, hs, .refl⟩ (.inl hs)
  | @tail a b hab he ih =>
    have hmem : a ∈ results := by
      by_contra hout
      exact hout (ih hout)
    exact hall b ⟨s, hs, hab.tail he⟩ (.inr ⟨a, hmem, he⟩)

/-- With room for all of them, all reached nodes are found. -/
theorem exact (h : Nearest E S dist k results) (hk : {v | ReachedFrom E S v}.encard ≤ k) :
    v ∈ results ↔ ReachedFrom E S v := by
  classical
  refine ⟨h.reached v, fun hv => ?_⟩
  by_contra hnot
  obtain ⟨w, hw, hpassed, hout⟩ := passes hv hnot
  obtain ⟨hlen, -⟩ := h.closed w hpassed hout
  have hsub : ((w :: results).toFinset : Set V) ⊆ {v | ReachedFrom E S v} := by
    intro x hx
    rcases List.mem_cons.mp (List.mem_toFinset.mp (Finset.mem_coe.mp hx)) with rfl | hx
    · exact hw
    · exact h.reached x hx
  have hcard := (Set.encard_le_encard hsub).trans hk
  rw [Set.encard_coe_eq_coe_finsetCard, List.toFinset_card_of_nodup (List.nodup_cons.mpr ⟨hout, h.nodup⟩),
    List.length_cons, hlen] at hcard
  have : k + 1 ≤ k := by exact_mod_cast hcard
  omega

theorem perm (h : Nearest E S dist k results) (hperm : kept.Perm results) : Nearest E S dist k kept where
  nodup := hperm.nodup_iff.mpr h.nodup
  reached v hv := h.reached v (hperm.mem_iff.mp hv)
  bounded := hperm.length_eq ▸ h.bounded
  closed v hv hnot := by
    simp only [hperm.mem_iff, hperm.length_eq] at hv hnot ⊢
    exact h.closed v hv hnot

end Nearest

/-- The nearest `k` of a list. -/
structure KeepsNearest (dist : V → D) (k : Nat) (all kept : List V) : Prop where
  sub : ∀ v ∈ kept, v ∈ all
  nodup : kept.Nodup
  length : kept.length = min k all.length
  nearest : ∀ v ∈ all, v ∉ kept → ∀ r ∈ kept, dist r ≤ dist v

namespace KeepsNearest

theorem of_le (hnodup : all.Nodup) (hlen : all.length ≤ k) : KeepsNearest dist k all all :=
  ⟨fun _ h => h, hnodup, by omega, fun _ h hnot => absurd h hnot⟩

/-- Sorted and cut off. -/
theorem take (hnodup : all.Nodup) {sorted : List V} (hperm : sorted.Perm all)
    (hsorted : sorted.Pairwise fun a b => dist a ≤ dist b) :
    KeepsNearest dist k all (sorted.take k) := by
  refine ⟨fun v hv => hperm.mem_iff.mp (List.mem_of_mem_take hv), ?_, ?_, ?_⟩
  · exact (hperm.nodup_iff.mpr hnodup).sublist (List.take_sublist _ _)
  · rw [List.length_take, hperm.length_eq]
  · intro v hv hnot r hr
    rw [← List.take_append_drop k sorted] at hsorted
    have hsplit : v ∈ sorted.take k ++ sorted.drop k := by
      rw [List.take_append_drop]
      exact hperm.mem_iff.mpr hv
    have hdrop := (List.mem_append.mp hsplit).resolve_left hnot
    exact (List.pairwise_append.mp hsorted).2.2 r hr v hdrop

/-- Where something is left out, there are `k`. -/
theorem full (h : KeepsNearest dist k all kept) (hv : v ∈ all) (hnot : v ∉ kept) :
    kept.length = k := by
  have hsub : (v :: kept).length ≤ all.length := by
    apply List.Nodup.length_le_of_subset (List.nodup_cons.mpr ⟨hnot, h.nodup⟩)
    intro x hx
    rcases List.mem_cons.mp hx with rfl | hx
    · exact hv
    · exact h.sub x hx
  have := h.length
  rw [List.length_cons] at hsub
  omega

end KeepsNearest

/-- The state of a search: what has been expanded, the nearest of it, and what is still to come. -/
structure Beam (E : V → V → Prop) (S : Set V) (dist : V → D) (k : Nat) (expanded : Finset V)
    (results candidates : List V) : Prop where
  starts : ∀ s ∈ S, s ∈ expanded ∨ s ∈ candidates
  reached : ∀ v, v ∈ expanded ∨ v ∈ candidates → ReachedFrom E S v
  unexpanded : ∀ v ∈ candidates, v ∉ expanded
  distinct : candidates.Nodup
  follows : ∀ u ∈ expanded, ∀ v, E u v → v ∈ expanded ∨ v ∈ candidates
  nodup : results.Nodup
  found : ∀ v ∈ results, v ∈ expanded
  bounded : results.length ≤ k
  pruned : ∀ v ∈ expanded, v ∉ results → results.length = k ∧ ∀ r ∈ results, dist r ≤ dist v

namespace Beam
variable {expanded : Finset V}

theorem init (hnodup : candidates.Nodup) (hS : ∀ v, v ∈ candidates ↔ v ∈ S) :
    Beam E S dist k ∅ [] candidates where
  starts s hs := .inr ((hS s).mpr hs)
  reached v hv := ⟨v, (hS v).mp (hv.resolve_left (by simp)), .refl⟩
  unexpanded := by simp
  distinct := hnodup
  follows := by simp
  nodup := List.nodup_nil
  found := by simp
  bounded := Nat.zero_le k
  pruned := by simp

/-- The order of the candidates does not matter. -/
theorem perm (h : Beam E S dist k expanded results candidates) (hp : candidates'.Perm candidates) :
    Beam E S dist k expanded results candidates' where
  starts s hs := by simpa only [hp.mem_iff] using h.starts s hs
  reached v hv := h.reached v (by simpa only [hp.mem_iff] using hv)
  unexpanded v hv := h.unexpanded v (hp.mem_iff.mp hv)
  distinct := hp.nodup_iff.mpr h.distinct
  follows u hu v he := by simpa only [hp.mem_iff] using h.follows u hu v he
  nodup := h.nodup
  found := h.found
  bounded := h.bounded
  pruned := h.pruned

/-- A candidate is expanded: its new neighbors become candidates, and the nearest `k` results stay. -/
theorem expand [DecidableEq V] (h : Beam E S dist k expanded results (c :: rest))
    (hfresh : ∀ v, v ∈ fresh ↔ E c v ∧ v ∉ expanded ∧ v ∉ c :: rest) (hnodup : fresh.Nodup)
    (hkept : KeepsNearest dist k (results ++ [c]) kept) :
    Beam E S dist k (insert c expanded) kept (rest ++ fresh) := by
  have hc : c ∉ expanded := h.unexpanded c (.head _)
  have hcresult : c ∉ results := fun hin => hc (h.found c hin)
  have hall : (results ++ [c]).Nodup := by
    rw [List.nodup_append']
    exact ⟨h.nodup, List.nodup_singleton c, by simpa using hcresult⟩
  have hcover : ∀ v, v ∈ expanded ∨ v ∈ c :: rest → v ∈ insert c expanded ∨ v ∈ rest ++ fresh := by
    rintro v (hv | hv)
    · exact .inl (Finset.mem_insert_of_mem hv)
    · rcases List.mem_cons.mp hv with rfl | hv
      · exact .inl (Finset.mem_insert_self _ _)
      · exact .inr (List.mem_append_left _ hv)
  refine ⟨fun s hs => hcover s (h.starts s hs), ?_, ?_, ?_, ?_, hkept.nodup, ?_, ?_, ?_⟩
  · intro v hv
    have hcreached : ReachedFrom E S c := h.reached c (.inr (.head _))
    rcases hv with hv | hv
    · rcases Finset.mem_insert.mp hv with rfl | hv
      · exact hcreached
      · exact h.reached v (.inl hv)
    · rcases List.mem_append.mp hv with hv | hv
      · exact h.reached v (.inr (.tail _ hv))
      · exact hcreached.step ((hfresh v).mp hv).1
  · intro v hv
    rw [Finset.mem_insert, not_or]
    rcases List.mem_append.mp hv with hv | hv
    · refine ⟨?_, h.unexpanded v (.tail _ hv)⟩
      rintro rfl
      exact (List.nodup_cons.mp h.distinct).1 hv
    · obtain ⟨-, hexp, hcand⟩ := (hfresh v).mp hv
      exact ⟨fun hvc => hcand (hvc ▸ .head _), hexp⟩
  · rw [List.nodup_append']
    refine ⟨(List.nodup_cons.mp h.distinct).2, hnodup, ?_⟩
    intro v hv hvfresh
    exact ((hfresh v).mp hvfresh).2.2 (.tail _ hv)
  · intro u hu v he
    rcases Finset.mem_insert.mp hu with rfl | hu
    · by_cases hknown : v ∈ expanded ∨ v ∈ u :: rest
      · exact hcover v hknown
      · rw [not_or] at hknown
        exact .inr (List.mem_append_right _ ((hfresh v).mpr ⟨he, hknown⟩))
    · exact hcover v (h.follows u hu v he)
  · intro v hv
    rcases List.mem_append.mp (hkept.sub v hv) with hv | hv
    · exact Finset.mem_insert_of_mem (h.found v hv)
    · rw [List.mem_singleton.mp hv]
      exact Finset.mem_insert_self _ _
  · rw [hkept.length]
    exact Nat.min_le_left _ _
  · intro v hv hnot
    by_cases hin : v ∈ results ++ [c]
    · exact ⟨hkept.full hin hnot, hkept.nearest v hin hnot⟩
    · rw [List.mem_append, not_or, List.mem_singleton] at hin
      obtain ⟨hlen, hfar⟩ := h.pruned v ((Finset.mem_insert.mp hv).resolve_left hin.2) hin.1
      have hklen : kept.length = k := by
        rw [hkept.length, List.length_append, hlen, List.length_singleton]
        omega
      refine ⟨hklen, fun r hr => ?_⟩
      rcases List.mem_append.mp (hkept.sub r hr) with hold | hnew
      · exact hfar r hold
      · -- `c` is kept, so one of the `k` results before it is left out
        rw [List.mem_singleton.mp hnew] at hr ⊢
        obtain ⟨x, hx, hxout⟩ : ∃ x ∈ results, x ∉ kept := by
          by_contra hnone
          have hsub : (c :: results).length ≤ kept.length := by
            apply List.Nodup.length_le_of_subset (List.nodup_cons.mpr ⟨hcresult, h.nodup⟩)
            intro x hx
            rcases List.mem_cons.mp hx with rfl | hx
            · exact hr
            · by_contra hxout
              exact hnone ⟨x, hx, hxout⟩
          rw [List.length_cons] at hsub
          omega
        exact (hkept.nearest x (List.mem_append_left _ hx) hxout c hr).trans (hfar x hx)

/-- The search may end when nothing is left, or when all that is left is too far. -/
theorem nearest (h : Beam E S dist k expanded results candidates)
    (hstop : ∀ v ∈ candidates, results.length = k ∧ ∀ r ∈ results, dist r ≤ dist v) :
    Nearest E S dist k results where
  nodup := h.nodup
  reached v hv := h.reached v (.inl (h.found v hv))
  bounded := h.bounded
  closed := by
    intro v hpassed hnot
    have hknown : v ∈ expanded ∨ v ∈ candidates := by
      rcases hpassed with hv | ⟨u, hu, he⟩
      · exact h.starts v hv
      · exact h.follows u (h.found u hu) v he
    rcases hknown with hv | hv
    · exact h.pruned v hv hnot
    · exact hstop v hv

/-- One more can be expanded while there are candidates. -/
theorem card_lt (h : Beam E S dist k expanded results (c :: rest)) {nodes : Finset V}
    (hnodes : ∀ v, ReachedFrom E S v → v ∈ nodes) : expanded.card < nodes.card := by
  apply Finset.card_lt_card
  rw [Finset.ssubset_iff_of_subset fun v hv => hnodes v (h.reached v (.inl hv))]
  exact ⟨c, hnodes c (h.reached c (.inr (.head _))), h.unexpanded c (.head _)⟩

end Beam

end SqliteGraph.Lib
