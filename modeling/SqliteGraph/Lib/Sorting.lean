import Mathlib

/-! Sorted results: which items they hold decides them. -/
namespace SqliteGraph.Lib
variable {α κ : Type}

theorem mergeSort_eq_iff {le : α → α → Bool} (trans : ∀ a b c, le a b → le b c → le a c)
    (total : ∀ a b, (le a b || le b a) = true) (antisymm : ∀ a b, le a b → le b a → a = b)
    {l₁ l₂ : List α} : l₁.mergeSort le = l₂.mergeSort le ↔ l₁.Perm l₂ := by
  constructor
  · intro h
    exact (List.mergeSort_perm l₁ le).symm.trans (h ▸ List.mergeSort_perm l₂ le)
  · intro h
    have hp : (l₁.mergeSort le).Perm (l₂.mergeSort le) :=
      (List.mergeSort_perm l₁ le).trans (h.trans (List.mergeSort_perm l₂ le).symm)
    refine hp.eq_of_pairwise ?_ (List.pairwise_mergeSort trans total l₁)
      (List.pairwise_mergeSort trans total l₂)
    intro a b _ _
    exact antisymm a b

/-- The items in groups by their keys, one group for each of some keys. -/
theorem flatMap_filter_perm [DecidableEq κ] (key : α → κ) (l : List α) {keys : List κ}
    (h : keys.Nodup) :
    (keys.flatMap fun k => l.filter fun a => key a = k).Perm (l.filter fun a => key a ∈ keys) := by
  induction keys with
  | nil => simp
  | cons k keys ih =>
    obtain ⟨hk, hkeys⟩ := List.nodup_cons.mp h
    have hsplit := List.filter_append_perm (fun a => decide (key a = k))
      (l.filter fun a => key a ∈ k :: keys)
    rw [List.filter_filter, List.filter_filter] at hsplit
    have hfirst : (l.filter fun a => decide (key a = k) && decide (key a ∈ k :: keys)) =
        l.filter fun a => key a = k := by
      apply List.filter_congr
      intro a _
      by_cases ha : key a = k <;> simp [ha]
    have hrest : (l.filter fun a => !decide (key a = k) && decide (key a ∈ k :: keys)) =
        l.filter fun a => key a ∈ keys := by
      apply List.filter_congr
      intro a _
      by_cases ha : key a = k
      · simp [ha, hk]
      · simp [ha]
    rw [hfirst, hrest] at hsplit
    rw [List.flatMap_cons]
    exact ((ih hkeys).append_left _).trans hsplit

end SqliteGraph.Lib
