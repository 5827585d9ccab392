import Mathlib

/-! Lazy iteration: what a state gives when its next item is asked for again and again. -/
namespace SqliteGraph.Lib

/-- From the result of a call on, the calls give these items, and the last one nothing. -/
inductive Yields {σ α : Type} (next : σ → Option α × σ) : Option α × σ → List α → σ → Prop
  | done {s} : Yields next (none, s) [] s
  | item {s a as s'} : Yields next (next s) as s' → Yields next (some a, s) (a :: as) s'

variable {σ α : Type} {next : σ → Option α × σ} {r : Option α × σ} {as bs : List α} {s s' s'' : σ}

theorem Yields.of_none (h : r = (none, s)) : Yields next r [] s := by
  rw [h]
  exact .done

/-- One list and one state at the end. -/
theorem Yields.unique (h : Yields next r as s') (h' : Yields next r bs s'') : as = bs ∧ s' = s'' := by
  induction h generalizing bs with
  | done =>
    cases h'
    exact ⟨rfl, rfl⟩
  | item _ ih =>
    cases h' with
    | item h' =>
      obtain ⟨rfl, rfl⟩ := ih h'
      exact ⟨rfl, rfl⟩

end SqliteGraph.Lib
