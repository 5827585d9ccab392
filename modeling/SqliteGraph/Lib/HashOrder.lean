import Mathlib

/-! The order in which a hash map gives out its entries: any order, picked by an oracle. -/
namespace SqliteGraph.Lib
variable {α : Type}

/-- Take out `n` entries, each time the one that `choices` points at. -/
def drainLoop : Nat → (Nat → Nat) → List α → List α
  | 0, _, _ => []
  | n + 1, choices, l =>
    match l[choices 0 % l.length]? with
    | some a => a :: drainLoop n (fun i => choices (i + 1)) (l.eraseIdx (choices 0 % l.length))
    | none => []

/-- The entries in the order of the oracle. -/
def drain (choices : Nat → Nat) (l : List α) : List α := drainLoop l.length choices l

theorem drainLoop_perm (n : Nat) (choices : Nat → Nat) (l : List α) (h : l.length = n) :
    (drainLoop n choices l).Perm l := by
  induction n generalizing choices l with
  | zero =>
    rw [List.eq_nil_of_length_eq_zero h]
    rfl
  | succ n ih =>
    have hlt : choices 0 % l.length < l.length := Nat.mod_lt _ (by omega)
    have hlen : (l.eraseIdx (choices 0 % l.length)).length = n := by
      rw [List.length_eraseIdx_of_lt hlt]
      omega
    rw [drainLoop, List.getElem?_eq_getElem hlt]
    exact ((ih _ _ hlen).cons _).trans (List.getElem_cons_eraseIdx_perm hlt)

theorem drain_perm (choices : Nat → Nat) (l : List α) : (drain choices l).Perm l :=
  drainLoop_perm _ choices l rfl

theorem exists_drainLoop {l target : List α} (h : target.Perm l) :
    ∃ choices, drainLoop l.length choices l = target := by
  induction target generalizing l with
  | nil =>
    obtain rfl := h.nil_eq
    exact ⟨fun _ => 0, rfl⟩
  | cons a target ih =>
    obtain ⟨i, hi, hget⟩ := List.mem_iff_getElem.mp (h.subset List.mem_cons_self)
    have hrest : target.Perm (l.eraseIdx i) := by
      refine List.Perm.cons_inv (a := a) (h.trans ?_)
      rw [← hget]
      exact (List.getElem_cons_eraseIdx_perm hi).symm
    obtain ⟨choices, hchoices⟩ := ih hrest
    have hlen : l.length = (l.eraseIdx i).length + 1 := by
      rw [List.length_eraseIdx_of_lt hi]
      omega
    refine ⟨fun j => j.casesOn i choices, ?_⟩
    have hmod : i % l.length = i := Nat.mod_eq_of_lt hi
    rw [hlen, drainLoop]
    change (match l[i % l.length]? with
      | some a => a :: drainLoop (l.eraseIdx i).length choices (l.eraseIdx (i % l.length))
      | none => []) = _
    rw [hmod, List.getElem?_eq_getElem hi, hget]
    exact congrArg (a :: ·) hchoices

/-- Every order is the order of some oracle. -/
theorem exists_drain {l target : List α} (h : target.Perm l) : ∃ choices, drain choices l = target :=
  exists_drainLoop h

end SqliteGraph.Lib
