import Mathlib

/-! Slots that are emptied and filled again, with a stack of the vacant ones and lists that index the
occupied ones. -/
namespace SqliteGraph.Lib

variable {α : Type} {slots : List (Option α)} {free rest : List Nat} {count i j : Nat} {a : α}

/-- `xs[i] = f(xs[i])`; an index out of bounds panics. -/
def modifyAt (xs : List α) (i : Nat) (f : α → α) : Except String (List α) :=
  if i < xs.length then .ok (xs.modify i f) else .error "index out of bounds"

theorem modifyAt_ok {xs : List α} {f : α → α} (h : i < xs.length) :
    modifyAt xs i f = .ok (xs.modify i f) := if_pos h

/-- `xs[i] = a`; an index out of bounds panics. -/
def setAt (xs : List α) (i : Nat) (a : α) : Except String (List α) :=
  if i < xs.length then .ok (xs.set i a) else .error "index out of bounds"

theorem setAt_ok {xs : List α} (h : i < xs.length) : setAt xs i a = .ok (xs.set i a) := if_pos h

/-- The stack holds the vacant slots, each once, and the count is that of the others. -/
structure Slab (slots : List (Option α)) (free : List Nat) (count : Nat) : Prop where
  nodup : free.Nodup
  mem_free : ∀ i, i ∈ free ↔ slots[i]? = some none
  count : count = slots.countP Option.isSome

namespace Slab

theorem empty : Slab ([] : List (Option α)) [] 0 := ⟨List.nodup_nil, by simp, rfl⟩

theorem lt_length (h : Slab slots free count) (hi : i ∈ free) : i < slots.length :=
  (List.getElem?_eq_some_iff.mp ((h.mem_free i).mp hi)).1

/-- A slot is occupied, vacant or beyond the end. -/
theorem cases (h : Slab slots free count) (i : Nat) :
    (∃ a, slots[i]? = some (some a)) ∨ i ∈ free ∨ slots.length ≤ i := by
  rw [h.mem_free]
  rcases hs : slots[i]? with _ | _ | a
  · exact .inr (.inr (List.getElem?_eq_none_iff.mp hs))
  · exact .inr (.inl rfl)
  · exact .inl ⟨a, rfl⟩

theorem push (h : Slab slots [] count) : Slab (slots ++ [some a]) [] (count + 1) := by
  refine ⟨List.nodup_nil, ?_, by simp [h.count]⟩
  intro i
  have hi := h.mem_free i
  rcases Nat.lt_trichotomy i slots.length with hlt | rfl | hgt
  · rwa [List.getElem?_append_left hlt]
  · simp
  · rw [List.getElem?_eq_none (by simp; omega)]
    simp

theorem reuse (h : Slab slots (i :: rest) count) :
    Slab (slots.set i (some a)) rest (count + 1) := by
  have hnd := List.nodup_cons.mp h.nodup
  have hvac : slots[i]? = some none := (h.mem_free i).mp List.mem_cons_self
  obtain ⟨hlt, hget⟩ := List.getElem?_eq_some_iff.mp hvac
  refine ⟨hnd.2, ?_, by simp [List.countP_set hlt, hget, h.count]⟩
  intro j
  by_cases hj : i = j
  · subst j
    simp [List.getElem?_set_self hlt, hnd.1]
  · rw [List.getElem?_set_ne hj, ← h.mem_free j, List.mem_cons]
    exact ⟨.inr, fun hm => hm.resolve_left (Ne.symm hj)⟩

theorem take (h : Slab slots free count) (hi : slots[i]? = some (some a)) :
    Slab (slots.set i none) (i :: free) (count - 1) := by
  obtain ⟨hlt, hget⟩ := List.getElem?_eq_some_iff.mp hi
  have hfresh : i ∉ free := by
    rw [h.mem_free, hi]
    simp
  refine ⟨List.nodup_cons.mpr ⟨hfresh, h.nodup⟩, ?_, by simp [List.countP_set hlt, hget, h.count]⟩
  intro j
  by_cases hj : i = j
  · subst j
    simp [List.getElem?_set_self hlt]
  · rw [List.getElem?_set_ne hj, ← h.mem_free j, List.mem_cons]
    exact ⟨fun hm => hm.resolve_left (Ne.symm hj), .inr⟩

end Slab

/-- List `i` of the index holds every occupied slot whose item is at `i`, once, with the item's other
end, and nothing else. -/
def Mirrors (slots : List (Option α)) (lists : List (List (Nat × Nat))) (here there : α → Nat) :
    Prop :=
  ∀ i l, lists[i]? = some l → l.Nodup ∧
    ∀ e t, (e, t) ∈ l ↔ ∃ a, slots[e]? = some (some a) ∧ here a = i ∧ there a = t

namespace Mirrors
variable {slots' : List (Option α)} {lists : List (List (Nat × Nat))} {here there : α → Nat} {e : Nat}

/-- A new item is appended to the list at its place. -/
theorem link (h : Mirrors slots lists here there) (hvac : ∀ b, slots[e]? ≠ some (some b))
    (hnew : slots'[e]? = some (some a))
    (hold : ∀ e' b, e' ≠ e → (slots'[e']? = some (some b) ↔ slots[e']? = some (some b))) :
    Mirrors slots' (lists.modify (here a) (· ++ [(e, there a)])) here there := by
  intro i l hl
  have hmem : ∀ e' t, (∃ b, slots'[e']? = some (some b) ∧ here b = i ∧ there b = t) ↔
      (∃ b, slots[e']? = some (some b) ∧ here b = i ∧ there b = t) ∨
        e' = e ∧ here a = i ∧ there a = t := by
    intro e' t
    by_cases he : e' = e
    · subst e'
      simp [hnew, hvac]
    · simp [hold e' _ he, he]
  by_cases hi : here a = i
  · subst i
    rw [List.getElem?_modify_eq] at hl
    obtain ⟨l₀, hl₀, rfl⟩ := Option.map_eq_some_iff.mp hl
    obtain ⟨hnd, hl₀⟩ := h _ _ hl₀
    have hfresh : (e, there a) ∉ l₀ := by
      rw [hl₀]
      rintro ⟨b, hb, -⟩
      exact hvac b hb
    refine ⟨List.nodup_append'.mpr ⟨hnd, List.nodup_singleton _, by simpa using hfresh⟩, ?_⟩
    intro e' t
    rw [hmem, List.mem_append, hl₀, List.mem_singleton, Prod.mk.injEq]
    simp [eq_comm]
  · rw [List.getElem?_modify_ne _ _ hi] at hl
    refine ⟨(h _ _ hl).1, fun e' t => ?_⟩
    rw [hmem, (h _ _ hl).2]
    simp [hi]

/-- The slot's item is taken out of the list at its place. -/
theorem unlink (h : Mirrors slots lists here there) (hold : slots[e]? = some (some a)) :
    Mirrors (slots.set e none) (lists.modify (here a) (·.filter (·.1 ≠ e))) here there := by
  intro i l hl
  have hlt := (List.getElem?_eq_some_iff.mp hold).1
  have hmem : ∀ e' t, (∃ b, (slots.set e none)[e']? = some (some b) ∧ here b = i ∧ there b = t) ↔
      (∃ b, slots[e']? = some (some b) ∧ here b = i ∧ there b = t) ∧ e' ≠ e := by
    intro e' t
    by_cases he : e = e'
    · subst e'
      simp [List.getElem?_set_self hlt]
    · simp [List.getElem?_set_ne he, Ne.symm he]
  by_cases hi : here a = i
  · subst i
    rw [List.getElem?_modify_eq] at hl
    obtain ⟨l₀, hl₀, rfl⟩ := Option.map_eq_some_iff.mp hl
    obtain ⟨hnd, hl₀⟩ := h _ _ hl₀
    refine ⟨hnd.filter _, fun e' t => ?_⟩
    rw [hmem, List.mem_filter, hl₀]
    simp
  · rw [List.getElem?_modify_ne _ _ hi] at hl
    refine ⟨(h _ _ hl).1, fun e' t => ?_⟩
    rw [hmem, (h _ _ hl).2]
    refine ⟨fun hb => ⟨hb, ?_⟩, And.left⟩
    rintro rfl
    obtain ⟨b, hb, hbi, -⟩ := hb
    rw [hold] at hb
    cases hb
    exact hi hbi

/-- A place where no item is has an empty list. -/
theorem clear (h : Mirrors slots lists here there)
    (hi : ∀ (e : Nat) b, slots[e]? = some (some b) → here b ≠ i) :
    Mirrors slots (lists.set i []) here there := by
  intro j l hl
  by_cases hj : i = j
  · subst j
    rw [List.getElem?_set_self (by simpa using (List.getElem?_eq_some_iff.mp hl).1)] at hl
    cases hl
    refine ⟨List.nodup_nil, fun e t => ?_⟩
    simp only [List.not_mem_nil, false_iff]
    rintro ⟨b, hb, hbi, -⟩
    exact hi e b hb hbi
  · rw [List.getElem?_set_ne hj] at hl
    exact h j l hl

/-- A new place starts with an empty list. -/
theorem grow (h : Mirrors slots lists here there)
    (hi : ∀ (e : Nat) b, slots[e]? = some (some b) → here b < lists.length) :
    Mirrors slots (lists ++ [[]]) here there := by
  intro j l hl
  rcases Nat.lt_trichotomy j lists.length with hlt | rfl | hgt
  · rw [List.getElem?_append_left hlt] at hl
    exact h j l hl
  · simp only [List.getElem?_concat_length, Option.some.injEq] at hl
    subst l
    refine ⟨List.nodup_nil, fun e t => ?_⟩
    simp only [List.not_mem_nil, false_iff]
    rintro ⟨b, hb, hbi, -⟩
    exact (hi e b hb).ne hbi
  · rw [List.getElem?_eq_none (by simp; omega)] at hl
    cases hl

end Mirrors

end SqliteGraph.Lib
