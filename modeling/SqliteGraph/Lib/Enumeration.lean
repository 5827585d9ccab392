import SqliteGraph.Lib.HashOrder
import SqliteGraph.Lib.StoreM

/-! Hash maps whose keys number a list, and loops that check each of their entries. -/
namespace SqliteGraph.Lib

variable {α κ β ε : Type} [DecidableEq κ]

/-- A loop that stops at the first error has checked every item. -/
theorem forM_ok_iff (f : α → Except ε PUnit) (l : List α) :
    l.forM f = .ok ⟨⟩ ↔ ∀ a ∈ l, f a = .ok ⟨⟩ := by
  induction l with
  | nil => simp [pure, Except.pure]
  | cons a l ih =>
    rw [List.forall_mem_cons, ← ih]
    rcases h : f a with e | u
    · simp [h, bind, Except.bind]
    · simp [h, bind, Except.bind]

/-- The results of a loop that does not fail are those of its items, one by one. -/
theorem mapM_ok_forall₂ {f : α → Except ε β} {l : List α} {bs : List β} (h : l.mapM f = .ok bs) :
    List.Forall₂ (fun a b => f a = .ok b) l bs := by
  induction l generalizing bs with
  | nil =>
    cases h
    exact .nil
  | cons a l ih =>
    rw [List.mapM_cons] at h
    cases ha : f a with
    | error e =>
      simp only [ha, bind, Except.bind] at h
      cases h
    | ok b =>
      cases hl : l.mapM f with
      | error e =>
        simp only [ha, hl, bind, Except.bind] at h
        cases h
      | ok rest =>
        simp only [ha, hl, bind, Except.bind] at h
        cases h
        exact .cons ha (ih hl)

/-- Each item has a result, and each result an item. -/
theorem mem_of_mapM {f : α → Except ε β} {l : List α} {bs : List β} (h : l.mapM f = .ok bs) :
    (∀ a ∈ l, ∃ b ∈ bs, f a = .ok b) ∧ ∀ b ∈ bs, ∃ a ∈ l, f a = .ok b := by
  have hall := mapM_ok_forall₂ h
  clear h
  induction hall with
  | nil => simp
  | cons hab _ ih =>
    obtain ⟨hitems, hresults⟩ := ih
    constructor
    · intro a' ha'
      rcases List.mem_cons.mp ha' with rfl | ha'
      · exact ⟨_, List.mem_cons_self, hab⟩
      · obtain ⟨b', hb', hf⟩ := hitems a' ha'
        exact ⟨b', List.mem_cons_of_mem _ hb', hf⟩
    · intro b' hb'
      rcases List.mem_cons.mp hb' with rfl | hb'
      · exact ⟨_, List.mem_cons_self, hab⟩
      · obtain ⟨a', ha', hf⟩ := hresults b' hb'
        exact ⟨a', List.mem_cons_of_mem _ ha', hf⟩

theorem getElem?_of_mapM {f : α → Except ε β} {l : List α} {bs : List β} (h : l.mapM f = .ok bs) {i : Nat}
    {b : β} (hb : bs[i]? = some b) : ∃ a, l[i]? = some a ∧ f a = .ok b := by
  have hall := mapM_ok_forall₂ h
  obtain ⟨hi, rfl⟩ := List.getElem?_eq_some_iff.mp hb
  have hl : i < l.length := by
    rw [hall.length_eq]
    exact hi
  exact ⟨l[i], List.getElem?_eq_getElem hl, hall.get hl hi⟩

theorem StoreM.Preserves.forM {σ : Type} {I : σ → Prop} {f : α → StoreM σ ε PUnit} {l : List α}
    (h : ∀ a ∈ l, Preserves I (f a)) : Preserves I (l.forM f) := by
  induction l with
  | nil => exact Preserves.pure
  | cons a l ih =>
    obtain ⟨ha, hl⟩ := List.forall_mem_cons.mp h
    exact Preserves.bind ha fun _ => ih hl

theorem StoreM.Returns.forM {σ : Type} {I : σ → Prop} {f : α → StoreM σ ε PUnit} {l : List α}
    (h : ∀ a ∈ l, Returns I (f a) fun _ => True) : Returns I (l.forM f) fun _ => True := by
  induction l with
  | nil => exact Returns.pure trivial
  | cons a l ih =>
    obtain ⟨ha, hl⟩ := List.forall_mem_cons.mp h
    exact Returns.bind ha fun _ _ => ih hl

/-- Change every value of a map. -/
def mapValues (f : β → β) (m : AList (fun _ : κ => β)) : AList (fun _ : κ => β) :=
  ⟨m.entries.map (.map id fun _ => f), m.nodupKeys.map₂ _ _⟩

theorem lookup_mapValues (f : β → β) (m : AList (fun _ : κ => β)) (k : κ) :
    (mapValues f m).lookup k = (m.lookup k).map f :=
  List.dlookup_map₂ k

/-- Change the value at each key. -/
def mapEntries (f : κ → β → β) (m : AList (fun _ : κ => β)) : AList (fun _ : κ => β) :=
  ⟨m.entries.map (.map id f), m.nodupKeys.map₂ _ _⟩

theorem lookup_mapEntries (f : κ → β → β) (m : AList (fun _ : κ => β)) (k : κ) :
    (mapEntries f m).lookup k = (m.lookup k).map (f k) :=
  List.dlookup_map₂ k

theorem length_insert {m : AList (fun _ : κ => β)} {k : κ} {b : β} (h : m.lookup k = none) :
    (m.insert k b).entries.length = m.entries.length + 1 := by
  rw [AList.entries_insert_of_notMem (AList.lookup_eq_none.mp h), List.length_cons]

omit [DecidableEq κ] in
theorem keys_length (m : AList (fun _ : κ => β)) : m.keys.length = m.entries.length := by
  simp [AList.keys, List.keys]

theorem length_erase {m : AList (fun _ : κ => β)} {k : κ} {b : β} (h : m.lookup k = some b) :
    (m.erase k).entries.length + 1 = m.entries.length := by
  have hk : k ∈ m.keys := AList.lookup_isSome.mp (by rw [h]; rfl)
  have hpos := List.length_pos_of_mem hk
  rw [← keys_length, ← keys_length, AList.keys_erase, List.length_erase_of_mem hk]
  omega

theorem length_erase_le (m : AList (fun _ : κ => β)) (k : κ) :
    (m.erase k).entries.length ≤ m.entries.length := by
  rw [← keys_length, ← keys_length, AList.keys_erase]
  exact (List.erase_sublist).length_le

/-- The map has the positions of the list as its keys, each with the item there. -/
structure Enumerates (m : AList (fun _ : Nat => α)) (xs : List α) : Prop where
  length : m.entries.length = xs.length
  lookup : ∀ i, m.lookup i = xs[i]?

namespace Enumerates
variable {m : AList (fun _ : Nat => α)} {xs : List α} {a : α} {i : Nat}

theorem empty : Enumerates (∅ : AList (fun _ : Nat => α)) [] := ⟨rfl, fun _ => by simp⟩

theorem mem_entries (h : Enumerates m xs) {p : Sigma fun _ : Nat => α} (hp : p ∈ m.entries) :
    xs[p.1]? = some p.2 := by
  rw [← h.lookup]
  exact AList.mem_lookup_iff.mpr hp

theorem snoc (h : Enumerates m xs) (a : α) : Enumerates (m.insert xs.length a) (xs ++ [a]) := by
  have hnone : m.lookup xs.length = none := by
    rw [h.lookup]
    simp
  refine ⟨?_, fun i => ?_⟩
  · rw [length_insert hnone, h.length, List.length_append, List.length_singleton]
  rcases Nat.lt_trichotomy i xs.length with hlt | rfl | hgt
  · rw [AList.lookup_insert_ne (by omega), h.lookup, List.getElem?_append_left hlt]
  · rw [AList.lookup_insert]
    simp
  · rw [AList.lookup_insert_ne (by omega), h.lookup, List.getElem?_eq_none (by omega),
      List.getElem?_eq_none (by simp; omega)]

end Enumerates

/-- Run a program on one part of a larger state. -/
def StoreM.focus {σ τ : Type} (view : σ → τ) (put : σ → τ → σ) (x : StoreM τ ε α) : StoreM σ ε α :=
  fun s => ((x (view s)).1, put s (x (view s)).2)

@[simp] theorem StoreM.focus_run {σ τ : Type} (view : σ → τ) (put : σ → τ → σ) (x : StoreM τ ε α)
    (s : σ) : focus view put x s = ((x (view s)).1, put s (x (view s)).2) := rfl

end SqliteGraph.Lib
