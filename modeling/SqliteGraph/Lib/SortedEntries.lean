import Mathlib

/-! Association lists in strictly increasing key order, as maps. -/
namespace SqliteGraph.Lib

variable {K V : Type} [LinearOrder K] {k k' : K} {v : V} {es l m r : List (K × V)}

/-- Strictly increasing in key. -/
def Sorted (es : List (K × V)) : Prop := es.Pairwise (fun a b => a.1 < b.1)

/-- Insert a binding in key order, replacing the one already there. -/
def upsert (k : K) (v : V) : List (K × V) → List (K × V)
  | [] => [(k, v)]
  | e :: es =>
    if k < e.1 then (k, v) :: e :: es
    else if e.1 = k then (k, v) :: es
    else e :: upsert k v es

def without (k : K) (es : List (K × V)) : List (K × V) := es.filter (fun e => e.1 ≠ k)

theorem sorted_nil : Sorted ([] : List (K × V)) := List.Pairwise.nil

theorem sorted_append : Sorted (l ++ m) ↔
    Sorted l ∧ Sorted m ∧ ∀ a ∈ l, ∀ b ∈ m, a.1 < b.1 := List.pairwise_append

theorem mem_upsert {e : K × V} (h : e ∈ upsert k v es) : e = (k, v) ∨ e ∈ es := by
  induction es with
  | nil => simpa [upsert] using h
  | cons a es ih =>
    simp only [upsert] at h
    split at h
    · simpa using h
    · split at h
      · rcases List.mem_cons.mp h with he | he
        · exact Or.inl he
        · exact Or.inr (List.mem_cons_of_mem _ he)
      · rcases List.mem_cons.mp h with he | he
        · exact Or.inr (he ▸ List.mem_cons_self)
        · exact (ih he).imp_right (List.mem_cons_of_mem _)

theorem sorted_upsert (h : Sorted es) : Sorted (upsert k v es) := by
  induction es with
  | nil => simp [upsert, Sorted]
  | cons a es ih =>
    have ha := List.pairwise_cons.mp h
    simp only [upsert]
    split
    · rename_i hlt
      refine List.pairwise_cons.mpr ⟨?_, h⟩
      intro b hb
      rcases List.mem_cons.mp hb with rfl | hb
      · exact hlt
      · exact hlt.trans (ha.1 b hb)
    · split
      · rename_i heq
        refine List.pairwise_cons.mpr ⟨?_, ha.2⟩
        intro b hb
        simpa only [← heq] using ha.1 b hb
      · rename_i hnlt hne
        refine List.pairwise_cons.mpr ⟨?_, ih ha.2⟩
        intro b hb
        rcases mem_upsert hb with rfl | hb
        · exact lt_of_le_of_ne (not_lt.mp hnlt) hne
        · exact ha.1 b hb

theorem sorted_without (h : Sorted es) : Sorted (without k es) := List.Pairwise.filter _ h

theorem upsert_append_right (h : ∀ e ∈ l, e.1 < k) : upsert k v (l ++ m) = l ++ upsert k v m := by
  induction l with
  | nil => rfl
  | cons a l ih =>
    have ha : a.1 < k := h a List.mem_cons_self
    have hl := ih (fun e he => h e (List.mem_cons_of_mem _ he))
    simp [upsert, ha.not_gt, ha.ne, hl]

theorem upsert_append_left (h : ∀ e ∈ r, k < e.1) : upsert k v (m ++ r) = upsert k v m ++ r := by
  induction m with
  | nil =>
    cases r with
    | nil => rfl
    | cons a r => simp [upsert, h a List.mem_cons_self]
  | cons a m ih =>
    simp only [List.cons_append, upsert, ih]
    split_ifs <;> rfl

theorem without_append : without k (l ++ m) = without k l ++ without k m := List.filter_append ..

theorem without_eq_self (h : ∀ e ∈ es, e.1 ≠ k) : without k es = es :=
  List.filter_eq_self.mpr (by simpa using h)

theorem lookup_cons_eq (e : K × V) :
    (e :: es).lookup k = if k = e.1 then some e.2 else es.lookup k := by
  obtain ⟨a, b⟩ := e
  by_cases hk : k = a <;> simp [List.lookup_cons, hk, beq_false_of_ne]

theorem lookup_eq_none (h : ∀ e ∈ es, e.1 ≠ k) : es.lookup k = none := by
  induction es with
  | nil => rfl
  | cons a es ih =>
    have ha : (k == a.1) = false := beq_false_of_ne (h a List.mem_cons_self).symm
    rw [List.lookup_cons, ha]
    exact ih (fun e he => h e (List.mem_cons_of_mem _ he))

theorem lookup_append_right (h : ∀ e ∈ l, e.1 ≠ k) : (l ++ m).lookup k = m.lookup k := by
  rw [List.lookup_append, lookup_eq_none h, Option.none_or]

theorem lookup_append_left (h : ∀ e ∈ r, e.1 ≠ k) : (m ++ r).lookup k = m.lookup k := by
  rw [List.lookup_append, lookup_eq_none h, Option.or_none]

theorem lookup_upsert (hs : Sorted es) :
    (upsert k v es).lookup k' = if k' = k then some v else es.lookup k' := by
  induction es with
  | nil => simp [upsert, lookup_cons_eq]
  | cons a es ih =>
    have ha := List.pairwise_cons.mp hs
    simp only [upsert]
    split
    · simp [lookup_cons_eq]
    · split
      · rename_i heq
        by_cases hk : k' = k <;> simp [lookup_cons_eq, hk, heq]
      · rename_i hne
        rw [lookup_cons_eq, ih ha.2, lookup_cons_eq]
        by_cases hk : k' = k
        · have hka : k ≠ a.1 := fun he => hne he.symm
          simp [hka, hk]
        · simp [hk]

theorem lookup_without : (without k es).lookup k' = if k' = k then none else es.lookup k' := by
  induction es with
  | nil => simp [without]
  | cons a es ih =>
    by_cases hk : a.1 = k
    · have hw : without k (a :: es) = without k es := by simp [without, hk]
      rw [hw, ih, lookup_cons_eq]
      by_cases hk' : k' = k <;> simp [hk', hk]
    · have hw : without k (a :: es) = a :: without k es := by simp [without, hk]
      rw [hw, lookup_cons_eq, lookup_cons_eq, ih]
      by_cases hka : k' = a.1
      · simp [hka, hk]
      · simp [hka]

theorem length_upsert_le : (upsert k v es).length ≤ es.length + 1 := by
  induction es with
  | nil => simp [upsert]
  | cons a es ih =>
    simp only [upsert]
    split
    · simp
    · split
      · simp
      · simpa using ih

/-- Strictly increasing numbers need at least as much room as there are of them. -/
theorem length_le_of_sorted {V : Type} {es : List (Nat × V)} {lo hi : Nat} (hs : Sorted es)
    (hr : ∀ e ∈ es, lo ≤ e.1 ∧ e.1 < hi) (hlo : lo ≤ hi) : lo + es.length ≤ hi := by
  induction es generalizing lo with
  | nil => simpa using hlo
  | cons a es ih =>
    have ha := List.pairwise_cons.mp hs
    have hra := hr a List.mem_cons_self
    have hr' : ∀ e ∈ es, a.1 + 1 ≤ e.1 ∧ e.1 < hi := fun e he =>
      ⟨ha.1 e he, (hr e (List.mem_cons_of_mem _ he)).2⟩
    have := ih ha.2 hr' (by omega)
    simp only [List.length_cons]
    omega

/-- `es'` is `es` with the stretch `m` around the key replaced by `m'`. -/
structure EditAt (k : K) (m m' es es' : List (K × V)) : Prop where
  edit : ∃ l r, es = l ++ (m ++ r) ∧ es' = l ++ (m' ++ r) ∧
    (∀ e ∈ l, e.1 < k) ∧ ∀ e ∈ r, k < e.1

namespace EditAt
variable {m' es' n n' : List (K × V)}

theorem refl : EditAt k es es' es es' := ⟨[], [], by simp, by simp, by simp, by simp⟩

theorem trans (h : EditAt k m m' n n') (h' : EditAt k n n' es es') : EditAt k m m' es es' := by
  obtain ⟨l, r, rfl, rfl, hl, hr⟩ := h.edit
  obtain ⟨l', r', rfl, rfl, hl', hr'⟩ := h'.edit
  refine ⟨l' ++ l, r ++ r', by simp, by simp, ?_, ?_⟩
  · intro e he
    rcases List.mem_append.mp he with he | he
    · exact hl' e he
    · exact hl e he
  · intro e he
    rcases List.mem_append.mp he with he | he
    · exact hr e he
    · exact hr' e he

theorem same (h : EditAt k m m es es') : es' = es := by
  obtain ⟨l, r, rfl, rfl, _, _⟩ := h.edit
  rfl

theorem upsert (h : EditAt k m (upsert k v m) es es') : es' = Lib.upsert k v es := by
  obtain ⟨l, r, rfl, rfl, hl, hr⟩ := h.edit
  rw [upsert_append_right hl, upsert_append_left hr]

theorem without (h : EditAt k m (without k m) es es') : es' = Lib.without k es := by
  obtain ⟨l, r, rfl, rfl, hl, hr⟩ := h.edit
  have hl' : Lib.without k l = l := without_eq_self fun e he => (hl e he).ne
  have hr' : Lib.without k r = r := without_eq_self fun e he => (hr e he).ne'
  rw [without_append, without_append, hl', hr']

theorem lookup (h : EditAt k m m' es es') : es.lookup k = m.lookup k := by
  obtain ⟨l, r, rfl, _, hl, hr⟩ := h.edit
  rw [lookup_append_right (fun e he => (hl e he).ne),
    lookup_append_left (fun e he => (hr e he).ne')]

end EditAt

end SqliteGraph.Lib
