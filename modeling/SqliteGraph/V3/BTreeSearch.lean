import SqliteGraph.V3.BTreeShape

/-! The searches inside one page agree with the map that the sorted page stands for. -/
namespace SqliteGraph.V3
open Lib

variable {es : List (Nat × Nat)} {keys : List Nat} {key value idx : Nat}

namespace IndexPage

theorem binarySearch_cons (k : Nat) (keys : List Nat) (target : Nat) :
    binarySearch (k :: keys) target =
      if target ≤ k then (if k = target then .ok 0 else .error 0)
      else match binarySearch keys target with
        | .ok i => .ok (i + 1)
        | .error i => .error (i + 1) := by
  by_cases hle : target ≤ k
  · simp [binarySearch, List.findIdx_cons, hle]
  · simp only [binarySearch, List.findIdx_cons, hle, decide_false, cond_false,
      List.getElem?_cons_succ, if_false]
    split <;> rfl

theorem binarySearchLeaf_cons (e : Nat × Nat) (es : List (Nat × Nat)) (target : Nat) :
    binarySearchLeaf (e :: es) target =
      if target ≤ e.1 then (if e.1 = target then .ok 0 else .error 0)
      else match binarySearchLeaf es target with
        | .ok i => .ok (i + 1)
        | .error i => .error (i + 1) := binarySearch_cons ..

theorem binarySearchLeaf_ok (h : binarySearchLeaf es key = .ok idx) :
    ∃ v, es[idx]? = some (key, v) ∧ es.lookup key = some v := by
  induction es generalizing idx with
  | nil => simp [binarySearchLeaf, binarySearch] at h
  | cons e es ih =>
    rw [binarySearchLeaf_cons] at h
    split at h
    · split at h
      · rename_i heq
        cases h
        exact ⟨e.2, by simp [← heq], by simp [lookup_cons_eq, heq]⟩
      · cases h
    · rename_i hgt
      split at h
      · rename_i i hi
        cases h
        obtain ⟨v, hv, hl⟩ := ih hi
        have hne : key ≠ e.1 := by omega
        exact ⟨v, by simpa using hv, by simp [lookup_cons_eq, hne, hl]⟩
      · cases h

theorem binarySearchLeaf_error (hs : Sorted es) (h : binarySearchLeaf es key = .error idx) :
    ∀ e ∈ es, e.1 ≠ key := by
  induction es generalizing idx with
  | nil => simp
  | cons e es ih =>
    have he := List.pairwise_cons.mp hs
    rw [binarySearchLeaf_cons] at h
    split at h
    · split at h
      · cases h
      · rename_i hle hne
        intro f hf
        rcases List.mem_cons.mp hf with rfl | hf
        · exact hne
        · have := he.1 f hf
          omega
    · rename_i hgt
      split at h
      · cases h
      · rename_i i hi
        intro f hf
        rcases List.mem_cons.mp hf with rfl | hf
        · omega
        · exact ih he.2 hi f hf

theorem eraseIdx_eq_without (hs : Sorted es) (h : binarySearchLeaf es key = .ok idx) :
    es.eraseIdx idx = without key es := by
  induction es generalizing idx with
  | nil => simp [binarySearchLeaf, binarySearch] at h
  | cons e es ih =>
    have he := List.pairwise_cons.mp hs
    rw [binarySearchLeaf_cons] at h
    split at h
    · split at h
      · rename_i heq
        cases h
        have hrest : without key es = es := without_eq_self (by
          intro f hf
          have := he.1 f hf
          omega)
        simpa [without, heq] using hrest.symm
      · cases h
    · rename_i hgt
      split at h
      · rename_i i hi
        cases h
        have hne : e.1 ≠ key := by omega
        have := ih he.2 hi
        simpa [without, hne] using this
      · cases h

theorem findChildIndex_cons (k : Nat) (keys : List Nat) (target : Nat) :
    findChildIndex (k :: keys) target =
      if target ≤ k then (if k = target then 1 else 0)
      else findChildIndex keys target + 1 := by
  unfold findChildIndex
  rw [binarySearch_cons]
  by_cases hle : target ≤ k
  · by_cases heq : k = target <;> simp [hle, heq]
  · simp only [if_neg hle]
    cases binarySearch keys target <;> rfl

/-- The child index is the position of the item whose range holds the key. -/
theorem findChildIndex_focus {pre post : List (Nat × Nat)} {c u hi : Nat}
    (hk : keys ++ [hi] = (pre ++ (c, u) :: post).map Prod.snd)
    (hsort : ((pre ++ (c, u) :: post).map Prod.snd).Pairwise (· < ·))
    (hpre : ∀ i ∈ pre, i.2 ≤ key) (hu : key < u) : findChildIndex keys key = pre.length := by
  induction pre generalizing keys with
  | nil =>
    cases keys with
    | nil => rfl
    | cons k keys =>
      have hku : k = u := by
        have := congrArg List.head? hk
        simpa using this
      rw [findChildIndex_cons, hku]
      simp [hu.le, hu.ne']
  | cons a pre ih =>
    cases keys with
    | nil => simp at hk
    | cons k keys =>
      simp only [List.cons_append, List.map_cons, List.cons.injEq] at hk hsort
      obtain ⟨rfl, hk⟩ := hk
      have ha := List.pairwise_cons.mp hsort
      have hle := hpre a List.mem_cons_self
      rw [findChildIndex_cons]
      by_cases heq : a.2 = key
      · have hnil : pre = [] := by
          cases pre with
          | nil => rfl
          | cons b pre =>
            have h₁ := ha.1 b.2 (by simp)
            have h₂ := hpre b (by simp)
            omega
        simp [heq, hnil]
      · have hlt : ¬ key ≤ a.2 := by omega
        rw [if_neg hlt, ih hk ha.2 (fun i hi => hpre i (List.mem_cons_of_mem _ hi))]
        rfl

end IndexPage

theorem BTreeManager.updateEntries_eq_upsert :
    BTreeManager.updateEntries es key value = upsert key value es := by
  induction es with
  | nil => rfl
  | cons e es ih =>
    unfold BTreeManager.updateEntries at ih ⊢
    rw [IndexPage.binarySearchLeaf_cons]
    by_cases hle : key ≤ e.1
    · by_cases heq : e.1 = key
      · simp [heq, upsert]
      · have hlt : key < e.1 := by omega
        simp [hle, heq, upsert, hlt]
    · have hnlt : ¬ key < e.1 := by omega
      have hne : ¬ e.1 = key := by omega
      simp only [if_neg hle, upsert, if_neg hnlt, if_neg hne, ← ih]
      cases IndexPage.binarySearchLeaf es key <;> rfl

end SqliteGraph.V3
