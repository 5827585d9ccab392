import Mathlib

/-! Chains of items over consecutive ranges, each linked to the next: the children of a tree node. -/
namespace SqliteGraph.Lib

variable {K ι α : Type}

/-- `Seg R lo hi first next items es ps`: the items, each with its upper bound, partition
`[lo, hi)`, link `first` to `next`, and together hold the contents `es` in the places `ps`. -/
inductive Seg (R : K → K → ι → ι → ι → List α → List ι → Prop) :
    K → K → ι → ι → List (ι × K) → List α → List ι → Prop
  | nil {lo first} : Seg R lo lo first first [] [] []
  | cons {lo mid hi first link next c items es es' ps ps'} :
      R lo mid first link c es ps → Seg R mid hi link next items es' ps' →
      Seg R lo hi first next ((c, mid) :: items) (es ++ es') (ps ++ ps')

namespace Seg
variable {R R' : K → K → ι → ι → ι → List α → List ι → Prop} {lo mid hi : K}
  {first link next : ι} {items items' : List (ι × K)} {es es' : List α} {ps ps' : List ι}

theorem single {c : ι} (h : R lo hi first next c es ps) :
    Seg R lo hi first next [(c, hi)] es ps := by
  simpa using Seg.cons h Seg.nil

theorem append (h : Seg R lo mid first link items es ps)
    (h' : Seg R mid hi link next items' es' ps') :
    Seg R lo hi first next (items ++ items') (es ++ es') (ps ++ ps') := by
  induction h with
  | nil => exact h'
  | cons hr _ ih => simpa only [List.cons_append, List.append_assoc] using Seg.cons hr (ih h')

theorem split (h : Seg R lo hi first next (items ++ items') es ps) :
    ∃ mid link es₁ es₂ ps₁ ps₂, Seg R lo mid first link items es₁ ps₁ ∧
      Seg R mid hi link next items' es₂ ps₂ ∧ es = es₁ ++ es₂ ∧ ps = ps₁ ++ ps₂ := by
  induction items generalizing lo first es ps with
  | nil => exact ⟨lo, first, [], es, [], ps, .nil, h, rfl, rfl⟩
  | cons a items ih =>
    cases h with
    | cons hr hs =>
      obtain ⟨m, l, es₁, es₂, ps₁, ps₂, h₁, h₂, rfl, rfl⟩ := ih hs
      exact ⟨m, l, _, es₂, _, ps₂, .cons hr h₁, h₂, by simp, by simp⟩

/-- Items may be re-read in another world that agrees on all their places. -/
theorem imp {Q : ι → Prop} (h : Seg R lo hi first next items es ps) (hq : ∀ p ∈ ps, Q p)
    (himp : ∀ {lo hi first next c es ps}, R lo hi first next c es ps → (∀ p ∈ ps, Q p) →
      R' lo hi first next c es ps) : Seg R' lo hi first next items es ps := by
  induction h with
  | nil => exact .nil
  | cons hr _ ih =>
    exact .cons (himp hr (fun p hp => hq p (List.mem_append_left _ hp)))
      (ih (fun p hp => hq p (List.mem_append_right _ hp)))

theorem lo_eq_of_nil (h : Seg R lo hi first next [] es ps) :
    lo = hi ∧ first = next ∧ es = [] ∧ ps = [] := by
  cases h
  exact ⟨rfl, rfl, rfl, rfl⟩

/-- The last item's upper bound is the chain's. -/
theorem hi_eq {us : List K} {u : K} (h : Seg R lo hi first next items es ps)
    (hu : items.map Prod.snd = us ++ [u]) : u = hi := by
  induction h generalizing us with
  | nil => simp at hu
  | cons _ hs ih =>
    cases us with
    | nil =>
      simp only [List.map_cons, List.nil_append, List.cons.injEq, List.map_eq_nil_iff] at hu
      obtain ⟨rfl, rfl⟩ := hu
      exact (lo_eq_of_nil hs).1
    | cons v us =>
      simp only [List.map_cons, List.cons_append, List.cons.injEq] at hu
      exact ih hu.2

/-- Every item sits somewhere in the chain. -/
theorem mem_places {c : ι} {u : K} (h : Seg R lo hi first next items es ps)
    (hc : (c, u) ∈ items)
    (hr : ∀ {lo hi first next c es ps}, R lo hi first next c es ps → c ∈ ps) : c ∈ ps := by
  induction h with
  | nil => simp at hc
  | cons hi _ ih =>
    rcases List.mem_cons.mp hc with he | he
    · cases he
      exact List.mem_append_left _ (hr hi)
    · exact List.mem_append_right _ (ih he)

section Ordered
variable {V : Type} {R : Nat → Nat → ι → ι → ι → List (Nat × V) → List ι → Prop}
  {lo hi : Nat} {items : List (ι × Nat)} {es : List (Nat × V)}

/-- Items of width at least `w` make a chain that is at least `w` times its length wide. -/
theorem width {w : Nat} (h : Seg R lo hi first next items es ps)
    (hw : ∀ {lo hi first next c es ps}, R lo hi first next c es ps → lo + w ≤ hi) :
    lo + w * items.length ≤ hi := by
  induction h with
  | nil => simp
  | cons hr _ ih =>
    have := hw hr
    simp only [List.length_cons, Nat.mul_succ]
    omega

theorem le (h : Seg R lo hi first next items es ps)
    (hw : ∀ {lo hi first next c es ps}, R lo hi first next c es ps → lo < hi) : lo ≤ hi := by
  have := width (w := 0) h (fun hr => by have := hw hr; omega)
  omega

/-- The upper bounds lie above the chain's lower bound. -/
theorem lt_upper (h : Seg R lo hi first next items es ps)
    (hw : ∀ {lo hi first next c es ps}, R lo hi first next c es ps → lo < hi) :
    ∀ i ∈ items, lo < i.2 ∧ i.2 ≤ hi := by
  induction h with
  | nil => simp
  | cons hr hs ih =>
    intro i hi
    have hlt := hw hr
    rcases List.mem_cons.mp hi with rfl | hi
    · exact ⟨hlt, le hs hw⟩
    · have := ih i hi
      omega

/-- The upper bounds strictly increase. -/
theorem uppers_sorted (h : Seg R lo hi first next items es ps)
    (hw : ∀ {lo hi first next c es ps}, R lo hi first next c es ps → lo < hi) :
    (items.map Prod.snd).Pairwise (· < ·) := by
  induction h with
  | nil => exact List.Pairwise.nil
  | cons _ hs ih =>
    refine List.pairwise_cons.mpr ⟨?_, ih⟩
    intro b hb
    obtain ⟨i, hi, rfl⟩ := List.mem_map.mp hb
    exact (lt_upper hs hw i hi).1

theorem range (h : Seg R lo hi first next items es ps)
    (hw : ∀ {lo hi first next c es ps}, R lo hi first next c es ps → lo < hi)
    (hr : ∀ {lo hi first next c es ps}, R lo hi first next c es ps →
      ∀ e ∈ es, lo ≤ e.1 ∧ e.1 < hi) : ∀ e ∈ es, lo ≤ e.1 ∧ e.1 < hi := by
  induction h with
  | nil => simp
  | cons hi hs ih =>
    intro e he
    have h₁ := hw hi
    have h₂ := le hs hw
    rcases List.mem_append.mp he with he | he
    · have := hr hi e he
      omega
    · have := ih e he
      omega

/-- What holds in the places of every item holds in all places of the chain. -/
theorem forall_places {P : ι → Prop} (h : Seg R lo hi first next items es ps)
    (hw : ∀ {lo hi first next c es ps}, R lo hi first next c es ps → lo < hi)
    (hR : ∀ {lo' hi' first next c es qs}, R lo' hi' first next c es qs → hi' ≤ hi →
      (∀ q ∈ qs, q ∈ ps) → ∀ q ∈ qs, P q) : ∀ q ∈ ps, P q := by
  induction h with
  | nil => simp
  | cons hr hs ih =>
    intro q hq
    rcases List.mem_append.mp hq with hq | hq
    · exact hR hr (le hs hw) (fun q hq => List.mem_append_left _ hq) q hq
    · exact ih (fun hr' hle hmem => hR hr' hle fun q hq => List.mem_append_right _ (hmem q hq)) q hq

/-- A key in the range of the chain falls into the range of exactly one item. -/
theorem focus {key : Nat} (h : Seg R lo hi first next items es ps)
    (hlo : lo ≤ key) (hhi : key < hi) :
    ∃ pre c u post a f n es₁ es₂ es₃ ps₁ ps₂ ps₃, items = pre ++ (c, u) :: post ∧
      Seg R lo a first f pre es₁ ps₁ ∧ R a u f n c es₂ ps₂ ∧
      Seg R u hi n next post es₃ ps₃ ∧ es = es₁ ++ (es₂ ++ es₃) ∧ ps = ps₁ ++ (ps₂ ++ ps₃) ∧
      a ≤ key ∧ key < u ∧ ∀ i ∈ pre, i.2 ≤ key := by
  induction h with
  | nil => omega
  | @cons lo u hi f n next c items es es' ps ps' hr hs ih =>
    by_cases hu : key < u
    · exact ⟨[], c, u, items, lo, f, n, [], es, es', [], ps, ps', rfl, .nil, hr, hs, rfl, rfl,
        hlo, hu, by simp⟩
    · obtain ⟨pre, d, w, post, a, f', n', es₁, es₂, es₃, ps₁, ps₂, ps₃, rfl, h₁, h₂, h₃, rfl,
        rfl, ha, hk, hp⟩ := ih (by omega) hhi
      refine ⟨(c, u) :: pre, d, w, post, a, f', n', es ++ es₁, es₂, es₃, ps ++ ps₁, ps₂, ps₃,
        rfl, .cons hr h₁, h₂, h₃, by simp, by simp, ha, hk, ?_⟩
      intro i hi
      rcases List.mem_cons.mp hi with rfl | hi
      · exact Nat.le_of_not_lt hu
      · exact hp i hi

end Ordered

end Seg

end SqliteGraph.Lib
