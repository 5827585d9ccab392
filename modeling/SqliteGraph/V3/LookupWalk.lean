import SqliteGraph.V3.BTreeInvariant

/-! What a lookup finds on its way down and along the leaves, whatever shape the tree is in. -/
namespace SqliteGraph.V3
open Lib

/-- A lookup of the key that starts at page `p` and goes down at most `k` times ends with `r`. -/
inductive Finds (view : Nat → Option IndexPage) (key : Nat) : Nat → Nat → Option Nat → Prop
  | hit {k p q n v : Nat} {es : List (Nat × Nat)} {b : Bool} : view p = some (.leaf q es n b) →
      es.lookup key = some v → Sorted es → Finds view key k p (some v)
  | last {k p q : Nat} {es : List (Nat × Nat)} {b : Bool} : view p = some (.leaf q es 0 b) →
      es.lookup key = none → Finds view key k p none
  | next {k p q n : Nat} {es : List (Nat × Nat)} {b : Bool} {r : Option Nat} :
      view p = some (.leaf q es n b) → es.lookup key = none → n ≠ 0 → Finds view key k n r →
      Finds view key k p r
  | down {k p q c : Nat} {keys children : List Nat} {b : Bool} {r : Option Nat} :
      view p = some (.internal q keys children b) →
      children[IndexPage.findChildIndex keys key]? = some c → Finds view key k c r →
      Finds view key (k + 1) p r

variable {view : Nat → Option IndexPage} {key k k' h m lo hi mid first link next p : Nat}
  {es es₁ es₂ : List (Nat × Nat)} {ps : List Nat} {r : Option Nat}

theorem Finds.mono (hf : Finds view key k p r) (hk : k ≤ k') : Finds view key k' p r := by
  induction hf generalizing k' with
  | hit hv hl hs => exact .hit hv hl hs
  | last hv hl => exact .last hv hl
  | next hv hl hn _ ih => exact .next hv hl hn (ih hk)
  | down hv hc _ ih =>
    obtain ⟨j, rfl⟩ := Nat.exists_eq_add_of_le hk
    rw [Nat.add_right_comm]
    exact .down hv hc (ih (Nat.le_add_right _ _))

/-- What the walk from a link finds; the link 0 ends the chain. -/
def Walk (view : Nat → Option IndexPage) (key n : Nat) (r : Option Nat) : Prop :=
  n = 0 ∧ r = none ∨ n ≠ 0 ∧ Finds view key 0 n r

/-- Page `p` answers for the keys from `lo` on: with what its entries say, or else with what the
walk from `next` finds. Its first leaf does the same. -/
structure Serves (view : Nat → Option IndexPage) (key h lo hi first next p : Nat)
    (es : List (Nat × Nat)) : Prop where
  range : ∀ e ∈ es, e.1 < hi
  walk : ∀ r, Walk view key next r → Walk view key first ((es.lookup key).or r)
  finds : ∀ r, lo ≤ key → Walk view key next r → Finds view key h p ((es.lookup key).or r)

/-- Entries that only the chain leads to are served as well. -/
theorem Serves.extend (hs : Serves view key h lo mid first link p es₁) (hmid : mid ≤ hi)
    (hr : ∀ e ∈ es₂, e.1 < hi)
    (hw : ∀ r, Walk view key next r → Walk view key link ((es₂.lookup key).or r)) :
    Serves view key h lo hi first next p (es₁ ++ es₂) where
  range e he := by
    rcases List.mem_append.mp he with he | he
    · exact lt_of_lt_of_le (hs.range e he) hmid
    · exact hr e he
  walk r hn := by
    rw [List.lookup_append, Option.or_assoc]
    exact hs.walk _ (hw r hn)
  finds r hlo hn := by
    rw [List.lookup_append, Option.or_assoc]
    exact hs.finds _ hlo (hw r hn)

/-- Children that serve their ranges. -/
abbrev ServingChildren (view : Nat → Option IndexPage) (key h : Nat) : Extent :=
  fun lo hi first next c es _ => lo < hi ∧ Serves view key h lo hi first next c es

theorem Seg.walk {items : List (Nat × Nat)}
    (hseg : Seg (ServingChildren view key h) lo hi first next items es ps) :
    ∀ r, Walk view key next r → Walk view key first ((es.lookup key).or r) := by
  induction hseg with
  | nil => exact fun r hn => hn
  | cons hc _ ih =>
    intro r hn
    rw [List.lookup_append, Option.or_assoc]
    exact hc.2.walk _ (ih r hn)

section Run
variable {σ : Type} {S : IndexStore σ} {L : IndexStore.Lawful S} {t : BTreeManager σ}
  {depth : Nat}

/-- The loop of `lookup` ends with what there is to find. -/
theorem Finds.lookupLoop (hf : Finds view key k p r) (hinv : L.Inv t.store)
    (hview : L.view t.store = view) (hd : depth + k < maxTreeHeight) :
    ∃ bound, ∀ fuel, bound ≤ fuel → ∃ t', BTreeManager.lookupLoop S fuel depth p key t =
      (.ok r, t') := by
  have hload : ∀ {t : BTreeManager σ} {p page}, L.Inv t.store → L.view t.store = view →
      view p = some page → ∃ s', BTreeManager.loadPage S p t = (.ok page, { t with store := s' }) ∧
        L.Inv s' ∧ L.view s' = view := by
    intro t p page hinv hview hv
    obtain ⟨s', hl, hr⟩ := loadPage_run (W := fun _ => True) hinv (hview ▸ hv) trivial
    exact ⟨s', hl, hr.inv, hr.view.trans hview⟩
  induction hf generalizing t depth with
  | @hit k p q n v es b hv hl hs =>
    obtain ⟨s', hrun, -⟩ := hload hinv hview hv
    refine ⟨1, fun fuel hf => ?_⟩
    obtain ⟨fuel, rfl⟩ := Nat.exists_eq_add_of_le' hf
    rw [BTreeManager.lookupLoop, if_pos (by omega), StoreM.bind_ok _ hrun]
    cases hb : IndexPage.binarySearchLeaf es key with
    | ok i =>
      obtain ⟨v', hv', hl'⟩ := IndexPage.binarySearchLeaf_ok hb
      cases hl.symm.trans hl'
      exact ⟨_, by simp only [hb, hv']; rfl⟩
    | error i =>
      cases hl.symm.trans (lookup_eq_none (IndexPage.binarySearchLeaf_error hs hb))
  | @last k p q es b hv hl =>
    obtain ⟨s', hrun, -⟩ := hload hinv hview hv
    refine ⟨1, fun fuel hf => ?_⟩
    obtain ⟨fuel, rfl⟩ := Nat.exists_eq_add_of_le' hf
    rw [BTreeManager.lookupLoop, if_pos (by omega), StoreM.bind_ok _ hrun]
    cases hb : IndexPage.binarySearchLeaf es key with
    | ok i =>
      obtain ⟨v', hv', hl'⟩ := IndexPage.binarySearchLeaf_ok hb
      cases hl.symm.trans hl'
    | error i => exact ⟨_, by simp only [hb, if_true]; rfl⟩
  | @next k p q n es b r hv hl hn hf ih =>
    obtain ⟨s', hrun, hinv', hview'⟩ := hload hinv hview hv
    obtain ⟨bound, hbound⟩ := ih (t := { t with store := s' }) hinv' hview' hd
    refine ⟨bound + 1, fun fuel hf => ?_⟩
    obtain ⟨fuel, rfl⟩ := Nat.exists_eq_add_of_le' (le_trans (Nat.le_add_left 1 bound) hf)
    obtain ⟨t', hrest⟩ := hbound fuel (by omega)
    rw [BTreeManager.lookupLoop, if_pos (by omega), StoreM.bind_ok _ hrun]
    cases hb : IndexPage.binarySearchLeaf es key with
    | ok i =>
      obtain ⟨v', hv', hl'⟩ := IndexPage.binarySearchLeaf_ok hb
      cases hl.symm.trans hl'
    | error i => exact ⟨t', by simpa only [hb, hn, if_false] using hrest⟩
  | @down k p q c keys children b r hv hc hf ih =>
    obtain ⟨s', hrun, hinv', hview'⟩ := hload hinv hview hv
    have hd' : depth + 1 + k < maxTreeHeight := by omega
    obtain ⟨bound, hbound⟩ := ih (t := { t with store := s' }) hinv' hview' hd'
    refine ⟨bound + 1, fun fuel hf => ?_⟩
    obtain ⟨fuel, rfl⟩ := Nat.exists_eq_add_of_le' (le_trans (Nat.le_add_left 1 bound) hf)
    obtain ⟨t', hrest⟩ := hbound fuel (by omega)
    rw [BTreeManager.lookupLoop, if_pos (by omega), StoreM.bind_ok _ hrun]
    exact ⟨t', by simpa only [hc] using hrest⟩

end Run

end SqliteGraph.V3
