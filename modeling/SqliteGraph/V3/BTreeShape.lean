import SqliteGraph.Lib.SortedEntries
import SqliteGraph.Lib.Segment
import SqliteGraph.V3.BTree

/-! What a subtree of index pages holds: key ranges, separators, fanout and the leaf chain. -/
namespace SqliteGraph.V3
open Lib

/-- Keys and page ids are `u64`. -/
abbrev keySpace : Nat := 2 ^ 64

/-- What may become a page of the tree; the two excluded ids stand for an empty tree. -/
def ValidPage (p : Nat) : Prop := 0 < p ∧ p < emptyTreeRoot

theorem ValidPage.lt {p : Nat} (hp : ValidPage p) : p < keySpace :=
  lt_of_lt_of_le hp.2 (Nat.sub_le _ _)

abbrev IndexStore.Lawful {σ : Type} (S : IndexStore σ) : Type _ :=
  PageStore.Lawful S IndexPage.pageId IndexPage.Fits ValidPage

/-- A split leaves at least this many children, and leaf ranges at least this wide. -/
def minFanout : Nat := 126

/-- The fixed part of the relation between a page and what lies below it. -/
abbrev Extent : Type :=
  Nat → Nat → Nat → Nat → Nat → List (Nat × Nat) → List Nat → Prop

variable {view view' : Nat → Option IndexPage} {h m lo hi first next p : Nat}
  {es : List (Nat × Nat)} {ps : List Nat}

/-- A leaf with range `[lo, hi)` of width at least `m`, linked to `next`. -/
structure LeafRep (view : Nat → Option IndexPage) (m lo hi first next p : Nat)
    (es : List (Nat × Nat)) (ps : List Nat) : Prop where
  first_eq : first = p
  pages_eq : ps = [p]
  page : ∃ r, view p = some (.leaf p es next r)
  sorted : Sorted es
  range : ∀ e ∈ es, lo ≤ e.1 ∧ e.1 < hi
  values : ∀ e ∈ es, e.2 < keySpace
  length : es.length ≤ maxEntries
  next_lt : next < keySpace
  width : lo + m ≤ hi

/-- An internal page with at least `m` children, each related to its extent by `R`. -/
structure NodeRep (view : Nat → Option IndexPage) (R : Extent) (m lo hi first next p : Nat)
    (es : List (Nat × Nat)) (ps : List Nat) : Prop where
  rep : ∃ keys items below r, view p = some (.internal p keys (items.map Prod.fst) r) ∧
    keys ++ [hi] = items.map Prod.snd ∧ keys.length ≤ maxKeys ∧ m ≤ items.length ∧
    ps = p :: below ∧ Seg R lo hi first next items es below

/-- `Sub view h m lo hi first next p es ps`: page `p` roots a subtree of height `h` over the keys
`[lo, hi)`, holding `es` in the pages `ps`; its leaves form a chain from `first` to `next`. -/
def Sub (view : Nat → Option IndexPage) : Nat → Nat → Extent
  | 0, m => LeafRep view m
  | h + 1, m => NodeRep view (Sub view h minFanout) m

theorem Sub.page_mem (hs : Sub view h m lo hi first next p es ps) : p ∈ ps := by
  cases h with
  | zero => simp [LeafRep.pages_eq hs]
  | succ h =>
    obtain ⟨_, _, below, _, _, _, _, _, rfl, _⟩ := NodeRep.rep hs
    exact List.mem_cons_self

/-- A subtree depends on its own pages only. -/
theorem Sub.frame (hs : Sub view h m lo hi first next p es ps)
    (hv : ∀ q ∈ ps, ∀ pg, view q = some pg → view' q = some pg) :
    Sub view' h m lo hi first next p es ps := by
  induction h generalizing m lo hi first next p es ps with
  | zero =>
    obtain ⟨r, hr⟩ := hs.page
    exact { hs with page := ⟨r, hv p (Sub.page_mem (h := 0) hs) _ hr⟩ }
  | succ h ih =>
    obtain ⟨keys, items, below, r, hp, hk, hl, hm, rfl, hseg⟩ := NodeRep.rep hs
    refine ⟨keys, items, below, r, hv p List.mem_cons_self _ hp, hk, hl, hm, rfl, ?_⟩
    refine Seg.imp (Q := fun q => q ∈ below) hseg (fun q hq => hq) ?_
    intro lo hi first next c es qs hsub hq
    exact ih hsub (fun q hmem => hv q (List.mem_cons_of_mem _ (hq q hmem)))

theorem Sub.extend (hs : Sub view h m lo hi first next p es ps)
    (hv : PageStore.Extends view view') : Sub view' h m lo hi first next p es ps :=
  hs.frame fun q _ => hv q

/-- The height alone bounds the width of the key range from below. -/
theorem Sub.width (hs : Sub view h minFanout lo hi first next p es ps) :
    lo + minFanout ^ (h + 1) ≤ hi := by
  induction h generalizing lo hi first next p es ps with
  | zero => simpa using LeafRep.width hs
  | succ h ih =>
    obtain ⟨_, items, _, _, _, _, _, hm, _, hseg⟩ := NodeRep.rep hs
    have hw := Seg.width hseg ih
    have hmul : minFanout ^ (h + 1) * minFanout ≤ minFanout ^ (h + 1) * items.length :=
      Nat.mul_le_mul_left _ hm
    rw [pow_succ]
    omega

theorem Sub.lt (hs : Sub view h minFanout lo hi first next p es ps) : lo < hi := by
  have hw := hs.width
  have : 0 < minFanout ^ (h + 1) := Nat.pow_pos (by decide)
  omega

theorem Sub.range (hs : Sub view h m lo hi first next p es ps) :
    ∀ e ∈ es, lo ≤ e.1 ∧ e.1 < hi := by
  induction h generalizing m lo hi first next p es ps with
  | zero => exact LeafRep.range hs
  | succ h ih =>
    obtain ⟨_, _, _, _, _, _, _, _, _, hseg⟩ := NodeRep.rep hs
    exact Seg.range hseg Sub.lt ih

theorem Seg.sorted {R : Extent} {items : List (Nat × Nat)}
    (hseg : Seg R lo hi first next items es ps)
    (hw : ∀ {lo hi first next c es ps}, R lo hi first next c es ps → lo < hi)
    (hr : ∀ {lo hi first next c es ps}, R lo hi first next c es ps →
      ∀ e ∈ es, lo ≤ e.1 ∧ e.1 < hi)
    (hsort : ∀ {lo hi first next c es ps}, R lo hi first next c es ps → Sorted es) :
    Sorted es := by
  induction hseg with
  | nil => exact sorted_nil
  | cons hi hs ih =>
    refine sorted_append.mpr ⟨hsort hi, ih, ?_⟩
    intro a ha b hb
    have h₁ := hr hi a ha
    have h₂ := Seg.range hs hw hr b hb
    omega

theorem Sub.sorted (hs : Sub view h m lo hi first next p es ps) : Sorted es := by
  induction h generalizing m lo hi first next p es ps with
  | zero => exact LeafRep.sorted hs
  | succ h ih =>
    obtain ⟨_, _, _, _, _, _, _, _, _, hseg⟩ := NodeRep.rep hs
    exact Seg.sorted hseg Sub.lt Sub.range ih

/-- The leaf chain read off the pages: the leaves `qs` from `first` up to `stop`, with their
entries. -/
inductive Leaves (view : Nat → Option IndexPage) :
    List Nat → Nat → Nat → List (Nat × Nat) → Prop
  | done {q : Nat} : Leaves view [] q q []
  | leaf {q next stop : Nat} {qs : List Nat} {es rest : List (Nat × Nat)} {r : Bool} :
      view q = some (.leaf q es next r) → Leaves view qs next stop rest →
      Leaves view (q :: qs) q stop (es ++ rest)

theorem Leaves.append {qs rs : List Nat} {q stop : Nat} {fs : List (Nat × Nat)}
    (hl : Leaves view qs p q es) (hk : Leaves view rs q stop fs) :
    Leaves view (qs ++ rs) p stop (es ++ fs) := by
  induction hl with
  | done => exact hk
  | leaf hp _ ih => simpa only [List.append_assoc, List.cons_append] using Leaves.leaf hp (ih hk)

/-- The rest of the chain from one of its leaves on. -/
theorem Leaves.suffix {qs : List Nat} {q stop : Nat} (hl : Leaves view qs p stop es)
    (hq : q ∈ qs) : ∃ rs fs, Leaves view rs q stop fs ∧ fs <:+ es := by
  induction hl with
  | done => simp at hq
  | @leaf q' _ _ qs es rest _ hp hrest ih =>
    rcases List.mem_cons.mp hq with rfl | hq
    · exact ⟨_, _, .leaf hp hrest, List.suffix_refl _⟩
    · obtain ⟨rs, fs, hl, hs⟩ := ih hq
      exact ⟨rs, fs, hl, hs.trans (List.suffix_append _ _)⟩

/-- The leaves `qs` among the pages `ps`. -/
structure LeafPages (view : Nat → Option IndexPage) (ps qs : List Nat) : Prop where
  sublist : qs.Sublist ps
  all : ∀ q ∈ ps, ∀ es n r, view q = some (.leaf q es n r) → q ∈ qs

theorem Seg.leaves {R : Extent} {items : List (Nat × Nat)}
    (hseg : Seg R lo hi first next items es ps)
    (hl : ∀ {lo hi first next c es ps}, R lo hi first next c es ps →
      ∃ qs, LeafPages view ps qs ∧ Leaves view qs first next es) :
    ∃ qs, LeafPages view ps qs ∧ Leaves view qs first next es := by
  induction hseg with
  | nil => exact ⟨[], ⟨List.Sublist.refl _, by simp⟩, .done⟩
  | cons hc _ ih =>
    obtain ⟨qs, hq, hl₁⟩ := hl hc
    obtain ⟨rs, hr, hl₂⟩ := ih
    refine ⟨qs ++ rs, ⟨hq.sublist.append hr.sublist, ?_⟩, hl₁.append hl₂⟩
    intro q hmem es n r hv
    rcases List.mem_append.mp hmem with hmem | hmem
    · exact List.mem_append_left _ (hq.all q hmem es n r hv)
    · exact List.mem_append_right _ (hr.all q hmem es n r hv)

/-- The leaves below a page are linked from left to right. -/
theorem Sub.leaves (hs : Sub view h m lo hi first next p es ps) :
    ∃ qs, LeafPages view ps qs ∧ Leaves view qs first next es := by
  induction h generalizing m lo hi first next p es ps with
  | zero =>
    obtain ⟨r, hr⟩ := LeafRep.page hs
    refine ⟨[p], ⟨by simp [LeafRep.pages_eq hs], by simp [LeafRep.pages_eq hs]⟩, ?_⟩
    have hleaf : Leaves view [p] p next (es ++ []) := .leaf hr .done
    simpa [LeafRep.first_eq hs] using hleaf
  | succ h ih =>
    obtain ⟨_, _, below, _, hp, _, _, _, rfl, hseg⟩ := NodeRep.rep hs
    obtain ⟨qs, hq, hl⟩ := Seg.leaves hseg ih
    refine ⟨qs, ⟨hq.sublist.cons _, ?_⟩, hl⟩
    intro q hmem es n r hv
    rcases List.mem_cons.mp hmem with rfl | hmem
    · cases hp.symm.trans hv
    · exact hq.all q hmem es n r hv

/-- Ten levels are all that the key space has room for. -/
theorem Sub.height_lt (hs : Sub view (h + 1) 2 0 keySpace first next p es ps) :
    h + 1 < maxTreeHeight := by
  obtain ⟨_, items, _, _, _, _, _, hm, _, hseg⟩ := NodeRep.rep hs
  have hw := Seg.width hseg Sub.width
  have hmul : minFanout ^ (h + 1) * 2 ≤ minFanout ^ (h + 1) * items.length :=
    Nat.mul_le_mul_left _ hm
  by_contra hge
  have hpow : minFanout ^ 10 ≤ minFanout ^ (h + 1) :=
    Nat.pow_le_pow_right (by decide) (by unfold maxTreeHeight at hge; omega)
  have hbig : keySpace < minFanout ^ 10 * 2 := by decide
  omega

end SqliteGraph.V3
