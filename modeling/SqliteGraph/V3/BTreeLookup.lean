import SqliteGraph.V3.BTreeSearch

/-! Lookup over a lawful page store: it ends, stays in bounds, and answers from the contents. -/
namespace SqliteGraph.V3
open Lib

variable {σ : Type} {S : IndexStore σ} (L : IndexStore.Lawful S)
  {t : BTreeManager σ} {W : Nat → Prop} {s s' s'' : σ}

/-- A read-only stretch of a run within the footprint `W`. -/
structure Reads (W : Nat → Prop) (s s' : σ) : Prop where
  inv : L.Inv s'
  view : L.view s' = L.view s
  free : L.Free s' = L.Free s
  uses : S.Uses IndexPage.pageId IndexPage.Fits W s s'

variable {L}
variable {lo hi first next p key depth h m fuel : Nat} {es tail : List (Nat × Nat)}
  {ps qs : List Nat}

theorem Reads.refl (h : L.Inv s) : Reads L W s s := ⟨h, rfl, rfl, .refl s⟩

theorem Reads.trans (h : Reads L W s s') (h' : Reads L W s' s'') : Reads L W s s'' :=
  ⟨h'.inv, h'.view.trans h.view, h'.free.trans h.free, h.uses.trans h'.uses⟩

theorem loadPage_run {pg : IndexPage} (hi : L.Inv t.store)
    (hv : L.view t.store p = some pg) (hw : W p) :
    ∃ s', BTreeManager.loadPage S p t = (.ok pg, { t with store := s' }) ∧
      Reads L W t.store s' := by
  obtain ⟨s', hl, hi', hv', hf'⟩ := L.load_ok hi hv
  refine ⟨s', ?_, hi', hv', hf', .load (.refl _) hl hw⟩
  simp only [BTreeManager.loadPage, BTreeManager.onStore, hl]

/-- Along the leaf chain every key lies above the one searched for, so the walk runs to its end. -/
theorem lookupLoop_tail (hinv : L.Inv t.store) (hl : Leaves (L.view t.store) qs p 0 tail)
    (hp : p ≠ 0) (hw : ∀ q ∈ qs, W q) (hk : ∀ e ∈ tail, e.1 ≠ key)
    (hd : depth < maxTreeHeight) (hf : qs.length ≤ fuel) :
    ∃ s', BTreeManager.lookupLoop S fuel depth p key t = (.ok none, { t with store := s' }) ∧
      Reads L W t.store s' := by
  induction qs generalizing p tail fuel t with
  | nil => cases hl; exact (hp rfl).elim
  | cons q qs ih =>
    cases hl with
    | @leaf _ next _ _ es rest r hpage hrest =>
      obtain ⟨s₁, hload, hr₁⟩ := loadPage_run (W := W) hinv hpage (hw _ List.mem_cons_self)
      obtain ⟨fuel, rfl⟩ : ∃ f, fuel = f + 1 :=
        ⟨fuel - 1, by simp only [List.length_cons] at hf; omega⟩
      rw [BTreeManager.lookupLoop, if_pos hd, StoreM.bind_ok _ hload]
      cases hb : IndexPage.binarySearchLeaf es key with
      | ok i =>
        obtain ⟨v, hv, _⟩ := IndexPage.binarySearchLeaf_ok hb
        have hmem := List.mem_append_left rest (List.mem_of_getElem? hv)
        exact (hk _ hmem rfl).elim
      | error i =>
        by_cases hn : next = 0
        · exact ⟨s₁, by simp [hb, hn], hr₁⟩
        · have hrest' : Leaves (L.view s₁) qs next 0 rest := hr₁.view ▸ hrest
          have hf' : qs.length ≤ fuel := by
            simp only [List.length_cons] at hf
            omega
          obtain ⟨s₂, hrun, hr₂⟩ := ih (t := { t with store := s₁ }) hr₁.inv hrest' hn
            (fun q hq => hw q (List.mem_cons_of_mem _ hq))
            (fun e he => hk e (List.mem_append_right _ he)) hf'
          exact ⟨s₂, by simpa [hb, hn] using hrun, hr₁.trans hr₂⟩

/-- The step of every descent: the child found is the one whose range holds the key. -/
theorem child_focus {view : Nat → Option IndexPage} {keys : List Nat}
    {items : List (Nat × Nat)} {below : List Nat}
    (hk : keys ++ [hi] = items.map Prod.snd)
    (hseg : Seg (Sub view h minFanout) lo hi first next items es below)
    (hlo : lo ≤ key) (hhi : key < hi) :
    ∃ pre c u post a f n es₁ es₂ es₃ ps₁ ps₂ ps₃, items = pre ++ (c, u) :: post ∧
      Seg (Sub view h minFanout) lo a first f pre es₁ ps₁ ∧
      Sub view h minFanout a u f n c es₂ ps₂ ∧
      Seg (Sub view h minFanout) u hi n next post es₃ ps₃ ∧
      es = es₁ ++ (es₂ ++ es₃) ∧ below = ps₁ ++ (ps₂ ++ ps₃) ∧ a ≤ key ∧ key < u ∧
      (∀ e ∈ es₁, e.1 < a) ∧ (∀ e ∈ es₃, u ≤ e.1) ∧
      IndexPage.findChildIndex keys key = pre.length ∧
      (items.map Prod.fst)[pre.length]? = some c := by
  have hsort := Seg.uppers_sorted hseg Sub.lt
  obtain ⟨pre, c, u, post, a, f, n, es₁, es₂, es₃, ps₁, ps₂, ps₃, rfl, h₁, h₂, h₃, rfl, rfl,
    ha, hu, hpre⟩ := Seg.focus hseg hlo hhi
  refine ⟨pre, c, u, post, a, f, n, es₁, es₂, es₃, ps₁, ps₂, ps₃, rfl, h₁, h₂, h₃, rfl, rfl,
    ha, hu, ?_, ?_, IndexPage.findChildIndex_focus hk hsort hpre hu, by simp⟩
  · exact fun e he => (Seg.range h₁ Sub.lt Sub.range e he).2
  · exact fun e he => (Seg.range h₃ Sub.lt Sub.range e he).1

/-- A lookup that starts in the subtree whose range holds the key answers from its contents. -/
theorem lookupLoop_sub (hinv : L.Inv t.store)
    (hs : Sub (L.view t.store) h m lo hi first next p es ps)
    (hl : Leaves (L.view t.store) qs next 0 tail) (htail : ∀ e ∈ tail, hi ≤ e.1)
    (hlo : lo ≤ key) (hhi : key < hi) (hw : ∀ q ∈ ps ++ qs, W q)
    (hd : depth + h < maxTreeHeight) (hf : h + ps.length + qs.length ≤ fuel) :
    ∃ s', BTreeManager.lookupLoop S fuel depth p key t =
        (.ok (es.lookup key), { t with store := s' }) ∧ Reads L W t.store s' := by
  induction h generalizing m lo hi first next p es ps qs tail fuel depth t with
  | zero =>
    obtain ⟨r, hpage⟩ := LeafRep.page hs
    have hps := LeafRep.pages_eq hs
    obtain ⟨s₁, hload, hr₁⟩ := loadPage_run (W := W) hinv hpage (hw p (by simp [hps]))
    obtain ⟨fuel, rfl⟩ : ∃ f, fuel = f + 1 := ⟨fuel - 1, by simp [hps] at hf; omega⟩
    rw [BTreeManager.lookupLoop, if_pos (by omega), StoreM.bind_ok _ hload]
    cases hb : IndexPage.binarySearchLeaf es key with
    | ok i =>
      obtain ⟨v, hv, hlk⟩ := IndexPage.binarySearchLeaf_ok hb
      exact ⟨s₁, by simp [hb, hv, hlk], hr₁⟩
    | error i =>
      have hnone := lookup_eq_none (IndexPage.binarySearchLeaf_error (LeafRep.sorted hs) hb)
      by_cases hn : next = 0
      · exact ⟨s₁, by simp [hb, hn, hnone], hr₁⟩
      · have hl' : Leaves (L.view s₁) qs next 0 tail := hr₁.view ▸ hl
        have htail' : ∀ e ∈ tail, e.1 ≠ key := fun e he => by
          have := htail e he
          omega
        have hf' : qs.length ≤ fuel := by
          simp only [hps, List.length_cons, List.length_nil] at hf
          omega
        obtain ⟨s₂, hrun, hr₂⟩ := lookupLoop_tail (t := { t with store := s₁ }) hr₁.inv hl' hn
          (fun q hq => hw q (List.mem_append_right _ hq)) htail' hd hf'
        exact ⟨s₂, by simpa [hb, hn, hnone] using hrun, hr₁.trans hr₂⟩
  | succ h ih =>
    obtain ⟨keys, items, below, r, hpage, hk, _, _, rfl, hseg⟩ := NodeRep.rep hs
    obtain ⟨pre, c, u, post, a, f, n, es₁, es₂, es₃, ps₁, ps₂, ps₃, rfl, h₁, h₂, h₃, rfl, rfl,
      ha, hu, hes₁, hes₃, hidx, hchild⟩ := child_focus hk hseg hlo hhi
    obtain ⟨s₁, hload, hr₁⟩ := loadPage_run (W := W) hinv hpage (hw p (by simp))
    obtain ⟨fuel, rfl⟩ : ∃ f, fuel = f + 1 :=
      ⟨fuel - 1, by simp only [List.length_cons] at hf; omega⟩
    rw [BTreeManager.lookupLoop, if_pos (by omega), StoreM.bind_ok _ hload]
    simp only [hidx, hchild]
    obtain ⟨rs, hrs, hl₃⟩ := Seg.leaves h₃ Sub.leaves
    have hlen := hrs.sublist.length_le
    have htail' : Leaves (L.view s₁) (rs ++ qs) n 0 (es₃ ++ tail) := hr₁.view ▸ hl₃.append hl
    have hd' : depth + 1 + h < maxTreeHeight := by omega
    have hf' : h + ps₂.length + (rs ++ qs).length ≤ fuel := by
      simp only [List.length_append, List.length_cons] at hf ⊢
      omega
    obtain ⟨s₂, hrun, hr₂⟩ := ih (t := { t with store := s₁ }) hr₁.inv (hr₁.view ▸ h₂) htail' (by
        intro e he
        rcases List.mem_append.mp he with he | he
        · exact hes₃ e he
        · have h₃le := Seg.le h₃ Sub.lt
          have := htail e he
          omega) ha hu (by
        intro q hq
        rcases List.mem_append.mp hq with hq | hq
        · exact hw q (by simp [hq])
        · rcases List.mem_append.mp hq with hq | hq
          · exact hw q (by simp [hrs.sublist.subset hq])
          · exact hw q (List.mem_append_right _ hq)) hd' hf'
    have hlk : (es₁ ++ (es₂ ++ es₃)).lookup key = es₂.lookup key := by
      rw [lookup_append_right (fun e he => by have := hes₁ e he; omega),
        lookup_append_left (fun e he => by have := hes₃ e he; omega)]
    exact ⟨s₂, by rw [hlk]; exact hrun, hr₁.trans hr₂⟩

/-- A search that has ended is not changed by more fuel. -/
theorem lookupLoop_succ {current : Nat} {t t' : BTreeManager σ} {v : Option Nat}
    (h : BTreeManager.lookupLoop S fuel depth current key t = (.ok v, t')) :
    BTreeManager.lookupLoop S (fuel + 1) depth current key t = (.ok v, t') := by
  induction fuel generalizing depth current t with
  | zero => cases h
  | succ fuel ih =>
    rw [BTreeManager.lookupLoop] at h ⊢
    split at h
    · rename_i hd
      rw [if_pos hd]
      cases hl : BTreeManager.loadPage S current t with
      | mk r t₁ =>
        cases r with
        | error e =>
          rw [StoreM.bind_error _ hl] at h
          cases h
        | ok page =>
          rw [StoreM.bind_ok _ hl] at h ⊢
          cases page with
          | leaf q entries nextLeaf r =>
            dsimp only at h ⊢
            cases hb : IndexPage.binarySearchLeaf entries key with
            | ok idx => simpa only [hb] using h
            | error idx =>
              simp only [hb] at h ⊢
              by_cases hn : nextLeaf = 0
              · simpa only [hn, if_true] using h
              · simp only [hn, if_false] at h ⊢
                exact ih h
          | internal q keys children r =>
            dsimp only at h ⊢
            cases hc : children[IndexPage.findChildIndex keys key]? with
            | none => simpa only [hc] using h
            | some c =>
              simp only [hc] at h ⊢
              exact ih h
    · cases h

theorem lookup_mono {n : Nat} {key : Int64} {t t' : BTreeManager σ} {v : Option Nat}
    (h : BTreeManager.lookup S fuel key t = (.ok v, t')) :
    BTreeManager.lookup S (fuel + n) key t = (.ok v, t') := by
  induction n with
  | zero => exact h
  | succ n ih =>
    unfold BTreeManager.lookup at ih ⊢
    rw [StoreM.get_bind_run] at ih ⊢
    split
    · rename_i he
      simpa only [he, if_true] using ih
    · rename_i he
      simp only [he] at ih
      exact lookupLoop_succ ih

/-- More fuel does not change where the descent to a leaf ends. -/
theorem findLeafLoop_succ {fuel depth current key : Nat} {t t' : BTreeManager σ} {q : Nat}
    (h : BTreeManager.findLeafLoop S fuel depth current key t = (.ok q, t')) :
    BTreeManager.findLeafLoop S (fuel + 1) depth current key t = (.ok q, t') := by
  induction fuel generalizing depth current t with
  | zero => cases h
  | succ fuel ih =>
    rw [BTreeManager.findLeafLoop] at h ⊢
    split at h
    · rename_i hd
      rw [if_pos hd]
      obtain ⟨page, t₁, hl, hrest⟩ := StoreM.bind_eq_ok h
      rw [StoreM.bind_ok _ hl]
      cases page with
      | leaf _ _ _ _ => exact hrest
      | internal _ keys children _ =>
        dsimp only at hrest ⊢
        cases hc : children[IndexPage.findChildIndex keys key]? with
        | none => simpa only [hc] using hrest
        | some c =>
          simp only [hc] at hrest ⊢
          exact ih hrest
    · cases h

theorem delete_mono {n : Nat} {key : Int64} {t t' : BTreeManager σ} {found : Bool}
    (h : BTreeManager.delete S fuel key t = (.ok found, t')) :
    BTreeManager.delete S (fuel + n) key t = (.ok found, t') := by
  induction n with
  | zero => exact h
  | succ n ih =>
    unfold BTreeManager.delete at ih ⊢
    rw [StoreM.get_bind_run] at ih ⊢
    split
    · rename_i he
      simpa only [he, if_true] using ih
    · rename_i he
      simp only [he] at ih
      obtain ⟨q, t₁, hq, hrest⟩ := StoreM.bind_eq_ok ih
      exact (StoreM.bind_ok _ (findLeafLoop_succ hq)).trans hrest

end SqliteGraph.V3
