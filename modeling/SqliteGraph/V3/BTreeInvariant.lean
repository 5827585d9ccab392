import SqliteGraph.V3.BTreeInsert

/-! The tree invariant, kept by every operation of the manager on a lawful page store. -/
namespace SqliteGraph.V3
open Lib

variable {σ : Type} {S : IndexStore σ} {L : IndexStore.Lawful S}
  {t : BTreeManager σ} {s s' : σ} {ps : List Nat} {es : List (Nat × Nat)}
  {lo hi first next p h m key value fuel : Nat} {pg : IndexPage}

/-- The root of a tree of more than one level has at least two children. -/
def rootFanout (h : Nat) : Nat := if h = 0 then 0 else 2

/-- The manager's tree holds `es` in the pages `ps`. -/
structure TreeInv (L : IndexStore.Lawful S) (t : BTreeManager σ) (es : List (Nat × Nat))
    (ps : List Nat) : Prop where
  inv : L.Inv t.store
  owned : Owned L t.store ps
  shape : (t.isEmpty = true ∧ es = [] ∧ ps = []) ∨ ∃ h first, t.treeHeight = h + 1 ∧
    Sub (L.view t.store) h (rootFanout h) 0 keySpace first 0 t.rootPageId es ps

theorem ValidPage.not_isEmpty (hp : ValidPage t.rootPageId) : t.isEmpty = false := by
  have h₁ : t.rootPageId ≠ emptyTreeRoot := hp.2.ne
  have h₂ : t.rootPageId ≠ 0 := hp.1.ne'
  simp [BTreeManager.isEmpty, h₁, h₂]

theorem rootSub_height_lt {view : Nat → Option IndexPage}
    (hs : Sub view h (rootFanout h) 0 keySpace first next p es ps) : h < maxTreeHeight := by
  cases h with
  | zero => decide
  | succ h => exact Sub.height_lt hs

theorem TreeInv.sorted (hi : TreeInv L t es ps) : Sorted es := by
  rcases hi.shape with ⟨_, rfl, _⟩ | ⟨h, first, _, hs⟩
  · exact sorted_nil
  · exact hs.sorted

theorem Grows.forget {d : Nat} (hg : Grows L ps (d :: ps) s s') (hv : L.view s' = L.view s) :
    Grows L ps ps s s' where
  inv := hg.inv
  owned := hg.owned.perm (List.perm_append_singleton d ps).symm |>.left
  keeps _ hq := hq
  new _ hq := .inl hq
  free := hg.free
  frame _ _ _ hq := by rwa [hv]
  uses := hg.uses

/-- `split_root` either runs out of page ids, or puts a new root with room above the old one. -/
theorem splitRoot_run (hinv : L.Inv t.store)
    (hs : Sub (L.view t.store) h m lo hi first next t.rootPageId es ps) (ho : Owned L t.store ps)
    (hspace : hi ≤ keySpace) (hpg : L.view t.store t.rootPageId = some pg)
    (hfull : pg.needsSplit = true) :
    (∃ e s', BTreeManager.splitRoot S t = (.error e, { t with store := s' }) ∧ L.Exhausted e ∧
        Sub (L.view s') h m lo hi first next t.rootPageId es ps ∧ Grows L ps ps t.store s') ∨
      ∃ n s' ps' pg', BTreeManager.splitRoot S t = (.ok (), ⟨n, t.treeHeight + 1, s'⟩) ∧
        Sub (L.view s') (h + 1) 2 lo hi first next n es ps' ∧ Grows L ps ps' t.store s' ∧
        L.view s' n = some pg' ∧ pg'.needsSplit = false := by
  obtain ⟨s₁, hl₁, hr₁⟩ := loadPage_run (W := (· ∈ ps)) hinv hpg hs.page_mem
  have hg₁ := hr₁.grows ho (fun _ hq => hq)
  unfold BTreeManager.splitRoot
  rw [StoreM.get_bind_run]
  simp only
  rw [StoreM.bind_ok _ hl₁]
  rcases allocate_run (t := { t with store := s₁ }) hr₁.inv hg₁.owned with
    ⟨e, ha, he⟩ | ⟨n, s₂, ha, hn, hv₂, hg₂⟩
  · exact .inl ⟨e, s₁, StoreM.bind_error _ ha, he, hr₁.view.symm ▸ hs, hg₁⟩
  rw [StoreM.bind_ok _ ha]
  have hview₂ : L.view s₂ = L.view t.store := hv₂.trans hr₁.view
  rcases allocate_run (t := { t with store := s₂ }) hg₂.inv hg₂.owned with
    ⟨e, ha, he⟩ | ⟨d, s₃, ha, hd, hv₃, hg₃⟩
  · exact .inl ⟨e, s₂, StoreM.bind_error _ ha, he, hview₂.symm ▸ hs,
      hg₁.trans (hg₂.forget hv₂)⟩
  rw [StoreM.bind_ok _ ha]
  have hview₃ : L.view s₃ = L.view t.store := hv₃.trans hview₂
  have hd' : d ∉ n :: ps := fun hm => hg₂.owned.taken d hm hd
  simp only [List.mem_cons, not_or] at hd'
  obtain ⟨lower, sep, upper, ps', hh, hwrite, hs', hperm⟩ := hs.splitRoot ho.nodup hpg hfull hd'.2
    (fun hm => hg₁.owned.taken n hm hn) hd'.1 (hg₃.owned.valid d List.mem_cons_self).lt
  have hg' : Grows L ps ps' t.store s₃ := ((hg₁.trans hg₂).trans hg₃).perm (.refl _)
    ((List.Perm.swap n d ps).trans hperm.symm)
  have hwrites : ∀ page ∈ [lower, upper, .internal n [sep] [t.rootPageId, d] true],
      page.Fits ∧ page.pageId ∈ ps' := by
    intro page hmem
    obtain ⟨hin, hat⟩ := hwrite page hmem
    have hin' := hperm.mem_iff.mpr hin
    obtain ⟨page', hat', _, hfit⟩ := hs'.fits hspace hg'.owned.valid _ hin'
    cases hat.symm.trans hat'
    exact ⟨hfit, hin'⟩
  obtain ⟨s₄, hw, hv₄, hg₄⟩ := writeSplit_run (t := { t with store := s₃ })
    (.modify fun t => { t with rootPageId := n, treeHeight := t.treeHeight + 1 })
    hg'.inv hg'.owned hwrites
  rw [hview₃] at hv₄
  have hroot := hwrite (.internal n [sep] [t.rootPageId, d] true) (by simp)
  refine .inr ⟨n, s₄, ps', _, ?_, hs'.extend hv₄, hg'.trans hg₄, hv₄ _ _ hroot.2, ?_⟩
  · obtain ⟨_, hpg', hid, _⟩ := hs.fits hspace ho.valid t.rootPageId hs.page_mem
    cases hpg.symm.trans hpg'
    refine Eq.trans ?_ hw
    rw [← hid]
    cases pg with
    | internal q ks cs _ =>
      simp only [IndexPage.halves, Option.map_eq_some_iff, Prod.mk.injEq] at hh
      obtain ⟨k, hk, rfl, rfl, rfl⟩ := hh
      simp only [index_of_getElem? hk, StoreM.ofExcept_ok_bind_run, IndexPage.pageId_internal,
        BTreeManager.installRoot]
    | leaf q entries n _ =>
      simp only [IndexPage.halves, Option.map_eq_some_iff, Prod.mk.injEq] at hh
      obtain ⟨k, hk, rfl, rfl, rfl⟩ := hh
      simp only [index_of_getElem? hk, StoreM.ofExcept_ok_bind_run, IndexPage.pageId_leaf,
        BTreeManager.installRoot, IndexPage.pageId_internal]
  · simp [IndexPage.needsSplit, IndexPage.needsSplitInternal, IndexPage.needsSplitLeaf, maxKeys]

/-- The search key of the source, `key as u64`. -/
abbrev searchKey (key : Int64) : Nat := key.toUInt64.toNat

theorem searchKey_inj {k k' : Int64} : searchKey k = searchKey k' ↔ k = k' := by
  refine ⟨fun h => ?_, fun h => h ▸ rfl⟩
  exact congrArg Int64.ofUInt64 (UInt64.toNat_inj.mp h)

theorem searchKey_lt (key : Int64) : searchKey key < keySpace := key.toUInt64.toNat_lt

theorem insertIntoEmptyTree_run (hinv : L.Inv t.store) (hkey : key < keySpace)
    (hval : value < keySpace) (dbg : Bool) :
    ∃ res t' es' ps', BTreeManager.insertIntoEmptyTree S key value t = (res, t') ∧
      Grows L [] ps' t.store t'.store ∧ InsertOutcome L dbg key value res [] es' ∧
      (t' = { t with store := t'.store } ∧ es' = [] ∧ ps' = [] ∨
        t'.treeHeight = 1 ∧
          LeafRep (L.view t'.store) 0 0 keySpace t'.rootPageId 0 t'.rootPageId es' ps') := by
  have ho : Owned L t.store [] := ⟨List.nodup_nil, by simp, by simp⟩
  unfold BTreeManager.insertIntoEmptyTree
  rcases allocate_run hinv ho with ⟨e, ha, he⟩ | ⟨d, s₁, ha, hd, hv₁, hg₁⟩
  · exact ⟨.error e, t, [], [], StoreM.bind_error _ ha, .refl hinv ho,
      .inr ⟨e, rfl, rfl, .inl he⟩, .inl ⟨rfl, rfl, rfl⟩⟩
  · rw [StoreM.bind_ok _ ha]
    have hvalid := hg₁.owned.valid d List.mem_cons_self
    have hfits : IndexPage.Fits (.leaf d [(key, value)] 0 true) :=
      ⟨hvalid.1, hvalid.lt, by simp [maxEntries], by simpa using ⟨hkey, hval⟩, by decide⟩
    obtain ⟨s₂, hw, hv₂, hg₂⟩ := writePage_run (t := { t with store := s₁ }) hg₁.inv hg₁.owned
      hfits List.mem_cons_self
    refine ⟨.ok (), ⟨d, 1, s₂⟩, [(key, value)], [d], ?_, hg₁.trans hg₂, .inl ⟨rfl, rfl⟩,
      .inr ⟨rfl, ?_⟩⟩
    · rw [StoreM.bind_ok _ hw]
      rfl
    · exact
        { first_eq := rfl, pages_eq := rfl
          page := ⟨true, hv₂ _ _ (Function.update_self ..)⟩
          sorted := List.pairwise_singleton .., range := by simpa using hkey, values := by simpa using hval
          length := by simp [maxEntries], next_lt := by decide, width := by simp }

/-- Every insertion keeps the tree; it binds the key, or fails and changes nothing. -/
theorem insert_run (dbg : Bool) (key : Int64) (hi : TreeInv L t es ps) (hval : value < keySpace)
    (hf : maxTreeHeight ≤ fuel) :
    ∃ res t' es' ps', BTreeManager.insert S dbg fuel key value t = (res, t') ∧
      TreeInv L t' es' ps' ∧ Grows L ps ps' t.store t'.store ∧
      InsertOutcome L dbg (searchKey key) value res es es' := by
  unfold BTreeManager.insert
  rw [StoreM.get_bind_run]
  rcases hi.shape with ⟨hempty, rfl, rfl⟩ | ⟨h, first, hheight, hs⟩
  · simp only [hempty, if_true]
    obtain ⟨res, t', es', ps', hrun, hg, hout, hcase⟩ :=
      insertIntoEmptyTree_run hi.inv (searchKey_lt key) hval dbg
    refine ⟨res, t', es', ps', hrun, ⟨hg.inv, hg.owned, ?_⟩, hg, hout⟩
    rcases hcase with ⟨ht, rfl, rfl⟩ | ⟨hh, hs⟩
    · exact .inl ⟨by rw [ht]; exact hempty, rfl, rfl⟩
    · exact .inr ⟨0, _, hh, hs⟩
  · have hp := hs.page_mem
    simp only [(hi.owned.valid _ hp).not_isEmpty, Bool.false_eq_true, if_false]
    obtain ⟨pg, hpg, -⟩ := hs.page
    obtain ⟨s₁, hl₁, hr₁⟩ := loadPage_run (W := (· ∈ ps)) hi.inv hpg hp
    have hg₁ := hr₁.grows hi.owned (fun _ hq => hq)
    have hs₁ : Sub (L.view s₁) h (rootFanout h) 0 keySpace first 0 t.rootPageId es ps :=
      hr₁.view.symm ▸ hs
    have hpg₁ : L.view s₁ t.rootPageId = some pg := hr₁.view.symm ▸ hpg
    rw [StoreM.bind_ok _ hl₁]
    -- what the descent does from a root with room
    have hdown : ∀ {s h n pg ps₁}, L.Inv s → Owned L s ps₁ →
        Sub (L.view s) h (rootFanout h) 0 keySpace first 0 n es ps₁ → L.view s n = some pg →
        pg.needsSplit = false → ∃ res t' es' ps',
          BTreeManager.insertNonFull S dbg fuel n (searchKey key) value ⟨n, h + 1, s⟩ =
            (res, t') ∧ TreeInv L t' es' ps' ∧ Grows L ps₁ ps' s t'.store ∧
          InsertOutcome L dbg (searchKey key) value res es es' := by
      intro s h n pg ps₁ hinv ho hs hpg hroom
      obtain ⟨res, s', es', ps', hrun, hs', hg, hout⟩ := insertNonFull_sub (L := L)
        (t := ⟨n, h + 1, s⟩) dbg hinv hs ho (le_refl _) hpg hroom (Nat.zero_le _)
        (searchKey_lt key) hval (lt_of_lt_of_le (rootSub_height_lt hs) hf)
      exact ⟨res, _, es', ps', hrun, ⟨hg.inv, hg.owned, .inr ⟨h, first, rfl, hs'⟩⟩, hg, hout⟩
    cases hfull : (pg.needsSplitInternal || pg.needsSplitLeaf) with
    | false =>
      obtain ⟨res, t', es', ps', hrun, ht', hg, hout⟩ := hdown hr₁.inv hg₁.owned hs₁ hpg₁ hfull
      refine ⟨res, t', es', ps', ?_, ht', hg₁.trans hg, hout⟩
      rw [← hrun, ← hheight]
      rfl
    | true =>
      rcases splitRoot_run (t := { t with store := s₁ }) hr₁.inv hs₁ hg₁.owned (le_refl _) hpg₁
        hfull with ⟨e, s₂, hrun, hex, hs₂, hg₂⟩ | ⟨n, s₂, ps₂, pg₂, hrun, hs₂, hg₂, hpg₂, hroom⟩
      · exact ⟨.error e, { t with store := s₂ }, es, ps, StoreM.bind_error _ hrun,
          ⟨hg₂.inv, hg₂.owned, .inr ⟨h, first, hheight, hs₂⟩⟩, hg₁.trans hg₂,
          .inr ⟨e, rfl, rfl, .inl hex⟩⟩
      · obtain ⟨res, t', es', ps', hrun', ht', hg, hout⟩ := hdown hg₂.inv hg₂.owned hs₂ hpg₂ hroom
        refine ⟨res, t', es', ps', ?_, ht', (hg₁.trans hg₂).trans hg, hout⟩
        simp only [if_true]
        rw [StoreM.bind_ok _ hrun]
        simp only [hheight]
        exact hrun'

/-- `find_leaf` ends at the leaf for the key; work in that leaf is work in the whole subtree. -/
theorem findLeafLoop_sub {depth : Nat} (hinv : L.Inv t.store)
    (hs : Sub (L.view t.store) h m lo hi first next p es ps) (ho : Owned L t.store ps)
    (hlo : lo ≤ key) (hhi : key < hi) (hd : depth + h < maxTreeHeight) (hf : h < fuel) :
    ∃ q s' m' a u f n ms, BTreeManager.findLeafLoop S fuel depth p key t =
        (.ok q, { t with store := s' }) ∧ Reads L (· ∈ ps) t.store s' ∧
      LeafRep (L.view s') m' a u f n q ms [q] ∧ a ≤ key ∧ key < u ∧ u ≤ hi ∧ q ∈ ps ∧
      ∀ {s'' ms'}, LeafRep (L.view s'') m' a u f n q ms' [q] → Grows L [q] [q] s' s'' →
        ∃ es' ps', Sub (L.view s'') h m lo hi first next p es' ps' ∧
          Grows L ps ps' t.store s'' ∧ EditAt key ms ms' es es' := by
  induction h generalizing m lo hi first next p es ps fuel depth t with
  | zero =>
    obtain ⟨r, hpage⟩ := LeafRep.page hs
    obtain rfl := LeafRep.pages_eq hs
    obtain ⟨s₁, hl₁, hr₁⟩ := loadPage_run (W := (· ∈ [p])) hinv hpage List.mem_cons_self
    obtain ⟨fuel, rfl⟩ : ∃ f, fuel = f + 1 := ⟨fuel - 1, by omega⟩
    refine ⟨p, s₁, m, lo, hi, first, next, es, ?_, hr₁, hr₁.view.symm ▸ hs, hlo, hhi, le_refl _,
      List.mem_cons_self, fun hs' hg =>
        ⟨_, _, hs', (hr₁.grows ho (fun _ hq => hq)).trans hg, .refl⟩⟩
    rw [BTreeManager.findLeafLoop, if_pos (by omega), StoreM.bind_ok _ hl₁]
    rfl
  | succ h ih =>
    obtain ⟨keys, items, below, r, hpage, hk, _, _, rfl, hseg⟩ := NodeRep.rep hs
    obtain ⟨_, c, _, _, _, _, _, _, _, _, _, _, _, _, _, _, _, _, _, _, _, _, _, hidx, hchild⟩ :=
      child_focus hk hseg hlo hhi
    rw [← hidx] at hchild
    obtain ⟨s₁, hl₁, hr₁⟩ := loadPage_run (W := (· ∈ p :: below)) hinv hpage List.mem_cons_self
    have hg₁ := hr₁.grows ho (fun _ hq => hq)
    have hs₁ : Sub (L.view s₁) (h + 1) m lo hi first next p es (p :: below) :=
      hr₁.view.symm ▸ hs
    obtain ⟨a, u, f, n, es₂, ps₂, hsub, ho₂, ha, hu, hule, hmem, hback⟩ :=
      below_child hs₁ hg₁.owned (hr₁.view.symm ▸ hpage) hlo hhi hchild
    obtain ⟨fuel, rfl⟩ : ∃ f, fuel = f + 1 := ⟨fuel - 1, by omega⟩
    have hd' : depth + 1 + h < maxTreeHeight := by omega
    have hf' : h < fuel := by omega
    obtain ⟨q, s₂, m', a', u', f', n', ms, hrun, hr₂, hleaf, ha', hu', hule', hq, hback'⟩ :=
      ih (t := { t with store := s₁ }) hr₁.inv hsub ho₂ ha hu hd' hf'
    have hr₂' : Reads L (· ∈ p :: below) s₁ s₂ :=
      ⟨hr₂.inv, hr₂.view, hr₂.free, hr₂.uses.mono hmem⟩
    refine ⟨q, s₂, m', a', u', f', n', ms, ?_, hr₁.trans hr₂', hleaf, ha', hu', hule'.trans hule,
      hmem q hq, ?_⟩
    · rw [BTreeManager.findLeafLoop, if_pos (by omega), StoreM.bind_ok _ hl₁]
      simp only [hchild]
      exact hrun
    · intro s'' ms' hleaf' hg
      obtain ⟨es₂', ps₂', hsub', hg', hedit⟩ := hback' hleaf' hg
      obtain ⟨es', ps', hs', hg'', hedit'⟩ := hback hsub' hg'
      exact ⟨es', ps', hs', hg₁.trans hg'', hedit.trans hedit'⟩

/-- Deletion always succeeds: it unbinds the key and tells whether it was bound. -/
theorem delete_run (key : Int64) (hi : TreeInv L t es ps) (hf : maxTreeHeight ≤ fuel) :
    ∃ found t' es' ps', BTreeManager.delete S fuel key t = (.ok found, t') ∧
      TreeInv L t' es' ps' ∧ Grows L ps ps' t.store t'.store ∧
      es' = without (searchKey key) es ∧ found = (es.lookup (searchKey key)).isSome := by
  unfold BTreeManager.delete
  rw [StoreM.get_bind_run]
  rcases hi.shape with ⟨hempty, rfl, rfl⟩ | ⟨h, first, hheight, hs⟩
  · simp only [hempty, if_true]
    exact ⟨false, t, [], [], rfl, hi, .refl hi.inv hi.owned, rfl, rfl⟩
  · simp only [(hi.owned.valid _ hs.page_mem).not_isEmpty, Bool.false_eq_true, if_false]
    have hh : 0 + h < maxTreeHeight := by
      have := rootSub_height_lt hs
      omega
    have hhf : h < fuel := by omega
    obtain ⟨q, s₁, m', a, u, f, n, ms, hrun, hr₁, hleaf, ha, hu, hule, hq, hback⟩ :=
      findLeafLoop_sub hi.inv hs hi.owned (Nat.zero_le _) (searchKey_lt key) hh hhf
    have hg₁ := hr₁.grows hi.owned (fun _ hq => hq)
    obtain ⟨r, hpage⟩ := hleaf.page
    have hoq : Owned L s₁ [q] := ⟨List.nodup_singleton q,
      fun x hx => hg₁.owned.valid x (List.mem_singleton.mp hx ▸ hq),
      fun x hx => hg₁.owned.taken x (List.mem_singleton.mp hx ▸ hq)⟩
    obtain ⟨s₂, hl₂, hr₂⟩ := loadPage_run (t := { t with store := s₁ }) (W := (· ∈ [q])) hr₁.inv
      hpage List.mem_cons_self
    have hg₂ := hr₂.grows hoq (fun _ hq => hq)
    have hleaf₂ : LeafRep (L.view s₂) m' a u f n q ms [q] := hr₂.view.symm ▸ hleaf
    rw [StoreM.bind_ok _ hrun, StoreM.bind_ok _ hl₂]
    simp only
    cases hb : IndexPage.binarySearchLeaf ms (searchKey key) with
    | error idx =>
      have hne := IndexPage.binarySearchLeaf_error hleaf.sorted hb
      obtain ⟨es', ps', hs', hg', hedit⟩ := hback hleaf₂ hg₂
      refine ⟨false, { t with store := s₂ }, es', ps', rfl,
        ⟨hg'.inv, hg'.owned, .inr ⟨h, first, hheight, hs'⟩⟩, hg', ?_, ?_⟩
      · have hedit' : EditAt (searchKey key) ms (without (searchKey key) ms) es es' := by
          rw [without_eq_self hne]
          exact hedit
        exact hedit'.without
      · rw [hedit.lookup, lookup_eq_none hne]
        rfl
    | ok idx =>
      obtain ⟨v, _, hlk⟩ := IndexPage.binarySearchLeaf_ok hb
      have herase := IndexPage.eraseIdx_eq_without hleaf.sorted hb
      have hmem : ∀ e ∈ without (searchKey key) ms, e ∈ ms := fun e he => List.mem_of_mem_filter he
      obtain ⟨s₃, hw, hleaf₃, hg₃⟩ := writeLeaf_run (t := { t with store := s₂ }) r hg₂.inv hleaf₂
        hg₂.owned hule (sorted_without (k := searchKey key) hleaf.sorted) (fun e he => by
          have hr := hleaf.range e (hmem e he)
          exact ⟨hr.1, hr.2, hleaf.values e (hmem e he)⟩)
        ((List.length_filter_le _ _).trans hleaf.length)
      obtain ⟨es', ps', hs', hg', hedit⟩ := hback hleaf₃ (hg₂.trans hg₃)
      refine ⟨true, { t with store := s₃ }, es', ps', ?_,
        ⟨hg'.inv, hg'.owned, .inr ⟨h, first, hheight, hs'⟩⟩, hg', hedit.without, ?_⟩
      · rw [← herase] at hw
        exact StoreM.bind_ok (fun _ => pure true) hw
      · rw [hedit.lookup, hlk]
        rfl

/-- The same deletion for all amounts of fuel from the height on. -/
theorem delete_stable (key : Int64) (hi : TreeInv L t es ps) :
    ∃ found t' ps', (∀ fuel, maxTreeHeight ≤ fuel →
        BTreeManager.delete S fuel key t = (.ok found, t')) ∧
      TreeInv L t' (without (searchKey key) es) ps' ∧ Grows L ps ps' t.store t'.store := by
  obtain ⟨found, t', es', ps', hrun, hi', hg, rfl, -⟩ := delete_run key hi (le_refl maxTreeHeight)
  refine ⟨found, t', ps', fun fuel hf => ?_, hi', hg⟩
  obtain ⟨n, rfl⟩ := Nat.exists_eq_add_of_le hf
  exact delete_mono hrun

/-- Lookup answers from the contents, given fuel for the descent and for one walk along the
leaves. -/
theorem lookup_run (key : Int64) (hi : TreeInv L t es ps)
    (hf : maxTreeHeight + 2 * ps.length ≤ fuel) :
    ∃ s', BTreeManager.lookup S fuel key t =
        (.ok (es.lookup (searchKey key)), { t with store := s' }) ∧
      Reads L (· ∈ ps) t.store s' := by
  unfold BTreeManager.lookup
  rw [StoreM.get_bind_run]
  rcases hi.shape with ⟨hempty, rfl, rfl⟩ | ⟨h, first, hheight, hs⟩
  · simp only [hempty, if_true]
    exact ⟨t.store, rfl, .refl hi.inv⟩
  · simp only [(hi.owned.valid _ hs.page_mem).not_isEmpty, Bool.false_eq_true, if_false]
    have hh := rootSub_height_lt hs
    exact lookupLoop_sub hi.inv hs .done (by simp) (Nat.zero_le _) (searchKey_lt key) (by simp)
      (by omega) (by simp; omega)

/-- All amounts of fuel from some bound on give one and the same run. -/
theorem lookup_stable (key : Int64) (hi : TreeInv L t es ps) :
    ∃ bound s', Reads L (· ∈ ps) t.store s' ∧ ∀ fuel, bound ≤ fuel →
      BTreeManager.lookup S fuel key t =
        (.ok (es.lookup (searchKey key)), { t with store := s' }) := by
  obtain ⟨s', hrun, hr⟩ := lookup_run key hi (le_refl _)
  refine ⟨maxTreeHeight + 2 * ps.length, s', hr, fun fuel hf => ?_⟩
  obtain ⟨n, rfl⟩ := Nat.exists_eq_add_of_le hf
  exact lookup_mono hrun

/-- From every leaf of the tree the chain runs to its end through strictly increasing keys. -/
theorem TreeInv.chain {q n : Nat} {ms : List (Nat × Nat)} {r : Bool} (hi : TreeInv L t es ps)
    (hq : q ∈ ps) (hv : L.view t.store q = some (.leaf q ms n r)) :
    ∃ qs fs, Leaves (L.view t.store) qs q 0 fs ∧ Sorted fs := by
  rcases hi.shape with ⟨-, -, rfl⟩ | ⟨h, first, -, hs⟩
  · simp at hq
  · obtain ⟨qs, hqs, hl⟩ := hs.leaves
    obtain ⟨rs, fs, hl', hfs⟩ := hl.suffix (hqs.all q hq _ _ _ hv)
    exact ⟨rs, fs, hl', List.Pairwise.sublist hfs.sublist hs.sorted⟩

end SqliteGraph.V3
