import SqliteGraph.V3.BTreeSplit

/-! Insertion over a lawful page store: splits on the way down, and the contents they keep. -/
namespace SqliteGraph.V3
open Lib

variable {σ : Type} {S : IndexStore σ} {L : IndexStore.Lawful S}
  {t : BTreeManager σ} {s s' s'' : σ} {ps qs ps' qs' rest : List Nat}

/-- The pages `ps` are taken: each once, each a valid id, none of them free. -/
structure Owned (L : IndexStore.Lawful S) (s : σ) (ps : List Nat) : Prop where
  nodup : ps.Nodup
  valid : ∀ q ∈ ps, ValidPage q
  taken : ∀ q ∈ ps, ¬ L.Free s q

theorem Owned.perm (ho : Owned L s ps) (hp : ps.Perm qs) : Owned L s qs :=
  ⟨hp.nodup_iff.mp ho.nodup, fun q hq => ho.valid q (hp.mem_iff.mpr hq),
    fun q hq => ho.taken q (hp.mem_iff.mpr hq)⟩

theorem Owned.left (ho : Owned L s (ps ++ qs)) : Owned L s ps :=
  ⟨(List.nodup_append.mp ho.nodup).1, fun q hq => ho.valid q (List.mem_append_left _ hq),
    fun q hq => ho.taken q (List.mem_append_left _ hq)⟩

/-- A run that leaves the places `ps'` where `ps` were, every new one taken from the free pages,
and nothing else on the store changed. -/
structure Grows (L : IndexStore.Lawful S) (ps ps' : List Nat) (s s' : σ) : Prop where
  inv : L.Inv s'
  owned : Owned L s' ps'
  keeps : ∀ q ∈ ps, q ∈ ps'
  new : ∀ q ∈ ps', q ∈ ps ∨ L.Free s q
  free : ∀ q, L.Free s' q → L.Free s q
  frame : ∀ q pg, q ∉ ps' → L.view s q = some pg → L.view s' q = some pg
  uses : S.Uses IndexPage.pageId IndexPage.Fits
    (fun q => (q ∈ ps ∨ L.Free s q) ∧ ¬ L.Free s' q) s s'

theorem Grows.refl (hi : L.Inv s) (ho : Owned L s ps) : Grows L ps ps s s :=
  ⟨hi, ho, fun _ hq => hq, fun _ hq => .inl hq, fun _ hq => hq, fun _ _ _ hq => hq, .refl s⟩

theorem Grows.trans (h : Grows L ps ps' s s') (h' : Grows L ps' qs s' s'') :
    Grows L ps qs s s'' where
  inv := h'.inv
  owned := h'.owned
  keeps q hq := h'.keeps q (h.keeps q hq)
  new q hq := by
    rcases h'.new q hq with hq | hq
    · exact h.new q hq
    · exact .inr (h.free q hq)
  free q hq := h.free q (h'.free q hq)
  frame q pg hq hv := h'.frame q pg hq (h.frame q pg (fun hmem => hq (h'.keeps q hmem)) hv)
  uses := by
    refine (h.uses.mono fun q hq => ⟨hq.1, fun hf => hq.2 (h'.free q hf)⟩).trans (h'.uses.mono ?_)
    rintro q ⟨hq | hq, hf⟩
    · exact ⟨h.new q hq, hf⟩
    · exact ⟨.inr (h.free q hq), hf⟩

theorem Grows.perm (h : Grows L ps ps' s s') (hp : ps.Perm qs) (hp' : ps'.Perm qs') :
    Grows L qs qs' s s' where
  inv := h.inv
  owned := h.owned.perm hp'
  keeps q hq := hp'.mem_iff.mp (h.keeps q (hp.mem_iff.mpr hq))
  new q hq := (h.new q (hp'.mem_iff.mpr hq)).imp_left hp.mem_iff.mp
  free := h.free
  frame q pg hq := h.frame q pg fun hmem => hq (hp'.mem_iff.mp hmem)
  uses := h.uses.mono fun _ hq => ⟨hq.1.imp_left hp.mem_iff.mp, hq.2⟩

/-- Pages beside the ones at work stay where they are. -/
theorem Grows.beside (h : Grows L ps ps' s s') (ho : Owned L s (ps ++ rest)) :
    Grows L (ps ++ rest) (ps' ++ rest) s s' where
  inv := h.inv
  owned := by
    obtain ⟨_, hrest, hdisj⟩ := List.nodup_append.mp ho.nodup
    have htaken : ∀ q ∈ rest, ¬ L.Free s q := fun q hq => ho.taken q (List.mem_append_right _ hq)
    refine ⟨List.nodup_append.mpr ⟨h.owned.nodup, hrest, ?_⟩, ?_, ?_⟩
    · rintro a ha b hb rfl
      rcases h.new a ha with ha | ha
      · exact hdisj a ha a hb rfl
      · exact htaken a hb ha
    · intro q hq
      rcases List.mem_append.mp hq with hq | hq
      · exact h.owned.valid q hq
      · exact ho.valid q (List.mem_append_right _ hq)
    · intro q hq hf
      rcases List.mem_append.mp hq with hq | hq
      · exact h.owned.taken q hq hf
      · exact htaken q hq (h.free q hf)
  keeps q hq := by
    rcases List.mem_append.mp hq with hq | hq
    · exact List.mem_append_left _ (h.keeps q hq)
    · exact List.mem_append_right _ hq
  new q hq := by
    rcases List.mem_append.mp hq with hq | hq
    · exact (h.new q hq).imp_left (List.mem_append_left _)
    · exact .inl (List.mem_append_right _ hq)
  free := h.free
  frame q pg hq := h.frame q pg fun hmem => hq (List.mem_append_left _ hmem)
  uses := h.uses.mono fun _ hq => ⟨hq.1.imp_left (List.mem_append_left _), hq.2⟩

theorem Reads.grows {W : Nat → Prop} (hr : Reads L W s s') (ho : Owned L s ps)
    (hw : ∀ q, W q → q ∈ ps) : Grows L ps ps s s' where
  inv := hr.inv
  owned := ⟨ho.nodup, ho.valid, fun q hq hf => ho.taken q hq (hr.free ▸ hf)⟩
  keeps _ hq := hq
  new _ hq := .inl hq
  free q hq := hr.free ▸ hq
  frame _ _ _ hq := by rwa [hr.view]
  uses := hr.uses.mono fun q hq => ⟨.inl (hw q hq), fun hf => ho.taken q (hw q hq) (hr.free ▸ hf)⟩

/-- One write to a page at work. -/
theorem writePage_run {pg : IndexPage} (hi : L.Inv t.store) (ho : Owned L t.store ps)
    (hf : pg.Fits) (hp : pg.pageId ∈ ps) :
    ∃ s', BTreeManager.writePage S pg t = (.ok (), { t with store := s' }) ∧
      PageStore.Extends (Function.update (L.view t.store) pg.pageId (some pg)) (L.view s') ∧
      Grows L ps ps t.store s' := by
  obtain ⟨s', hw, hi', hv', hf'⟩ := L.write_ok hi hf
  refine ⟨s', ?_, hv', ?_⟩
  · simp only [BTreeManager.writePage, BTreeManager.onStore, hw]
  · refine ⟨hi', ⟨ho.nodup, ho.valid, fun q hq hfree => ho.taken q hq (hf' ▸ hfree)⟩,
      fun _ hq => hq, fun _ hq => .inl hq, fun q hq => hf' ▸ hq, ?_, ?_⟩
    · intro q pg' hq hpg'
      have hne : q ≠ pg.pageId := fun he => hq (he ▸ hp)
      exact hv' q pg' (by rwa [Function.update_of_ne hne])
    · exact .write (.refl _) hf hw ⟨.inl hp, fun hfree => ho.taken _ hp (hf' ▸ hfree)⟩

theorem allocate_run (hi : L.Inv t.store) (ho : Owned L t.store ps) :
    (∃ e, BTreeManager.allocate S t = (.error e, t) ∧ L.Exhausted e) ∨
      ∃ d s', BTreeManager.allocate S t = (.ok d, { t with store := s' }) ∧ L.Free t.store d ∧
        L.view s' = L.view t.store ∧ Grows L ps (d :: ps) t.store s' := by
  rcases L.allocate_cases hi with ⟨e, ha, he⟩ | ⟨d, s', ha, hd, hi', hv', hf'⟩
  · exact .inl ⟨e, by simp only [BTreeManager.allocate, BTreeManager.onStore, ha], he⟩
  · refine .inr ⟨d, s', ?_, hd, hv', hi', ?_, ?_, ?_, ?_, ?_, ?_⟩
    · simp only [BTreeManager.allocate, BTreeManager.onStore, ha]
    · refine ⟨List.nodup_cons.mpr ⟨fun hm => ho.taken d hm hd, ho.nodup⟩, ?_, ?_⟩
      · intro q hq
        rcases List.mem_cons.mp hq with rfl | hq
        · exact L.free_valid hi hd
        · exact ho.valid q hq
      · intro q hq hfree
        obtain ⟨hfree, hne⟩ := (hf' q).mp hfree
        rcases List.mem_cons.mp hq with rfl | hq
        · exact hne rfl
        · exact ho.taken q hq hfree
    · exact fun q hq => List.mem_cons_of_mem _ hq
    · intro q hq
      rcases List.mem_cons.mp hq with rfl | hq
      · exact .inr hd
      · exact .inl hq
    · exact fun q hq => ((hf' q).mp hq).1
    · exact fun q pg _ hq => by rwa [hv']
    · exact .allocate (.refl _) ha ⟨.inr hd, fun hf => ((hf' d).mp hf).2 rfl⟩

/-- The three writes that end a split, whatever comes after them. -/
theorem writeSplit_run {α : Type} {lower upper parent : IndexPage} (k : BTreeM σ α)
    (hi : L.Inv t.store) (ho : Owned L t.store ps)
    (hf : ∀ pg ∈ [lower, upper, parent], pg.Fits ∧ pg.pageId ∈ ps) :
    ∃ s', (do
        BTreeManager.writePage S lower
        BTreeManager.writePage S upper
        BTreeManager.writePage S parent
        k : BTreeM σ α) t = k { t with store := s' } ∧
      PageStore.Extends (splitView (L.view t.store) lower upper parent) (L.view s') ∧
      Grows L ps ps t.store s' := by
  obtain ⟨s₁, hw₁, hv₁, hg₁⟩ := writePage_run hi ho (hf lower (by simp)).1 (hf lower (by simp)).2
  obtain ⟨s₂, hw₂, hv₂, hg₂⟩ := writePage_run (t := { t with store := s₁ }) hg₁.inv hg₁.owned
    (hf upper (by simp)).1 (hf upper (by simp)).2
  obtain ⟨s₃, hw₃, hv₃, hg₃⟩ := writePage_run (t := { t with store := s₂ }) hg₂.inv hg₂.owned
    (hf parent (by simp)).1 (hf parent (by simp)).2
  refine ⟨s₃, ?_, ?_, (hg₁.trans hg₂).trans hg₃⟩
  · rw [StoreM.bind_ok _ hw₁, StoreM.bind_ok _ hw₂, StoreM.bind_ok _ hw₃]
  · exact ((hv₁.update.trans hv₂).update).trans hv₃

variable {lo hi first next p c h m key value : Nat} {es : List (Nat × Nat)}
  {keys children : List Nat} {r : Bool} {pg : IndexPage}

/-- `split_child` either runs out of page ids and changes nothing, or makes room for the key. -/
theorem splitChild_run (hinv : L.Inv t.store)
    (hs : Sub (L.view t.store) (h + 1) m lo hi first next p es ps) (ho : Owned L t.store ps)
    (hspace : hi ≤ keySpace) (hpage : L.view t.store p = some (.internal p keys children r))
    (hroom : keys.length < maxKeys) (hlo : lo ≤ key) (hhi : key < hi)
    (hchild : children[IndexPage.findChildIndex keys key]? = some c)
    (hpg : L.view t.store c = some pg) (hfull : pg.needsSplit = true) :
    (∃ e s', BTreeManager.splitChild S p (IndexPage.findChildIndex keys key) t =
        (.error e, { t with store := s' }) ∧ L.Exhausted e ∧
        Sub (L.view s') (h + 1) m lo hi first next p es ps ∧ Grows L ps ps t.store s') ∨
      ∃ d sep s' keys' children' ps' c' pg',
        BTreeManager.splitChild S p (IndexPage.findChildIndex keys key) t =
          (.ok (d, sep), { t with store := s' }) ∧
        Sub (L.view s') (h + 1) m lo hi first next p es ps' ∧ Grows L ps ps' t.store s' ∧
        L.view s' p = some (.internal p keys' children' r) ∧
        IndexPage.findChildIndex keys' key = (if sep ≤ key then
          IndexPage.findChildIndex keys key + 1 else IndexPage.findChildIndex keys key) ∧
        children'[IndexPage.findChildIndex keys' key]? = some c' ∧
        L.view s' c' = some pg' ∧ pg'.needsSplit = false := by
  have hp := hs.page_mem
  obtain ⟨s₁, hl₁, hr₁⟩ := loadPage_run (W := (· ∈ ps)) hinv hpage hp
  have hc : c ∈ ps := by
    obtain ⟨keys₀, items, below, _, hr, _, _, _, rfl, hseg⟩ := NodeRep.rep hs
    cases hpage.symm.trans hr
    obtain ⟨⟨c, u⟩, hmem, rfl⟩ := List.mem_map.mp (List.mem_of_getElem? hchild)
    exact List.mem_cons_of_mem _ (hseg.mem_places hmem Sub.page_mem)
  obtain ⟨s₂, hl₂, hr₂⟩ := loadPage_run (t := { t with store := s₁ }) (W := (· ∈ ps)) hr₁.inv
    (by rw [hr₁.view]; exact hpg) hc
  have hr := hr₁.trans hr₂
  have hg := hr.grows ho (fun _ hq => hq)
  unfold BTreeManager.splitChild
  rw [StoreM.bind_ok _ hl₁]
  simp only [index_of_getElem? hchild, StoreM.ofExcept_ok_bind_run]
  rw [StoreM.bind_ok _ hl₂]
  rcases allocate_run (t := { t with store := s₂ }) hr.inv hg.owned with
    ⟨e, ha, he⟩ | ⟨d, s₃, ha, hfree, hv₃, hg₃⟩
  · exact .inl ⟨e, s₂, StoreM.bind_error _ ha, he, by rw [hr.view]; exact hs, hg⟩
  · rw [StoreM.bind_ok _ ha]
    have hd : d ∉ ps := fun hm => hg.owned.taken d hm hfree
    have hview : L.view s₃ = L.view t.store := hv₃.trans hr.view
    obtain ⟨lower, sep, upper, keys', children', ps', c', pg', hh, hwrite, hparent, hs', hperm,
      hidx, hchild', hpg', hroom'⟩ := hs.splitChild ho.nodup hpage hroom hlo hhi hchild hpg hfull
        hd (hg₃.owned.valid d List.mem_cons_self).lt
    have hg' : Grows L ps ps' t.store s₃ := (hg.trans hg₃).perm (.refl _) hperm.symm
    have hfits := hs'.fits hspace hg'.owned.valid
    have hwrites : ∀ page ∈ [lower, upper, .internal p keys' children' r],
        page.Fits ∧ page.pageId ∈ ps' := by
      intro page hmem
      obtain ⟨hin, hat⟩ := hwrite page hmem
      have hin' := hperm.mem_iff.mpr hin
      obtain ⟨page', hat', _, hfit⟩ := hfits _ hin'
      cases hat.symm.trans hat'
      exact ⟨hfit, hin'⟩
    obtain ⟨s₄, hw, hv₄, hg₄⟩ := writeSplit_run (t := { t with store := s₃ })
      (pure (d, sep)) hg'.inv hg'.owned hwrites
    rw [hview] at hv₄
    refine .inr ⟨d, sep, s₄, keys', children', ps', c', pg', ?_, hs'.extend hv₄, hg'.trans hg₄, ?_,
      hidx, hchild', hv₄ _ _ hpg', hroom'⟩
    · obtain ⟨_, hpg', rfl, _⟩ := hs.fits hspace ho.valid c hc
      cases hpg.symm.trans hpg'
      rw [← hparent] at hw
      refine Eq.trans ?_ hw
      cases pg with
      | internal q ks cs _ =>
        simp only [IndexPage.halves, Option.map_eq_some_iff, Prod.mk.injEq] at hh
        obtain ⟨k, hk, rfl, rfl, rfl⟩ := hh
        simp only [index_of_getElem? hk, StoreM.ofExcept_ok_bind_run, IndexPage.pageId_internal]
      | leaf q entries n _ =>
        simp only [IndexPage.halves, Option.map_eq_some_iff, Prod.mk.injEq] at hh
        obtain ⟨k, hk, rfl, rfl, rfl⟩ := hh
        simp only [index_of_getElem? hk, StoreM.ofExcept_ok_bind_run, IndexPage.pageId_leaf]
    · obtain ⟨_, hat⟩ := hwrite (.internal p keys' children' r) (by simp)
      exact hv₄ _ _ hat

/-- Below an internal page, work in the child that the key leads to is work in the whole subtree. -/
theorem below_child (hs : Sub (L.view s) (h + 1) m lo hi first next p es ps) (ho : Owned L s ps)
    (hpage : L.view s p = some (.internal p keys children r)) (hlo : lo ≤ key) (hhi : key < hi)
    (hchild : children[IndexPage.findChildIndex keys key]? = some c) :
    ∃ a u f n es₂ ps₂, Sub (L.view s) h minFanout a u f n c es₂ ps₂ ∧ Owned L s ps₂ ∧
      a ≤ key ∧ key < u ∧ u ≤ hi ∧ (∀ q ∈ ps₂, q ∈ ps) ∧
      ∀ {s' es₂' ps₂'}, Sub (L.view s') h minFanout a u f n c es₂' ps₂' →
        Grows L ps₂ ps₂' s s' → ∃ es' ps', Sub (L.view s') (h + 1) m lo hi first next p es' ps' ∧
          Grows L ps ps' s s' ∧ EditAt key es₂ es₂' es es' := by
  obtain ⟨keys₀, items, below, r₀, hr, hk, hl, hm, rfl, hseg⟩ := NodeRep.rep hs
  cases hpage.symm.trans hr
  obtain ⟨pre, c₀, u, post, a, f, n, es₁, es₂, es₃, ps₁, ps₂, ps₃, rfl, h₁, h₂, h₃, rfl, rfl,
    ha, hu, hes₁, hes₃, hidx, hc₀⟩ := child_focus hk hseg hlo hhi
  rw [hidx] at hchild
  obtain rfl : c₀ = c := Option.some.inj (hc₀.symm.trans hchild)
  have hperm : ∀ qs : List Nat, (qs ++ (p :: (ps₁ ++ ps₃))).Perm (p :: (ps₁ ++ (qs ++ ps₃))) :=
    fun qs => List.perm_middle.trans
      ((List.perm_append_comm_assoc qs ps₁ ps₃).cons p)
  have ho' : Owned L s (ps₂ ++ (p :: (ps₁ ++ ps₃))) := ho.perm (hperm ps₂).symm
  refine ⟨a, u, f, n, es₂, ps₂, h₂, ho'.left, ha, hu, h₃.le Sub.lt, fun q hq => by simp [hq], ?_⟩
  intro s' es₂' ps₂' hsub hg
  have hg' := hg.beside ho'
  have hframe : ∀ q ∈ p :: (ps₁ ++ ps₃), ∀ pg, L.view s q = some pg → L.view s' q = some pg := by
    intro q hq pg
    refine hg.frame q pg fun hmem => ?_
    exact (List.nodup_append.mp hg'.owned.nodup).2.2 q hmem q hq rfl
  refine ⟨es₁ ++ (es₂' ++ es₃), p :: (ps₁ ++ (ps₂' ++ ps₃)), ?_, hg'.perm (hperm ps₂) (hperm ps₂'),
    ⟨es₁, es₃, rfl, rfl, fun e he => by have := hes₁ e he; omega,
      fun e he => by have := hes₃ e he; omega⟩⟩
  refine ⟨keys, _, _, r, hframe p List.mem_cons_self _ hpage, hk, hl, hm, rfl, ?_⟩
  exact Seg.replace h₁ (Seg.single hsub) h₃ (fun q hq => hframe q (List.mem_cons_of_mem _ hq))

theorem LeafRep.rewrite {view view' : Nat → Option IndexPage} {q n a u : Nat}
    {ms ms' : List (Nat × Nat)} {b : Bool} (hs : LeafRep view m a u first n q ms ps) (hv : view' q = some (.leaf q ms' n b))
    (hsort : Sorted ms') (hmem : ∀ e ∈ ms', a ≤ e.1 ∧ e.1 < u ∧ e.2 < keySpace)
    (hlen : ms'.length ≤ maxEntries) : LeafRep view' m a u first n q ms' ps :=
  { hs with
    page := ⟨b, hv⟩
    sorted := hsort
    range := fun e he => ⟨(hmem e he).1, (hmem e he).2.1⟩
    values := fun e he => (hmem e he).2.2
    length := hlen }

/-- Rewriting the entries of one leaf. -/
theorem writeLeaf_run {q n a u : Nat} {ms ms' : List (Nat × Nat)} (b : Bool)
    (hinv : L.Inv t.store) (hs : LeafRep (L.view t.store) m a u first n q ms ps)
    (ho : Owned L t.store ps) (hspace : u ≤ keySpace) (hsort : Sorted ms')
    (hmem : ∀ e ∈ ms', a ≤ e.1 ∧ e.1 < u ∧ e.2 < keySpace) (hlen : ms'.length ≤ maxEntries) :
    ∃ s', BTreeManager.writePage S (.leaf q ms' n b) t = (.ok (), { t with store := s' }) ∧
      LeafRep (L.view s') m a u first n q ms' ps ∧ Grows L ps ps t.store s' := by
  have hq : q ∈ ps := Sub.page_mem (h := 0) hs
  have hfits : IndexPage.Fits (.leaf q ms' n b) := by
    have hv := Function.update_self q (some (IndexPage.leaf q ms' n b)) (L.view t.store)
    exact Sub.root_fits (h := 0) (hs.rewrite hv hsort hmem hlen) hspace ho.valid hv
  obtain ⟨s', hw, hv, hg⟩ := writePage_run hinv ho hfits hq
  exact ⟨s', hw, hs.rewrite (hv _ _ (Function.update_self ..)) hsort hmem hlen, hg⟩

theorem IndexPage.verifyInvariants_error {e : NativeBackendError}
    (he : pg.verifyInvariants = .error e) :
    ∃ reason, e = .invalidHeader "btree_verify" reason := by
  unfold IndexPage.verifyInvariants at he
  split at he <;> (repeat' split at he) <;> cases he <;> exact ⟨_, rfl⟩

/-- How an insertion ends: the key is in, or nothing has changed for one of two reasons. -/
def InsertOutcome (L : IndexStore.Lawful S) (debugAssertions : Bool) (key value : Nat)
    (res : Except NativeBackendError Unit) (es es' : List (Nat × Nat)) : Prop :=
  res = .ok () ∧ es' = upsert key value es ∨
    ∃ e, res = .error e ∧ es' = es ∧
      (L.Exhausted e ∨ debugAssertions = true ∧ ∃ reason, e = .invalidHeader "btree_verify" reason)

theorem insertOutcome_of_verify {dbg : Bool} {e : NativeBackendError}
    (hv : (if dbg = true then pg.verifyInvariants else .ok ()) = .error e) :
    InsertOutcome L dbg key value (.error e) es es := by
  cases dbg with
  | false => cases hv
  | true => exact .inr ⟨e, rfl, rfl, .inr ⟨rfl, IndexPage.verifyInvariants_error hv⟩⟩

theorem InsertOutcome.edit {dbg : Bool} {res : Except NativeBackendError Unit}
    {m m' es es' : List (Nat × Nat)} (h : InsertOutcome L dbg key value res m m')
    (he : EditAt key m m' es es') : InsertOutcome L dbg key value res es es' := by
  rcases h with ⟨hr, rfl⟩ | ⟨e, hr, rfl, hc⟩
  · exact .inl ⟨hr, he.upsert⟩
  · exact .inr ⟨e, hr, he.same, hc⟩

/-- Insertion below a page with room. -/
theorem insertNonFull_sub (dbg : Bool) {fuel : Nat} (hinv : L.Inv t.store)
    (hs : Sub (L.view t.store) h m lo hi first next p es ps) (ho : Owned L t.store ps)
    (hspace : hi ≤ keySpace) (hpg : L.view t.store p = some pg) (hroom : pg.needsSplit = false)
    (hlo : lo ≤ key) (hhi : key < hi) (hval : value < keySpace) (hf : h < fuel) :
    ∃ res s' es' ps',
      BTreeManager.insertNonFull S dbg fuel p key value t = (res, { t with store := s' }) ∧
      Sub (L.view s') h m lo hi first next p es' ps' ∧ Grows L ps ps' t.store s' ∧
      InsertOutcome L dbg key value res es es' := by
  induction h generalizing fuel m lo hi first next p es ps t pg with
  | zero =>
    obtain ⟨r, hr⟩ := LeafRep.page hs
    cases hpg.symm.trans hr
    obtain ⟨fuel, rfl⟩ : ∃ f, fuel = f + 1 := ⟨fuel - 1, by omega⟩
    obtain ⟨s₁, hl, hr₁⟩ := loadPage_run (W := (· ∈ ps)) hinv hpg hs.page_mem
    have hg := hr₁.grows ho (fun _ hq => hq)
    have hs₁ : Sub (L.view s₁) 0 m lo hi first next p es ps := hr₁.view.symm ▸ hs
    rw [BTreeManager.insertNonFull, StoreM.bind_ok _ hl]
    cases hv : (if dbg then IndexPage.verifyInvariants (.leaf p es next r) else .ok ()) with
    | error e =>
      exact ⟨.error e, s₁, es, ps, by rw [StoreM.ofExcept_error_bind_run], hs₁, hg,
        insertOutcome_of_verify hv⟩
    | ok _ =>
      have hlen : (upsert key value es).length ≤ maxEntries := by
        have : (upsert key value es).length ≤ es.length + 1 := length_upsert_le
        simp only [IndexPage.needsSplit, IndexPage.needsSplitInternal, IndexPage.needsSplitLeaf,
          Bool.false_or, decide_eq_false_iff_not] at hroom
        omega
      obtain ⟨s₂, hw, hs₂, hg₂⟩ := writeLeaf_run (t := { t with store := s₁ }) r hr₁.inv hs₁
        hg.owned hspace (sorted_upsert (k := key) (v := value) (LeafRep.sorted hs)) (by
          intro e he
          rcases mem_upsert he with rfl | he
          · exact ⟨hlo, hhi, hval⟩
          · have := LeafRep.range hs e he
            exact ⟨this.1, this.2, LeafRep.values hs e he⟩) hlen
      refine ⟨.ok (), s₂, upsert key value es, ps, ?_, hs₂, hg.trans hg₂, .inl ⟨rfl, rfl⟩⟩
      rw [StoreM.ofExcept_ok_bind_run]
      simp only [BTreeManager.updateEntries_eq_upsert, hw]
  | succ h ih =>
    obtain ⟨keys, items, below, r, hr, hk, hl, hm, rfl, hseg⟩ := NodeRep.rep hs
    cases hpg.symm.trans hr
    obtain ⟨fuel, rfl⟩ : ∃ f, fuel = f + 1 := ⟨fuel - 1, by omega⟩
    have hp := hs.page_mem
    obtain ⟨c, hchild⟩ : ∃ c, (items.map Prod.fst)[IndexPage.findChildIndex keys key]? = some c := by
      obtain ⟨_, c, _, _, _, _, _, _, _, _, _, _, _, _, _, _, _, _, _, _, _, _, _, hidx, hc⟩ :=
        child_focus hk hseg hlo hhi
      exact ⟨c, hidx ▸ hc⟩
    -- what the recursive call does below a child with room
    have hdown : ∀ {s keys' children' c' pg' ps'}, L.Inv s →
        Sub (L.view s) (h + 1) m lo hi first next p es ps' → Owned L s ps' →
        L.view s p = some (.internal p keys' children' r) →
        children'[IndexPage.findChildIndex keys' key]? = some c' → L.view s c' = some pg' →
        pg'.needsSplit = false → ∃ res s' es' ps'',
          BTreeManager.insertNonFull S dbg fuel c' key value { t with store := s } =
            (res, { t with store := s' }) ∧
          Sub (L.view s') (h + 1) m lo hi first next p es' ps'' ∧ Grows L ps' ps'' s s' ∧
          InsertOutcome L dbg key value res es es' := by
      intro s keys' children' c' pg' ps' hinv hs ho hpage hchild hpg' hroom'
      obtain ⟨a, u, f, n, es₂, ps₂, hsub, ho₂, ha, hu, hule, -, hback⟩ :=
        below_child hs ho hpage hlo hhi hchild
      have hf' : h < fuel := by omega
      obtain ⟨res, s', es₂', ps₂', hrun, hsub', hg, hout⟩ := ih (t := { t with store := s })
        hinv hsub ho₂ (hule.trans hspace) hpg' hroom' ha hu hf'
      obtain ⟨es', ps'', hs', hg', hedit⟩ := hback hsub' hg
      exact ⟨res, s', es', ps'', hrun, hs', hg', hout.edit hedit⟩
    obtain ⟨s₁, hl₁, hr₁⟩ := loadPage_run (W := (· ∈ p :: below)) hinv hpg hp
    rw [BTreeManager.insertNonFull, StoreM.bind_ok _ hl₁]
    have hg₁ := hr₁.grows ho (fun _ hq => hq)
    cases hv : (if dbg then IndexPage.verifyInvariants (.internal p keys (items.map Prod.fst) r)
      else .ok ()) with
    | error e =>
      exact ⟨.error e, s₁, es, _, by rw [StoreM.ofExcept_error_bind_run], hr₁.view.symm ▸ hs, hg₁,
        insertOutcome_of_verify hv⟩
    | ok _ =>
      obtain ⟨a, u, f, n, es₂, ps₂, hsub, -, -, -, -, hmem, -⟩ :=
        below_child hs ho hpg hlo hhi hchild
      obtain ⟨pgc, hpgc, -⟩ := hsub.page
      obtain ⟨s₂, hl₂, hr₂⟩ := loadPage_run (t := { t with store := s₁ })
        (W := (· ∈ p :: below)) hr₁.inv (by rw [hr₁.view]; exact hpgc) (hmem c hsub.page_mem)
      have hr := hr₁.trans hr₂
      have hg₂ := hr.grows ho (fun _ hq => hq)
      have hs₂ : Sub (L.view s₂) (h + 1) m lo hi first next p es (p :: below) := hr.view.symm ▸ hs
      have hpg₂ : L.view s₂ p = some (.internal p keys (items.map Prod.fst) r) := hr.view.symm ▸ hpg
      have hpgc₂ : L.view s₂ c = some pgc := hr.view.symm ▸ hpgc
      rw [StoreM.ofExcept_ok_bind_run]
      simp only [index_of_getElem? hchild, StoreM.ofExcept_ok_bind_run]
      rw [StoreM.bind_ok _ hl₂]
      cases hfull : (pgc.needsSplitInternal || pgc.needsSplitLeaf) with
      | false =>
        obtain ⟨res, s', es', ps', hrun, hs', hg', hout⟩ :=
          hdown hr.inv hs₂ hg₂.owned hpg₂ hchild hpgc₂ hfull
        exact ⟨res, s', es', ps', hrun, hs', hg₂.trans hg', hout⟩
      | true =>
        have hkroom : keys.length < maxKeys := by
          simp only [IndexPage.needsSplit, IndexPage.needsSplitInternal, IndexPage.needsSplitLeaf,
            Bool.or_false, decide_eq_false_iff_not] at hroom
          omega
        rcases splitChild_run (t := { t with store := s₂ }) hr.inv hs₂ hg₂.owned hspace hpg₂ hkroom
          hlo hhi hchild hpgc₂ hfull with ⟨e, s₃, hrun, hex, hs₃, hg₃⟩ |
          ⟨d, sep, s₃, keys', children', ps', c', pg', hrun, hs₃, hg₃, hpg₃, hidx, hchild', hpg',
            hroom'⟩
        · exact ⟨.error e, s₃, es, _, StoreM.bind_error _ hrun, hs₃, hg₂.trans hg₃,
            .inr ⟨e, rfl, rfl, .inl hex⟩⟩
        · obtain ⟨s₄, hl₄, hr₄⟩ := loadPage_run (t := { t with store := s₃ }) (W := (· ∈ ps'))
            hg₃.inv hpg₃ hs₃.page_mem
          have hg₄ := hr₄.grows hg₃.owned (fun _ hq => hq)
          obtain ⟨res, s', es', ps'', hrun', hs', hg', hout⟩ := hdown hr₄.inv
            (hr₄.view.symm ▸ hs₃) hg₄.owned (hr₄.view.symm ▸ hpg₃) hchild' (hr₄.view.symm ▸ hpg')
            hroom'
          refine ⟨res, s', es', ps'', ?_, hs', ((hg₂.trans hg₃).trans hg₄).trans hg', hout⟩
          simp only [if_true]
          rw [StoreM.bind_ok _ hrun, StoreM.bind_ok _ hl₄]
          rw [hidx] at hchild'
          simp only [index_of_getElem? hchild', StoreM.ofExcept_ok_bind_run]
          exact hrun'

end SqliteGraph.V3
