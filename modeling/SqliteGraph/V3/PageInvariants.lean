import SqliteGraph.V3.BTreeMap

/-! Which runs of the index keep every page structurally sound. -/
namespace SqliteGraph.V3
open Lib

/-- Page `p` is met `d` steps below the root. -/
inductive Below (view : Nat → Option IndexPage) (root : Nat) : Nat → Nat → Prop
  | root : Below view root root 0
  | child {p d q c : Nat} {keys children : List Nat} {r : Bool} : Below view root p d →
      view p = some (.internal q keys children r) → c ∈ children → Below view root c (d + 1)

/-- Every page below the root passes the structural check, and the root alone is marked as one. -/
def PagesVerified (t : BTreeManager TreeStore) : Prop :=
  t.isEmpty = false → ∀ p d, Below (diskPage t.store.file) t.rootPageId p d →
    ∃ page, diskPage t.store.file p = some page ∧ page.verifyInvariants = .ok () ∧
      (page.isRoot = true ↔ p = t.rootPageId)

/-- All leaves lie at one depth. -/
def LeavesLevel (t : BTreeManager TreeStore) : Prop :=
  t.isEmpty = false → ∃ h, ∀ p d, Below (diskPage t.store.file) t.rootPageId p d →
    ∀ q es n r, diskPage t.store.file p = some (.leaf q es n r) → d = h

/-- The operation is no insertion into a tree whose root is a full leaf. -/
def FindsRoom (t : BTreeManager TreeStore) : TreeOp → Prop
  | .insert _ _ => t.isEmpty = false →
      ∀ page, diskPage t.store.file t.rootPageId = some page → page.needsSplitLeaf = false
  | .delete _ => True

/-- Every operation of the run meets the condition in the state it starts from. -/
def EveryStep {σ : Type} (S : IndexStore σ) (debugAssertions : Bool) (fuel : Nat)
    (C : BTreeManager σ → TreeOp → Prop) : List TreeOp → BTreeManager σ → Prop
  | [], _ => True
  | op :: ops, t => C t op ∧
      EveryStep S debugAssertions fuel C ops (op.exec S debugAssertions fuel t).2

section Level
variable {view : Nat → Option IndexPage} {h m lo hi first next p q d : Nat}
  {es : List (Nat × Nat)} {ps : List Nat}

theorem Seg.child {items : List (Nat × Nat)} {R : Extent} {c : Nat}
    (hseg : Seg R lo hi first next items es ps) (hc : c ∈ items.map Prod.fst) :
    ∃ lo hi first next es ps, R lo hi first next c es ps := by
  induction hseg with
  | nil => simp at hc
  | cons hr _ ih =>
    rcases List.mem_cons.mp hc with rfl | hc
    · exact ⟨_, _, _, _, _, _, hr⟩
    · exact ih hc

/-- A page met `d` steps down roots a subtree that is `d` levels lower. -/
theorem Sub.below (hs : Sub view h m lo hi first next p es ps) (hb : Below view p q d) :
    ∃ k m lo hi first next es ps, d + k = h ∧ Sub view k m lo hi first next q es ps := by
  induction hb with
  | root => exact ⟨h, m, lo, hi, first, next, es, ps, Nat.zero_add h, hs⟩
  | child _ hv hc ih =>
    obtain ⟨k, m', lo', hi', first', next', es', ps', hk, hsub⟩ := ih
    cases k with
    | zero =>
      obtain ⟨r, hr⟩ := LeafRep.page hsub
      cases hv.symm.trans hr
    | succ k =>
      obtain ⟨keys, items, below, r, hr, -, -, -, -, hseg⟩ := NodeRep.rep hsub
      cases hv.symm.trans hr
      obtain ⟨_, _, _, _, _, _, hchild⟩ := Seg.child hseg hc
      exact ⟨k, _, _, _, _, _, _, _, by omega, hchild⟩

theorem TreeInv.leavesLevel {t : BTreeManager TreeStore}
    (hi : TreeInv treeStoreLawful t es ps) : LeavesLevel t := by
  intro hne
  rcases hi.shape with ⟨hempty, -, -⟩ | ⟨h, first, -, hs⟩
  · rw [hempty] at hne
    cases hne
  · refine ⟨h, fun p d hb q es n r hv => ?_⟩
    obtain ⟨k, _, _, _, _, _, _, _, hk, hsub⟩ := Sub.below hs hb
    cases k with
    | zero => exact hk
    | succ k =>
      obtain ⟨_, _, _, _, hr, -⟩ := NodeRep.rep hsub
      cases hv.symm.trans hr

end Level

/-- The whole tree is the leaf `p` with the entries `es`. -/
structure SingleLeaf (t : BTreeManager TreeStore) (p : Nat) (es : List (Nat × Nat)) : Prop where
  root : t.rootPageId = p
  valid : ValidPage p
  inv : treeStoreLawful.Inv t.store
  taken : ¬ t.store.allocator.Free p
  page : diskPage t.store.file p = some (.leaf p es 0 true)
  sorted : Sorted es
  bounds : ∀ e ∈ es, e.1 < keySpace ∧ e.2 < keySpace
  length : es.length ≤ maxEntries

theorem TreeStore.writePage_len {s s' : TreeStore} {page : IndexPage} (hf : page.Fits)
    (hw : TreeStore.writePage page s = (.ok (), s')) :
    s'.file.len = max s.file.len (pageOffset defaultPageSize (page.pageId + 1)) := by
  have hp : 0 < page.pageId := by cases page <;> exact hf.1
  have hlen := IndexPage.length_image hf
  have hne : page.image ≠ [] := List.ne_nil_of_length_pos (by rw [hlen]; decide)
  have hend : pageOffset defaultPageSize (page.pageId + 1) =
      pageOffset defaultPageSize page.pageId + defaultPageSize := by
    obtain ⟨n, hn⟩ := Nat.exists_eq_add_of_le' hp
    rw [hn]
    simp only [pageOffset, defaultPageSize]
    omega
  rw [TreeStore.writePage, IndexPage.pack_ok hf] at hw
  simp only [if_neg hp.ne', Prod.mk.injEq, true_and] at hw
  rw [← hw, ByteFile.len_writeAt hne, hlen, hend]

/-- Work on page `p` alone: no page is handed out, and the file ends no later than that page does
or did before. -/
structure StaysOn (p : Nat) (s s' : TreeStore) : Prop where
  allocator : s'.allocator = s.allocator
  len : s'.file.len ≤ max s.file.len (pageOffset defaultPageSize (p + 1))

theorem StaysOn.trans {p : Nat} {s s' s'' : TreeStore} (h : StaysOn p s s') (h' : StaysOn p s' s'') :
    StaysOn p s s'' where
  allocator := h'.allocator.trans h.allocator
  len := by
    have h₁ := h.len
    have h₂ := h'.len
    omega

theorem StaysOn.cached {p : Nat} {s : TreeStore} {cache : BTreePageCache} :
    StaysOn p s { s with cache } := ⟨rfl, le_max_left _ _⟩

section SingleLeaf
variable {t : BTreeManager TreeStore} {p : Nat} {es es' : List (Nat × Nat)} (dbg : Bool) (fuel : Nat)

theorem IndexPage.outOfOrder_of_sorted {keys : List Nat} (hs : keys.Pairwise (· < ·)) :
    IndexPage.outOfOrder keys = none := by
  induction keys with
  | nil => rfl
  | cons a keys ih =>
    cases keys with
    | nil => rfl
    | cons b keys =>
      obtain ⟨ha, hs⟩ := List.pairwise_cons.mp hs
      have hlt := ha b List.mem_cons_self
      rw [IndexPage.outOfOrder, if_neg (by omega)]
      exact ih hs

theorem SingleLeaf.verifies (hl : SingleLeaf t p es) :
    IndexPage.verifyInvariants (.leaf p es 0 true) = .ok () := by
  have hlen := hl.length
  have hord : IndexPage.outOfOrder (es.map Prod.fst) = none :=
    IndexPage.outOfOrder_of_sorted (List.pairwise_map.mpr hl.sorted)
  rw [IndexPage.verifyInvariants, if_neg (by omega)]
  simp [hord]

theorem SingleLeaf.not_isEmpty (hl : SingleLeaf t p es) : t.isEmpty = false := by
  apply ValidPage.not_isEmpty
  rw [hl.root]
  exact hl.valid

theorem SingleLeaf.below {q d : Nat} (hl : SingleLeaf t p es)
    (hb : Below (diskPage t.store.file) t.rootPageId q d) : q = p := by
  induction hb with
  | root => exact hl.root
  | child _ hv _ ih =>
    rw [ih, hl.page] at hv
    cases hv

theorem SingleLeaf.pagesVerified (hl : SingleLeaf t p es) : PagesVerified t := by
  intro _ q d hb
  obtain rfl := hl.below hb
  exact ⟨_, hl.page, hl.verifies, by simp [IndexPage.isRoot, hl.root]⟩

theorem SingleLeaf.fits (hl : SingleLeaf t p es) (hb : ∀ e ∈ es', e.1 < keySpace ∧ e.2 < keySpace)
    (hlen : es'.length ≤ maxEntries) : IndexPage.Fits (.leaf p es' 0 true) :=
  ⟨hl.valid.1, hl.valid.lt, hlen, hb, by decide⟩

theorem SingleLeaf.load (hl : SingleLeaf t p es) :
    ∃ cache, BTreeManager.loadPage treeStore p t =
        (.ok (.leaf p es 0 true), { t with store := { t.store with cache } }) ∧
      SingleLeaf { t with store := { t.store with cache } } p es := by
  obtain ⟨cache, hload, hc⟩ := TreeStore.loadPage_ok hl.inv.1 hl.page
  refine ⟨cache, ?_, { hl with inv := ⟨hc, hl.inv.2⟩ }⟩
  simp only [BTreeManager.loadPage, BTreeManager.onStore, treeStore, hload]

/-- Rewriting the one leaf leaves one leaf. -/
theorem SingleLeaf.write (hl : SingleLeaf t p es) (hs : Sorted es')
    (hb : ∀ e ∈ es', e.1 < keySpace ∧ e.2 < keySpace) (hlen : es'.length ≤ maxEntries) :
    ∃ s', BTreeManager.writePage treeStore (.leaf p es' 0 true) t =
        (.ok (), { t with store := s' }) ∧ StaysOn p t.store s' ∧
      SingleLeaf { t with store := s' } p es' := by
  obtain ⟨s', hw, hc, ha, hv⟩ := TreeStore.writePage_ok hl.inv.1 (hl.fits hb hlen)
  have hend := TreeStore.writePage_len (hl.fits hb hlen) hw
  refine ⟨s', ?_, ⟨ha, hend.le⟩, hl.root, hl.valid, ⟨hc, ha ▸ hl.inv.2⟩, ha ▸ hl.taken, ?_, hs, hb,
    hlen⟩
  · simp only [BTreeManager.writePage, BTreeManager.onStore, treeStore, hw]
  · exact hv p _ (Function.update_self ..)

/-- An insertion that finds room rewrites the leaf. -/
theorem SingleLeaf.insert (hl : SingleLeaf t p es) (hroom : es.length < maxEntries)
    (key : Int64) {value : Nat} (hval : value < keySpace) :
    ∃ t', BTreeManager.insert treeStore dbg (fuel + 1) key value t = (.ok (), t') ∧
      StaysOn p t.store t'.store ∧ SingleLeaf t' p (upsert (searchKey key) value es) := by
  obtain rfl := hl.root
  obtain ⟨c₁, hload₁, hl₁⟩ := hl.load
  obtain ⟨c₂, hload₂, hl₂⟩ := hl₁.load
  have hlen : (upsert (searchKey key) value es).length ≤ maxEntries := by
    have : (upsert (searchKey key) value es).length ≤ es.length + 1 := length_upsert_le
    omega
  obtain ⟨s', hw, ha, hl'⟩ := hl₂.write (sorted_upsert (k := searchKey key) (v := value) hl.sorted)
    (by
      intro e he
      rcases mem_upsert he with rfl | he
      · exact ⟨searchKey_lt key, hval⟩
      · exact hl.bounds e he) hlen
  refine ⟨_, ?_, StaysOn.cached.trans ha, hl'⟩
  have hfull : (IndexPage.needsSplitInternal (.leaf t.rootPageId es 0 true) ||
      IndexPage.needsSplitLeaf (.leaf t.rootPageId es 0 true)) = false := by
    simp only [IndexPage.needsSplitInternal, IndexPage.needsSplitLeaf, Bool.false_or,
      decide_eq_false_iff_not]
    omega
  unfold BTreeManager.insert
  simp only [StoreM.get_bind_run, hl.not_isEmpty, Bool.false_eq_true, if_false]
  rw [StoreM.bind_ok _ hload₁]
  simp only [hfull, Bool.false_eq_true, if_false, StoreM.get_bind_run]
  rw [BTreeManager.insertNonFull, StoreM.bind_ok _ hload₂]
  have hv : (if dbg = true then IndexPage.verifyInvariants (.leaf t.rootPageId es 0 true)
      else .ok ()) = .ok () := by
    rw [hl.verifies, ite_self]
  rw [hv, StoreM.ofExcept_ok_bind_run]
  simp only [BTreeManager.updateEntries_eq_upsert]
  exact hw

theorem SingleLeaf.delete (hl : SingleLeaf t p es) (key : Int64) :
    ∃ found t', BTreeManager.delete treeStore (fuel + 1) key t = (.ok found, t') ∧
      ∃ es', SingleLeaf t' p es' := by
  obtain ⟨c₁, hload₁, hl₁⟩ := hl.load
  obtain ⟨c₂, hload₂, hl₂⟩ := hl₁.load
  have hfind : BTreeManager.findLeafLoop treeStore (fuel + 1) 0 p (searchKey key) t =
      (.ok p, { t with store := { t.store with cache := c₁ } }) := by
    rw [BTreeManager.findLeafLoop, if_pos (by decide), StoreM.bind_ok _ hload₁]
    rfl
  unfold BTreeManager.delete
  simp only [StoreM.get_bind_run, hl.not_isEmpty, Bool.false_eq_true, if_false]
  rw [hl.root, StoreM.bind_ok _ hfind, StoreM.bind_ok _ hload₂]
  simp only
  cases hb : IndexPage.binarySearchLeaf es (searchKey key) with
  | error idx => exact ⟨false, _, rfl, es, hl₂⟩
  | ok idx =>
    have hmem : ∀ e ∈ es.eraseIdx idx, e ∈ es := fun e he => List.mem_of_mem_eraseIdx he
    obtain ⟨s', hw, -, hl'⟩ := hl₂.write
      (hl.sorted.sublist (List.eraseIdx_sublist es idx))
      (fun e he => hl.bounds e (hmem e he))
      ((List.length_eraseIdx_le es idx).trans hl.length)
    exact ⟨true, _, StoreM.bind_ok (fun _ => pure true) hw, _, hl'⟩

/-- The first insertion either finds no page id or makes the one leaf. -/
theorem insert_into_empty (hempty : t.isEmpty = true) (hinv : treeStoreLawful.Inv t.store)
    (key : Int64) {value : Nat} (hval : value < keySpace) :
    t.store.allocator.allocate = .error .capacityOverflow ∧
        BTreeManager.insert treeStore dbg fuel key value t = (.error .capacityOverflow, t) ∨
      ∃ p a t', t.store.allocator.allocate = .ok (p, a) ∧
        BTreeManager.insert treeStore dbg fuel key value t = (.ok (), t') ∧
        t'.store.allocator = a ∧
        t'.store.file.len ≤ max t.store.file.len (pageOffset defaultPageSize (p + 1)) ∧
        SingleLeaf t' p [(searchKey key, value)] := by
  unfold BTreeManager.insert
  simp only [StoreM.get_bind_run, hempty, if_true]
  rcases PageAllocator.allocate_cases hinv.2 with he | ⟨p, a, ha, hp, hw, hf, -⟩
  · refine .inl ⟨he, StoreM.bind_error _ ?_⟩
    simp only [BTreeManager.allocate, BTreeManager.onStore, treeStore, TreeStore.allocate, he]
  · have hvalid : ValidPage p := treeStoreLawful.free_valid hinv hp
    have halloc : BTreeManager.allocate treeStore t =
        (.ok p, { t with store := { t.store with allocator := a } }) := by
      simp only [BTreeManager.allocate, BTreeManager.onStore, treeStore, TreeStore.allocate, ha]
    have hb : ∀ e ∈ [(searchKey key, value)], e.1 < keySpace ∧ e.2 < keySpace := by
      intro e he
      obtain rfl := List.mem_singleton.mp he
      exact ⟨searchKey_lt key, hval⟩
    have hfits : IndexPage.Fits (.leaf p [(searchKey key, value)] 0 true) :=
      ⟨hvalid.1, hvalid.lt, by simp [maxEntries], hb, by decide⟩
    obtain ⟨s', hwrite, hc, ha', hv⟩ :=
      TreeStore.writePage_ok (s := { t.store with allocator := a }) hinv.1 hfits
    have hend := TreeStore.writePage_len hfits hwrite
    refine .inr ⟨p, a, ⟨p, 1, s'⟩, ha, ?_, ha', hend.le, rfl, hvalid, ⟨hc, ha' ▸ hw⟩, ?_, ?_,
      List.pairwise_singleton .., hb, by simp [maxEntries]⟩
    · have hw' : BTreeManager.writePage treeStore (.leaf p [(searchKey key, value)] 0 true)
          { t with store := { t.store with allocator := a } } =
            (.ok (), { t with store := s' }) := by
        simp only [BTreeManager.writePage, BTreeManager.onStore, treeStore, hwrite]
      rw [BTreeManager.insertIntoEmptyTree, StoreM.bind_ok _ halloc, StoreM.bind_ok _ hw']
      rfl
    · rw [ha']
      exact fun hfree => ((hf p).mp hfree).2 rfl
    · exact hv p _ (Function.update_self ..)

end SingleLeaf

/-- No page yet, or one leaf. -/
structure SmallTree (t : BTreeManager TreeStore) : Prop where
  inv : treeStoreLawful.Inv t.store
  shape : t.isEmpty = true ∨ ∃ p es, SingleLeaf t p es

section Run
variable {t : BTreeManager TreeStore} (dbg : Bool) (fuel : Nat)

theorem SmallTree.pagesVerified (hs : SmallTree t) : PagesVerified t := by
  rcases hs.shape with hempty | ⟨p, es, hl⟩
  · intro hne
    rw [hempty] at hne
    cases hne
  · exact hl.pagesVerified

theorem SingleLeaf.smallTree {p : Nat} {es : List (Nat × Nat)} (hl : SingleLeaf t p es) :
    SmallTree t := ⟨hl.inv, .inr ⟨p, es, hl⟩⟩

theorem SmallTree.exec (hs : SmallTree t) (op : TreeOp) (hroom : FindsRoom t op) :
    ∃ res t', op.exec treeStore dbg (fuel + 1) t = (res, t') ∧ SmallTree t' ∧
      ∀ e, res = .error e → e = .capacityOverflow := by
  cases op with
  | insert key value =>
    rcases hs.shape with hempty | ⟨p, es, hl⟩
    · rcases insert_into_empty dbg (fuel + 1) hempty hs.inv key value.toNat_lt with
        ⟨-, hrun⟩ | ⟨p, a, t', -, hrun, -, -, hl⟩
      · exact ⟨_, t, hrun, hs, by rintro _ ⟨⟩; rfl⟩
      · exact ⟨_, t', hrun, hl.smallTree, by rintro _ ⟨⟩⟩
    · have hfull := hroom hl.not_isEmpty _ (hl.root ▸ hl.page)
      simp only [IndexPage.needsSplitLeaf, decide_eq_false_iff_not, not_le] at hfull
      obtain ⟨t', hrun, -, hl'⟩ := hl.insert dbg fuel hfull key value.toNat_lt
      exact ⟨_, t', hrun, hl'.smallTree, by rintro _ ⟨⟩⟩
  | delete key =>
    rcases hs.shape with hempty | ⟨p, es, hl⟩
    · refine ⟨.ok (), t, ?_, hs, by rintro _ ⟨⟩⟩
      have hrun : BTreeManager.delete treeStore (fuel + 1) key t = (.ok false, t) := by
        unfold BTreeManager.delete
        simp only [StoreM.get_bind_run, hempty, if_true]
        rfl
      exact StoreM.bind_ok _ hrun
    · obtain ⟨found, t', hrun, es', hl'⟩ := hl.delete fuel key
      exact ⟨.ok (), t', StoreM.bind_ok _ hrun, hl'.smallTree, by rintro _ ⟨⟩⟩

theorem SmallTree.run (ops : List TreeOp) (hs : SmallTree t)
    (hsteps : EveryStep treeStore dbg (fuel + 1) FindsRoom ops t) :
    SmallTree (runTree treeStore dbg (fuel + 1) ops t).2 ∧
      ∀ entry ∈ (runTree treeStore dbg (fuel + 1) ops t).1, ∀ e, entry.2 = .error e →
        e = .capacityOverflow := by
  induction ops generalizing t with
  | nil => exact ⟨hs, by simp [runTree]⟩
  | cons op ops ih =>
    obtain ⟨hroom, hrest⟩ := hsteps
    obtain ⟨res, t', hexec, hs', herr⟩ := hs.exec dbg fuel op hroom
    rw [hexec] at hrest
    obtain ⟨hfinal, hlog⟩ := ih hs' hrest
    simp only [runTree, hexec]
    refine ⟨hfinal, ?_⟩
    intro entry hmem
    rcases List.mem_cons.mp hmem with rfl | hmem
    · exact herr
    · exact hlog entry hmem

end Run

/-- As long as no insertion meets a full root leaf, every page reachable from the root passes the
structural check, the root alone is marked as one, and no insertion fails a debug check. In every
run all leaves lie at one depth. -/
theorem page_invariants (file : ByteFile) (header : PersistentHeaderV3) (capacity : Nat)
    (choices : Nat → Nat) (dbg : Bool) (extra : Nat) (ops : List TreeOp) :
    LeavesLevel (runTree treeStore dbg (maxTreeHeight + extra) ops
      (emptyTree file header capacity choices)).2 ∧
    (EveryStep treeStore dbg (maxTreeHeight + extra) FindsRoom ops
        (emptyTree file header capacity choices) →
      PagesVerified (runTree treeStore dbg (maxTreeHeight + extra) ops
        (emptyTree file header capacity choices)).2 ∧
      ∀ entry ∈ (runTree treeStore dbg (maxTreeHeight + extra) ops
        (emptyTree file header capacity choices)).1,
        ∀ e, entry.2 = .error e → e = .capacityOverflow) := by
  have hempty := emptyTree_inv file header capacity choices
  constructor
  · obtain ⟨log, t, es, ps, hrun, hi, -, -⟩ := runTree_run treeStoreLawful dbg ops hempty
      (m := fun _ => none) (fun _ => rfl) (Nat.le_add_right maxTreeHeight extra)
    rw [hrun]
    exact hi.leavesLevel
  · intro hsteps
    have hsmall : SmallTree (emptyTree file header capacity choices) := ⟨hempty.inv, .inl rfl⟩
    obtain ⟨n, hn⟩ : ∃ n, maxTreeHeight + extra = n + 1 := ⟨9 + extra, by
      unfold maxTreeHeight
      omega⟩
    rw [hn] at hsteps ⊢
    obtain ⟨hfinal, hlog⟩ := hsmall.run dbg n ops hsteps
    exact ⟨hfinal.pagesVerified, hlog⟩

theorem page_invariants_insertDelete :
    PagesVerified (runTree treeStore true maxTreeHeight [.insert 5 7, .delete 5]
      (emptyTree .empty .newV3 defaultCacheCapacity id)).2 :=
  ((page_invariants .empty .newV3 defaultCacheCapacity id true 0 [.insert 5 7, .delete 5]).2
    ⟨by rintro ⟨⟩, trivial, trivial⟩).1

section Split
variable {t : BTreeManager TreeStore} {p q n d : Nat} {es : List (Nat × Nat)} {r : Bool}
  {key value : Nat} (dbg : Bool) (fuel : Nat)

/-- Work in one leaf keeps the leaf's flag. -/
theorem insertNonFull_leaf (hinv : treeStoreLawful.Inv t.store)
    (hpage : diskPage t.store.file q = some (.leaf q es n r))
    (hfits : IndexPage.Fits (.leaf q (upsert key value es) n r)) :
    ∃ res s' es', BTreeManager.insertNonFull treeStore dbg (fuel + 1) q key value t =
        (res, { t with store := s' }) ∧
      PageStore.Extends (Function.update (diskPage t.store.file) q (some (.leaf q es' n r)))
        (diskPage s'.file) := by
  obtain ⟨s₁, hload, hr⟩ := loadPage_run (L := treeStoreLawful) (W := fun _ => True) hinv hpage
    trivial
  have hview : diskPage s₁.file = diskPage t.store.file := hr.view
  rw [BTreeManager.insertNonFull, StoreM.bind_ok _ hload]
  cases hv : (if dbg = true then IndexPage.verifyInvariants (.leaf q es n r) else .ok ()) with
  | error e =>
    refine ⟨.error e, s₁, es, by rw [StoreM.ofExcept_error_bind_run], ?_⟩
    rw [hview, ← hpage, Function.update_eq_self]
    exact .refl
  | ok _ =>
    obtain ⟨s₂, hw, hc, -, hv₂⟩ := TreeStore.writePage_ok hr.inv.1 hfits
    refine ⟨.ok (), s₂, upsert key value es, ?_, hview ▸ hv₂⟩
    rw [StoreM.ofExcept_ok_bind_run]
    simp only [BTreeManager.updateEntries_eq_upsert]
    simp only [BTreeManager.writePage, BTreeManager.onStore, treeStore, hw]

/-- Below a root with two leaves an insertion works in one of them. -/
theorem insertNonFull_twoLeaves {sep : Nat} {lower upper : List (Nat × Nat)} {m : Nat}
    (hinv : treeStoreLawful.Inv t.store)
    (hroot : diskPage t.store.file n = some (.internal n [sep] [p, d] true))
    (hlower : diskPage t.store.file p = some (.leaf p lower d true))
    (hupper : diskPage t.store.file d = some (.leaf d upper m false))
    (hfl : IndexPage.Fits (.leaf p (upsert key value lower) d true))
    (hfu : IndexPage.Fits (.leaf d (upsert key value upper) m false))
    (hnl : lower.length < maxEntries) (hnu : upper.length < maxEntries)
    (hpn : p ≠ n) (hdn : d ≠ n) (hpd : p ≠ d) :
    ∃ res s', BTreeManager.insertNonFull treeStore dbg (fuel + 2) n key value t =
        (res, { t with store := s' }) ∧
      diskPage s'.file n = some (.internal n [sep] [p, d] true) ∧
      ∃ es', diskPage s'.file p = some (.leaf p es' d true) := by
  have hverify : (if dbg = true then IndexPage.verifyInvariants (.internal n [sep] [p, d] true)
      else .ok ()) = .ok () := by
    have : IndexPage.verifyInvariants (.internal n [sep] [p, d] true) = .ok () := by
      simp [IndexPage.verifyInvariants, IndexPage.outOfOrder, maxKeys]
    rw [this, ite_self]
  obtain ⟨s₁, hload, hr⟩ := loadPage_run (L := treeStoreLawful) (W := fun _ => True) hinv hroot
    trivial
  have hview : diskPage s₁.file = diskPage t.store.file := hr.view
  -- what is common to the two children
  have hchild : ∀ {c next : Nat} {r : Bool} {es : List (Nat × Nat)},
      [p, d][IndexPage.findChildIndex [sep] key]? = some c →
      diskPage t.store.file c = some (.leaf c es next r) → es.length < maxEntries →
      IndexPage.Fits (.leaf c (upsert key value es) next r) →
      ∃ res s' es', BTreeManager.insertNonFull treeStore dbg (fuel + 2) n key value t =
          (res, { t with store := s' }) ∧
        PageStore.Extends (Function.update (diskPage t.store.file) c (some (.leaf c es' next r)))
          (diskPage s'.file) := by
    intro c next r es hc hpage hlen hfits
    obtain ⟨s₂, hload₂, hr₂⟩ := loadPage_run (t := { t with store := s₁ }) (L := treeStoreLawful)
      (W := fun _ => True) (p := c) hr.inv (hview ▸ hpage) trivial
    have hview₂ : diskPage s₂.file = diskPage t.store.file := Eq.trans hr₂.view hview
    obtain ⟨res, s', es', hrun, hv⟩ := insertNonFull_leaf dbg fuel
      (t := { t with store := s₂ }) hr₂.inv (hview₂ ▸ hpage) hfits
    have hfull : (IndexPage.needsSplitInternal (.leaf c es next r) ||
        IndexPage.needsSplitLeaf (.leaf c es next r)) = false := by
      simp only [IndexPage.needsSplitInternal, IndexPage.needsSplitLeaf, Bool.false_or,
        decide_eq_false_iff_not]
      omega
    refine ⟨res, s', es', ?_, hview₂ ▸ hv⟩
    rw [BTreeManager.insertNonFull, StoreM.bind_ok _ hload, hverify,
      StoreM.ofExcept_ok_bind_run]
    simp only [index_of_getElem? hc, StoreM.ofExcept_ok_bind_run]
    rw [StoreM.bind_ok _ hload₂]
    simp only [hfull, Bool.false_eq_true, if_false]
    exact hrun
  have hidx : IndexPage.findChildIndex [sep] key = 0 ∨ IndexPage.findChildIndex [sep] key = 1 := by
    rw [IndexPage.findChildIndex_cons]
    have hnil : IndexPage.findChildIndex [] key = 0 := rfl
    split
    · split <;> simp
    · simp [hnil]
  rcases hidx with h0 | h1
  · obtain ⟨res, s', es', hrun, hv⟩ := hchild (by rw [h0]; rfl) hlower hnl hfl
    refine ⟨res, s', hrun, hv _ _ ?_, es', hv _ _ (Function.update_self ..)⟩
    rw [Function.update_of_ne hpn.symm, hroot]
  · obtain ⟨res, s', es', hrun, hv⟩ := hchild (by rw [h1]; rfl) hupper hnu hfu
    refine ⟨res, s', hrun, hv _ _ ?_, lower, hv _ _ ?_⟩
    · rw [Function.update_of_ne hdn.symm, hroot]
    · rw [Function.update_of_ne hpd, hlower]

theorem fits_leaf (hq : ValidPage q) (hb : ∀ e ∈ es, e.1 < keySpace ∧ e.2 < keySpace)
    (hlen : es.length ≤ maxEntries) (hn : n < keySpace) : IndexPage.Fits (.leaf q es n r) :=
  ⟨hq.1, hq.lt, hlen, hb, hn⟩

theorem bounds_upsert (hb : ∀ e ∈ es, e.1 < keySpace ∧ e.2 < keySpace) (hkey : key < keySpace)
    (hval : value < keySpace) : ∀ e ∈ upsert key value es, e.1 < keySpace ∧ e.2 < keySpace := by
  intro e he
  rcases mem_upsert he with rfl | he
  · exact ⟨hkey, hval⟩
  · exact hb e he

theorem fits_upsert (hq : ValidPage q) (hb : ∀ e ∈ es, e.1 < keySpace ∧ e.2 < keySpace)
    (hkey : key < keySpace) (hval : value < keySpace) (hlen : es.length < maxEntries)
    (hn : n < keySpace) : IndexPage.Fits (.leaf q (upsert key value es) n r) := by
  have hle : (upsert key value es).length ≤ es.length + 1 := length_upsert_le
  exact fits_leaf hq (bounds_upsert hb hkey hval) (by omega) hn

/-- A page below the root that is marked as a root shows on the tree. -/
theorem not_pagesVerified_of_child {sep : Nat} (hn : ValidPage n) (hpn : p ≠ n)
    (hroot : diskPage t.store.file t.rootPageId = some (.internal n [sep] [p, d] true))
    (hp : diskPage t.store.file p = some (.leaf p es q true)) (hid : t.rootPageId = n) :
    ¬ PagesVerified t := by
  intro h
  have hempty : t.isEmpty = false := ValidPage.not_isEmpty (hid ▸ hn)
  obtain ⟨page, hpage, -, hflag⟩ := h hempty p 1 (.child .root hroot List.mem_cons_self)
  cases hp.symm.trans hpage
  exact hpn (hid ▸ hflag.mp rfl)

/-- An insertion that meets a full root leaf leaves the lower half marked as a root. -/
theorem SingleLeaf.insert_full {a a' : PageAllocator} (hl : SingleLeaf t p es)
    (hfull : es.length = maxEntries) (ha : t.store.allocator.allocate = .ok (n, a))
    (ha' : a.allocate = .ok (d, a')) (key : Int64) (hval : value < keySpace) :
    ¬ PagesVerified (BTreeManager.insert treeStore dbg (fuel + 2) key value t).2 := by
  obtain rfl := hl.root
  obtain ⟨c₁, hload₁, hl₁⟩ := hl.load
  obtain ⟨c₂, hload₂, hl₂⟩ := hl₁.load
  have ho : Owned treeStoreLawful ({ t.store with cache := c₂ } : TreeStore) [t.rootPageId] :=
    ⟨List.nodup_singleton _, fun q hq => List.mem_singleton.mp hq ▸ hl.valid,
      fun q hq => List.mem_singleton.mp hq ▸ hl.taken⟩
  have halloc : BTreeManager.allocate treeStore
      { t with store := { t.store with cache := c₂ } } =
        (.ok n, { t with store := { t.store with cache := c₂, allocator := a } }) := by
    simp only [BTreeManager.allocate, BTreeManager.onStore, treeStore, TreeStore.allocate, ha]
  have halloc' : BTreeManager.allocate treeStore
      { t with store := { t.store with cache := c₂, allocator := a } } =
        (.ok d, { t with store := { t.store with cache := c₂, allocator := a' } }) := by
    simp only [BTreeManager.allocate, BTreeManager.onStore, treeStore, TreeStore.allocate, ha']
  obtain ⟨hinv₁, ho₁⟩ : treeStoreLawful.Inv { t.store with cache := c₂, allocator := a } ∧
      Owned treeStoreLawful { t.store with cache := c₂, allocator := a } [n, t.rootPageId] := by
    rcases allocate_run hl₂.inv ho with ⟨e, he, -⟩ | ⟨n', s', hn, -, -, hg⟩
    · cases he.symm.trans halloc
    · cases hn.symm.trans halloc
      exact ⟨hg.inv, hg.owned⟩
  obtain ⟨hinv₂, ho₂⟩ : treeStoreLawful.Inv { t.store with cache := c₂, allocator := a' } ∧
      Owned treeStoreLawful { t.store with cache := c₂, allocator := a' }
        [d, n, t.rootPageId] := by
    rcases allocate_run (t := { t with store := { t.store with cache := c₂, allocator := a } })
      hinv₁ ho₁ with ⟨e, he, -⟩ | ⟨n', s', hn, -, -, hg⟩
    · cases he.symm.trans halloc'
    · cases hn.symm.trans halloc'
      exact ⟨hg.inv, hg.owned⟩
  have hnd := ho₂.nodup
  simp only [List.nodup_cons, List.mem_cons, List.not_mem_nil, not_or, or_false] at hnd
  have hvn : ValidPage n := ho₂.valid n (by simp)
  have hvd : ValidPage d := ho₂.valid d (by simp)
  have hmid : es.length / 2 < es.length := by
    rw [hfull]
    decide
  have htake : (es.take (es.length / 2)).length = 126 := by
    rw [List.length_take, hfull]
    decide
  have hdrop : (es.drop (es.length / 2)).length = 126 := by
    rw [List.length_drop, hfull]
    decide
  have hboundl : ∀ e ∈ es.take (es.length / 2), e.1 < keySpace ∧ e.2 < keySpace :=
    fun e he => hl.bounds e (List.mem_of_mem_take he)
  have hboundu : ∀ e ∈ es.drop (es.length / 2), e.1 < keySpace ∧ e.2 < keySpace :=
    fun e he => hl.bounds e (List.mem_of_mem_drop he)
  have hsep := hl.bounds es[es.length / 2] (List.getElem_mem _)
  have hwrites : ∀ page ∈ [IndexPage.leaf t.rootPageId (es.take (es.length / 2)) d true,
      .leaf d (es.drop (es.length / 2)) 0 false,
      .internal n [es[es.length / 2].1] [t.rootPageId, d] true],
      page.Fits ∧ page.pageId ∈ [d, n, t.rootPageId] := by
    intro page hpage
    simp only [List.mem_cons, List.not_mem_nil, or_false] at hpage
    rcases hpage with rfl | rfl | rfl
    · exact ⟨fits_leaf hl.valid hboundl (by rw [htake]; decide) hvd.lt, by simp⟩
    · exact ⟨fits_leaf hvd hboundu (by rw [hdrop]; decide) (by decide), by simp⟩
    · refine ⟨⟨hvn.1, hvn.lt, by simp [maxKeys], rfl, ?_, ?_⟩, by simp⟩
      · exact fun k hk => List.mem_singleton.mp hk ▸ hsep.1
      · intro c hc
        simp only [List.mem_cons, List.not_mem_nil, or_false] at hc
        rcases hc with rfl | rfl
        · exact hl.valid.lt
        · exact hvd.lt
  obtain ⟨s₃, hw, hv₃, hg₃⟩ := writeSplit_run
    (t := { t with store := { t.store with cache := c₂, allocator := a' } })
    (.modify fun t => { t with rootPageId := n, treeHeight := t.treeHeight + 1 })
    hinv₂ ho₂ hwrites
  have hsplit : BTreeManager.splitRoot treeStore { t with store := { t.store with cache := c₁ } } =
      (.ok (), ⟨n, t.treeHeight + 1, s₃⟩) := by
    unfold BTreeManager.splitRoot
    simp only [StoreM.get_bind_run]
    rw [StoreM.bind_ok _ hload₂, StoreM.bind_ok _ halloc, StoreM.bind_ok _ halloc']
    simp only [index_of_getElem? (List.getElem?_eq_getElem hmid), StoreM.ofExcept_ok_bind_run,
      BTreeManager.installRoot, IndexPage.pageId_internal]
    exact hw
  obtain ⟨res, s₄, hrun, hroot, es', hlower⟩ := insertNonFull_twoLeaves dbg fuel
    (t := ⟨n, t.treeHeight + 1, s₃⟩) hg₃.inv
    (hv₃ _ _ splitView_parent)
    (hv₃ _ _ (splitView_lower (Ne.symm hnd.2.1) (Ne.symm hnd.1.2)))
    (hv₃ _ _ (splitView_upper hnd.1.1))
    (fits_upsert hl.valid hboundl (searchKey_lt key) hval (by rw [htake]; decide) hvd.lt)
    (fits_upsert hvd hboundu (searchKey_lt key) hval (by rw [hdrop]; decide) (by decide))
    (by rw [htake]; decide) (by rw [hdrop]; decide) (Ne.symm hnd.2.1) hnd.1.1 (Ne.symm hnd.1.2)
  have hneeds : (IndexPage.needsSplitInternal (.leaf t.rootPageId es 0 true) ||
      IndexPage.needsSplitLeaf (.leaf t.rootPageId es 0 true)) = true := by
    simp [IndexPage.needsSplitInternal, IndexPage.needsSplitLeaf, hfull]
  have hinsert : BTreeManager.insert treeStore dbg (fuel + 2) key value t =
      (res, ⟨n, t.treeHeight + 1, s₄⟩) := by
    unfold BTreeManager.insert
    simp only [StoreM.get_bind_run, hl.not_isEmpty, Bool.false_eq_true, if_false]
    rw [StoreM.bind_ok _ hload₁]
    simp only [hneeds, if_true]
    rw [StoreM.bind_ok _ hsplit]
    exact hrun
  rw [hinsert]
  exact not_pagesVerified_of_child hvn (Ne.symm hnd.2.1) hroot hlower rfl

theorem runTree_append {σ : Type} {S : IndexStore σ} {t : BTreeManager σ} (ops ops' : List TreeOp) :
    (runTree S dbg fuel (ops ++ ops') t).2 =
      (runTree S dbg fuel ops' (runTree S dbg fuel ops t).2).2 := by
  induction ops generalizing t with
  | nil => rfl
  | cons op ops ih => exact ih

theorem SingleLeaf.inserts (keys : List Int64) (hl : SingleLeaf t p es)
    (hlen : es.length + keys.length ≤ maxEntries) :
    StaysOn p t.store (runTree treeStore dbg (fuel + 1) (keys.map (.insert · 1)) t).2.store ∧
      SingleLeaf (runTree treeStore dbg (fuel + 1) (keys.map (.insert · 1)) t).2 p
        (keys.foldl (fun es key => upsert (searchKey key) 1 es) es) := by
  induction keys generalizing t es with
  | nil => exact ⟨⟨rfl, le_max_left _ _⟩, hl⟩
  | cons key keys ih =>
    simp only [List.length_cons] at hlen
    obtain ⟨t', hrun, ha, hl'⟩ := hl.insert dbg fuel (by omega) key
      (by decide : (1 : Nat) < keySpace)
    have hle : (upsert (searchKey key) 1 es).length ≤ es.length + 1 := length_upsert_le
    obtain ⟨ha', hl''⟩ := ih hl' (by omega)
    have hexec : (TreeOp.insert key 1).exec treeStore dbg (fuel + 1) t = (.ok (), t') := hrun
    simp only [List.map_cons, runTree, hexec]
    exact ⟨ha.trans ha', hl''⟩

end Split

/-- With nothing freed the next page is the one at the end of the file. -/
theorem allocate_fresh {a : PageAllocator} {n : Nat} (h : a.Wf) (hfl : a.freeList = [])
    (hn : a.nextPage = n) (hroom : n + 1024 ≤ isizeMax) :
    ∃ bitmap, a.allocate = .ok (n, ⟨bitmap, [], n + 1⟩) ∧
      PageAllocator.Wf ⟨bitmap, [], n + 1⟩ := by
  subst hn
  rcases PageAllocator.allocate_append h hfl with ⟨-, hlt⟩ | ⟨bitmap, ha, hlen, -⟩
  · omega
  · exact ⟨bitmap, ha, List.nodup_nil, by simp, hlen, by simp⟩

/-- Insertions of the keys `0, 1, …`. -/
def ascendingInserts (n : Nat) : List TreeOp :=
  (List.range n).map fun k => .insert (Int64.ofNat k) 1

/-- A new index, its header and its file empty. -/
def freshTree : BTreeManager TreeStore := emptyTree .empty .newV3 defaultCacheCapacity id

/-- 252 keys fill the root leaf, on the first page that is handed out. -/
theorem fullRootLeaf : ∃ bitmap t,
    (runTree treeStore true maxTreeHeight (ascendingInserts 252) freshTree).2 = t ∧
      t.store.allocator = ⟨bitmap, [], 3⟩ ∧ t.store.file.len ≤ pageOffset defaultPageSize 3 ∧
      SingleLeaf t 2 ((List.range 252).map fun k => (k, 1)) := by
  have hops : ascendingInserts 252 = [.insert 0 1] ++
      ((List.range 251).map fun k => Int64.ofNat (k + 1)).map (.insert · 1) := by decide +kernel
  have hinv := (emptyTree_inv .empty .newV3 defaultCacheCapacity id).inv
  have hheight : maxTreeHeight = 9 + 1 := rfl
  rw [hops, runTree_append, hheight]
  obtain ⟨b₁, ha₁, -⟩ := allocate_fresh (PageAllocator.wf_new .newV3) (n := 2) rfl rfl (by decide)
  rcases insert_into_empty (t := freshTree) true (9 + 1) rfl hinv 0 (by decide : (1 : Nat) < keySpace)
    with ⟨he, -⟩ | ⟨p, a, t₁, ha, hrun, hat, hlen, hl⟩
  · cases ha₁.symm.trans he
  cases ha₁.symm.trans ha
  have hexec : (runTree treeStore true (9 + 1) [.insert 0 1] freshTree).2 = t₁ :=
    congrArg Prod.snd hrun
  rw [hexec]
  obtain ⟨hstay, hl₂⟩ := hl.inserts true 9
    ((List.range 251).map fun k => Int64.ofNat (k + 1)) (by simp [maxEntries])
  have hentries : ((List.range 251).map fun k => Int64.ofNat (k + 1)).foldl
      (fun es key => upsert (searchKey key) 1 es) [(searchKey 0, 1)] =
        (List.range 252).map fun k => (k, 1) := by decide +kernel
  rw [hentries] at hl₂
  have hempty : freshTree.store.file.len = 0 := rfl
  have hend := hstay.len
  have hthree : pageOffset defaultPageSize (2 + 1) = pageOffset defaultPageSize 3 := rfl
  refine ⟨b₁, _, rfl, hstay.allocator.trans hat, ?_, hl₂⟩
  omega

/-- The 253rd key splits the root leaf, and the lower half stays marked as a root. -/
theorem not_page_invariants :
    ¬ PagesVerified (runTree treeStore true maxTreeHeight (ascendingInserts 253) freshTree).2 := by
  have hops : ascendingInserts 253 = ascendingInserts 252 ++ [.insert 252 1] := by decide +kernel
  obtain ⟨b, t, hrun, hat, -, hl⟩ := fullRootLeaf
  rw [hops, runTree_append, hrun]
  obtain ⟨b₂, ha₂, hwf₂⟩ := allocate_fresh (hat ▸ hl.inv.2) (n := 3) rfl rfl (by decide)
  obtain ⟨b₃, ha₃, -⟩ := allocate_fresh hwf₂ (n := 4) rfl rfl (by decide)
  exact hl.insert_full true 8 (by simp [maxEntries]) (hat ▸ ha₂) ha₃ 252
    (by decide : (1 : Nat) < keySpace)

end SqliteGraph.V3
