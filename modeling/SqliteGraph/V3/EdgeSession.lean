import SqliteGraph.V3.EdgeFlush

/-! Sessions of the edge store over one database: what a flush leaves behind, an open reads back. -/
namespace SqliteGraph.V3
open Lib

/-- The header of a session that only stores edges. -/
def edgeHeader (root total : Nat) : PersistentHeaderV3 :=
  { PersistentHeaderV3.newV3 with edgeDataOffset := root, totalPages := total }

section Header
variable {root total : Nat}

theorem newV3_fits : PersistentHeaderV3.newV3.Fits := by
  constructor <;> decide

theorem edgeHeader_fits (hr : root < 256 ^ 8) (ht : total < 256 ^ 8) :
    (edgeHeader root total).Fits :=
  { newV3_fits with edgeDataOffset := hr, totalPages := ht }

theorem edgeHeader_validate : (edgeHeader root total).validate = .ok () := by
  simp [PersistentHeaderV3.validate, edgeHeader, PersistentHeaderV3.newV3, defaultV3FeatureFlags,
    flagV2FramedRecords, flagV2AtomicCommit, flagV3BtreeIndex, defaultPageSize]

theorem readHeader_edgeHeader {file : ByteFile} (hr : root < 256 ^ 8) (ht : total < 256 ^ 8) :
    EdgeSession.readHeader (file.writeAt 0 (edgeHeader root total).toBytes) =
      .ok (edgeHeader root total) := by
  have hf := edgeHeader_fits hr ht
  rw [EdgeSession.readHeader,
    ByteFile.readExact_writeAt_self (PersistentHeaderV3.length_toBytes hf.magic) (by decide)]
  simp only [PersistentHeaderV3.fromBytes_toBytes hf]
  change (edgeHeader root total).validate >>= _ = _
  rw [edgeHeader_validate]
  rfl

end Header

section Core
variable {s : EdgeState} {m : EdgeTable} {page : EdgeKey → Nat} {es : List (Nat × Nat)}
  {ps : List Nat} {data : Bytes}

/-- No page lies where the header does. -/
theorem EdgeCore.writeHeader (h : EdgeCore s m page es ps) (hd : data.length = v3HeaderSize) :
    EdgeCore { s with disk := { s.disk with file := s.disk.file.writeAt 0 data } } m page es ps where
  total := h.total
  size := h.size
  pages k hk := by
    obtain ⟨hvalid, hapart, htaken, huncached⟩ := h.pages k hk
    exact ⟨hvalid, hapart, htaken, huncached⟩
  inj := h.inj
  cached := h.cached
  stored k edges hk := by
    obtain ⟨hsize, hon⟩ := h.stored k edges hk
    refine ⟨hsize, hon.of_bytes ByteFile.len_le_writeAt fun i hlo hhi => ?_⟩
    have := header_le_pageOffset defaultPageSize (page k)
    exact ByteFile.byte_writeAt_of_lt (lt_of_lt_of_le hhi hon.1) (by omega)
  pending := h.pending
  keys := h.keys
  distinct := h.distinct
  tree := by
    refine h.tree.writeAt fun q _ _ => .inr ?_
    have := header_le_pageOffset defaultPageSize q
    omega
  bound := h.bound
  source := h.source

/-- The root that a flush puts into the header. -/
theorem EdgeCore.root_lt (h : EdgeCore s m page es ps) {root : Nat}
    (hr : s.store.btreeRootPageId = some root) : root < 256 ^ 8 := by
  unfold V3EdgeStore.btreeRootPageId at hr
  split at hr
  · rename_i hne
    cases hr
    refine (h.tree.root_height ?_).1
    rintro ⟨hempty, -⟩
    simp [BTreeManager.isEmpty, EdgeState.manager, IndexHandle.manager, hne] at hempty
  · cases hr

/-- The files opened again, with an allocator that hands out no more than the old one. -/
theorem EdgeCore.reopened (h : EdgeCore s m page es ps) {header : PersistentHeaderV3} (ht : header.totalPages = s.disk.allocator.totalPages)
    {btree : IndexHandle} (hcache : ∀ q, btree.pageCache.get q = none)
    {sidecar : Option Bytes} {choices : Nat → Nat}
    (htree : TreeInv treeStoreLawful (btree.manager ⟨s.disk.file, .new header⟩) es ps) :
    EdgeCore ⟨⟨s.disk.file, .new header⟩, sidecar, .new btree ⟨defaultPageSize, false⟩ choices⟩
      { m with cached := fun _ => none } page es ps where
  total := ht.trans_le h.total
  size := rfl
  pages k hk := by
    obtain ⟨hvalid, hapart, htaken, -⟩ := h.pages k hk
    refine ⟨hvalid, hapart, fun hf => htaken ?_, hcache _⟩
    exact PageAllocator.free_of_new ht hf
  inj := h.inj
  cached q p hq := by
    cases (hcache q).symm.trans hq
  stored := h.stored
  pending := h.pending
  keys := h.keys
  distinct := h.distinct
  tree := htree
  bound := h.bound
  source := h.source

/-- The index that the files opened again give is the one they were closed with. -/
theorem EdgeSim.restored (h : EdgeSim s m page es ps) {header : PersistentHeaderV3}
    (ht : header.totalPages = s.disk.allocator.totalPages)
    (hnone : s.sidecar = none → header.edgeDataOffset = 0) (choices : Nat → Nat) :
    let btree := V3EdgeStore.restoredIndex header s.sidecar choices
    TreeInv treeStoreLawful (btree.manager ⟨s.disk.file, .new header⟩) es ps ∧
      (V3EdgeStore.recoverBtreeMetadata s.sidecar = some (btree.rootPageId, btree.treeHeight) ∨
        s.sidecar = none ∧ (btree.manager ⟨s.disk.file, .new header⟩).isEmpty = true) := by
  rcases h.sidecar with hrec | ⟨hside, hempty⟩
  · simp only [V3EdgeStore.restoredIndex, hrec]
    exact ⟨h.core.tree.reopened (PageAllocator.wf_new header)
      fun q hq => PageAllocator.free_of_new ht hq, .inl trivial⟩
  · have hshape : es = [] ∧ ps = [] := by
      rcases h.core.tree.shape with ⟨-, hes, hps⟩ | ⟨n, first, -, hs⟩
      · exact ⟨hes, hps⟩
      · rw [(h.core.tree.owned.valid _ hs.page_mem).not_isEmpty] at hempty
        cases hempty
    obtain ⟨rfl, rfl⟩ := hshape
    have hroot := hnone hside
    simp only [V3EdgeStore.restoredIndex, V3EdgeStore.recoverBtreeMetadata, hside, hroot]
    have hzero : ∀ {st : TreeStore} {n : Nat},
        (⟨0, n, st⟩ : BTreeManager TreeStore).isEmpty = true := rfl
    refine ⟨⟨⟨by simp [TreeStore.Coherent, IndexHandle.manager],
      PageAllocator.wf_new header⟩, ⟨List.nodup_nil, by simp, by simp⟩, .inl ⟨hzero, rfl, rfl⟩⟩, ?_⟩
    exact .inr ⟨trivial, hzero⟩

end Core

namespace V3EdgeStore

theorem attemptIndex_keeps {α : Type} {x : BTreeM TreeStore α} :
    StoreM.Keeps EdgeState.sidecar (attemptIndex x) := by
  intro s
  have hside : (onIndex x s).2.sidecar = s.sidecar := rfl
  unfold attemptIndex
  split
  · rename_i h
    rwa [h] at hside
  · rename_i h
    rw [h] at hside
    split <;> exact hside

theorem attemptAllocate_keeps : StoreM.Keeps EdgeState.sidecar attemptAllocate := by
  intro s
  unfold attemptAllocate
  split
  · rfl
  · split <;> rfl

theorem neighbors_keeps {fuel : Nat} {src : Int64} {dir : Direction} :
    StoreM.Keeps EdgeState.sidecar (neighbors fuel src dir) := by
  refine .get_bind fun s => ?_
  split
  · exact .pure
  · refine .bind (attemptIndex_keeps.bind fun r => .get_bind fun s => ?_) fun neighbors => ?_
    · split <;> exact .pure
    · split
      · exact .pure
      · exact .bind (.modify fun _ => rfl) fun _ => .pure

theorem insertEdge_keeps {fuel : Nat} {src dst : Int64} {dir : Direction}
    {edgeType : Option String} :
    StoreM.Keeps EdgeState.sidecar (insertEdge fuel src dst dir edgeType) := by
  refine .bind (.get_bind fun s => ?_) fun _ => .get_bind fun s => ?_
  · split
    · split
      · exact .pure
      · exact .modify fun _ => rfl
    · exact .modify fun _ => rfl
  · split
    · exact .modify fun _ => rfl
    · refine .bind (attemptIndex_keeps.bind fun r => ?_) fun pageId => .modify fun _ => rfl
      split
      · exact .pure
      · refine attemptAllocate_keeps.bind fun allocated => ?_
        split <;> exact .pure

end V3EdgeStore

/-- The session's store holds `m`; its header names an index only if the sidecar does. -/
structure SessionSim (x : EdgeSession) (m : EdgeTable) : Prop where
  store : Holds x.state m
  header : ∃ root total, x.header = edgeHeader root total ∧ root < 256 ^ 8
  sidecar : x.state.sidecar = none → x.header.edgeDataOffset = 0

section Session
variable {x : EdgeSession} {m : EdgeTable} {Stop : NativeBackendError → Prop} {α : Type}

theorem onStore_settles {y : Nat → EdgeM α} {P : α → EdgeState → Prop}
    (h : StoreM.Settles Stop y x.state P) :
    StoreM.Settles Stop (fun fuel => EdgeSession.onStore (y fuel)) x
      fun a x' => P a x'.state ∧ x'.header = x.header := by
  obtain ⟨bound, ⟨r, s'⟩, hrun, hr⟩ := h
  refine ⟨bound, (r, { x with state := s' }), fun fuel hf => ?_, ?_⟩
  · simp only [EdgeSession.onStore, hrun fuel hf]
  · rcases hr with hstop | ⟨a, ha, hp⟩
    · exact .inl hstop
    · exact .inr ⟨a, ha, hp, rfl⟩

/-- A step that leaves the sidecar and the header alone. -/
theorem SessionSim.onStore (h : SessionSim x m) {m' : EdgeTable} {y : Nat → EdgeM α}
    (hy : StoreM.Settles Stop y x.state fun _ s' => Holds s' m')
    (hk : ∀ fuel, StoreM.Keeps EdgeState.sidecar (y fuel)) :
    StoreM.Settles Stop (fun fuel => EdgeSession.onStore (y fuel)) x fun _ x' => SessionSim x' m' := by
  refine (onStore_settles (hy.keeps hk)).mono ?_
  rintro a x' ⟨⟨hholds, hside⟩, hheader⟩
  exact ⟨hholds, hheader ▸ h.header, by rw [hside, hheader]; exact h.sidecar⟩

theorem SessionSim.flush (h : SessionSim x m) :
    StoreM.Settles PagesExhausted (fun _ => EdgeSession.onStore V3EdgeStore.flush) x
      fun _ x' => SessionSim x' m.flush := by
  obtain ⟨page, es, ps, hs⟩ := h.store
  refine (onStore_settles hs.flush).mono ?_
  rintro - x' ⟨⟨hholds, hside⟩, hheader⟩
  exact ⟨hholds, hheader ▸ h.header, fun hnone => hheader ▸ h.sidecar (hside hnone)⟩

/-- What a flush with its header write leaves for an open to read. -/
structure Synced (x : EdgeSession) : Prop where
  read : EdgeSession.readHeader x.state.disk.file = .ok x.header
  pages : x.header.totalPages = x.state.disk.allocator.totalPages

theorem SessionSim.flushToDisk (h : SessionSim x m) :
    StoreM.Settles PagesExhausted (fun _ => EdgeSession.flushToDisk) x
      fun _ x' => SessionSim x' m.flush ∧ Synced x' := by
  refine h.flush.bind ?_
  rintro - x₁ h₁
  obtain ⟨page, es, ps, hs⟩ := h₁.store
  obtain ⟨root, total, hheader, hroot⟩ := h₁.header
  have htotal : x₁.state.disk.allocator.totalPages < 256 ^ 8 :=
    lt_of_le_of_lt hs.core.total (by decide)
  have hroot' : x₁.state.store.btreeRootPageId.getD x₁.header.edgeDataOffset < 256 ^ 8 := by
    cases hr : x₁.state.store.btreeRootPageId with
    | none => rw [hheader]; exact hroot
    | some r => exact hs.core.root_lt hr
  have hlen := PersistentHeaderV3.length_toBytes (edgeHeader_fits hroot' htotal).magic
  have hnew : { x₁.header with
      edgeDataOffset := x₁.state.store.btreeRootPageId.getD x₁.header.edgeDataOffset
      totalPages := x₁.state.disk.allocator.totalPages } =
        edgeHeader (x₁.state.store.btreeRootPageId.getD x₁.header.edgeDataOffset)
          x₁.state.disk.allocator.totalPages := by
    rw [hheader]
    rfl
  refine .of_run (a := ()) rfl ⟨⟨⟨page, es, ps, ?_, hs.cache, hs.dirty, hs.sidecar⟩,
    ⟨_, _, hnew, hroot'⟩, ?_⟩, ?_, rfl⟩
  · exact hs.core.writeHeader (by rw [hnew]; exact hlen)
  · intro hnone
    have hold := h₁.sidecar hnone
    have hempty : x₁.state.store.btreeRootPageId = none := by
      rcases hs.sidecar with hrec | ⟨-, hempty⟩
      · have hside : x₁.state.sidecar = none := hnone
        rw [hside] at hrec
        cases hrec
      · rw [V3EdgeStore.btreeRootPageId, if_neg]
        rintro ⟨h0, hmax⟩
        simp [BTreeManager.isEmpty, EdgeState.manager, IndexHandle.manager, h0, hmax] at hempty
    simp only [hempty, Option.getD_none, hold]
  · simp only [hnew]
    exact readHeader_edgeHeader hroot' htotal

theorem SessionSim.reopen (h : SessionSim x m) :
    StoreM.Settles PagesExhausted (fun _ => EdgeSession.reopen) x
      fun _ x' => SessionSim x' m.reopen := by
  refine h.flushToDisk.bind ?_
  rintro - x₁ ⟨h₁, hsync⟩
  refine StoreM.Settles.get_bind ?_
  rw [hsync.read]
  obtain ⟨page, es, ps, hs⟩ := h₁.store
  obtain ⟨root, total, hheader, hroot⟩ := h₁.header
  obtain ⟨htree, hside⟩ := hs.restored hsync.pages h₁.sidecar
    x₁.state.store.btree.pageCache.choices
  have hsize : x₁.header.pageSize = defaultPageSize := by rw [hheader]; rfl
  have hcache : ∀ q, (V3EdgeStore.restoredIndex x₁.header x₁.state.sidecar
      x₁.state.store.btree.pageCache.choices).pageCache.get q = none := by
    intro q
    unfold V3EdgeStore.restoredIndex
    dsimp only
    split <;> exact BTreePageCache.get_new
  refine .of_run (a := ()) rfl
    ⟨⟨page, es, ps, ?_, fun k => rfl, fun k => rfl, hside⟩, ⟨root, total, hheader, hroot⟩, h₁.sidecar⟩
  change EdgeCore ⟨⟨_, _⟩, _, .new _ ⟨x₁.header.pageSize, false⟩ _⟩ _ page es ps
  rw [hsize]
  exact hs.core.reopened hsync.pages hcache htree

end Session

end SqliteGraph.V3
