import SqliteGraph.V3.NodeWrites

/-! Reading from a node store, inserting into it, and its batches. -/
namespace SqliteGraph.V3
open Lib

variable {s : NodeState} {m : NodeTable} {next : Int64} {nps ps : List Nat}
  {es : List (Nat × Nat)} {p : Nat} {bytes : Bytes} {page : NodePage} {node : NodeRecordV3}
  {id : Int64} {Stop : NativeBackendError → Prop}

section Lookup

theorem rel_of_packed {o o' : Option NodeRecordV3} (h : o.map NodeRecordV3.packed = o'.map NodeRecordV3.packed) :
    Option.Rel NodeRecordV3.Same o' o := by
  cases o with
  | none => rw [Option.map_eq_none_iff.mp h.symm]; exact .none
  | some r =>
    cases o' with
    | none => cases h
    | some r' => exact .some (NodeRecordV3.same_of_packed (Option.some.inj h).symm)

/-- A lookup finds what is visible. -/
theorem NodeSim.lookupNode (h : NodeSim s m nps es ps) (id : Int64) :
    StoreM.Settles Stop (fun fuel => NodeStore.lookupNode fuel id) s fun r s' =>
      Option.Rel NodeRecordV3.Same (m.visible id) r ∧ NodeSim s' m nps es ps := by
  refine (h.lookupPage id).bind ?_
  rintro found s₁ ⟨rfl, h₁, -, -⟩
  cases hl : es.lookup (searchKey id) with
  | none => exact .of_run (t := s₁) rfl ⟨by rw [h.invisible hl]; exact .none, h₁⟩
  | some p =>
    refine (h₁.loadNodePage (h₁.bound _ _ hl)).bind ?_
    rintro page s₂ ⟨hcurrent, -, h₂, -, -⟩
    exact .of_run (t := s₂) rfl ⟨rel_of_packed (h₁.recordOn hl hcurrent), h₂⟩

theorem NodeSim.pageCacheInsertIfAbsent (h : NodeSim s m nps es ps) (hp : p ∈ nps)
    (hb : nodePageBytes s.disk.file p = some bytes) :
    NodeSim (NodeStore.pageCacheInsertIfAbsent p bytes s).2 m nps es ps ∧
      (NodeStore.pageCacheInsertIfAbsent p bytes s).2.disk = s.disk := by
  simp only [NodeStore.pageCacheInsertIfAbsent, StoreM.modify_run]
  split
  · exact ⟨h, rfl⟩
  · refine ⟨h.caches ?_ h.unpacked, rfl⟩
    intro q b hq
    rcases lookup_capped_insert hq with ⟨rfl, rfl⟩ | ⟨-, hq⟩
    · exact ⟨hp, hb⟩
    · exact h.pageCache q b hq

theorem NodeSim.loadPageCacheRo (h : NodeSim s m nps es ps) (hp : p ∈ nps) :
    ∃ bytes s', NodeStore.loadPageCacheRo p s = (.ok bytes, s') ∧
      nodePageBytes s.disk.file p = some bytes ∧ NodeSim s' m nps es ps ∧ s'.disk = s.disk := by
  obtain ⟨page, hpage, -⟩ := h.disk p hp
  obtain ⟨bytes, hb, -⟩ := exists_unpack hpage
  unfold NodeStore.loadPageCacheRo
  rw [StoreM.get_bind_run]
  cases hc : s.store.pageCache.lookup p with
  | some cached => exact ⟨cached, s, rfl, (h.pageCache p cached hc).2, h, rfl⟩
  | none =>
    have hread : NodeStore.readPage p s = (.ok bytes, s) := by
      unfold NodeStore.readPage
      rw [StoreM.get_bind_run, nodePageOffset_eq (h.home p hp).valid.1,
        show s.disk.file.readExact (pageOffset defaultPageSize p) defaultPageSize = some bytes from hb]
      rfl
    obtain ⟨hs, hdisk⟩ := h.pageCacheInsertIfAbsent hp hb
    exact ⟨bytes, _, StoreM.bind_ok _ hread, hb, hs, hdisk⟩

theorem NodeSim.unpackedPageCacheInsert (h : NodeSim s m nps es ps) (hp : p ∈ nps)
    (hpage : diskNodePage s.disk.file p = some page) :
    NodeSim (NodeStore.unpackedPageCacheInsert p page s).2 m nps es ps := by
  refine h.caches h.pageCache ?_
  intro q pg hq
  rcases lookup_capped_insert hq with ⟨rfl, rfl⟩ | ⟨-, hq⟩
  · exact ⟨hp, hpage⟩
  · exact h.unpacked q pg hq

/-- A record on its page as the file has it. -/
theorem NodeSim.recordOnDisk (h : NodeSim s m nps es ps) (hl : es.lookup (searchKey id) = some p)
    (hpage : diskNodePage s.disk.file p = some page) :
    (page.findNode id).map NodeRecordV3.packed = (m.committed id).map NodeRecordV3.packed := by
  obtain ⟨page', hpage', hs⟩ := h.disk p (h.bound _ _ hl)
  cases hpage.symm.trans hpage'
  rw [NodePage.recordWith_eq_find hs.increasing, ← h.committed id, recordIn, hl, Option.bind_some, diskRecords,
    hpage, ← page.packedNodes_find]
  rfl

/-- A read-only lookup finds what is committed. -/
theorem NodeSim.lookupNodeRo (h : NodeSim s m nps es ps) (id : Int64) :
    StoreM.Settles Stop (fun fuel => NodeStore.lookupNodeRo fuel id) s fun r s' =>
      Option.Rel NodeRecordV3.Same (m.committed id) r ∧ NodeSim s' m nps es ps := by
  refine (h.lookupPage id).bind ?_
  rintro found s₁ ⟨rfl, h₁, -, -⟩
  cases hl : es.lookup (searchKey id) with
  | none =>
    have hc := h.committed id
    rw [recordIn, hl] at hc
    have hnone : m.committed id = none := Option.map_eq_none_iff.mp hc.symm
    exact .of_run (t := s₁) rfl ⟨by rw [hnone]; exact .none, h₁⟩
  | some p =>
    have hp := h₁.bound _ _ hl
    refine StoreM.Settles.get_bind ?_
    cases hc : s₁.store.unpackedPageCache.lookup p with
    | some page =>
      exact .of_run (t := s₁) rfl ⟨rel_of_packed (h₁.recordOnDisk hl (h₁.unpacked p page hc).2), h₁⟩
    | none =>
      obtain ⟨bytes, s₂, hrun, hb, h₂, hdisk⟩ := h₁.loadPageCacheRo hp
      obtain ⟨page, hpage, -⟩ := h₁.disk p hp
      obtain ⟨bytes', hb', hu⟩ := exists_unpack hpage
      cases hb.symm.trans hb'
      refine .of_run ((StoreM.bind_ok _ hrun).trans ?_) ⟨rel_of_packed (h₁.recordOnDisk hl hpage),
        h₂.unpackedPageCacheInsert hp (by rw [hdisk]; exact hpage)⟩
      rw [hu]
      rfl

end Lookup

/-- The id that the store hands out next. -/
def NodeState.nextNodeId (s : NodeState) : Int64 := s.store.nextNodeId

namespace NodeStore

theorem onIndex_keeps {α : Type} {x : BTreeM TreeStore α} : StoreM.Keeps NodeState.nextNodeId (onIndex x) :=
  fun _ => rfl

theorem hashOrder_keeps {α : Type} {l : List α} : StoreM.Keeps NodeState.nextNodeId (hashOrder l) :=
  fun _ => rfl

theorem pageCacheInsert_keeps : StoreM.Keeps NodeState.nextNodeId (pageCacheInsert p bytes) :=
  .modify fun _ => rfl

theorem readPage_keeps : StoreM.Keeps NodeState.nextNodeId (readPage p) := by
  refine .get_bind fun s => ?_
  split
  · exact .pure
  · exact .throw

theorem loadPageFromDisk_keeps : StoreM.Keeps NodeState.nextNodeId (loadPageFromDisk p) := by
  refine .get_bind fun s => ?_
  split
  · exact .pure
  · exact readPage_keeps.bind fun _ => pageCacheInsert_keeps.bind fun _ => .pure

theorem loadPageCacheRo_keeps : StoreM.Keeps NodeState.nextNodeId (loadPageCacheRo p) := by
  refine .get_bind fun s => ?_
  split
  · exact .pure
  · refine readPage_keeps.bind fun _ => .bind (.modify fun s => ?_) fun _ => .pure
    dsimp only
    split <;> rfl

theorem loadNodePage_keeps : StoreM.Keeps NodeState.nextNodeId (loadNodePage p) := by
  refine .get_bind fun s => ?_
  split
  · exact .pure
  · split
    · exact .ofExcept
    · exact loadPageFromDisk_keeps.bind fun _ => .ofExcept

theorem writeNodePage_keeps : StoreM.Keeps NodeState.nextNodeId (writeNodePage page) := by
  refine .get_bind fun s => ?_
  split
  · exact .modify fun _ => rfl
  · exact StoreM.Keeps.ofExcept.bind fun _ => .modify fun _ => rfl

theorem allocatePage_keeps : StoreM.Keeps NodeState.nextNodeId allocatePage := by
  intro s
  unfold allocatePage
  split <;> rfl

theorem writeEmptyPage_keeps : StoreM.Keeps NodeState.nextNodeId (writeEmptyPage p) :=
  StoreM.Keeps.ofExcept.bind fun _ => .bind (.modify fun _ => rfl) fun _ => .pure

theorem createPage_keeps {blockId : Int64} : StoreM.Keeps NodeState.nextNodeId (createPage blockId) :=
  allocatePage_keeps.bind fun _ => .bind (.modify fun _ => rfl) fun _ =>
    writeEmptyPage_keeps.bind fun _ => pageCacheInsert_keeps.bind fun _ => .pure

theorem findOrCreatePageForNode_keeps : StoreM.Keeps NodeState.nextNodeId (findOrCreatePageForNode node) := by
  refine StoreM.Keeps.ofExcept.bind fun nodeSize => .get_bind fun s => ?_
  split
  · exact .pure
  · refine .bind (.get_bind fun s => hashOrder_keeps.bind fun _ => .pure) fun dirty => ?_
    split
    · exact .pure
    · refine .bind (.get_bind fun s => hashOrder_keeps.bind fun _ => .pure) fun cached => ?_
      split
      · exact .pure
      · exact createPage_keeps

theorem pageForAttempt_keeps {left : Nat} : StoreM.Keeps NodeState.nextNodeId (pageForAttempt node left) := by
  unfold pageForAttempt
  split
  · exact findOrCreatePageForNode_keeps
  · exact allocatePage_keeps.bind fun _ => writeEmptyPage_keeps.bind fun _ => .pure

theorem commitInsertion_keeps : StoreM.Keeps NodeState.nextNodeId (commitInsertion id p page) := by
  refine writeNodePage_keeps.bind fun _ => onIndex_keeps.bind fun _ => .get_bind fun s => ?_
  split
  · exact .pure
  · exact StoreM.Keeps.ofExcept.bind fun _ => pageCacheInsert_keeps

theorem insertLoop_keeps {left : Nat} : StoreM.Keeps NodeState.nextNodeId (insertLoop node left) := by
  induction left with
  | zero => exact .throw
  | succ left ih =>
    refine pageForAttempt_keeps.bind fun p => loadNodePage_keeps.bind fun page => ?_
    unfold afterAttempt
    split
    · exact commitInsertion_keeps.bind fun _ => .pure
    · split
      · exact ih
      · exact .throw
    · exact .throw

theorem rewritePage_keeps : StoreM.Keeps NodeState.nextNodeId (rewritePage p page) :=
  writeNodePage_keeps.bind fun _ => StoreM.Keeps.ofExcept.bind fun _ => pageCacheInsert_keeps

theorem updateNode_keeps {fuel : Nat} : StoreM.Keeps NodeState.nextNodeId (updateNode fuel id node) := by
  refine onIndex_keeps.bind fun found => ?_
  split
  · exact .throw
  · refine loadNodePage_keeps.bind fun page => ?_
    split
    · exact .throw
    · exact StoreM.Keeps.ofExcept.bind fun _ => rewritePage_keeps

theorem deleteNode_keeps {fuel : Nat} : StoreM.Keeps NodeState.nextNodeId (deleteNode fuel id) := by
  refine onIndex_keeps.bind fun found => ?_
  split
  · exact .pure
  · refine loadNodePage_keeps.bind fun page => ?_
    split
    · exact .pure
    · exact writeNodePage_keeps.bind fun _ => onIndex_keeps.bind fun _ => StoreM.Keeps.ofExcept.bind fun _ =>
        pageCacheInsert_keeps.bind fun _ => .pure

theorem lookupNode_keeps {fuel : Nat} : StoreM.Keeps NodeState.nextNodeId (lookupNode fuel id) := by
  refine onIndex_keeps.bind fun found => ?_
  split
  · exact .pure
  · exact loadNodePage_keeps.bind fun _ => .pure

theorem lookupNodeRo_keeps {fuel : Nat} : StoreM.Keeps NodeState.nextNodeId (lookupNodeRo fuel id) := by
  refine onIndex_keeps.bind fun found => ?_
  split
  · exact .pure
  · refine .get_bind fun s => ?_
    split
    · exact .pure
    · exact loadPageCacheRo_keeps.bind fun _ => StoreM.Keeps.ofExcept.bind fun _ =>
        .bind (.modify fun _ => rfl) fun _ => .pure

end NodeStore

section Insert

theorem NodeRecordV3.Built.withId (h : node.Built) (id : Int64) : ({ node with id } : NodeRecordV3).Built := by
  rcases h with ⟨_, flags, kind, name, data, outOff, outCount, inOff, inCount, h⟩ |
    ⟨_, flags, kind, name, off, len, outOff, outCount, inOff, inCount, h⟩
  · refine .inl ⟨id, flags, kind, name, data, outOff, outCount, inOff, inCount, ?_⟩
    simp only [newInline] at h ⊢
    split at h
    · rename_i hle
      cases h
      exact if_pos hle
    · cases h
  · refine .inr ⟨id, flags, kind, name, off, len, outOff, outCount, inOff, inCount, ?_⟩
    simp only [newExternal] at h ⊢
    split at h
    · rename_i hle
      cases h
      exact if_pos hle
    · cases h

/-- Ids handed out are never handed out again, also when the record was refused. -/
theorem NodeSim.skipped (h : NodeSim s m nps es ps) (hn : (m.nextId + 1).toInt = m.nextId.toInt + 1)
    (hle : (m.nextId + 1).toInt ≤ 2 ^ 32) : NodeSim s m.skipId nps es ps :=
  ⟨h.toNodeCore.mono (by change m.nextId.toInt ≤ (m.nextId + 1).toInt; omega) hle, h.batch, h.visible,
    h.committed⟩

theorem NodeSim.counted (h : NodeSim s m nps es ps) (n : Int64) :
    NodeSim { s with store := { s.store with nextNodeId := n } } m nps es ps where
  total := h.total
  cached := h.cached
  home p hp := ⟨(h.home p hp).valid, (h.home p hp).apart, (h.home p hp).taken, (h.home p hp).uncached⟩
  disk := h.disk
  pageCache := h.pageCache
  unpacked := h.unpacked
  dirty := h.dirty
  idle := h.idle
  preferred := h.preferred
  tree := h.tree
  bound := h.bound
  fresh := h.fresh
  next_pos := h.next_pos
  next_le := h.next_le
  batch := h.batch
  visible := h.visible
  committed := h.committed

/-- A small record is stored under the next id; another is refused. -/
theorem NodeSim.insertNode (h : NodeSim s m nps es ps) (hnext : s.nextNodeId = m.nextId) (hbuilt : node.Built)
    (hn : (m.nextId + 1).toInt = m.nextId.toInt + 1) (hle : (m.nextId + 1).toInt ≤ 2 ^ 32) :
    StoreM.Finishes PagesExhausted (fun _ => NodeStore.insertNode node) s fun res s' =>
      (∃ nps' es' ps' m', NodeSim s' m' nps' es' ps' ∧ s'.nextNodeId = m'.nextId ∧
        NodeTable.Step m (.insert node) (.inserted res) m') ∧ ∀ e, res = .error e → ¬ e.Aborts := by
  set node' : NodeRecordV3 := { node with id := m.nextId } with hnode'
  set s' : NodeState := { s with store := { s.store with nextNodeId := m.nextId + 1 } } with hs'
  have h' : NodeSim s' m nps es ps := h.counted _
  have hrun : ∀ r t, NodeStore.insertLoop node' maxInsertAttempts s' = (r, t) →
      NodeStore.insertNode node s = (r, t) := by
    intro r t hloop
    have halloc : NodeStore.allocateNodeId s = (.ok m.nextId, s') := by
      rw [hs', ← hnext]
      rfl
    exact (StoreM.bind_ok _ halloc).trans hloop
  have hbuilt' := hbuilt.withId m.nextId
  rcases hbuilt'.small_or_huge with hsmall | hhuge
  · have hrec : NextRecord m node' := ⟨rfl, hsmall, hsmall.stored hbuilt', hbuilt'.exclusive, hn, hle⟩
    obtain ⟨bound, ⟨r, t⟩, hloop, hr⟩ := (h'.insertLoop hrec).keeps fun _ => NodeStore.insertLoop_keeps
    refine ⟨bound, (r, t), fun fuel hf => hrun r t (hloop fuel hf), ?_⟩
    rcases hr with hstop | ⟨id, rfl, ⟨rfl, nps', es', ps', hsim⟩, hcount⟩
    · exact .inl hstop
    · refine .inr ⟨⟨nps', es', ps', _, hsim, hcount, .inserted hsmall⟩, ?_⟩
      intro e he
      cases he
  · obtain ⟨reason, hest⟩ := @NodeRecordV3.estimate_huge node' 0 hhuge
    have hloop : NodeStore.insertLoop node' maxInsertAttempts s' =
        (.error (.invalidHeader "compressed_size" reason), s') := by
      refine StoreM.bind_error _ ?_
      change NodeStore.findOrCreatePageForNode node' s' = _
      unfold NodeStore.findOrCreatePageForNode NodeStore.estimateNodeSize
      rw [hest]
      rfl
    refine .of_run (hrun _ _ hloop) ⟨⟨nps, es, ps, _, h'.skipped hn hle, rfl, .refused fun hsmall => ?_⟩, ?_⟩
    · have hmax : maxInlineData.toNat = 64 := rfl
      have hlen : node.payload.length ≤ maxInlineData.toNat := hsmall
      have hlong : 65535 < node.payload.length := hhuge
      omega
    · intro e he habort
      cases he
      exact habort

end Insert

section Batch

/-- The staged pages dropped, and the mode set. -/
def NodeState.unstaged (s : NodeState) (batch : Bool) : NodeState :=
  { s with store := { s.store with dirtyPages := ∅, batchMode := batch } }

theorem NodeCore.unstage (h : NodeCore s next nps es ps) (batch : Bool) :
    NodeCore (s.unstaged batch) next nps es ps where
  total := h.total
  cached := h.cached
  home p hp := ⟨(h.home p hp).valid, (h.home p hp).apart, (h.home p hp).taken, (h.home p hp).uncached⟩
  disk := h.disk
  pageCache := h.pageCache
  unpacked := h.unpacked
  dirty p page hd := by cases hd
  idle := fun _ => rfl
  preferred := h.preferred
  tree := h.tree
  bound := h.bound
  fresh := h.fresh
  next_pos := h.next_pos
  next_le := h.next_le

/-- What was staged and not written is lost. -/
theorem NodeSim.unstage (h : NodeSim s m nps es ps) (batch : Bool) :
    NodeSim (s.unstaged batch) { m with visible := m.committed, batch } nps es ps where
  toNodeCore := h.toNodeCore.unstage batch
  batch := rfl
  visible id := by
    rw [records_idle (s := s.unstaged batch) rfl]
    exact h.committed id
  committed := h.committed

/-- Every page on the list written and cached. -/
theorem NodeCore.writeAll (h : NodeCore s next nps es ps) {l : List (Sigma fun _ : Nat => NodePage)}
    (hl : ∀ e ∈ l, e.1 ∈ nps ∧ e.2.Sound e.1 next) (hd : l.NodupKeys) :
    ∃ t, NodeStore.writeAll l s = (.ok (), t) ∧ NodeCore t next nps es ps ∧
      t.store.batchMode = s.store.batchMode ∧
      ∀ q ∈ nps, diskRecords t.disk.file q =
        ((List.dlookup q l).map NodePage.packedNodes).or (diskRecords s.disk.file q) := by
  induction l generalizing s with
  | nil => exact ⟨s, rfl, h, rfl, fun q _ => rfl⟩
  | cons e l ih =>
    obtain ⟨p, page⟩ := e
    obtain ⟨hp, hs⟩ := hl _ List.mem_cons_self
    obtain ⟨bytes, page', hpack, hlen, hu, hs', hback⟩ := hs.toKept.rewritten h.next_le (by
      rw [hs.used]
      exact hs.room)
    obtain ⟨hnew, hd'⟩ := List.nodupKeys_cons.mp hd
    obtain ⟨t, hrun, ht, hbatch, hdisk⟩ := ih (h.write hp hlen hu hs')
      (fun e he => hl e (List.mem_cons_of_mem _ he)) hd'
    refine ⟨t, ?_, ht, hbatch, ?_⟩
    · change (StoreM.ofExcept page.pack >>= fun bytes => _) s = _
      rw [hpack]
      exact hrun
    · intro q hq
      rw [hdisk q hq]
      obtain ⟨hput, hother⟩ := h.toNodePages.disk_written hp hlen hu
      by_cases he : q = p
      · subst he
        have hnone : List.dlookup q l = none := List.dlookup_eq_none.mpr hnew
        rw [hnone, List.dlookup_cons_eq, hput, hback]
        rfl
      · rw [hother q hq he, List.dlookup_cons_ne _ _ he]

theorem packAll_ok {l : List (Sigma fun _ : Nat => NodePage)} (hl : ∀ e ∈ l, e.2.Sound e.1 next) :
    NodeStore.packAll l s = (.ok (), s) := by
  induction l with
  | nil => rfl
  | cons e l ih =>
    obtain ⟨bytes, hpack, -⟩ := (hl e List.mem_cons_self).accounted.pack_ok
    change (StoreM.ofExcept e.2.pack >>= fun bytes => _) s = _
    rw [hpack]
    exact ih fun e he => hl e (List.mem_cons_of_mem _ he)

theorem NodeSim.visible_idle (h : NodeSim s m nps es ps) (hclean : s.store.dirtyPages = ∅) (id : Int64) :
    recordIn es (diskRecords s.disk.file) id = (m.visible id).map NodeRecordV3.packed := by
  rw [← records_idle hclean]
  exact h.visible id

/-- A commit writes what is staged, whatever the order. -/
theorem NodeSim.commitBatch (h : NodeSim s m nps es ps) :
    ∃ n t, NodeStore.commitBatch s = (.ok n, t) ∧ NodeSim t m.commitBatch nps es ps := by
  unfold NodeStore.commitBatch
  rw [StoreM.get_bind_run]
  cases hmode : s.store.batchMode with
  | false =>
    have hb : m.batch = false := h.batch.symm.trans hmode
    refine ⟨0, s, rfl, h.toNodeCore, hmode, h.visible, fun id => ?_⟩
    exact (h.committed id).trans (h.agrees hb id).symm
  | true =>
    by_cases hpos : 0 < s.store.dirtyPages.entries.length
    · set pages := drain s.store.choices s.store.dirtyPages.entries with hpages
      have hperm : pages.Perm s.store.dirtyPages.entries := drain_perm _ _
      have hdirty : ∀ e ∈ pages, e.1 ∈ nps ∧ e.2.Sound e.1 m.nextId := by
        intro e he
        exact h.dirty e.1 e.2 ((List.mem_dlookup_iff s.store.dirtyPages.nodupKeys).mpr (hperm.mem_iff.mp he))
      have hnodup : pages.NodupKeys := (List.perm_nodupKeys hperm).mpr s.store.dirtyPages.nodupKeys
      obtain ⟨t, hrun, ht, -, hdisk⟩ :=
        (h.hashOrder s.store.dirtyPages.entries).toNodeCore.writeAll hdirty hnodup
      have hpack : NodeStore.packAll pages (NodeStore.hashOrder s.store.dirtyPages.entries s).2 = (.ok (), _) :=
        packAll_ok fun e he => (hdirty e he).2
      have hrecords : ∀ q ∈ nps, diskRecords t.disk.file q = s.records q := by
        intro q hq
        rw [hdisk q hq, List.perm_dlookup q hnodup hperm, NodeState.records,
          NodeState.currentPage]
        change _ = Option.map _ ((List.dlookup q s.store.dirtyPages.entries).or _)
        cases List.dlookup q s.store.dirtyPages.entries <;> rfl
      refine ⟨s.store.dirtyPages.entries.length, t.unstaged false, ?_, ht.unstage false, rfl, fun id => ?_,
        fun id => ?_⟩
      · rw [if_pos rfl, if_pos hpos]
        exact (StoreM.bind_ok _ rfl).trans ((StoreM.bind_ok _ hpack).trans ((StoreM.bind_ok _ hrun).trans rfl))
      · rw [records_idle (s := t.unstaged false) rfl]
        exact (recordIn_congr h.bound hrecords id).trans (h.visible id)
      · exact (recordIn_congr h.bound hrecords id).trans (h.visible id)
    · have hnil : s.store.dirtyPages.entries = [] := List.length_eq_zero_iff.mp (Nat.eq_zero_of_not_pos hpos)
      have hclean : s.store.dirtyPages = ∅ := AList.ext hnil
      refine ⟨s.store.dirtyPages.entries.length, s.unstaged false, ?_, h.toNodeCore.unstage false, rfl,
        fun id => ?_, fun id => ?_⟩
      · rw [if_pos rfl, if_neg hpos, NodeState.unstaged, ← hclean]
        rfl
      · exact h.visible_idle hclean id
      · exact h.visible_idle hclean id

end Batch

end SqliteGraph.V3
