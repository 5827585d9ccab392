import SqliteGraph.V3.NodeSimulation

/-! Inserting into a node store: a page with room or a new one, a retry, and the id bound in the index. -/
namespace SqliteGraph.V3
open Lib

variable {s : NodeState} {m : NodeTable} {next : Int64} {nps ps ps' : List Nat}
  {es es' : List (Nat × Nat)} {t : BTreeManager TreeStore} {p q : Nat} {bytes : Bytes}
  {page page' : NodePage} {node : NodeRecordV3} {Stop : NativeBackendError → Prop}

section NewPage
variable {a : PageAllocator}

/-- A page just handed out is at home nowhere else. -/
theorem NodeCore.allocated (h : NodeCore s next nps es ps) (ha : s.disk.allocator.allocate = .ok (p, a)) :
    NodeHome { s with disk := { s.disk with allocator := a } } ps p ∧ p ∉ nps ∧ a.Wf ∧
      (∀ q, a.Free q → s.disk.allocator.Free q) ∧ a.totalPages ≤ isizeMax := by
  rcases PageAllocator.allocate_cases h.tree.inv.2 with he | ⟨p', a', ha', hfree, hwf, hfree', htotal⟩
  · cases ha.symm.trans he
  cases ha.symm.trans ha'
  refine ⟨⟨treeStoreLawful.free_valid h.tree.inv hfree, fun hm => h.tree.owned.taken p hm hfree,
    fun hf => ((hfree' p).mp hf).2 rfl, ?_⟩, fun hm => (h.home p hm).taken hfree, hwf,
    fun q hq => ((hfree' q).mp hq).1, htotal h.total⟩
  cases hc : s.store.btree.pageCache.get p with
  | none => rfl
  | some pg => exact (h.cached p pg hc hfree).elim

/-- The store with one more page, which is empty. -/
theorem NodeSim.newPage (h : NodeSim s m nps es ps) (ha : s.disk.allocator.allocate = .ok (p, a))
    (hlen : bytes.length = defaultPageSize) (hu : NodePage.unpack bytes = .ok page)
    (hs : page.Sound p m.nextId) :
    NodeSim { s with disk := ⟨s.disk.file.writeAt (NodeStore.pageOffset p) bytes, a⟩ } m (p :: nps) es
      ps := by
  obtain ⟨hhome, hnew, hwf, hfree, htotal⟩ := h.toNodeCore.allocated ha
  have hpos := hhome.valid.1
  have hne : ∀ q ∈ nps, q ≠ p := by
    rintro q hq rfl
    exact hnew hq
  have hbytes : ∀ q ∈ nps, ∀ old, nodePageBytes s.disk.file q = some old →
      nodePageBytes (s.disk.file.writeAt (NodeStore.pageOffset p) bytes) q = some old :=
    fun q hq old => nodePageBytes_write hpos (h.home q hq).valid.1 (hne q hq) hlen
  have hdisk : ∀ q ∈ nps, diskNodePage (s.disk.file.writeAt (NodeStore.pageOffset p) bytes) q =
      diskNodePage s.disk.file q := by
    intro q hq
    obtain ⟨old, hold, -⟩ := h.disk q hq
    obtain ⟨b, hb, hub⟩ := exists_unpack hold
    rw [hold, diskNodePage, hbytes q hq b hb, Option.bind_some, hub]
    rfl
  refine ⟨⟨⟨htotal, fun q pg hq hf => h.cached q pg hq (hfree q hf), ?_, ?_, ?_, ?_, ?_, h.idle, ?_⟩,
    ?_, fun key q hq => List.mem_cons_of_mem _ (h.bound key q hq), h.fresh, h.next_pos, h.next_le⟩,
    h.batch, ?_, ?_⟩
  · intro q hq
    rcases List.mem_cons.mp hq with rfl | hq
    · exact ⟨hhome.valid, hhome.apart, hhome.taken, hhome.uncached⟩
    · have hh := h.home q hq
      exact ⟨hh.valid, hh.apart, fun hf => hh.taken (hfree q hf), hh.uncached⟩
  · intro q hq
    rcases List.mem_cons.mp hq with rfl | hq
    · exact ⟨page, diskNodePage_of_unpack (s := { s with disk :=
        ⟨s.disk.file.writeAt (NodeStore.pageOffset q) bytes, a⟩ }) (nodePageBytes_write_self hpos hlen) hu,
        hs⟩
    · obtain ⟨old, hold, hsound⟩ := h.disk q hq
      exact ⟨old, (hdisk q hq).trans hold, hsound⟩
  · intro q b hq
    obtain ⟨hmem, hb⟩ := h.pageCache q b hq
    exact ⟨List.mem_cons_of_mem _ hmem, hbytes q hmem b hb⟩
  · intro q pg hq
    obtain ⟨hmem, hpg⟩ := h.unpacked q pg hq
    exact ⟨List.mem_cons_of_mem _ hmem, (hdisk q hmem).trans hpg⟩
  · intro q pg hq
    obtain ⟨hmem, hsound⟩ := h.dirty q pg hq
    exact ⟨List.mem_cons_of_mem _ hmem, hsound⟩
  · exact fun b l hl q hq => List.mem_cons_of_mem _ (h.preferred b l hl q hq)
  · have hw := h.tree.writeNodePage hhome.valid hhome.apart hhome.uncached hlen
    exact ⟨⟨hw.inv.1, hwf⟩, ⟨hw.owned.nodup, hw.owned.valid, fun q hq hf =>
      hw.owned.taken q hq (hfree q hf)⟩, hw.shape⟩
  · intro id
    refine (recordIn_congr h.bound (fun q hq => ?_) id).trans (h.visible id)
    rw [NodeState.records, NodeState.currentPage, hdisk q hq]
    rfl
  · intro id
    refine (recordIn_congr h.bound (fun q hq => ?_) id).trans (h.committed id)
    rw [diskRecords, hdisk q hq]
    rfl

/-- The image of an empty page, and the page that it is read as. -/
theorem empty_page (hp : p < 2 ^ 64) (hnext : next.toInt ≤ 2 ^ 32) : ∃ bytes page,
    (NodePage.new (.ofNat p)).pack = .ok bytes ∧ bytes.length = defaultPageSize ∧
      NodePage.unpack bytes = .ok page ∧ page.Sound p next ∧ page.nodes = [] := by
  have hs : (NodePage.new (.ofNat p)).Sound p next := NodePage.sound_new hp
  obtain ⟨bytes, page, hpack, hlen, hu, hs', hnodes⟩ := hs.toKept.written hnext (by
    rw [hs.used]
    exact hs.room)
  exact ⟨bytes, page, hpack, hlen, hu, hs', hnodes⟩

/-- The preferred pages may change as long as they are pages of the store. -/
theorem NodeSim.preferring (h : NodeSim s m nps es ps)
    {blockPreferredPages : AList (fun _ : Int64 => List Nat)}
    (hpref : ∀ b l, blockPreferredPages.lookup b = some l → ∀ p ∈ l, p ∈ nps) :
    NodeSim { s with store := { s.store with blockPreferredPages } } m nps es ps where
  total := h.total
  cached := h.cached
  home p hp := ⟨(h.home p hp).valid, (h.home p hp).apart, (h.home p hp).taken, (h.home p hp).uncached⟩
  disk := h.disk
  pageCache := h.pageCache
  unpacked := h.unpacked
  dirty := h.dirty
  idle := h.idle
  preferred := hpref
  tree := h.tree
  bound := h.bound
  fresh := h.fresh
  next_pos := h.next_pos
  next_le := h.next_le
  batch := h.batch
  visible := h.visible
  committed := h.committed

theorem NodeSim.associate (h : NodeSim s m nps es ps) (hp : p ∈ nps) (blockId : Int64) :
    NodeSim (NodeStore.associatePageWithBlock p blockId s).2 m nps es ps := by
  refine h.preferring ?_
  intro b l hl q hq
  by_cases hb : b = blockId
  · subst hb
    rw [AList.lookup_insert] at hl
    cases hl
    have hold : ∀ q ∈ (s.store.blockPreferredPages.lookup b).getD [], q ∈ nps := by
      intro q hq
      cases hlook : s.store.blockPreferredPages.lookup b with
      | none => rw [hlook] at hq; cases hq
      | some l =>
        rw [hlook] at hq
        exact h.preferred b l hlook q hq
    split at hq
    · exact hold q hq
    · rcases List.mem_append.mp (List.mem_of_mem_drop hq) with hq | hq
      · exact hold q hq
      · rw [List.mem_singleton.mp hq]
        exact hp
  · rw [AList.lookup_insert_ne hb] at hl
    exact h.preferred b l hl q hq

theorem allocatePage_cases (h : NodeCore s next nps es ps) :
    NodeStore.allocatePage s = (.error .capacityOverflow, s) ∨
      ∃ p a, s.disk.allocator.allocate = .ok (p, a) ∧
        NodeStore.allocatePage s = (.ok p, { s with disk := { s.disk with allocator := a } }) := by
  unfold NodeStore.allocatePage
  have hwf : s.disk.allocator.Wf := h.tree.inv.2
  rcases PageAllocator.allocate_cases hwf with he | ⟨p, a, ha, -⟩
  · rw [he]
    exact .inl rfl
  · rw [ha]
    exact .inr ⟨p, a, rfl, rfl⟩

theorem NodeSim.createPage (h : NodeSim s m nps es ps) (blockId : Int64) :
    StoreM.Settles PagesExhausted (fun _ => NodeStore.createPage blockId) s fun p s' =>
      NodeSim s' m (p :: nps) es ps := by
  rcases allocatePage_cases h.toNodeCore with he | ⟨p, a, ha, hrun⟩
  · exact .of_error (StoreM.bind_error _ he) rfl
  obtain ⟨hhome, hnew, -⟩ := h.toNodeCore.allocated ha
  have hlt : p < 2 ^ 64 := hhome.valid.lt
  obtain ⟨bytes, page, hpack, hlen, hu, hs, -⟩ := empty_page hlt h.next_le
  have h₁ := (h.newPage ha hlen hu hs).associate List.mem_cons_self blockId
  have hb : nodePageBytes (s.disk.file.writeAt (NodeStore.pageOffset p) bytes) p = some bytes :=
    nodePageBytes_write_self hhome.valid.1 hlen
  have h₂ := h₁.pageCacheInsert List.mem_cons_self hb
  refine .of_run (a := p) ?_ h₂
  refine (StoreM.bind_ok _ hrun).trans ?_
  unfold NodeStore.writeEmptyPage
  rw [hpack]
  rfl

theorem NodeSim.createRetryPage (h : NodeSim s m nps es ps) :
    StoreM.Settles PagesExhausted (fun _ => NodeStore.createRetryPage) s fun p s' =>
      NodeSim s' m (p :: nps) es ps ∧ ∃ page, s'.currentPage p = some page ∧ page.nodes = [] := by
  rcases allocatePage_cases h.toNodeCore with he | ⟨p, a, ha, hrun⟩
  · exact .of_error (StoreM.bind_error _ he) rfl
  obtain ⟨hhome, hnew, -⟩ := h.toNodeCore.allocated ha
  have hlt : p < 2 ^ 64 := hhome.valid.lt
  obtain ⟨bytes, page, hpack, hlen, hu, hs, hempty⟩ := empty_page hlt h.next_le
  have hb : nodePageBytes (s.disk.file.writeAt (NodeStore.pageOffset p) bytes) p = some bytes :=
    nodePageBytes_write_self hhome.valid.1 hlen
  refine .of_run (a := p) ?_ ⟨h.newPage ha hlen hu hs, page, ?_, hempty⟩
  · refine (StoreM.bind_ok _ hrun).trans ?_
    unfold NodeStore.writeEmptyPage
    rw [hpack]
    rfl
  · have hclean : s.store.dirtyPages.lookup p = none := by
      cases hd : s.store.dirtyPages.lookup p with
      | none => rfl
      | some pg => exact (hnew (h.dirty p pg hd).1).elim
    rw [NodeState.currentPage, hclean, Option.none_or, diskNodePage, hb, Option.bind_some, hu]
    rfl

end NewPage

section Find

theorem NodeSim.preferred_mem (h : NodeSim s m nps es ps) {blockId : Int64} {nodeSize : UInt16}
    (hp : s.store.preferredPage blockId nodeSize = some p) : p ∈ nps := by
  have hmem := List.mem_reverse.mp (List.mem_of_find?_eq_some hp)
  cases hl : s.store.blockPreferredPages.lookup blockId with
  | none => rw [hl] at hmem; cases hmem
  | some l =>
    rw [hl] at hmem
    exact h.preferred blockId l hl p hmem

/-- An entry that is met is one that the map has. -/
theorem lookup_of_find {β : Type} {l : AList (fun _ : Nat => β)} {choices : Nat → Nat}
    {f : Sigma (fun _ : Nat => β) → Bool} (h : ((drain choices l.entries).find? f).map Sigma.fst = some p) :
    ∃ b, l.lookup p = some b := by
  obtain ⟨e, he, rfl⟩ := Option.map_eq_some_iff.mp h
  have hmem := (drain_perm choices l.entries).mem_iff.mp (List.mem_of_find?_eq_some he)
  exact ⟨e.2, (List.mem_dlookup_iff l.nodupKeys).mpr hmem⟩

theorem NodeSim.findOrCreatePage (h : NodeSim s m nps es ps) (hsmall : node.Small) :
    StoreM.Settles PagesExhausted (fun _ => NodeStore.findOrCreatePageForNode node) s fun p s' =>
      ∃ nps', p ∈ nps' ∧ NodeSim s' m nps' es ps := by
  unfold NodeStore.findOrCreatePageForNode
  simp only [NodeStore.estimateNodeSize, hsmall.estimate]
  refine StoreM.Settles.bind (P := fun _ s' => s' = s) (.of_run rfl rfl) ?_
  rintro nodeSize s' hs'
  subst hs'
  refine StoreM.Settles.get_bind ?_
  cases hpref : s'.store.preferredPage (nodeIdToBlock node.id) nodeSize with
  | some p => exact .of_run (t := s') rfl ⟨nps, h.preferred_mem hpref, h⟩
  | none =>
    refine StoreM.Settles.bind (P := fun o s' => NodeSim s' m nps es ps ∧ ∀ p, o = some p → p ∈ nps)
      (.of_run rfl ⟨h.hashOrder s'.store.dirtyPages.entries, fun p hp => ?_⟩) ?_
    · obtain ⟨pg, hpg⟩ := lookup_of_find hp
      exact (h.dirty p pg hpg).1
    · rintro o s₁ ⟨h₁, ho⟩
      cases o with
      | some p => exact .of_run (t := s₁) rfl ⟨nps, ho p rfl, h₁⟩
      | none =>
        refine StoreM.Settles.bind (P := fun o s' => NodeSim s' m nps es ps ∧ ∀ p, o = some p → p ∈ nps)
          (.of_run rfl ⟨h₁.hashOrder s₁.store.pageCache.entries, fun p hp => ?_⟩) ?_
        · obtain ⟨b, hb⟩ := lookup_of_find hp
          exact (h₁.pageCache p b hb).1
        · rintro o s₂ ⟨h₂, ho₂⟩
          cases o with
          | some p => exact .of_run (t := s₂) rfl ⟨nps, ho₂ p rfl, h₂⟩
          | none => exact (h₂.createPage _).mono fun p s' h' => ⟨p :: nps, List.mem_cons_self, h'⟩

end Find

section Put

/-- Where a page shows what was put on it, and every other page what it did. -/
def Puts (records records' : Nat → Option (List NodeRecordV3)) (nps : List Nat) (p : Nat)
    (l : List NodeRecordV3) : Prop :=
  records' p = some l ∧ ∀ q ∈ nps, q ≠ p → records' q = records q

theorem NodeCore.mono {next' : Int64} (h : NodeCore s next nps es ps) (hn : next.toInt ≤ next'.toInt)
    (hle : next'.toInt ≤ 2 ^ 32) : NodeCore s next' nps es ps :=
  ⟨h.toNodePages.mono hn, h.tree, h.bound, fun id hid => h.fresh id (hn.trans hid),
    lt_of_lt_of_le h.next_pos hn, hle⟩

theorem NodeCore.write (h : NodeCore s next nps es ps) (hp : p ∈ nps)
    (hlen : bytes.length = defaultPageSize) (hu : NodePage.unpack bytes = .ok page)
    (hs : page.Sound p next) : NodeCore (s.written p bytes) next nps es ps :=
  have hh := h.home p hp
  ⟨h.toNodePages.write hp hlen hu hs, h.tree.writeNodePage hh.valid hh.apart hh.uncached hlen, h.bound,
    h.fresh, h.next_pos, h.next_le⟩

theorem NodeCore.stage (h : NodeCore s next nps es ps) (hp : p ∈ nps) (hs : page.Sound p next)
    (hbatch : s.store.batchMode = true) : NodeCore (s.staged page) next nps es ps :=
  ⟨h.toNodePages.stage hp hs hbatch, h.tree, h.bound, h.fresh, h.next_pos, h.next_le⟩

theorem NodePages.disk_written (h : NodePages s next nps ps) (hp : p ∈ nps)
    (hlen : bytes.length = defaultPageSize) (hu : NodePage.unpack bytes = .ok page) :
    Puts (diskRecords s.disk.file) (diskRecords (s.written p bytes).disk.file) nps p page.packedNodes := by
  have hpos := (h.home p hp).valid.1
  refine ⟨?_, fun q hq hne => ?_⟩
  · rw [diskRecords, diskNodePage_of_unpack (nodePageBytes_write_self hpos hlen) hu]
    rfl
  · obtain ⟨old, hold, -⟩ := h.disk q hq
    obtain ⟨b, hb, hub⟩ := exists_unpack hold
    have hwritten := nodePageBytes_write hpos (h.home q hq).valid.1 hne hlen hb
    have hpage : diskNodePage (s.written p bytes).disk.file q = some old :=
      diskNodePage_of_unpack hwritten hub
    rw [diskRecords, diskRecords, hold, hpage]

theorem records_idle (h : s.store.dirtyPages = ∅) : s.records = diskRecords s.disk.file := by
  funext q
  rw [NodeState.records, NodeState.currentPage, h]
  rfl

theorem NodePages.records_staged (hs : page.pageId.toNat = p) :
    Puts s.records (s.staged page).records nps p page.packedNodes := by
  refine ⟨?_, fun q _ hne => ?_⟩
  · rw [NodeState.records, NodeState.currentPage, NodeState.staged, hs, AList.lookup_insert]
    rfl
  · rw [NodeState.records, NodeState.currentPage, NodeState.staged, hs, AList.lookup_insert_ne hne]
    rfl

/-- The state after the bytes of a page have been written, and not cached yet. -/
def NodeState.onFile (s : NodeState) (p : Nat) (bytes : Bytes) : NodeState :=
  { s with disk := { s.disk with file := s.disk.file.writeAt (NodeStore.pageOffset p) bytes } }

/-- The index does not see the caches. -/
theorem onIndex_onFile {α : Type} {x : BTreeM TreeStore α} {r : Except NativeBackendError α}
    (h : NodeStore.onIndex x (s.written p bytes) = (r, (s.written p bytes).withManager t)) :
    NodeStore.onIndex x (s.onFile p bytes) = (r, (s.onFile p bytes).withManager t) := by
  have hres : (x (s.onFile p bytes).manager).1 = r := congrArg Prod.fst h
  have hstate : (x (s.onFile p bytes).manager).2 = t := congrArg (fun r => r.2.manager) h
  exact Prod.ext hres (congrArg (s.onFile p bytes).withManager hstate)

/-- The id of a record on a page bound in the index. -/
theorem NodeCore.bind_index (h : NodeCore s next nps es ps) (hp : p ∈ nps) {id : Int64}
    (hid : 0 < id.toInt ∧ id.toInt < next.toInt) :
    ∃ t ps' es', (NodeStore.onIndex (BTreeManager.insert treeStore false maxTreeHeight id p) s =
        (.error .capacityOverflow, s.withManager t)) ∨
      NodeStore.onIndex (BTreeManager.insert treeStore false maxTreeHeight id p) s =
        (.ok (), s.withManager t) ∧ es' = upsert (searchKey id) p es ∧
      NodeCore (s.withManager t) next nps es' ps' ∧
      (∀ q ∈ nps, (s.withManager t).records q = s.records q) ∧
      ∀ q ∈ nps, diskRecords (s.withManager t).disk.file q = diskRecords s.disk.file q := by
  obtain ⟨res, t, es', ps', hrun, hi, hg, hout⟩ := insert_run false id h.tree (h.home p hp).valid.lt
    (le_refl maxTreeHeight)
  have hrec := fun q hq => h.toNodePages.index_records (t := t) (p := q) hg hq
  refine ⟨t, ps', es', ?_⟩
  rcases hout with ⟨rfl, rfl⟩ | ⟨e, rfl, -, he | ⟨hdbg, -⟩⟩
  · refine .inr ⟨?_, rfl, h.index hi hg ?_ ?_, fun q hq => (hrec q hq).1, fun q hq => (hrec q hq).2⟩
    · simp only [NodeStore.onIndex, hrun]
    · intro key q hq
      rw [lookup_upsert h.tree.sorted] at hq
      split at hq
      · cases hq
        exact hp
      · exact h.bound key q hq
    · intro id' hid'
      rw [lookup_upsert h.tree.sorted, if_neg, h.fresh id' hid']
      intro heq
      rw [searchKey_inj.mp heq] at hid'
      omega
  · have hcap : e = .capacityOverflow := he
    subst hcap
    exact .inl (by simp only [NodeStore.onIndex, hrun])
  · cases hdbg

/-- A record that the store hands the next id. -/
structure NextRecord (m : NodeTable) (node : NodeRecordV3) : Prop where
  id : node.id = m.nextId
  small : node.Small
  stored : node.Stored
  exclusive : node.Exclusive
  next : (m.nextId + 1).toInt = m.nextId.toInt + 1
  le : (m.nextId + 1).toInt ≤ 2 ^ 32

theorem visible_write (f : Int64 → Option NodeRecordV3) (id : Int64) (r : Option NodeRecordV3)
    (id' : Int64) : (Function.update f id r id').map NodeRecordV3.packed =
      if id' = id then r.map NodeRecordV3.packed else (f id').map NodeRecordV3.packed := by
  rw [Function.update_apply]
  split <;> rfl

theorem NextRecord.ne (hn : NextRecord m node) (hs : page.Sound p m.nextId) :
    ∀ r ∈ page.packedNodes, r.id ≠ node.id := by
  rintro r hr heq
  obtain ⟨r', hr', rfl⟩ := List.mem_map.mp hr
  have hlt := (hs.range r' hr').2
  rw [NodeRecordV3.packed_id, hn.id] at heq
  rw [heq] at hlt
  omega

theorem NodeSim.unbound (h : NodeSim s m nps es ps) (hn : NextRecord m node) :
    es.lookup (searchKey node.id) = none := by
  rw [hn.id]
  exact h.fresh m.nextId (le_refl _)

/-- Outside a batch what is visible is committed. -/
theorem NodeSim.agrees (h : NodeSim s m nps es ps) (hb : m.batch = false) (id : Int64) :
    (m.visible id).map NodeRecordV3.packed = (m.committed id).map NodeRecordV3.packed := by
  rw [← h.visible id, ← h.committed id, records_idle (h.idle (h.batch.trans hb))]

/-- Once the next record stands on a page and its id is bound, it is visible. -/
theorem NodeSim.shown (h : NodeSim s m nps es ps) (hn : NextRecord m node) (hp : p ∈ nps)
    (hcurrent : s.currentPage p = some page) (hnodes : page'.nodes = page.nodes ++ [node])
    {records' : Nat → Option (List NodeRecordV3)}
    (hput : Puts s.records records' nps p page'.packedNodes) (id : Int64) :
    recordIn (upsert (searchKey node.id) p es) records' id =
      ((m.write node.id (some node)).visible id).map NodeRecordV3.packed := by
  obtain ⟨page₀, hcurrent₀, hsound⟩ := h.toNodePages.current hp
  cases hcurrent.symm.trans hcurrent₀
  have hpacked : page'.packedNodes = page.packedNodes ++ [node.packed] := by
    rw [NodePage.packedNodes, hnodes, List.map_append]
    rfl
  have hrecords : s.records p = some page.packedNodes := by
    rw [NodeState.records, hcurrent]
    rfl
  have hafter : records' p = some (page.packedNodes ++ [node.packed]) := hpacked ▸ hput.1
  refine (recordIn_upsert h.tree.sorted h.bound hrecords hafter hput.2 (hn.ne hsound) id).trans ?_
  rw [h.visible id]
  exact (visible_write m.visible node.id (some node) id).symm

section Commit
variable (h : NodeSim s m nps es ps) (hn : NextRecord m node) (hp : p ∈ nps)
  (hcurrent : s.currentPage p = some page) (hs' : page'.Sound p (m.nextId + 1))
  (hnodes : page'.nodes = page.nodes ++ [node])
include h hn hp hcurrent hs' hnodes

theorem NodeSim.commitInsertion_batch (hb : m.batch = true) :
    StoreM.Settles PagesExhausted (fun _ => NodeStore.commitInsertion node.id p page') s fun _ s' =>
      ∃ es' ps', NodeSim s' (m.write node.id (some node)).skipId nps es' ps' := by
  have hmode : s.store.batchMode = true := h.batch.trans hb
  have hnext := hn.next
  have hpos := h.next_pos
  have hrange : 0 < node.id.toInt ∧ node.id.toInt < (m.nextId + 1).toInt := by
    rw [hn.id]
    omega
  have hwrite : NodeStore.writeNodePage page' s = (.ok (), s.staged page') := by
    unfold NodeStore.writeNodePage
    rw [StoreM.get_bind_run, hmode]
    rfl
  have hput : Puts s.records (s.staged page').records nps p page'.packedNodes :=
    NodePages.records_staged hs'.pageId
  have h₁ := (h.toNodeCore.mono (by omega) hn.le).stage hp hs' hmode
  obtain ⟨t, ps', es', herr | ⟨hrun, rfl, h₂, hrec, hdisk⟩⟩ := h₁.bind_index hp hrange
  · exact .of_error ((StoreM.bind_ok _ hwrite).trans (StoreM.bind_error _ herr)) rfl
  refine .of_run (a := ()) (t := (s.staged page').withManager t) ?_ ⟨_, ps', h₂, h.batch, ?_, ?_⟩
  · refine (StoreM.bind_ok _ hwrite).trans ((StoreM.bind_ok _ hrun).trans ?_)
    rw [StoreM.get_bind_run]
    exact congrFun (if_pos hmode) _
  · intro id
    rw [recordIn_congr h₂.bound hrec]
    exact h.shown hn hp hcurrent hnodes hput id
  · intro id
    obtain ⟨pg, hpg, hpgs⟩ := h.disk p hp
    have hdiskp : diskRecords s.disk.file p = some pg.packedNodes := by rw [diskRecords, hpg]; rfl
    rw [recordIn_congr h₂.bound hdisk]
    refine (recordIn_upsert_absent h.tree.sorted (h.unbound hn) hdiskp (hn.ne hpgs) id).trans ?_
    rw [h.committed id, NodeTable.skipId, NodeTable.write, hb]
    rfl

theorem NodeSim.commitInsertion_immediate (hb : m.batch = false) :
    StoreM.Settles PagesExhausted (fun _ => NodeStore.commitInsertion node.id p page') s fun _ s' =>
      ∃ es' ps', NodeSim s' (m.write node.id (some node)).skipId nps es' ps' := by
  have hmode : s.store.batchMode = false := h.batch.trans hb
  have hidle := h.idle hmode
  have hnext := hn.next
  have hpos := h.next_pos
  have hcore := h.toNodeCore.mono (by omega) hn.le
  have hrange : 0 < node.id.toInt ∧ node.id.toInt < (m.nextId + 1).toInt := by
    rw [hn.id]
    omega
  obtain ⟨bytes, page'', hpack, hlen, hu, hs'', hback⟩ := hs'.toKept.written hn.le
    (by rw [hs'.used]; exact hs'.room)
  have hsame : page''.packedNodes = page'.packedNodes := by
    rw [NodePage.packedNodes, hback, List.map_map]
    exact List.map_congr_left fun r _ => NodeRecordV3.packed_packed
  have hput : Puts s.records (s.written p bytes).records nps p page'.packedNodes := by
    rw [records_idle hidle, records_idle (s := s.written p bytes) hidle, ← hsame]
    exact hcore.toNodePages.disk_written hp hlen hu
  have hwrite : NodeStore.writeNodePage page' s = (.ok (), s.onFile p bytes) := by
    unfold NodeStore.writeNodePage
    rw [StoreM.get_bind_run, hmode, hpack, hs'.pageId]
    rfl
  obtain ⟨t, ps', es', herr | ⟨hrun, rfl, h₂, hrec, hdisk⟩⟩ :=
    (hcore.write hp hlen hu hs'').bind_index hp hrange
  · exact .of_error ((StoreM.bind_ok _ hwrite).trans (StoreM.bind_error _ (onIndex_onFile herr))) rfl
  have hshown := fun id => h.shown hn hp hcurrent hnodes hput id
  refine .of_run (a := ()) (t := (s.written p bytes).withManager t) ?_ ⟨_, ps', h₂, h.batch, ?_, ?_⟩
  · refine (StoreM.bind_ok _ hwrite).trans ((StoreM.bind_ok _ (onIndex_onFile hrun)).trans ?_)
    have hmode' : ¬ ((s.onFile p bytes).withManager t).store.batchMode = true := by
      change ¬ s.store.batchMode = true
      rw [hmode]
      exact Bool.false_ne_true
    rw [StoreM.get_bind_run, if_neg hmode', hpack]
    rfl
  · intro id
    rw [recordIn_congr h₂.bound hrec]
    exact hshown id
  · intro id
    rw [recordIn_congr h₂.bound hdisk, ← records_idle (s := s.written p bytes) hidle]
    refine (hshown id).trans ?_
    rw [NodeTable.skipId, NodeTable.write, hb]
    simp only [Bool.false_eq_true, if_false]
    rw [visible_write, visible_write, h.agrees hb id]

/-- A page that has taken the next record is written or staged, and its id bound. -/
theorem NodeSim.commitInsertion :
    StoreM.Settles PagesExhausted (fun _ => NodeStore.commitInsertion node.id p page') s fun _ s' =>
      ∃ es' ps', NodeSim s' (m.write node.id (some node)).skipId nps es' ps' := by
  cases hb : m.batch with
  | true => exact h.commitInsertion_batch hn hp hcurrent hs' hnodes hb
  | false => exact h.commitInsertion_immediate hn hp hcurrent hs' hnodes hb

end Commit

end Put

section Insert

/-- An attempt on a page of the store: the record is put there, or the page has no room and the loop
goes on. -/
theorem NodeSim.attempt (h : NodeSim s m nps es ps) (hn : NextRecord m node) (hp : p ∈ nps)
    {left : Nat} {retry : NodeM Int64}
    (hfull : ∀ s' page reason page', NodeSim s' m nps es ps → s.currentPage p = some page →
      page.addNode node = (.error (.invalidHeader "node_page" reason), page') →
      0 < left ∧ StoreM.Settles PagesExhausted (fun _ => retry) s' fun id s' => id = node.id ∧
        ∃ nps' es' ps', NodeSim s' (m.write node.id (some node)).skipId nps' es' ps') :
    StoreM.Settles PagesExhausted (fun _ => NodeStore.loadNodePage p >>= fun page =>
      NodeStore.afterAttempt node.id left retry p (page.addNode node)) s fun id s' => id = node.id ∧
        ∃ nps' es' ps', NodeSim s' (m.write node.id (some node)).skipId nps' es' ps' := by
  refine (h.loadNodePage hp).bind ?_
  rintro page s₁ ⟨hcurrent, hsound, h₁, hdirty, hdisk⟩
  have hcurrent₁ : s₁.currentPage p = some page := by
    rw [NodeState.currentPage, hdirty, hdisk]
    exact hcurrent
  rcases page.addNode_small hn.small with ⟨page', hadd⟩ | ⟨reason, page', hadd⟩
  · have hlt : m.nextId.toInt < (m.nextId + 1).toInt := by
      rw [hn.next]
      exact Int.lt_succ _
    obtain ⟨hs', hnodes⟩ := hsound.addNode hn.stored hn.exclusive hn.id h.next_pos hlt hadd
    rw [hadd]
    refine (h₁.commitInsertion hn hp hcurrent₁ hs' hnodes).bind ?_
    rintro - s₂ ⟨es', ps', h₂⟩
    exact .of_run (a := node.id) (t := s₂) rfl ⟨rfl, nps, es', ps', h₂⟩
  · obtain ⟨hleft, hretry⟩ := hfull s₁ page reason page' h₁ hcurrent hadd
    rw [hadd]
    simp only [NodeStore.afterAttempt, hleft, and_self, if_true]
    exact hretry

/-- A page just made is empty, so the second attempt is the last. -/
theorem NodeSim.insertLoop_two (h : NodeSim s m nps es ps) (hn : NextRecord m node) :
    StoreM.Settles PagesExhausted (fun _ => NodeStore.insertLoop node 2) s fun id s' =>
      id = node.id ∧ ∃ nps' es' ps', NodeSim s' (m.write node.id (some node)).skipId nps' es' ps' := by
  refine h.createRetryPage.bind ?_
  rintro p s₁ ⟨h₁, page, hcurrent, hempty⟩
  refine h₁.attempt hn List.mem_cons_self ?_
  intro s₂ page₀ reason page' _ hcurrent₀ hadd
  cases hcurrent.symm.trans hcurrent₀
  obtain ⟨page₁, hpage₁, hsound⟩ := h₁.toNodePages.current List.mem_cons_self
  cases hcurrent.symm.trans hpage₁
  obtain ⟨page'', hok⟩ := NodePage.addNode_empty hsound.accounted hempty hn.small hn.exclusive
  cases hok.symm.trans hadd

/-- The first attempt finds a page that may be full after all. -/
theorem NodeSim.insertLoop (h : NodeSim s m nps es ps) (hn : NextRecord m node) :
    StoreM.Settles PagesExhausted (fun _ => NodeStore.insertLoop node maxInsertAttempts) s fun id s' =>
      id = node.id ∧ ∃ nps' es' ps', NodeSim s' (m.write node.id (some node)).skipId nps' es' ps' := by
  refine (h.findOrCreatePage hn.small).bind ?_
  rintro p s₁ ⟨nps₁, hp, h₁⟩
  refine h₁.attempt hn hp ?_
  intro s₂ page reason page' h₂ _ _
  exact ⟨by decide, h₂.insertLoop_two hn⟩

end Insert

end SqliteGraph.V3
