import SqliteGraph.Lib.Settles
import SqliteGraph.V3.EdgeTable

/-! The edge store on its pages does what the edge table does. -/
namespace SqliteGraph.V3
open Lib

/-- An association list as a function, and its update. -/
theorem lookup_insert_eq_update {α β : Type} [DecidableEq α] (l : AList (fun _ : α => β)) (a : α)
    (b : β) (a' : α) :
    (l.insert a b).lookup a' = Function.update (fun a => l.lookup a) a (some b) a' := by
  by_cases h : a' = a
  · subst h
    rw [AList.lookup_insert, Function.update_self]
  · rw [AList.lookup_insert_ne h, Function.update_of_ne h]

section Tree
variable {t : BTreeManager TreeStore} {es : List (Nat × Nat)} {ps : List Nat} {off p : Nat}
  {data : Bytes}

/-- A write that misses the tree's pages and the cached ones leaves the tree as it is. -/
theorem TreeInv.writeAt (hi : TreeInv treeStoreLawful t es ps)
    (hd : ∀ q, 0 < q → q ∈ ps ∨ (∃ page, t.store.cache.get q = some page) →
      pageOffset defaultPageSize q + defaultPageSize ≤ off ∨
        off + data.length ≤ pageOffset defaultPageSize q) :
    TreeInv treeStoreLawful
      { t with store := { t.store with file := t.store.file.writeAt off data } } es ps where
  inv := by
    refine ⟨fun q page hq => ?_, hi.inv.2⟩
    exact diskPage_writeAt_of_disjoint (hi.inv.1 q page hq) fun hpos => hd q hpos (.inr ⟨page, hq⟩)
  owned := ⟨hi.owned.nodup, hi.owned.valid, hi.owned.taken⟩
  shape := by
    rcases hi.shape with hempty | ⟨h, first, hheight, hs⟩
    · exact .inl hempty
    · refine .inr ⟨h, first, hheight, hs.frame ?_⟩
      intro q hq page hv
      exact diskPage_writeAt_of_disjoint hv fun hpos => hd q hpos (.inl hq)

/-- The same tree under an allocator that hands out no more, with nothing cached. -/
theorem TreeInv.reopened (hi : TreeInv treeStoreLawful t es ps) {allocator : PageAllocator}
    {capacity : Nat} {choices : Nat → Nat} (hw : allocator.Wf)
    (hfree : ∀ q, allocator.Free q → t.store.allocator.Free q) :
    TreeInv treeStoreLawful
      { t with store := ⟨t.store.file, allocator, .new capacity choices⟩ } es ps where
  inv := ⟨by simp [TreeStore.Coherent], hw⟩
  owned := ⟨hi.owned.nodup, hi.owned.valid, fun q hq hf => hi.owned.taken q hq (hfree q hf)⟩
  shape := hi.shape

end Tree

/-- The image of a cluster starts the page. -/
def OnPage (file : ByteFile) (p : Nat) (c : V3EdgeCluster) : Prop :=
  pageOffset defaultPageSize p + c.serialize.length ≤ file.len ∧
    file.bytesAt (pageOffset defaultPageSize p) c.serialize.length = c.serialize

theorem OnPage.of_bytes {file file' : ByteFile} {p : Nat} {c : V3EdgeCluster}
    (h : OnPage file p c) (hlen : file.len ≤ file'.len)
    (hb : ∀ i, pageOffset defaultPageSize p ≤ i →
      i < pageOffset defaultPageSize p + c.serialize.length → file'.byte i = file.byte i) :
    OnPage file' p c := by
  refine ⟨h.1.trans hlen, ?_⟩
  rw [ByteFile.bytesAt_congr hb]
  exact h.2

/-- The cluster of a pair on its page. -/
def clusterOf (k : EdgeKey) (p : Nat) (edges : List EdgeItem) : V3EdgeCluster :=
  .accumulate k.1 k.2 p edges

/-- A pair with edges, pending or stored. -/
def EdgeTable.Known (m : EdgeTable) (k : EdgeKey) : Prop := m.pending k ≠ none ∨ m.stored k ≠ none

/-- A page that belongs to a cluster: not the index's, and not to be handed out. -/
structure ClusterPage (s : EdgeState) (ps : List Nat) (p : Nat) : Prop where
  valid : ValidPage p
  apart : p ∉ ps
  taken : ¬ s.disk.allocator.Free p
  uncached : s.store.btree.pageCache.get p = none

/-- Every pair with edges has a page of its own, which holds the cluster once that is stored. -/
structure EdgePages (s : EdgeState) (m : EdgeTable) (page : EdgeKey → Nat) (ps : List Nat) :
    Prop where
  total : s.disk.allocator.totalPages ≤ isizeMax
  size : s.store.io.pageSize = defaultPageSize
  pages : ∀ k, m.Known k → ClusterPage s ps (page k)
  inj : ∀ k k', m.Known k → m.Known k' → page k = page k' → k = k'
  cached : ∀ q p, s.store.btree.pageCache.get q = some p → ¬ s.disk.allocator.Free q
  stored : ∀ k edges, m.stored k = some edges →
    V3EdgeCluster.imageSize edges ≤ defaultPageSize ∧
      OnPage s.disk.file (page k) (clusterOf k (page k) edges)
  pending : ∀ k edges, m.pending k = some edges →
    V3EdgeCluster.imageSize edges ≤ defaultPageSize
  keys : ∀ k, m.Known k → k ∈ m.keys
  distinct : ∀ k ∈ m.keys, ∀ k' ∈ m.keys, edgeKey k.1 k.2 = edgeKey k'.1 k'.2 → k = k'

/-- Besides, the index is a tree of the pages `ps` that binds the stored pairs and nothing else. -/
structure EdgeCore (s : EdgeState) (m : EdgeTable) (page : EdgeKey → Nat)
    (es : List (Nat × Nat)) (ps : List Nat) : Prop extends EdgePages s m page ps where
  tree : TreeInv treeStoreLawful s.manager es ps
  bound : ∀ k, m.stored k ≠ none → es.lookup (searchKey (edgeKey k.1 k.2)) = some (page k)
  source : ∀ key p, es.lookup (searchKey key) = some p →
    ∃ k, m.stored k ≠ none ∧ edgeKey k.1 k.2 = key

section Core
variable {s : EdgeState} {m : EdgeTable} {page : EdgeKey → Nat} {es es' : List (Nat × Nat)}
  {ps ps' : List Nat} {t : BTreeManager TreeStore} {k : EdgeKey} {Stop : NativeBackendError → Prop}

theorem length_clusterOf {p : Nat} {edges : List EdgeItem} :
    (clusterOf k p edges).serialize.length = V3EdgeCluster.imageSize edges :=
  V3EdgeCluster.length_serialize_accumulate

/-- Where the tree works, no cluster page is: what it leaves behind for them is what it found. -/
theorem EdgePages.index_pages (h : EdgePages s m page ps)
    (hg : Grows treeStoreLawful ps ps' s.manager.store t.store) (hk : m.Known k) :
    ClusterPage (s.withManager t) ps' (page k) := by
  have hp := h.pages k hk
  have hframe := TreeStore.uses_frame hg.uses
  refine ⟨hp.valid, ?_, fun hf => hp.taken (hg.free _ hf), ?_⟩
  · intro hmem
    rcases hg.new _ hmem with hmem | hf
    · exact hp.apart hmem
    · exact hp.taken hf
  · cases hc : t.store.cache.get (page k) with
    | none => exact hc
    | some pg =>
      rcases hframe.cached _ pg hc with ⟨pg', hc'⟩ | ⟨hmem | hf, -⟩
      · cases hp.uncached.symm.trans hc'
      · exact (hp.apart hmem).elim
      · exact (hp.taken hf).elim

/-- The index may grow; the clusters stay where they are. -/
theorem EdgePages.index (h : EdgePages s m page ps) (hw : s.disk.allocator.Wf)
    (hg : Grows treeStoreLawful ps ps' s.manager.store t.store) :
    EdgePages (s.withManager t) m page ps' where
  total := ((TreeStore.uses_frame hg.uses).allocator hw h.total).2
  size := h.size
  pages k hk := h.index_pages hg hk
  inj := h.inj
  cached q p hq hf := by
    rcases (TreeStore.uses_frame hg.uses).cached q p hq with ⟨p', hq'⟩ | ⟨-, hnf⟩
    · exact h.cached q p' hq' (hg.free q hf)
    · exact hnf hf
  stored k edges hk := by
    obtain ⟨hsize, hon⟩ := h.stored k edges hk
    have hp := h.pages k (.inr (by simp [hk]))
    have hframe := TreeStore.uses_frame hg.uses
    refine ⟨hsize, hon.of_bytes hframe.len ?_⟩
    intro i hlo hhi
    refine hframe.byte i (lt_of_lt_of_le hhi hon.1) ?_
    rintro q hq ⟨hmem, -⟩
    have hne : q ≠ page k := by
      rintro rfl
      rcases hmem with hmem | hf
      · exact hp.apart hmem
      · exact hp.taken hf
    have := pageOffset_disjoint defaultPageSize hq hp.valid.1 hne
    rw [length_clusterOf] at hhi
    omega
  pending := h.pending
  keys := h.keys
  distinct := h.distinct

/-- Only the disk, the index and the clusters' tables matter. -/
theorem EdgeCore.congr {s' : EdgeState} {m' : EdgeTable} (h : EdgeCore s m page es ps)
    (hd : s'.disk = s.disk) (hb : s'.store.btree = s.store.btree)
    (hio : s'.store.io = s.store.io) (hp : m'.pending = m.pending) (hs : m'.stored = m.stored)
    (hk : m'.keys = m.keys) : EdgeCore s' m' page es ps := by
  obtain ⟨disk, sidecar, btree, cache, dirty, io, choices⟩ := s
  obtain ⟨disk', sidecar', btree', cache', dirty', io', choices'⟩ := s'
  obtain ⟨cached, pending, stored, keys⟩ := m
  obtain ⟨cached', pending', stored', keys'⟩ := m'
  subst hd hb hio hp hs hk
  refine ⟨⟨h.total, h.size, fun k hk => ?_, h.inj, h.cached, h.stored, h.pending, h.keys,
    h.distinct⟩, h.tree, h.bound, h.source⟩
  obtain ⟨hvalid, hapart, htaken, huncached⟩ := h.pages k hk
  exact ⟨hvalid, hapart, htaken, huncached⟩

/-- What a session that opens the files again makes of the index. -/
def Restorable (s : EdgeState) : Prop :=
  V3EdgeStore.recoverBtreeMetadata s.sidecar =
      some (s.store.btree.rootPageId, s.store.btree.treeHeight) ∨
    s.sidecar = none ∧ s.manager.isEmpty = true

/-- The store's tables are those of `m`, the pages of clusters being given by `page`. -/
structure EdgeSim (s : EdgeState) (m : EdgeTable) (page : EdgeKey → Nat)
    (es : List (Nat × Nat)) (ps : List Nat) : Prop where
  core : EdgeCore s m page es ps
  cache : ∀ k, s.store.cache.lookup k = m.cached k
  dirty : ∀ k, s.store.dirtyClusters.lookup k = (m.pending k).map (clusterOf k (page k))
  sidecar : Restorable s

/-- The store's tables are those of `m`. -/
def Holds (s : EdgeState) (m : EdgeTable) : Prop := ∃ page es ps, EdgeSim s m page es ps

/-- Nothing but running out of page ids stops an operation. -/
def PagesExhausted (e : NativeBackendError) : Prop := e = .capacityOverflow

theorem EdgeCore.lookup_none (h : EdgeCore s m page es ps) (hk : m.Apart k)
    (hnone : m.stored k = none) : es.lookup (searchKey (edgeKey k.1 k.2)) = none := by
  cases hl : es.lookup (searchKey (edgeKey k.1 k.2)) with
  | none => rfl
  | some p =>
    obtain ⟨k', hk', hkey⟩ := h.source _ p hl
    obtain rfl := hk k' (h.keys k' (.inr hk')) hkey
    exact (hk' hnone).elim

/-- The index lookup, which only reads. -/
theorem EdgeSim.lookupPage (h : EdgeSim s m page es ps) (src : Int64) (dir : Direction) :
    StoreM.Settles Stop (fun fuel => V3EdgeStore.lookupPage fuel src dir) s
      fun r s' => r = .ok (es.lookup (searchKey (edgeKey src dir))) ∧ EdgeSim s' m page es ps ∧
        s'.store.io = s.store.io := by
  obtain ⟨bound, st, hr, hrun⟩ := lookup_stable (edgeKey src dir) h.core.tree
  have hg := hr.grows h.core.tree.owned fun _ hq => hq
  have hi : TreeInv treeStoreLawful { s.manager with store := st } es ps := by
    refine ⟨hg.inv, hg.owned, ?_⟩
    rcases h.core.tree.shape with hempty | ⟨n, first, hn, hs⟩
    · exact .inl hempty
    · exact .inr ⟨n, first, hn, hr.view.symm ▸ hs⟩
  refine .of_stable (n := bound) (a := .ok (es.lookup (searchKey (edgeKey src dir))))
    (t := s.withManager { s.manager with store := st }) ?_ ⟨rfl, ⟨?_, h.cache, h.dirty, ?_⟩, rfl⟩
  · intro fuel hf
    simp only [V3EdgeStore.lookupPage, V3EdgeStore.attemptIndex, V3EdgeStore.onIndex, hrun fuel hf]
  · exact ⟨h.core.index h.core.tree.inv.2 hg, hi, h.core.bound, h.core.source⟩
  · exact h.sidecar

theorem EdgeCore.loadNeighbors (h : EdgeCore s m page es ps) {edges : List EdgeItem}
    (hk : m.stored k = some edges) :
    s.store.io.loadNeighbors s.disk.file (page k) = edges.map Prod.fst := by
  obtain ⟨hsize, hlen, hbytes⟩ := h.stored k edges hk
  have hp := (h.pages k (.inr (by simp [hk]))).valid.1
  have hfits : (clusterOf k (page k) edges).Fits :=
    V3EdgeCluster.accumulate_fits (lt_of_le_of_lt hsize (by decide))
  have hdsts : (clusterOf k (page k) edges).dsts = edges.map Prod.fst :=
    V3EdgeCluster.dsts_accumulate
  rw [← hdsts]
  refine EdgePageIO.loadNeighbors_of_prefix hfits hp ?_ ?_ ?_
  · rw [length_clusterOf, h.size]
    exact hsize
  · rwa [h.size]
  · rwa [h.size]

/-- A load from disk gives the stored destinations. -/
theorem EdgeSim.loadNeighborsFromDisk (h : EdgeSim s m page es ps) {src : Int64} {dir : Direction}
    (hk : m.Apart (src, dir)) :
    StoreM.Settles Stop (fun fuel => V3EdgeStore.loadNeighborsFromDisk fuel src dir) s
      fun r s' => r = m.storedDsts (src, dir) ∧ EdgeSim s' m page es ps := by
  refine (h.lookupPage src dir).bind ?_
  rintro r s' ⟨rfl, h', -⟩
  refine StoreM.Settles.get_bind ?_
  cases hstored : m.stored (src, dir) with
  | none =>
    rw [h'.core.lookup_none hk hstored]
    exact .of_run (t := s') rfl ⟨by simp [EdgeTable.storedDsts, hstored], h'⟩
  | some edges =>
    rw [h'.core.bound (src, dir) (by simp [hstored])]
    exact .of_run (t := s') rfl
      ⟨by simp [EdgeTable.storedDsts, hstored, h'.core.loadNeighbors hstored], h'⟩

/-- A query answers from the tables and keeps what it has loaded. -/
theorem EdgeSim.neighbors (h : EdgeSim s m page es ps) {src : Int64} {dir : Direction}
    (hk : m.Apart (src, dir)) :
    StoreM.Settles Stop (fun fuel => V3EdgeStore.neighbors fuel src dir) s
      fun r s' => r = m.answer (src, dir) ∧ EdgeSim s' (m.query (src, dir)) page es ps := by
  refine StoreM.Settles.get_bind ?_
  rw [h.cache]
  cases hc : m.cached (src, dir) with
  | some ns =>
    refine .of_run (t := s) rfl ⟨by simp [EdgeTable.answer, hc], ?_⟩
    simpa [EdgeTable.query, hc] using h
  | none =>
    refine (h.loadNeighborsFromDisk hk).bind ?_
    rintro r s' ⟨rfl, h'⟩
    cases hd : m.storedDsts (src, dir) with
    | nil =>
      refine .of_run (t := s') rfl ⟨by simp [EdgeTable.answer, hc, hd], ?_⟩
      simpa [EdgeTable.query, hd] using h'
    | cons n ns =>
      refine .of_run (t := { s' with
        store := { s'.store with cache := s'.store.cache.insert (src, dir) (n :: ns) } }) rfl
        ⟨by simp [EdgeTable.answer, hc, hd], ?_⟩
      have hq : m.query (src, dir) =
          { m with cached := Function.update m.cached (src, dir) (some (n :: ns)) } := by
        simp [EdgeTable.query, hc, hd]
      rw [hq]
      refine ⟨h'.core.congr rfl rfl rfl rfl rfl rfl, ?_, h'.dirty, h'.sidecar⟩
      intro k
      exact (lookup_insert_eq_update ..).trans (by rw [funext h'.cache])

/-- A pair without edges gets a page of its own. -/
theorem EdgeCore.claim (h : EdgeCore s m page es ps) (hk : ¬ m.Known k) {p : Nat}
    {allocator : PageAllocator} (ha : s.disk.allocator.allocate = .ok (p, allocator)) :
    let s' := { s with disk := { s.disk with allocator } }
    EdgeCore s' m (Function.update page k p) es ps ∧ ClusterPage s' ps p ∧
      ∀ k', m.Known k' → page k' ≠ p := by
  have hwf := h.tree.inv.2
  rcases PageAllocator.allocate_cases hwf with he | ⟨p', a', ha', hfree, hwf', hfree', htotal⟩
  · cases ha.symm.trans he
  cases ha.symm.trans ha'
  have hother : ∀ k', m.Known k' → Function.update page k p k' = page k' := by
    intro k' hk'
    refine Function.update_of_ne ?_ _ _
    rintro rfl
    exact hk hk'
  have hnew : ∀ k', m.Known k' → page k' ≠ p := by
    rintro k' hk' rfl
    exact (h.pages k' hk').taken hfree
  have hp : ClusterPage { s with disk := { s.disk with allocator } } ps p := by
    refine ⟨treeStoreLawful.free_valid h.tree.inv hfree, fun hm => h.tree.owned.taken p hm hfree,
      fun hf => ((hfree' p).mp hf).2 rfl, ?_⟩
    cases hc : s.store.btree.pageCache.get p with
    | none => rfl
    | some pg => exact (h.cached p pg hc hfree).elim
  refine ⟨⟨⟨htotal h.total, h.size, ?_, ?_, ?_, ?_, h.pending, h.keys, h.distinct⟩, ?_, ?_,
    h.source⟩, hp, hnew⟩
  · intro k' hk'
    obtain ⟨hvalid, hapart, htaken, huncached⟩ := h.pages k' hk'
    rw [hother k' hk']
    exact ⟨hvalid, hapart, fun hf => htaken ((hfree' _).mp hf).1, huncached⟩
  · intro k₁ k₂ h₁ h₂ heq
    rw [hother k₁ h₁, hother k₂ h₂] at heq
    exact h.inj k₁ k₂ h₁ h₂ heq
  · exact fun q pg hq hf => h.cached q pg hq ((hfree' q).mp hf).1
  · intro k' edges hk'
    rw [hother k' (.inr (by simp [hk']))]
    exact h.stored k' edges hk'
  · refine ⟨⟨h.tree.inv.1, hwf'⟩, ⟨h.tree.owned.nodup, h.tree.owned.valid, ?_⟩, h.tree.shape⟩
    intro q hq hf
    exact h.tree.owned.taken q hq ((hfree' q).mp hf).1
  · intro k' hk'
    rw [hother k' (.inr hk')]
    exact h.bound k' hk'

theorem EdgeTable.known_insert {e : EdgeItem} {k' : EdgeKey} (hk : (m.insert k e).Known k') :
    m.Known k' ∨ k' = k := by
  by_cases he : k' = k
  · exact .inr he
  · left
    simpa [EdgeTable.Known, EdgeTable.insert, Function.update_of_ne he] using hk

/-- A pair that has its page takes an edge. -/
theorem EdgeCore.insert (h : EdgeCore s m page es ps) {e : EdgeItem} (hk : m.Apart k)
    (hp : ClusterPage s ps (page k)) (hinj : ∀ k', m.Known k' → page k' = page k → k' = k)
    (hsize : V3EdgeCluster.imageSize ((m.pending k).getD [] ++ [e]) ≤ defaultPageSize) :
    EdgeCore s (m.insert k e) page es ps where
  tree := h.tree
  total := h.total
  size := h.size
  bound := h.bound
  source := h.source
  pages k' hk' := by
    rcases EdgeTable.known_insert hk' with hk' | rfl
    · exact h.pages k' hk'
    · exact hp
  inj k₁ k₂ h₁ h₂ heq := by
    rcases EdgeTable.known_insert h₁ with hk₁ | rfl
    · rcases EdgeTable.known_insert h₂ with hk₂ | rfl
      · exact h.inj k₁ k₂ hk₁ hk₂ heq
      · exact hinj k₁ hk₁ heq
    · rcases EdgeTable.known_insert h₂ with hk₂ | rfl
      · exact (hinj k₂ hk₂ heq.symm).symm
      · rfl
  cached := h.cached
  stored := h.stored
  pending k' edges hk' := by
    by_cases he : k' = k
    · subst he
      simp only [EdgeTable.insert, Function.update_self, Option.some.injEq] at hk'
      rwa [← hk']
    · simp only [EdgeTable.insert, Function.update_of_ne he] at hk'
      exact h.pending k' edges hk'
  keys k' hk' := by
    rcases EdgeTable.known_insert hk' with hk' | rfl
    · exact List.mem_cons_of_mem _ (h.keys k' hk')
    · exact List.mem_cons_self
  distinct k₁ h₁ k₂ h₂ heq := by
    rcases List.mem_cons.mp h₁ with rfl | hk₁
    · rcases List.mem_cons.mp h₂ with rfl | hk₂
      · rfl
      · exact (hk k₂ hk₂ heq.symm).symm
    · rcases List.mem_cons.mp h₂ with rfl | hk₂
      · exact hk k₁ hk₁ heq
      · exact h.distinct k₁ hk₁ k₂ hk₂ heq

theorem EdgeSim.cacheEdge (h : EdgeSim s m page es ps) (src dst : Int64) (dir : Direction) :
    ∃ cache, V3EdgeStore.cacheEdge src dst dir s = (.ok (), { s with store := { s.store with cache } }) ∧
      ∀ k, cache.lookup k = Function.update m.cached (src, dir)
        (some (EdgeTable.appendNew ((m.cached (src, dir)).getD []) dst)) k := by
  have hf : (fun k => s.store.cache.lookup k) = m.cached := funext h.cache
  unfold V3EdgeStore.cacheEdge
  rw [StoreM.get_bind_run, h.cache]
  cases hc : m.cached (src, dir) with
  | none =>
    refine ⟨_, rfl, fun k => (lookup_insert_eq_update ..).trans ?_⟩
    rw [hf]
    rfl
  | some ns =>
    by_cases hmem : dst ∈ ns
    · refine ⟨s.store.cache, by simp only [hmem, if_true]; rfl, fun k => ?_⟩
      have hsame : some (EdgeTable.appendNew ns dst) = m.cached (src, dir) := by
        rw [EdgeTable.appendNew, if_pos hmem, hc]
      rw [Option.getD_some, hsame, Function.update_eq_self, h.cache]
    · refine ⟨_, by simp only [hmem, if_false]; rfl, fun k => (lookup_insert_eq_update ..).trans ?_⟩
      rw [hf, Option.getD_some, EdgeTable.appendNew, if_neg hmem]

/-- The dirty clusters after one more edge. -/
theorem dirty_insert {dirty : AList (fun _ : EdgeKey => V3EdgeCluster)} {page' : EdgeKey → Nat}
    {e : EdgeItem} {cluster : V3EdgeCluster}
    (hd : ∀ k', dirty.lookup k' = (m.pending k').map (clusterOf k' (page k')))
    (hpage : ∀ k', m.pending k' ≠ none → page' k' = page k')
    (hc : cluster = clusterOf k (page' k) ((m.pending k).getD [] ++ [e])) (k' : EdgeKey) :
    (dirty.insert k cluster).lookup k' =
      ((m.insert k e).pending k').map (clusterOf k' (page' k')) := by
  rw [lookup_insert_eq_update]
  by_cases he : k' = k
  · subst he
    simp [EdgeTable.insert, hc]
  · simp only [EdgeTable.insert, Function.update_of_ne he, hd]
    cases hp : m.pending k' with
    | none => rfl
    | some edges => rw [hpage k' (by simp [hp])]

/-- A pair without a pending cluster is given the page it has, or a page of its own. -/
theorem EdgeSim.findOrAllocatePage (h : EdgeSim s m page es ps) {src : Int64} {dir : Direction}
    (hk : m.Apart (src, dir)) (hpending : m.pending (src, dir) = none) :
    StoreM.Settles PagesExhausted (fun fuel => V3EdgeStore.findOrAllocatePage fuel src dir) s
      fun p s' => ∃ page', page' (src, dir) = p ∧ EdgeSim s' m page' es ps ∧ ClusterPage s' ps p ∧
        ∀ k', m.Known k' → page' k' = p → k' = (src, dir) := by
  refine (h.lookupPage src dir).bind ?_
  rintro r s' ⟨rfl, h', -⟩
  by_cases hstored : m.stored (src, dir) = none
  · have hknown : ¬ m.Known (src, dir) := by simp [EdgeTable.Known, hpending, hstored]
    rw [h'.core.lookup_none hk hstored]
    rcases PageAllocator.allocate_cases h'.core.tree.inv.2 with he | ⟨p, a, ha, -⟩
    · refine .of_error (e := .capacityOverflow) (t := s') ?_ rfl
      refine StoreM.bind_error _ ?_
      have hall : s'.disk.allocator.allocate = .error .capacityOverflow := he
      simp only [V3EdgeStore.attemptAllocate, hall]
      exact if_pos trivial
    · have hall : s'.disk.allocator.allocate = .ok (p, a) := ha
      obtain ⟨hcore, hp, hnew⟩ := h'.core.claim hknown hall
      have hother : ∀ k', m.Known k' → Function.update page (src, dir) p k' = page k' := by
        intro k' hk'
        refine Function.update_of_ne ?_ _ _
        rintro rfl
        exact hknown hk'
      refine .of_run (a := p) (t := { s' with disk := { s'.disk with allocator := a } }) ?_
        ⟨_, Function.update_self .., ⟨hcore, h'.cache, ?_, h'.sidecar⟩, hp, ?_⟩
      · refine (StoreM.bind_ok (a := .ok p) _ ?_).trans rfl
        simp only [V3EdgeStore.attemptAllocate, hall]
      · intro k'
        refine (h'.dirty k').trans ?_
        cases hp' : m.pending k' with
        | none => rfl
        | some edges => rw [hother k' (.inl (by simp [hp']))]
      · intro k' hk' heq
        rw [hother k' hk'] at heq
        exact (hnew k' hk' heq).elim
  · rw [h'.core.bound (src, dir) hstored]
    exact .of_run (a := page (src, dir)) (t := s') rfl ⟨page, rfl, h', h'.core.pages _ (.inr hstored),
      fun k' hk' heq => h'.core.inj k' _ hk' (.inr hstored) heq⟩

/-- An insertion does to the tables what it does to the edge table. -/
theorem EdgeSim.insertEdge (h : EdgeSim s m page es ps) {src dst : Int64} {dir : Direction}
    {edgeType : Option String} (hallow : m.Allows (.insert src dst dir edgeType)) :
    StoreM.Settles PagesExhausted (fun fuel => V3EdgeStore.insertEdge fuel src dst dir edgeType) s
      fun _ s' => Holds s' (m.insert (src, dir) (dst, edgeType)) := by
  obtain ⟨hk, hsize⟩ := hallow
  obtain ⟨cache, hrun, hcache⟩ := h.cacheEdge src dst dir
  let m₁ : EdgeTable := { m with cached := (m.insert (src, dir) (dst, edgeType)).cached }
  refine (StoreM.Settles.of_run (P := fun _ s₁ => EdgeSim s₁ m₁ page es ps) hrun
    ⟨h.core.congr rfl rfl rfl rfl rfl rfl, hcache, h.dirty, h.sidecar⟩).bind ?_
  rintro - s₁ h₁
  refine StoreM.Settles.get_bind ?_
  rw [h₁.dirty, show m₁.pending = m.pending from rfl]
  cases hp : m.pending (src, dir) with
  | some edges =>
    have hknown : m₁.Known (src, dir) := .inl (by simp [m₁, hp])
    refine .of_run rfl ⟨page, es, ps, ?_, h₁.cache, ?_, h₁.sidecar⟩
    · exact (h₁.core.insert hk (h₁.core.pages _ hknown)
        (fun k' hk' heq => h₁.core.inj k' _ hk' hknown heq) hsize).congr rfl rfl rfl rfl rfl rfl
    · refine dirty_insert h₁.dirty (fun _ _ => rfl) ?_
      simp [clusterOf, V3EdgeCluster.accumulate, hp]
  | none =>
    refine (h₁.findOrAllocatePage hk hp).bind ?_
    rintro p s₂ ⟨page', rfl, h₂, hpage, hinj⟩
    refine .of_run rfl ⟨page', es, ps, ?_, h₂.cache, ?_, h₂.sidecar⟩
    · exact (h₂.core.insert hk hpage hinj hsize).congr rfl rfl rfl rfl rfl rfl
    · refine dirty_insert h₂.dirty (fun _ _ => rfl) ?_
      simp [clusterOf, V3EdgeCluster.accumulate, hp]

end Core

end SqliteGraph.V3
