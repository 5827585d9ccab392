import SqliteGraph.V3.EdgeSimulation
import SqliteGraph.V3.NodeTable

/-! The invariant of a node store on its pages: every page sound, every cache true to the file. -/
namespace SqliteGraph.V3
open Lib

/-- The bytes of a node page, as the file holds them. -/
def nodePageBytes (file : ByteFile) (p : Nat) : Option Bytes :=
  file.readExact (pageOffset defaultPageSize p) defaultPageSize

/-- The node page that the file holds at a page id. -/
def diskNodePage (file : ByteFile) (p : Nat) : Option NodePage :=
  (nodePageBytes file p).bind fun bytes => (NodePage.unpack bytes).toOption

/-- A page that belongs to the node store: not the index's, and not to be handed out. -/
structure NodeHome (s : NodeState) (ps : List Nat) (p : Nat) : Prop where
  valid : ValidPage p
  apart : p ∉ ps
  taken : ¬ s.disk.allocator.Free p
  uncached : s.store.btree.pageCache.get p = none

/-- The pages `nps` are sound on disk and where they are staged; what is cached is what is on disk. -/
structure NodePages (s : NodeState) (next : Int64) (nps ps : List Nat) : Prop where
  total : s.disk.allocator.totalPages ≤ isizeMax
  cached : ∀ q pg, s.store.btree.pageCache.get q = some pg → ¬ s.disk.allocator.Free q
  home : ∀ p ∈ nps, NodeHome s ps p
  disk : ∀ p ∈ nps, ∃ page, diskNodePage s.disk.file p = some page ∧ page.Sound p next
  pageCache : ∀ p bytes, s.store.pageCache.lookup p = some bytes →
    p ∈ nps ∧ nodePageBytes s.disk.file p = some bytes
  unpacked : ∀ p page, s.store.unpackedPageCache.lookup p = some page →
    p ∈ nps ∧ diskNodePage s.disk.file p = some page
  dirty : ∀ p page, s.store.dirtyPages.lookup p = some page → p ∈ nps ∧ page.Sound p next
  idle : s.store.batchMode = false → s.store.dirtyPages = ∅
  preferred : ∀ b l, s.store.blockPreferredPages.lookup b = some l → ∀ p ∈ l, p ∈ nps

/-- Besides, the index binds ids handed out so far to pages of the store. -/
structure NodeCore (s : NodeState) (next : Int64) (nps : List Nat) (es : List (Nat × Nat))
    (ps : List Nat) : Prop extends NodePages s next nps ps where
  tree : TreeInv treeStoreLawful s.manager es ps
  bound : ∀ key p, es.lookup key = some p → p ∈ nps
  fresh : ∀ id : Int64, next.toInt ≤ id.toInt → es.lookup (searchKey id) = none
  next_pos : 0 < next.toInt
  next_le : next.toInt ≤ 2 ^ 32

/-- The state after the bytes of a page have been written and cached. -/
def NodeState.written (s : NodeState) (p : Nat) (bytes : Bytes) : NodeState :=
  { s with
    disk := { s.disk with file := s.disk.file.writeAt (NodeStore.pageOffset p) bytes }
    store := { s.store with
      unpackedPageCache := s.store.unpackedPageCache.erase p
      pageCache := capped s.store.choices s.store.cacheCapacity (s.store.pageCache.insert p bytes)
      choices := fun n => s.store.choices (n + 1) } }

/-- The state after a page has been staged. -/
def NodeState.staged (s : NodeState) (page : NodePage) : NodeState :=
  { s with store := { s.store with
    dirtyPages := s.store.dirtyPages.insert page.pageId.toNat page } }

variable {s : NodeState} {next next' : Int64} {nps ps ps' : List Nat} {es es' : List (Nat × Nat)}
  {t : BTreeManager TreeStore} {p q : Nat} {bytes : Bytes} {page : NodePage}

theorem nodePageOffset_eq (hp : 0 < p) : NodeStore.pageOffset p = pageOffset defaultPageSize p :=
  if_neg hp.ne'

/-- Capping a map only drops entries. -/
theorem lookup_capped {β : Type} {choices : Nat → Nat} {capacity : Nat}
    {l : AList (fun _ : Nat => β)} {b : β} (h : (capped choices capacity l).lookup p = some b) :
    l.lookup p = some b := by
  unfold capped at h
  split at h
  · split at h
    · rename_i key _
      by_cases he : p = key
      · subst he
        simp [AList.lookup_erase] at h
      · rwa [AList.lookup_erase_ne he] at h
    · exact h
  · exact h

theorem lookup_capped_insert {β : Type} {choices : Nat → Nat} {capacity : Nat}
    {l : AList (fun _ : Nat => β)} {b b' : β}
    (h : (capped choices capacity (l.insert p b)).lookup q = some b') :
    q = p ∧ b' = b ∨ q ≠ p ∧ l.lookup q = some b' := by
  have h := lookup_capped h
  by_cases he : q = p
  · subst he
    rw [AList.lookup_insert] at h
    exact .inl ⟨rfl, (Option.some.inj h).symm⟩
  · rw [AList.lookup_insert_ne he] at h
    exact .inr ⟨he, h⟩

theorem lookup_erase_some {β : Type} {l : AList (fun _ : Nat => β)} {b : β}
    (h : (l.erase p).lookup q = some b) : q ≠ p ∧ l.lookup q = some b := by
  by_cases he : q = p
  · subst he
    simp [AList.lookup_erase] at h
  · exact ⟨he, by rwa [AList.lookup_erase_ne he] at h⟩

theorem diskNodePage_of_unpack (hb : nodePageBytes s.disk.file p = some bytes)
    (hu : NodePage.unpack bytes = .ok page) : diskNodePage s.disk.file p = some page := by
  rw [diskNodePage, hb, Option.bind_some, hu]
  rfl

theorem exists_unpack (h : diskNodePage s.disk.file p = some page) :
    ∃ bytes, nodePageBytes s.disk.file p = some bytes ∧ NodePage.unpack bytes = .ok page := by
  obtain ⟨bytes, hb, hu⟩ := Option.bind_eq_some_iff.mp h
  refine ⟨bytes, hb, ?_⟩
  cases hun : NodePage.unpack bytes with
  | error e => rw [hun] at hu; cases hu
  | ok page' =>
    rw [hun] at hu
    cases hu
    rfl

section Files
variable {file file' : ByteFile}

theorem nodePageBytes_congr (hlen : file.len ≤ file'.len)
    (hb : ∀ i < file.len, pageOffset defaultPageSize p ≤ i →
      i < pageOffset defaultPageSize p + defaultPageSize → file'.byte i = file.byte i)
    (h : nodePageBytes file p = some bytes) : nodePageBytes file' p = some bytes := by
  unfold nodePageBytes ByteFile.readExact at h ⊢
  split at h
  · rename_i hle
    rw [if_pos (by omega), ← h]
    have hsame := ByteFile.bytesAt_congr fun i hlo hhi => hb i (by omega) hlo hhi
    rw [hsame]
  · cases h

theorem nodePageBytes_write (hp : 0 < p) (hq : 0 < q) (hne : q ≠ p)
    (hlen : bytes.length = defaultPageSize) {old : Bytes} (h : nodePageBytes file q = some old) :
    nodePageBytes (file.writeAt (NodeStore.pageOffset p) bytes) q = some old := by
  refine ByteFile.readExact_writeAt_of_disjoint h ?_
  rw [nodePageOffset_eq hp, hlen]
  exact pageOffset_disjoint defaultPageSize hq hp hne

theorem nodePageBytes_write_self (hp : 0 < p) (hlen : bytes.length = defaultPageSize) :
    nodePageBytes (file.writeAt (NodeStore.pageOffset p) bytes) p = some bytes := by
  rw [nodePageOffset_eq hp]
  exact ByteFile.readExact_writeAt_self hlen (by decide)

end Files

/-- Where the tree works, no node page is. -/
theorem NodePages.index_bytes (h : NodePages s next nps ps)
    (hg : Grows treeStoreLawful ps ps' s.manager.store t.store) (hp : p ∈ nps)
    (hb : nodePageBytes s.disk.file p = some bytes) : nodePageBytes t.store.file p = some bytes := by
  have hframe := TreeStore.uses_frame hg.uses
  have hh := h.home p hp
  refine nodePageBytes_congr hframe.len ?_ hb
  intro i hi hlo hhi
  refine hframe.byte i hi ?_
  rintro q hq ⟨hmem, -⟩
  have hne : q ≠ p := by
    rintro rfl
    rcases hmem with hmem | hf
    · exact hh.apart hmem
    · exact hh.taken hf
  have := pageOffset_disjoint defaultPageSize hq hh.valid.1 hne
  omega

theorem NodePages.index_disk (h : NodePages s next nps ps)
    (hg : Grows treeStoreLawful ps ps' s.manager.store t.store) (hp : p ∈ nps) :
    diskNodePage t.store.file p = diskNodePage s.disk.file p := by
  obtain ⟨page, hpage, -⟩ := h.disk p hp
  obtain ⟨bytes, hb, hu⟩ := exists_unpack hpage
  rw [hpage, diskNodePage, h.index_bytes hg hp hb, Option.bind_some, hu]
  rfl

/-- The index may grow; the node pages stay where they are. -/
theorem NodePages.index (h : NodePages s next nps ps) (hw : s.disk.allocator.Wf)
    (hg : Grows treeStoreLawful ps ps' s.manager.store t.store) :
    NodePages (s.withManager t) next nps ps' where
  total := ((TreeStore.uses_frame hg.uses).allocator hw h.total).2
  cached q pg hq hf := by
    rcases (TreeStore.uses_frame hg.uses).cached q pg hq with ⟨pg', hq'⟩ | ⟨-, hnf⟩
    · exact h.cached q pg' hq' (hg.free q hf)
    · exact hnf hf
  home p hp := by
    have hh := h.home p hp
    refine ⟨hh.valid, ?_, fun hf => hh.taken (hg.free _ hf), ?_⟩
    · intro hmem
      rcases hg.new _ hmem with hmem | hf
      · exact hh.apart hmem
      · exact hh.taken hf
    · cases hc : t.store.cache.get p with
      | none => exact hc
      | some pg =>
        rcases (TreeStore.uses_frame hg.uses).cached p pg hc with ⟨pg', hc'⟩ | ⟨hmem | hf, -⟩
        · cases hh.uncached.symm.trans hc'
        · exact (hh.apart hmem).elim
        · exact (hh.taken hf).elim
  disk p hp := by
    obtain ⟨page, hpage, hs⟩ := h.disk p hp
    exact ⟨page, (h.index_disk hg hp).trans hpage, hs⟩
  pageCache p bytes hc := by
    obtain ⟨hp, hb⟩ := h.pageCache p bytes hc
    exact ⟨hp, h.index_bytes hg hp hb⟩
  unpacked p page hc := by
    obtain ⟨hp, hpage⟩ := h.unpacked p page hc
    exact ⟨hp, (h.index_disk hg hp).trans hpage⟩
  dirty := h.dirty
  idle := h.idle
  preferred := h.preferred

/-- A page written and cached. -/
theorem NodePages.write (h : NodePages s next nps ps) (hp : p ∈ nps)
    (hlen : bytes.length = defaultPageSize) (hu : NodePage.unpack bytes = .ok page)
    (hs : page.Sound p next) : NodePages (s.written p bytes) next nps ps := by
  have hpos := (h.home p hp).valid.1
  have hself : diskNodePage (s.written p bytes).disk.file p = some page :=
    diskNodePage_of_unpack (nodePageBytes_write_self hpos hlen) hu
  have hbytes : ∀ q ∈ nps, q ≠ p → ∀ old, nodePageBytes s.disk.file q = some old →
      nodePageBytes (s.written p bytes).disk.file q = some old :=
    fun q hq hne old => nodePageBytes_write hpos (h.home q hq).valid.1 hne hlen
  have hdisk : ∀ q ∈ nps, q ≠ p → ∀ old, diskNodePage s.disk.file q = some old →
      diskNodePage (s.written p bytes).disk.file q = some old := by
    intro q hq hne old hold
    obtain ⟨b, hb, hub⟩ := exists_unpack hold
    exact diskNodePage_of_unpack (hbytes q hq hne b hb) hub
  refine ⟨h.total, h.cached, fun q hq => ?_, ?_, ?_, ?_, h.dirty, h.idle, h.preferred⟩
  · have hh := h.home q hq
    exact ⟨hh.valid, hh.apart, hh.taken, hh.uncached⟩
  · intro q hq
    by_cases he : q = p
    · subst he
      exact ⟨page, hself, hs⟩
    · obtain ⟨old, hold, hsound⟩ := h.disk q hq
      exact ⟨old, hdisk q hq he old hold, hsound⟩
  · intro q b hq
    rcases lookup_capped_insert hq with ⟨rfl, rfl⟩ | ⟨hne, hq⟩
    · exact ⟨hp, nodePageBytes_write_self hpos hlen⟩
    · obtain ⟨hmem, hb⟩ := h.pageCache q b hq
      exact ⟨hmem, hbytes q hmem hne b hb⟩
  · intro q pg hq
    obtain ⟨hne, hq⟩ := lookup_erase_some hq
    obtain ⟨hmem, hpg⟩ := h.unpacked q pg hq
    exact ⟨hmem, hdisk q hmem hne pg hpg⟩

/-- A page staged in an open batch. -/
theorem NodePages.stage (h : NodePages s next nps ps) (hp : p ∈ nps) (hs : page.Sound p next)
    (hbatch : s.store.batchMode = true) : NodePages (s.staged page) next nps ps := by
  refine ⟨h.total, h.cached, fun q hq => ?_, h.disk, h.pageCache, h.unpacked, ?_, ?_, h.preferred⟩
  · have hh := h.home q hq
    exact ⟨hh.valid, hh.apart, hh.taken, hh.uncached⟩
  · intro q pg hq
    have hq : (s.store.dirtyPages.insert page.pageId.toNat page).lookup q = some pg := hq
    rw [hs.pageId] at hq
    by_cases he : q = p
    · subst he
      rw [AList.lookup_insert] at hq
      cases hq
      exact ⟨hp, hs⟩
    · rw [AList.lookup_insert_ne he] at hq
      exact h.dirty q pg hq
  · intro hidle
    cases hbatch.symm.trans hidle

theorem NodePages.mono (h : NodePages s next nps ps) (hn : next.toInt ≤ next'.toInt) :
    NodePages s next' nps ps :=
  { h with
    disk := fun p hp => by
      obtain ⟨page, hpage, hs⟩ := h.disk p hp
      exact ⟨page, hpage, hs.mono hn⟩
    dirty := fun p page hp => ⟨(h.dirty p page hp).1, (h.dirty p page hp).2.mono hn⟩ }

/-- Writing a page that is not of the tree leaves the tree alone. -/
theorem TreeInv.writeNodePage (h : TreeInv treeStoreLawful s.manager es ps) (hp : ValidPage p)
    (hapart : p ∉ ps) (huncached : s.store.btree.pageCache.get p = none)
    (hlen : bytes.length = defaultPageSize) : TreeInv treeStoreLawful (s.written p bytes).manager es ps := by
  refine h.writeAt fun q hq hin => ?_
  have hne : q ≠ p := by
    rintro rfl
    rcases hin with hmem | ⟨pg, hc⟩
    · exact hapart hmem
    · cases huncached.symm.trans hc
  rw [nodePageOffset_eq hp.1, hlen]
  exact pageOffset_disjoint defaultPageSize hq hp.1 hne

end SqliteGraph.V3
