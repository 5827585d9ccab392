import SqliteGraph.V3.NodeStoreInvariant

/-! The node store on its pages does what the table of records does: reads, and how writes show. -/
namespace SqliteGraph.V3
open Lib

def NodePage.packedNodes (page : NodePage) : List NodeRecordV3 := page.nodes.map NodeRecordV3.packed

/-- The records of a page as the file has them. -/
def diskRecords (file : ByteFile) (p : Nat) : Option (List NodeRecordV3) :=
  (diskNodePage file p).map NodePage.packedNodes

namespace NodeState

/-- The page as it is staged, or else as the file has it. -/
def currentPage (s : NodeState) (p : Nat) : Option NodePage :=
  (s.store.dirtyPages.lookup p).or (diskNodePage s.disk.file p)

def records (s : NodeState) (p : Nat) : Option (List NodeRecordV3) :=
  (s.currentPage p).map NodePage.packedNodes

end NodeState

/-- The record that the index leads to, if its page has it. -/
def recordIn (es : List (Nat × Nat)) (records : Nat → Option (List NodeRecordV3)) (id : Int64) :
    Option NodeRecordV3 :=
  (es.lookup (searchKey id)).bind fun p =>
    (records p).bind fun l => l.find? fun r => decide (r.id = id)

/-- The store shows the records of `m`. -/
structure NodeSim (s : NodeState) (m : NodeTable) (nps : List Nat) (es : List (Nat × Nat))
    (ps : List Nat) : Prop extends NodeCore s m.nextId nps es ps where
  batch : s.store.batchMode = m.batch
  visible : ∀ id, recordIn es s.records id = (m.visible id).map NodeRecordV3.packed
  committed : ∀ id, recordIn es (diskRecords s.disk.file) id = (m.committed id).map NodeRecordV3.packed

section Records
variable {es : List (Nat × Nat)} {nps : List Nat} {p : Nat} {l : List NodeRecordV3}
  {records records' : Nat → Option (List NodeRecordV3)} {node : NodeRecordV3} {id id' : Int64}

theorem recordIn_congr (hbound : ∀ key p, es.lookup key = some p → p ∈ nps)
    (h : ∀ p ∈ nps, records' p = records p) (id : Int64) :
    recordIn es records' id = recordIn es records id := by
  unfold recordIn
  cases hl : es.lookup (searchKey id) with
  | none => rfl
  | some p => rw [Option.bind_some, Option.bind_some, h p (hbound _ _ hl)]

theorem find_set_of_ne {i : Nat} {r : NodeRecordV3} (hr : l[i]? = some r) (hid : r.id = node.id)
    (hne : id ≠ node.id) :
    (l.set i node).find? (fun r => decide (r.id = id)) = l.find? fun r => decide (r.id = id) := by
  induction l generalizing i with
  | nil => rfl
  | cons a l ih =>
    cases i with
    | zero =>
      obtain rfl : a = r := Option.some.inj hr
      have hnode : decide (node.id = id) = false := decide_eq_false (Ne.symm hne)
      have ha : decide (a.id = id) = false := decide_eq_false (by rw [hid]; exact Ne.symm hne)
      rw [List.set_cons_zero, List.find?_cons, List.find?_cons, hnode, ha]
    | succ i =>
      rw [List.set_cons_succ, List.find?_cons, List.find?_cons, ih hr]

theorem find_set_self {i : Nat} (hi : i < l.length) (hfirst : ∀ j < i, ∀ r, l[j]? = some r → r.id ≠ node.id) :
    (l.set i node).find? (fun r => decide (r.id = node.id)) = some node := by
  induction l generalizing i with
  | nil => exact absurd hi (Nat.not_lt_zero i)
  | cons a l ih =>
    cases i with
    | zero => simp
    | succ i =>
      have ha : decide (a.id = node.id) = false := decide_eq_false (hfirst 0 (Nat.succ_pos i) a rfl)
      rw [List.set_cons_succ, List.find?_cons, ha]
      apply ih (Nat.lt_of_succ_lt_succ hi)
      intro j hj r hr
      exact hfirst (j + 1) (Nat.succ_lt_succ hj) r hr

/-- An id bound anew, whose record is put behind the others of its page. -/
theorem recordIn_upsert (hs : Sorted es) (hbound : ∀ key p, es.lookup key = some p → p ∈ nps)
    (hp : records p = some l) (hp' : records' p = some (l ++ [node]))
    (hother : ∀ q ∈ nps, q ≠ p → records' q = records q) (hl : ∀ r ∈ l, r.id ≠ node.id) (id : Int64) :
    recordIn (upsert (searchKey node.id) p es) records' id =
      if id = node.id then some node else recordIn es records id := by
  unfold recordIn
  rw [lookup_upsert hs]
  by_cases hid : id = node.id
  · subst hid
    have hnone : l.find? (fun r => decide (r.id = node.id)) = none :=
      List.find?_eq_none.mpr fun r hr => by simpa using hl r hr
    rw [if_pos rfl, if_pos rfl, Option.bind_some, hp', Option.bind_some, List.find?_append, hnone]
    simp
  · rw [if_neg (fun h => hid (searchKey_inj.mp h)), if_neg hid]
    cases hlook : es.lookup (searchKey id) with
    | none => rfl
    | some q =>
      rw [Option.bind_some, Option.bind_some]
      by_cases hq : q = p
      · subst hq
        have hnode : decide (node.id = id) = false := decide_eq_false (Ne.symm hid)
        rw [hp', hp, Option.bind_some, Option.bind_some, List.find?_append, List.find?_cons, hnode,
          List.find?_nil, Option.or_none]
      · rw [hother q (hbound _ _ hlook) hq]

/-- An id bound anew to a page that does not have it. -/
theorem recordIn_upsert_absent (hs : Sorted es) (hnone : es.lookup (searchKey id') = none)
    (hp : records p = some l) (hl : ∀ r ∈ l, r.id ≠ id') (id : Int64) :
    recordIn (upsert (searchKey id') p es) records id = recordIn es records id := by
  unfold recordIn
  rw [lookup_upsert hs]
  by_cases hid : id = id'
  · subst hid
    have hfind : l.find? (fun r => decide (r.id = id)) = none :=
      List.find?_eq_none.mpr fun r hr => by simpa using hl r hr
    rw [if_pos rfl, Option.bind_some, hp, Option.bind_some, hfind, hnone]
    rfl
  · rw [if_neg (fun h => hid (searchKey_inj.mp h))]

/-- A record put in the place of the one with its id. -/
theorem recordIn_set (node : NodeRecordV3) {i : Nat} {r : NodeRecordV3}
    (hlook : es.lookup (searchKey node.id) = some p) (hp : records p = some l)
    (hp' : records' p = some (l.set i node)) (hother : ∀ q, q ≠ p → records' q = records q)
    (hr : l[i]? = some r) (hid : r.id = node.id)
    (hfirst : ∀ j < i, ∀ r, l[j]? = some r → r.id ≠ node.id) (id : Int64) :
    recordIn es records' id = if id = node.id then some node else recordIn es records id := by
  unfold recordIn
  by_cases he : id = node.id
  · subst he
    obtain ⟨hi, -⟩ := List.getElem?_eq_some_iff.mp hr
    rw [if_pos rfl, hlook, Option.bind_some, hp', Option.bind_some, find_set_self hi hfirst]
  · rw [if_neg he]
    cases hl : es.lookup (searchKey id) with
    | none => rfl
    | some q =>
      rw [Option.bind_some, Option.bind_some]
      by_cases hq : q = p
      · subst hq
        rw [hp', hp, Option.bind_some, Option.bind_some, find_set_of_ne hr hid he]
      · rw [hother q hq]

/-- An id that the index forgets, its record changed where it stands. -/
theorem recordIn_without (node : NodeRecordV3) {i : Nat} {r : NodeRecordV3} (hp : records p = some l)
    (hp' : records' p = some (l.set i node)) (hother : ∀ q, q ≠ p → records' q = records q)
    (hr : l[i]? = some r) (hid : r.id = node.id) (id : Int64) :
    recordIn (without (searchKey node.id) es) records' id =
      if id = node.id then none else recordIn es records id := by
  unfold recordIn
  rw [lookup_without]
  by_cases he : id = node.id
  · subst he
    rw [if_pos rfl, if_pos rfl]
    rfl
  · rw [if_neg (fun h => he (searchKey_inj.mp h)), if_neg he]
    cases hl : es.lookup (searchKey id) with
    | none => rfl
    | some q =>
      rw [Option.bind_some, Option.bind_some]
      by_cases hq : q = p
      · subst hq
        rw [hp', hp, Option.bind_some, Option.bind_some, find_set_of_ne hr hid he]
      · rw [hother q hq]

end Records

section Reads
variable {s : NodeState} {m : NodeTable} {next : Int64} {nps ps ps' : List Nat}
  {es es' : List (Nat × Nat)} {t : BTreeManager TreeStore} {p : Nat} {bytes : Bytes}
  {page : NodePage} {id : Int64} {Stop : NativeBackendError → Prop}

theorem NodeCore.index (h : NodeCore s next nps es ps) (hi : TreeInv treeStoreLawful t es' ps')
    (hg : Grows treeStoreLawful ps ps' s.manager.store t.store)
    (hbound : ∀ key p, es'.lookup key = some p → p ∈ nps)
    (hfresh : ∀ id : Int64, next.toInt ≤ id.toInt → es'.lookup (searchKey id) = none) :
    NodeCore (s.withManager t) next nps es' ps' :=
  ⟨h.toNodePages.index h.tree.inv.2 hg, hi, hbound, hfresh, h.next_pos, h.next_le⟩

theorem NodePages.index_records (h : NodePages s next nps ps)
    (hg : Grows treeStoreLawful ps ps' s.manager.store t.store) (hp : p ∈ nps) :
    (s.withManager t).records p = s.records p ∧
      diskRecords (s.withManager t).disk.file p = diskRecords s.disk.file p := by
  have hdisk : diskNodePage (s.withManager t).disk.file p = diskNodePage s.disk.file p :=
    h.index_disk hg hp
  constructor
  · rw [NodeState.records, NodeState.currentPage, hdisk]
    rfl
  · rw [diskRecords, hdisk]
    rfl

/-- Every page of the store can be read, as it is staged or as it is on disk. -/
theorem NodePages.current (h : NodePages s next nps ps) (hp : p ∈ nps) :
    ∃ page, s.currentPage p = some page ∧ page.Sound p next := by
  unfold NodeState.currentPage
  cases hd : s.store.dirtyPages.lookup p with
  | some page => exact ⟨page, rfl, (h.dirty p page hd).2⟩
  | none => exact h.disk p hp

/-- Caches may change as long as they stay true to the file. -/
theorem NodeSim.caches (h : NodeSim s m nps es ps) {pageCache : AList (fun _ : Nat => Bytes)}
    {unpackedPageCache : AList (fun _ : Nat => NodePage)} {choices : Nat → Nat}
    (hc : ∀ p bytes, pageCache.lookup p = some bytes →
      p ∈ nps ∧ nodePageBytes s.disk.file p = some bytes)
    (hu : ∀ p page, unpackedPageCache.lookup p = some page →
      p ∈ nps ∧ diskNodePage s.disk.file p = some page) :
    NodeSim { s with store := { s.store with pageCache, unpackedPageCache, choices } } m nps es ps where
  total := h.total
  cached := h.cached
  home p hp := ⟨(h.home p hp).valid, (h.home p hp).apart, (h.home p hp).taken, (h.home p hp).uncached⟩
  disk := h.disk
  pageCache := hc
  unpacked := hu
  dirty := h.dirty
  idle := h.idle
  preferred := h.preferred
  tree := h.tree
  bound := h.bound
  fresh := h.fresh
  next_pos := h.next_pos
  next_le := h.next_le
  batch := h.batch
  visible := h.visible
  committed := h.committed

theorem NodeSim.pageCacheInsert (h : NodeSim s m nps es ps) (hp : p ∈ nps)
    (hb : nodePageBytes s.disk.file p = some bytes) :
    NodeSim (NodeStore.pageCacheInsert p bytes s).2 m nps es ps := by
  refine h.caches ?_ ?_
  · intro q b hq
    rcases lookup_capped_insert hq with ⟨rfl, rfl⟩ | ⟨-, hq⟩
    · exact ⟨hp, hb⟩
    · exact h.pageCache q b hq
  · exact fun q pg hq => h.unpacked q pg (lookup_erase_some hq).2

theorem NodeSim.hashOrder (h : NodeSim s m nps es ps) {α : Type} (l : List α) :
    NodeSim (NodeStore.hashOrder l s).2 m nps es ps :=
  h.caches h.pageCache h.unpacked

/-- The index lookup, which only reads. -/
theorem NodeSim.lookupPage (h : NodeSim s m nps es ps) (id : Int64) :
    StoreM.Settles Stop (fun fuel => NodeStore.lookupPage fuel id) s fun r s' =>
      r = es.lookup (searchKey id) ∧ NodeSim s' m nps es ps ∧ s'.store.dirtyPages = s.store.dirtyPages ∧
        ∀ p ∈ nps, diskNodePage s'.disk.file p = diskNodePage s.disk.file p := by
  obtain ⟨bound, st, hr, hrun⟩ := lookup_stable id h.tree
  have hg := hr.grows h.tree.owned fun _ hq => hq
  have hi : TreeInv treeStoreLawful { s.manager with store := st } es ps := by
    refine ⟨hg.inv, hg.owned, ?_⟩
    rcases h.tree.shape with hempty | ⟨n, first, hn, hs⟩
    · exact .inl hempty
    · exact .inr ⟨n, first, hn, hr.view.symm ▸ hs⟩
  have hrec := fun p hp => h.toNodePages.index_records (t := { s.manager with store := st }) (p := p) hg hp
  refine .of_stable (n := bound) (a := es.lookup (searchKey id))
    (t := s.withManager { s.manager with store := st }) ?_
    ⟨rfl, ⟨h.toNodeCore.index hi hg h.bound h.fresh, h.batch, ?_, ?_⟩, rfl, ?_⟩
  · intro fuel hf
    simp only [NodeStore.lookupPage, NodeStore.onIndex, hrun fuel hf]
  · intro id
    rw [recordIn_congr h.bound fun p hp => (hrec p hp).1]
    exact h.visible id
  · intro id
    rw [recordIn_congr h.bound fun p hp => (hrec p hp).2]
    exact h.committed id
  · exact fun p hp => h.toNodePages.index_disk hg hp

/-- Reading a page from the file puts it into the cache. -/
theorem NodeSim.loadPageFromDisk (h : NodeSim s m nps es ps) (hp : p ∈ nps) :
    ∃ bytes s', NodeStore.loadPageFromDisk p s = (.ok bytes, s') ∧
      nodePageBytes s.disk.file p = some bytes ∧ NodeSim s' m nps es ps ∧
      s'.store.dirtyPages = s.store.dirtyPages ∧ s'.disk = s.disk := by
  obtain ⟨page, hpage, -⟩ := h.disk p hp
  obtain ⟨bytes, hb, -⟩ := exists_unpack hpage
  unfold NodeStore.loadPageFromDisk
  rw [StoreM.get_bind_run]
  cases hc : s.store.pageCache.lookup p with
  | some cached => exact ⟨cached, s, rfl, (h.pageCache p cached hc).2, h, rfl, rfl⟩
  | none =>
    have hread : NodeStore.readPage p s = (.ok bytes, s) := by
      unfold NodeStore.readPage
      rw [StoreM.get_bind_run, nodePageOffset_eq (h.home p hp).valid.1,
        show s.disk.file.readExact (pageOffset defaultPageSize p) defaultPageSize = some bytes from hb]
      rfl
    exact ⟨bytes, (NodeStore.pageCacheInsert p bytes s).2, StoreM.bind_ok _ hread, hb,
      h.pageCacheInsert hp hb, rfl, rfl⟩

/-- A page is loaded as it currently is. -/
theorem NodeSim.loadNodePage (h : NodeSim s m nps es ps) (hp : p ∈ nps) :
    StoreM.Settles Stop (fun _ => NodeStore.loadNodePage p) s fun page s' =>
      s.currentPage p = some page ∧ page.Sound p m.nextId ∧ NodeSim s' m nps es ps ∧
        s'.store.dirtyPages = s.store.dirtyPages ∧ s'.disk = s.disk := by
  obtain ⟨page, hcurrent, hsound⟩ := h.toNodePages.current hp
  unfold NodeStore.loadNodePage
  refine StoreM.Settles.get_bind ?_
  cases hd : s.store.dirtyPages.lookup p with
  | some staged =>
    have hsame : s.currentPage p = some staged := by rw [NodeState.currentPage, hd]; rfl
    cases hcurrent.symm.trans hsame
    exact .of_run (t := s) rfl ⟨hcurrent, hsound, h, rfl, rfl⟩
  | none =>
    have hdisk : diskNodePage s.disk.file p = some page := by
      rw [NodeState.currentPage, hd] at hcurrent
      exact hcurrent
    obtain ⟨bytes, hb, hu⟩ := exists_unpack hdisk
    cases hc : s.store.pageCache.lookup p with
    | some cached =>
      cases hb.symm.trans (h.pageCache p cached hc).2
      refine .of_run (a := page) (t := s) ?_ ⟨hcurrent, hsound, h, rfl, rfl⟩
      change (NodePage.unpack bytes, s) = _
      rw [hu]
    | none =>
      obtain ⟨bytes', s', hrun, hb', hs', hdirty, hdisk'⟩ := h.loadPageFromDisk hp
      cases hb.symm.trans hb'
      refine .of_run (a := page) (t := s') ?_ ⟨hcurrent, hsound, hs', hdirty, hdisk'⟩
      refine (StoreM.bind_ok _ hrun).trans ?_
      rw [StoreM.ofExcept_run, hu]

end Reads

end SqliteGraph.V3
