import SqliteGraph.V3.EdgeSimulation

/-! Flushing the edge store: clusters onto their pages, their keys into the index. -/
namespace SqliteGraph.V3
open Lib

variable {s : EdgeState} {m : EdgeTable} {page : EdgeKey → Nat} {es es' : List (Nat × Nat)}
  {ps ps' : List Nat} {t : BTreeManager TreeStore} {k : EdgeKey}

theorem EdgeTable.known_store {k' : EdgeKey} (hk : (m.store k).Known k') : m.Known k' := by
  by_cases he : k' = k
  · subst he
    by_contra hnot
    simp only [EdgeTable.Known, not_or, not_not] at hnot
    simp [EdgeTable.Known, EdgeTable.store, hnot.1, hnot.2] at hk
  · simpa [EdgeTable.Known, EdgeTable.store, Function.update_of_ne he] using hk

/-- The file after the cluster of `k` has been written. -/
def clusterWritten (s : EdgeState) (page : EdgeKey → Nat) (k : EdgeKey) (edges : List EdgeItem) :
    EdgeState :=
  { s with disk := { s.disk with
    file := s.store.io.writePageToDisk s.disk.file (page k) (clusterOf k (page k) edges).serialize } }

section Write
variable {edges : List EdgeItem}

/-- A cluster write misses every other page. -/
theorem EdgePages.write_disjoint (h : EdgePages s m page ps) (hk : m.pending k = some edges) {q : Nat}
    (hq : 0 < q) (hne : q ≠ page k) :
    pageOffset defaultPageSize q + defaultPageSize ≤ s.store.io.writeOffset (page k) ∨
      s.store.io.writeOffset (page k) +
        (s.store.io.pageData (clusterOf k (page k) edges).serialize).length ≤
          pageOffset defaultPageSize q := by
  have hp := (h.pages k (.inl (by simp [hk]))).valid.1
  have hlen : (s.store.io.pageData (clusterOf k (page k) edges).serialize).length ≤ defaultPageSize :=
    EdgePageIO.length_pageData_le h.size (length_clusterOf.trans_le (h.pending k edges hk))
  have := pageOffset_disjoint defaultPageSize hq hp hne
  rw [ EdgePageIO.writeOffset_default h.size hp]
  omega

theorem EdgePages.write (h : EdgePages s m page ps) (hk : m.pending k = some edges) :
    EdgePages (clusterWritten s page k edges) (m.store k) page ps where
  total := h.total
  size := h.size
  pages k' hk' := by
    obtain ⟨hvalid, hapart, htaken, huncached⟩ := h.pages k' (EdgeTable.known_store hk')
    exact ⟨hvalid, hapart, htaken, huncached⟩
  inj k₁ k₂ h₁ h₂ := h.inj k₁ k₂ (EdgeTable.known_store h₁) (EdgeTable.known_store h₂)
  cached := h.cached
  stored k' edges' hk' := by
    have hp := (h.pages k (.inl (by simp [hk]))).valid.1
    by_cases he : k' = k
    · subst he
      simp only [EdgeTable.store, Function.update_self, hk, Option.some_or, Option.some.injEq] at hk'
      subst hk'
      obtain ⟨rest, hrest⟩ := EdgePageIO.pageData_prefix s.store.io
        (clusterOf k' (page k') edges).serialize
      refine ⟨h.pending k' edges hk, ?_, ?_⟩
      · simp only [clusterWritten, EdgePageIO.writePageToDisk,
          EdgePageIO.writeOffset_default h.size hp, hrest]
        rw [ByteFile.len_writeAt (List.append_ne_nil_of_left_ne_nil V3EdgeCluster.serialize_ne_nil _),
          List.length_append]
        omega
      · simp only [clusterWritten, EdgePageIO.writePageToDisk,
          EdgePageIO.writeOffset_default h.size hp, hrest]
        exact ByteFile.bytesAt_writeAt_append
    · simp only [EdgeTable.store, Function.update_of_ne he] at hk'
      obtain ⟨hsize, hon⟩ := h.stored k' edges' hk'
      have hk'' : m.Known k' := .inr (by simp [hk'])
      have hne : page k' ≠ page k := fun heq => he (h.inj k' k hk'' (.inl (by simp [hk])) heq)
      have hdisj := h.write_disjoint hk (h.pages k' hk'').valid.1 hne
      refine ⟨hsize, hon.of_bytes ByteFile.len_le_writeAt fun i hlo hhi => ?_⟩
      rw [length_clusterOf] at hhi
      have hlen := hon.1
      rw [length_clusterOf] at hlen
      exact ByteFile.byte_writeAt_of_lt (by omega) (by omega)
  pending k' edges' hk' := by
    by_cases he : k' = k
    · subst he
      simp [EdgeTable.store] at hk'
    · simp only [EdgeTable.store, Function.update_of_ne he] at hk'
      exact h.pending k' edges' hk'
  keys k' hk' := h.keys k' (EdgeTable.known_store hk')
  distinct := h.distinct

theorem EdgeCore.write_tree (h : EdgeCore s m page es ps) (hk : m.pending k = some edges) :
    TreeInv treeStoreLawful (clusterWritten s page k edges).manager es ps := by
  refine h.tree.writeAt fun q hq hin => h.write_disjoint hk hq ?_
  have hp := h.pages k (.inl (by simp [hk]))
  rintro rfl
  rcases hin with hmem | ⟨pg, hc⟩
  · exact hp.apart hmem
  · cases hp.uncached.symm.trans hc

/-- A flush of clusters leaves the other tables of the store alone. -/
structure KeepsTables (s s' : EdgeState) : Prop where
  cache : s'.store.cache = s.store.cache
  dirty : s'.store.dirtyClusters = s.store.dirtyClusters
  sidecar : s'.sidecar = s.sidecar

theorem KeepsTables.trans {s s' s'' : EdgeState} (h : KeepsTables s s') (h' : KeepsTables s' s'') :
    KeepsTables s s'' :=
  ⟨h'.cache.trans h.cache, h'.dirty.trans h.dirty, h'.sidecar.trans h.sidecar⟩

/-- One cluster is stored, and its key bound to its page. -/
theorem EdgeCore.flushCluster (h : EdgeCore s m page es ps) (hk : m.pending k = some edges) :
    StoreM.Settles PagesExhausted
      (fun _ => V3EdgeStore.flushCluster k (clusterOf k (page k) edges)) s
      fun _ s' => (∃ es' ps', EdgeCore s' (m.store k) page es' ps') ∧ KeepsTables s s' := by
  have hknown : m.Known k := .inl (by simp [hk])
  have hvalid := (h.pages k hknown).valid
  have hid : (clusterOf k (page k) edges).pageId = page k := by
    rw [clusterOf, V3EdgeCluster.accumulate_eq]
  have hpage : V3EdgeStore.clusterPage k (clusterOf k (page k) edges) s = (.ok (page k), s) := by
    simp only [V3EdgeStore.clusterPage, hid, if_neg hvalid.1.ne']
    rfl
  obtain ⟨res, t, es', ps', hrun, hi, hg, hout⟩ := insert_run false (edgeKey k.1 k.2)
    (h.write_tree hk) hvalid.lt (le_refl maxTreeHeight)
  have hpages := (h.toEdgePages.write hk).index h.tree.inv.2 hg
  have hstart : V3EdgeStore.flushCluster k (clusterOf k (page k) edges) s =
      (V3EdgeStore.attemptIndex (BTreeManager.insert treeStore false maxTreeHeight
        (edgeKey k.1 k.2) (page k)) >>= fun _ => pure ()) (clusterWritten s page k edges) := by
    rw [V3EdgeStore.flushCluster, StoreM.bind_ok _ hpage]
    rfl
  rcases hout with ⟨rfl, rfl⟩ | ⟨e, rfl, -, he⟩
  · refine .of_run (a := ()) (t := (clusterWritten s page k edges).withManager t) ?_
      ⟨⟨_, ps', hpages, hi, ?_, ?_⟩, rfl, rfl, rfl⟩
    · rw [hstart]
      refine (StoreM.bind_ok (a := .ok ()) _ ?_).trans rfl
      simp only [V3EdgeStore.attemptIndex, V3EdgeStore.onIndex, hrun]
    · intro k' hk'
      rw [lookup_upsert h.tree.sorted]
      by_cases he : k' = k
      · subst he
        rw [if_pos rfl]
      · have hk'' : m.stored k' ≠ none := by
          simpa only [EdgeTable.store, Function.update_of_ne he] using hk'
        rw [if_neg, h.bound k' hk'']
        intro heq
        exact he (h.distinct k' (h.keys k' (.inr hk'')) k (h.keys k hknown) (searchKey_inj.mp heq))
    · intro key p hp
      rw [lookup_upsert h.tree.sorted] at hp
      split at hp
      · rename_i heq
        exact ⟨k, by simp [EdgeTable.store, hk], (searchKey_inj.mp heq).symm⟩
      · obtain ⟨k', hk', hkey⟩ := h.source key p hp
        refine ⟨k', ?_, hkey⟩
        by_cases he : k' = k
        · subst he
          simp [EdgeTable.store, hk]
        · simpa only [EdgeTable.store, Function.update_of_ne he] using hk'
  · rcases he with he | ⟨hdbg, -⟩
    · have hcap : e = .capacityOverflow := he
      subst hcap
      refine .of_error (e := .capacityOverflow) (t := (clusterWritten s page k edges).withManager t)
        ?_ rfl
      rw [hstart]
      refine StoreM.bind_error _ ?_
      simp only [V3EdgeStore.attemptIndex, V3EdgeStore.onIndex, hrun]
      exact if_pos trivial
    · cases hdbg

end Write

/-- Pairs stored one after the other. -/
def EdgeTable.storeAll (m : EdgeTable) (ks : List EdgeKey) : EdgeTable := ks.foldl EdgeTable.store m

theorem EdgeTable.storeAll_eq (ks : List EdgeKey) : m.storeAll ks =
    { m with
      stored := fun k => if k ∈ ks then (m.pending k).or (m.stored k) else m.stored k
      pending := fun k => if k ∈ ks then none else m.pending k } := by
  induction ks generalizing m with
  | nil => simp [EdgeTable.storeAll]
  | cons k ks ih =>
    change (m.store k).storeAll ks = _
    rw [ih]
    simp only [EdgeTable.store, EdgeTable.mk.injEq, true_and, and_true]
    constructor
    · funext k'
      by_cases he : k' = k
      · subst he
        simp
      · simp [he]
    · funext k'
      by_cases he : k' = k
      · subst he
        simp
      · simp [he]

/-- A list of dirty clusters, each the pending one of its pair. -/
def PendingClusters (m : EdgeTable) (page : EdgeKey → Nat)
    (l : List (Sigma fun _ : EdgeKey => V3EdgeCluster)) : Prop :=
  (l.map Sigma.fst).Nodup ∧
    ∀ x ∈ l, ∃ edges, m.pending x.1 = some edges ∧ x.2 = clusterOf x.1 (page x.1) edges

theorem EdgeCore.flushClusters {l : List (Sigma fun _ : EdgeKey => V3EdgeCluster)}
    (h : EdgeCore s m page es ps) (hl : PendingClusters m page l) :
    StoreM.Settles PagesExhausted (fun _ => V3EdgeStore.flushClusters l) s fun _ s' =>
      (∃ es' ps', EdgeCore s' (m.storeAll (l.map Sigma.fst)) page es' ps') ∧ KeepsTables s s' := by
  induction l generalizing s m es ps with
  | nil => exact .of_run (a := ()) (t := s) rfl ⟨⟨es, ps, h⟩, rfl, rfl, rfl⟩
  | cons x l ih =>
    obtain ⟨k, cluster⟩ := x
    obtain ⟨hnodup, hall⟩ := hl
    rw [List.map_cons, List.nodup_cons] at hnodup
    obtain ⟨⟨edges, hk, hc⟩, hrest⟩ := List.forall_mem_cons.mp hall
    simp only at hk hc
    subst hc
    refine (h.flushCluster hk).bind ?_
    rintro - s₁ ⟨⟨es₁, ps₁, h₁⟩, hkeeps₁⟩
    have hl₁ : PendingClusters (m.store k) page l := by
      refine ⟨hnodup.2, fun x hx => ?_⟩
      obtain ⟨edges', hp, hc⟩ := hrest x hx
      refine ⟨edges', ?_, hc⟩
      have hmem : x.1 ∈ l.map Sigma.fst := List.mem_map_of_mem hx
      have hne : x.1 ≠ k := fun he => hnodup.1 (he ▸ hmem)
      simpa only [EdgeTable.store, Function.update_of_ne hne] using hp
    refine (ih h₁ hl₁).mono ?_
    rintro - s₂ ⟨hcore, hkeeps₂⟩
    exact ⟨hcore, hkeeps₁.trans hkeeps₂⟩

/-- The sidecar gives back the root and the height it was written with. -/
theorem recover_sidecarBytes {root height : Nat} (hr : root < 256 ^ 8) (hh : height < 256 ^ 4) :
    V3EdgeStore.recoverBtreeMetadata (some (V3EdgeStore.sidecarBytes root height)) =
      some (root, height) := by
  have hmagic : V3EdgeStore.sidecarMagic.length = 8 := rfl
  let body := V3EdgeStore.sidecarMagic ++ (leBytes 8 root ++ leBytes 4 height)
  have hbody : body.length = 20 := by simp [body, hmagic]
  have hsum : V3EdgeStore.byteSum body < 256 ^ 4 := Nat.mod_lt _ (by decide)
  have hbytes : V3EdgeStore.sidecarBytes root height =
      body ++ leBytes 4 (V3EdgeStore.byteSum body) := rfl
  have htake : (body ++ leBytes 4 (V3EdgeStore.byteSum body)).take 20 = body := by
    rw [← hbody, List.take_left]
  have hcheck : slice (body ++ leBytes 4 (V3EdgeStore.byteSum body)) 20 4 =
      leBytes 4 (V3EdgeStore.byteSum body) := by
    rw [slice_append_right (by omega), hbody, slice_self length_leBytes]
  have hfield : ∀ {off n : Nat}, off + n ≤ 20 →
      slice (body ++ leBytes 4 (V3EdgeStore.byteSum body)) off n = slice body off n := by
    intro off n hle
    exact slice_append_within (by omega)
  have hm : slice body 0 8 = V3EdgeStore.sidecarMagic := slice_append_left hmagic
  have hroot : slice body 8 8 = leBytes 8 root := by
    rw [slice_append_right (by rw [hmagic]), hmagic, Nat.sub_self, slice_append_left length_leBytes]
  have hheight : slice body 16 4 = leBytes 4 height := by
    rw [slice_append_right (by rw [hmagic]; decide), slice_append_right (by simp [hmagic]), hmagic,
      length_leBytes, slice_self length_leBytes]
  rw [hbytes, V3EdgeStore.recoverBtreeMetadata, if_neg (by simp [hbody]), hfield (by decide), hm,
    if_neg (not_not_intro rfl), hcheck, htake, leNat_leBytes hsum, if_neg (not_not_intro rfl),
    hfield (by decide), hfield (by decide), hroot, hheight, leNat_leBytes hr, leNat_leBytes hh]

/-- An index that is not empty has a root and a height within the sidecar's fields. -/
theorem TreeInv.root_height {t : BTreeManager TreeStore} (hi : TreeInv treeStoreLawful t es ps)
    (hne : ¬(t.isEmpty = true ∧ es = [])) : t.rootPageId < 256 ^ 8 ∧ t.treeHeight < 256 ^ 4 := by
  rcases hi.shape with ⟨hempty, hnil, -⟩ | ⟨h, first, hheight, hs⟩
  · exact (hne ⟨hempty, hnil⟩).elim
  · have hroot := (hi.owned.valid _ hs.page_mem).lt
    have hh := rootSub_height_lt hs
    refine ⟨lt_of_lt_of_le hroot (by decide), ?_⟩
    unfold maxTreeHeight at hh
    omega

/-- A flush stores all pending clusters. -/
theorem EdgeSim.flush (h : EdgeSim s m page es ps) :
    StoreM.Settles PagesExhausted (fun _ => V3EdgeStore.flush) s fun _ s' =>
      Holds s' m.flush ∧ (s'.sidecar = none → s.sidecar = none) := by
  refine StoreM.Settles.get_bind ?_
  have hmem : ∀ k cluster, Sigma.mk k cluster ∈ s.store.dirtyClusters.entries ↔
      (m.pending k).map (clusterOf k (page k)) = some cluster := by
    intro k cluster
    rw [← h.dirty]
    exact (List.mem_dlookup_iff s.store.dirtyClusters.nodupKeys).symm
  cases hentries : s.store.dirtyClusters.entries with
  | nil =>
    have hnone : m.pending = fun _ => none := by
      funext k
      cases hp : m.pending k with
      | none => rfl
      | some edges =>
        have := (hmem k _).mpr (by rw [hp]; rfl)
        rw [hentries] at this
        cases this
    have hsame : m.flush = m := by
      simp only [EdgeTable.flush, hnone, Option.none_or]
      rw [← hnone]
    rw [hsame]
    exact .of_run (a := ()) (t := s) rfl ⟨⟨page, es, ps, h⟩, id⟩
  | cons x rest =>
    have hfull : ¬s.store.dirtyClusters.entries.isEmpty = true := by simp [hentries]
    have hperm := drain_perm s.store.choices s.store.dirtyClusters.entries
    have hl : PendingClusters m page (drain s.store.choices s.store.dirtyClusters.entries) := by
      refine ⟨(hperm.map Sigma.fst).nodup_iff.mpr s.store.dirtyClusters.nodupKeys, ?_⟩
      rintro ⟨k, cluster⟩ hx
      obtain ⟨edges, hp, hc⟩ := Option.map_eq_some_iff.mp ((hmem k cluster).mp (hperm.mem_iff.mp hx))
      exact ⟨edges, hp, hc.symm⟩
    rw [← hentries]
    simp only [if_neg hfull]
    refine (h.core.flushClusters hl).bind ?_
    rintro - s₁ ⟨⟨es₁, ps₁, h₁⟩, hkeeps⟩
    have hkeys : ∀ k, k ∈ (drain s.store.choices s.store.dirtyClusters.entries).map Sigma.fst ↔
        m.pending k ≠ none := by
      intro k
      rw [(hperm.map Sigma.fst).mem_iff]
      constructor
      · intro hk
        obtain ⟨⟨k', cluster⟩, hx, rfl⟩ := List.mem_map.mp hk
        have := (hmem k' cluster).mp hx
        rintro hnone
        rw [hnone] at this
        cases this
      · intro hk
        obtain ⟨edges, hp⟩ := Option.ne_none_iff_exists'.mp hk
        exact List.mem_map_of_mem ((hmem k _).mpr (by rw [hp]; rfl))
    have htable : m.storeAll ((drain s.store.choices s.store.dirtyClusters.entries).map Sigma.fst) =
        m.flush := by
      rw [EdgeTable.storeAll_eq, EdgeTable.flush]
      congr 1
      · funext k
        cases hp : m.pending k <;> simp [hkeys, hp]
      · funext k
        cases hp : m.pending k <;> simp [hkeys, hp]
    rw [htable] at h₁
    have hstored : es₁ ≠ [] := by
      obtain ⟨edges, hp, -⟩ := hl.2 x (hperm.mem_iff.mpr (by simp [hentries]))
      have hb := h₁.bound x.1 (by simp [EdgeTable.flush, hp])
      rintro rfl
      cases hb
    obtain ⟨hroot, hheight⟩ := h₁.tree.root_height fun h => hstored h.2
    refine .of_run (a := ()) rfl
      ⟨⟨page, es₁, ps₁, h₁.congr rfl rfl rfl rfl rfl rfl, ?_, ?_, ?_⟩, fun hnone => ?_⟩
    · intro k
      exact (congrArg (AList.lookup k) hkeeps.cache).trans (h.cache k)
    · intro k
      rfl
    · exact .inl (recover_sidecarBytes hroot hheight)
    · cases hnone

end SqliteGraph.V3
