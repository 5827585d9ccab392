import SqliteGraph.V3.NodeInsertion

/-! Updating and deleting records of a node store, outside a batch. -/
namespace SqliteGraph.V3
open Lib

variable {s : NodeState} {m : NodeTable} {next : Int64} {nps ps : List Nat}
  {es : List (Nat × Nat)} {t : BTreeManager TreeStore} {p i : Nat} {bytes : Bytes}
  {page page' : NodePage} {node r : NodeRecordV3} {id : Int64}

theorem map_set_same {β : Type} {f : NodeRecordV3 → β} {l : List NodeRecordV3} (hr : l[i]? = some r)
    (hf : f node = f r) : (l.set i node).map f = l.map f := by
  obtain ⟨hi, rfl⟩ := List.getElem?_eq_some_iff.mp hr
  have hget : (l.map f)[i]? = some (f l[i]) := by rw [List.getElem?_map, hr]; rfl
  obtain ⟨hi', hget⟩ := List.getElem?_eq_some_iff.mp hget
  rw [List.map_set, hf, ← hget, List.set_getElem_self]

namespace NodePage

theorem packedNodes_find (page : NodePage) (id : Int64) :
    (page.packedNodes.find? fun r => decide (r.id = id)) =
      (page.recordWith id).map NodeRecordV3.packed := by
  rw [packedNodes, List.find?_map]
  rfl

/-- A record put in the place of one with its id. -/
theorem Kept.set (h : page.Kept p next) (hr : page.nodes[i]? = some r) (hid : r.id = node.id)
    (hs : node.Stored) (u : UInt16) :
    Kept { page with nodes := page.nodes.set i node, usedBytes := u } p next := by
  have hmem := List.mem_of_getElem? hr
  have hids : (page.nodes.set i node).map NodeRecordV3.id = page.nodes.map NodeRecordV3.id :=
    map_set_same hr hid.symm
  have hcases : ∀ r' ∈ page.nodes.set i node, r' ∈ page.nodes ∨ r' = node := fun _ =>
    List.mem_or_eq_of_mem_set
  refine ⟨?_, ?_, ?_, ?_, ?_, h.pageId⟩
  · intro r' hr'
    rcases hcases r' hr' with hr' | rfl
    · exact h.base r' hr'
    · exact hid ▸ h.base r hmem
  · intro _
    obtain ⟨r', hr', hbase⟩ := h.attained (List.ne_nil_of_mem hmem)
    have hbase' : page.baseId ∈ (page.nodes.set i node).map NodeRecordV3.id := by
      rw [hids, ← hbase]
      exact List.mem_map_of_mem hr'
    exact List.mem_map.mp hbase'
  · intro r' hr'
    rcases hcases r' hr' with hr' | rfl
    · exact h.stored r' hr'
    · exact hs
  · have hinc : (page.nodes.map NodeRecordV3.id).Pairwise (· < ·) := List.pairwise_map.mpr h.increasing
    exact List.pairwise_map.mp (hids ▸ hinc)
  · intro r' hr'
    rcases hcases r' hr' with hr' | rfl
    · exact h.range r' hr'
    · exact hid ▸ h.range r hmem

/-- Where a search by id stops. -/
theorem findIdx_some (h : (page.nodes.findIdx? fun r => decide (r.id = id)) = some i) :
    ∃ r, page.nodes[i]? = some r ∧ r.id = id ∧
      ∀ j < i, ∀ r, page.packedNodes[j]? = some r → r.id ≠ id := by
  obtain ⟨hi, hid, hfirst⟩ := List.findIdx?_eq_some_iff_getElem.mp h
  refine ⟨page.nodes[i], List.getElem?_eq_getElem hi, by simpa using hid, ?_⟩
  intro j hj r hr
  have hlt : j < page.nodes.length := Nat.lt_trans hj hi
  rw [packedNodes, List.getElem?_map, List.getElem?_eq_getElem hlt] at hr
  cases hr
  have := hfirst j hj
  simpa using this

theorem findIdx_none (h : (page.nodes.findIdx? fun r => decide (r.id = id)) = none) :
    page.recordWith id = none := by
  rw [List.findIdx?_eq_none_iff] at h
  exact List.find?_eq_none.mpr fun r hr => by simpa using h r hr

/-- Every record on a page has an estimate. -/
theorem Sound.estimate (h : page.Sound p next) (hr : r ∈ page.nodes) :
    ∃ size, NodeStore.estimateNodeSize r = .ok size := by
  have hpay := h.accounted.payload_le hr
  have hle := @NodeRecordV3.estimatedSize_le_payload r 0
  have husable : usableSize = 4064 := rfl
  exact ⟨_, if_neg (by omega)⟩

/-- The estimates add up, or one of them fails. -/
theorem estimatedBytes_cases (nodes : List NodeRecordV3) :
    (∃ total, NodeStore.estimatedBytes nodes = .ok total) ∧
        (∀ r ∈ nodes, ∃ size, NodeStore.estimateNodeSize r = .ok size) ∨
      (∃ reason, NodeStore.estimatedBytes nodes = .error (.invalidHeader "compressed_size" reason)) ∧
        ∃ r ∈ nodes, ∀ size, NodeStore.estimateNodeSize r ≠ .ok size := by
  unfold NodeStore.estimatedBytes
  generalize (0 : UInt16) = total
  induction nodes generalizing total with
  | nil => exact .inl ⟨⟨total, rfl⟩, by simp⟩
  | cons r nodes ih =>
    rw [List.foldlM_cons]
    by_cases hr : 65535 < r.estimatedSize 0
    · have herr : NodeStore.estimateNodeSize r = .error (.invalidHeader "compressed_size"
          s!"compressed size {r.estimatedSize 0} exceeds u16::MAX") := if_pos hr
      refine .inr ⟨⟨_, by rw [herr]; rfl⟩, r, List.mem_cons_self, fun size hsize => ?_⟩
      cases herr.symm.trans hsize
    · have hok : NodeStore.estimateNodeSize r = .ok (.ofNat (r.estimatedSize 0)) := if_neg hr
      rw [hok]
      rcases ih (total + .ofNat (r.estimatedSize 0)) with ⟨htotal, hall⟩ | ⟨herr, r', hr', hno⟩
      · refine .inl ⟨htotal, ?_⟩
        intro r' hr'
        rcases List.mem_cons.mp hr' with rfl | hr'
        · exact ⟨_, hok⟩
        · exact hall r' hr'
      · exact .inr ⟨herr, r', List.mem_cons_of_mem _ hr', hno⟩

end NodePage

/-- A record found on its page, as the table has it. -/
theorem NodeSim.recordOn (h : NodeSim s m nps es ps) (hl : es.lookup (searchKey id) = some p)
    (hcurrent : s.currentPage p = some page) :
    (page.recordWith id).map NodeRecordV3.packed = (m.visible id).map NodeRecordV3.packed := by
  rw [← h.visible id, recordIn, hl, Option.bind_some, NodeState.records, hcurrent, ← page.packedNodes_find]
  rfl

theorem NodeSim.invisible (h : NodeSim s m nps es ps) (hl : es.lookup (searchKey id) = none) :
    m.visible id = none := by
  have hv := h.visible id
  rw [recordIn, hl] at hv
  exact Option.map_eq_none_iff.mp hv.symm

theorem NodePages.written_puts (h : NodePages s next nps ps) (hidle : s.store.dirtyPages = ∅) (hp : p ∈ nps)
    (hlen : bytes.length = defaultPageSize) (hu : NodePage.unpack bytes = .ok page') :
    s.records = diskRecords s.disk.file ∧
      (s.written p bytes).records = diskRecords (s.written p bytes).disk.file ∧
      Puts s.records (s.written p bytes).records nps p page'.packedNodes := by
  have hb : s.records = diskRecords s.disk.file := records_idle hidle
  have ha : (s.written p bytes).records = diskRecords (s.written p bytes).disk.file := records_idle hidle
  refine ⟨hb, ha, ?_⟩
  rw [ha, hb]
  exact h.disk_written hp hlen hu

theorem Puts.total {records records' : Nat → Option (List NodeRecordV3)} {l : List NodeRecordV3}
    (h : Puts records records' nps p l) (hbound : ∀ key p, es.lookup key = some p → p ∈ nps) :
    ∃ records'' : Nat → Option (List NodeRecordV3), records'' p = some l ∧
      (∀ q, q ≠ p → records'' q = records q) ∧
      ∀ id, recordIn es records' id = recordIn es records'' id := by
  refine ⟨Function.update records p (some l), Function.update_self .., fun q hq => Function.update_of_ne hq .., ?_⟩
  refine recordIn_congr hbound fun q hq => ?_
  by_cases he : q = p
  · subst he
    rw [Function.update_self]
    exact h.1
  · rw [Function.update_of_ne he]
    exact h.2 q hq he

/-- A changed page, as it is packed and read again. -/
theorem NodePage.Kept.rewritten (h : page.Kept p next) (hnext : next.toInt ≤ 2 ^ 32)
    (hroom : page.packNodes.length ≤ usableSize) :
    ∃ bytes page', page.pack = .ok bytes ∧ bytes.length = defaultPageSize ∧
      unpack bytes = .ok page' ∧ page'.Sound p next ∧ page'.packedNodes = page.packedNodes := by
  obtain ⟨bytes, page', hpack, hlen, hu, hs, hback⟩ := h.written hnext hroom
  refine ⟨bytes, page', hpack, hlen, hu, hs, ?_⟩
  rw [packedNodes, hback, List.map_map]
  exact List.map_congr_left fun r _ => NodeRecordV3.packed_packed

section Update
variable (h : NodeSim s m nps es ps) (hb : m.batch = false)
include h hb

/-- A changed page is written and cached, or has no room and is left alone. -/
theorem NodeSim.rewritePage_run (hk : page'.Kept p m.nextId) :
    (∃ reason, NodeStore.rewritePage p page' s = (.error (.invalidHeader "node_page" reason), s)) ∨
      ∃ bytes page'', page'.pack = .ok bytes ∧ NodeStore.writeNodePage page' s = (.ok (), s.onFile p bytes) ∧
        NodeStore.rewritePage p page' s = (.ok (), s.written p bytes) ∧
        bytes.length = defaultPageSize ∧ NodePage.unpack bytes = .ok page'' ∧ page''.Sound p m.nextId ∧
        page''.packedNodes = page'.packedNodes := by
  have hmode : s.store.batchMode = false := h.batch.trans hb
  rcases page'.pack_cases with ⟨reason, hpack⟩ | hroom
  · refine .inl ⟨reason, StoreM.bind_error _ ?_⟩
    unfold NodeStore.writeNodePage
    rw [StoreM.get_bind_run, hmode, hpack]
    rfl
  · obtain ⟨bytes, page'', hpack, hlen, hu, hs, hback⟩ := hk.rewritten h.next_le hroom
    have hwrite : NodeStore.writeNodePage page' s = (.ok (), s.onFile p bytes) := by
      unfold NodeStore.writeNodePage
      rw [StoreM.get_bind_run, hmode, hpack, hk.pageId]
      rfl
    refine .inr ⟨bytes, page'', hpack, hwrite, (StoreM.bind_ok _ hwrite).trans ?_, hlen, hu, hs, hback⟩
    rw [hpack]
    rfl

/-- The page of an update that has room is written and cached. -/
theorem NodeSim.updated (hp : p ∈ nps) (hl : es.lookup (searchKey node.id) = some p)
    (hcurrent : s.currentPage p = some page) (hr : page.nodes[i]? = some r) (hid : r.id = node.id)
    (hfirst : ∀ j < i, ∀ r, page.packedNodes[j]? = some r → r.id ≠ node.id)
    (hlen : bytes.length = defaultPageSize) (hu : NodePage.unpack bytes = .ok page')
    (hs : page'.Sound p m.nextId) (hnodes : page'.packedNodes = page.packedNodes.set i node.packed) :
    NodeSim (s.written p bytes) (m.write node.id (some node)) nps es ps := by
  have hidle := h.idle (h.batch.trans hb)
  obtain ⟨hbefore, hafter, hput⟩ := h.toNodePages.written_puts hidle hp hlen hu
  obtain ⟨records'', hp'', hother, hsame⟩ := hput.total h.bound
  have hrecords : s.records p = some page.packedNodes := by
    rw [NodeState.records, hcurrent]
    rfl
  have hr' : page.packedNodes[i]? = some r.packed := by
    rw [NodePage.packedNodes, List.getElem?_map, hr]
    rfl
  have hshown : ∀ id, recordIn es (s.written p bytes).records id =
      if id = node.id then some node.packed else (m.visible id).map NodeRecordV3.packed := by
    intro id
    rw [hsame id, ← h.visible id]
    exact recordIn_set node.packed hl hrecords (hnodes ▸ hp'') hother hr' hid hfirst id
  refine ⟨h.toNodeCore.write hp hlen hu hs, h.batch, fun id => ?_, fun id => ?_⟩
  · rw [hshown id]
    exact (visible_write m.visible node.id (some node) id).symm
  · rw [← hafter, hshown id, NodeTable.write, hb]
    simp only [Bool.false_eq_true, if_false]
    rw [visible_write, h.agrees hb id]
    rfl

/-- An update puts the record in its place, or is refused and changes nothing. -/
theorem NodeSim.updateNode (hbuilt : node.Built) :
    StoreM.Finishes PagesExhausted (fun fuel => NodeStore.updateNode fuel node.id node) s fun res s' =>
      (∃ nps' es' ps' m', NodeSim s' m' nps' es' ps' ∧
        NodeTable.Step m (.update node) (.updated res) m') ∧ ∀ e, res = .error e → ¬ e.Aborts := by
  have hrefuse : ∀ {field reason : String} {s' : NodeState}, NodeSim s' m nps es ps →
      NodeTable.Step m (.update node) (.updated (.error (.invalidHeader field reason))) m →
      (∃ nps' es' ps' m', NodeSim s' m' nps' es' ps' ∧ NodeTable.Step m (.update node)
        (.updated (.error (.invalidHeader field reason))) m') ∧
        ∀ e, (Except.error (.invalidHeader field reason) : Except NativeBackendError Unit) = .error e →
          ¬ e.Aborts := by
    intro field reason s' h' hstep
    refine ⟨⟨nps, es, ps, m, h', hstep⟩, ?_⟩
    rintro e he habort
    cases he
    exact habort
  refine StoreM.Finishes.bind (h.lookupPage node.id) ?_
  rintro found s₁ ⟨rfl, h₁, -, -⟩
  cases hl : es.lookup (searchKey node.id) with
  | none => exact .of_run (t := s₁) rfl (hrefuse h₁ (.absent (h.invisible hl)))
  | some p =>
    have hp := h₁.bound _ _ hl
    refine StoreM.Finishes.bind (h₁.loadNodePage hp) ?_
    rintro page s₂ ⟨hcurrent₁, hsound, h₂, hdirty, hdisk⟩
    have hcurrent : s₂.currentPage p = some page := by
      rw [NodeState.currentPage, hdirty, hdisk]
      exact hcurrent₁
    have hrec := h₂.recordOn hl hcurrent
    cases hi : page.nodes.findIdx? fun r => decide (r.id = node.id) with
    | none =>
      rw [NodePage.findIdx_none hi] at hrec
      exact .of_run (t := s₂) rfl (hrefuse h₂ (.absent (Option.map_eq_none_iff.mp hrec.symm)))
    | some i =>
      obtain ⟨r, hr, hid, hfirst⟩ := NodePage.findIdx_some hi
      obtain ⟨hlt, -⟩ := List.getElem?_eq_some_iff.mp hr
      rcases NodePage.estimatedBytes_cases (page.nodes.set i node) with
        ⟨⟨total, htotal⟩, hall⟩ | ⟨⟨reason, herr⟩, r', hr', hno⟩
      · have hsmall : node.Small := by
          rcases hbuilt.small_or_huge with hsmall | hhuge
          · exact hsmall
          · obtain ⟨size, hsize⟩ := hall node (List.mem_iff_getElem.mpr ⟨i, by simpa using hlt, by simp⟩)
            obtain ⟨reason, hreason⟩ := @NodeRecordV3.estimate_huge node 0 hhuge
            cases hsize.symm.trans hreason
        simp only [htotal]
        refine StoreM.Finishes.bind (P := fun a s' => a = total ∧ s' = s₂) (.of_run rfl ⟨rfl, rfl⟩) ?_
        rintro a s' ⟨ha, hs'⟩
        subst ha hs'
        have hkept := hsound.toKept.set hr hid (hsmall.stored hbuilt) a
        rcases h₂.rewritePage_run hb hkept with ⟨reason, hrun⟩ |
          ⟨bytes, page', -, -, hrun, hlen, hu, hs', hback⟩
        · exact .of_run hrun (hrefuse h₂ (.overfull (.inl ⟨reason, rfl⟩)))
        · have hnodes : page'.packedNodes = page.packedNodes.set i node.packed := by
            rw [hback, NodePage.packedNodes, List.map_set]
            rfl
          refine .of_run hrun ⟨⟨nps, es, ps, _,
            h₂.updated hb hp hl hcurrent hr hid hfirst hlen hu hs' hnodes, .updated ?_⟩, by simp⟩
          intro hnone
          rw [hnone] at hrec
          have hnot := List.find?_eq_none.mp (Option.map_eq_none_iff.mp hrec) r (List.mem_of_getElem? hr)
          simp [hid] at hnot
      · simp only [herr]
        refine .of_run rfl (hrefuse h₂ (.overfull (.inr fun hsmall => ?_)))
        rcases List.mem_or_eq_of_mem_set hr' with hr' | rfl
        · obtain ⟨size, hsize⟩ := hsound.estimate hr'
          exact hno size hsize
        · exact hno _ hsmall.estimate

end Update

section Delete

/-- What is left of a deleted record. -/
def NodeRecordV3.tombstone (r : NodeRecordV3) : NodeRecordV3 := { r with flags := NodeFlags.deleted }

/-- A tombstone takes the room of its record. -/
theorem NodePage.Sound.tombstone_room (h : page.Sound p next) (hr : page.nodes[i]? = some r) :
    (packNodes { page with nodes := page.nodes.set i r.tombstone }).length ≤ usableSize := by
  have hlen : (r.tombstone.pack page.baseId).length = (r.pack page.baseId).length := by
    rw [NodeRecordV3.length_pack, NodeRecordV3.length_pack]
    rfl
  have hsame : (page.nodes.set i r.tombstone).map (fun r => (r.pack page.baseId).length) =
      page.nodes.map fun r => (r.pack page.baseId).length := map_set_same hr hlen
  have hroom := h.room
  rw [← h.used] at hroom
  refine le_of_eq_of_le ?_ hroom
  rw [packNodes, packNodes, List.length_flatMap, List.length_flatMap]
  exact congrArg List.sum hsame

theorem modify_eq_set {l : List NodeRecordV3} (hr : l[i]? = some r) (f : NodeRecordV3 → NodeRecordV3) :
    l.modify i f = l.set i (f r) := by
  obtain ⟨hi, hget⟩ := List.getElem?_eq_some_iff.mp hr
  rw [List.modify_eq_set_getElem?, hr]
  rfl

theorem NodeCore.bound_without (h : NodeCore s next nps es ps) (k : Nat) (key q : Nat)
    (hq : (without k es).lookup key = some q) : q ∈ nps := by
  rw [lookup_without] at hq
  split at hq
  · cases hq
  · exact h.bound key q hq

/-- The id of a record forgotten by the index. -/
theorem NodeCore.unbind_index (h : NodeCore s next nps es ps) (id : Int64) :
    ∃ t ps' found, (∀ fuel, maxTreeHeight ≤ fuel →
        NodeStore.onIndex (BTreeManager.delete treeStore fuel id) s = (.ok found, s.withManager t)) ∧
      NodeCore (s.withManager t) next nps (without (searchKey id) es) ps' ∧
      (∀ q ∈ nps, (s.withManager t).records q = s.records q) ∧
      ∀ q ∈ nps, diskRecords (s.withManager t).disk.file q = diskRecords s.disk.file q := by
  obtain ⟨found, t, ps', hrun, hi, hg⟩ := delete_stable id h.tree
  have hrec := fun q hq => h.toNodePages.index_records (t := t) (p := q) hg hq
  refine ⟨t, ps', found, fun fuel hf => ?_, h.index hi hg (h.bound_without _) ?_, fun q hq => (hrec q hq).1,
    fun q hq => (hrec q hq).2⟩
  · simp only [NodeStore.onIndex, hrun fuel hf]
  · intro id' hid'
    rw [lookup_without]
    split
    · rfl
    · exact h.fresh id' hid'

variable (h : NodeSim s m nps es ps) (hb : m.batch = false)
include h hb

/-- A record turned into a tombstone, its page written and cached, its id forgotten. -/
theorem NodeSim.deleted (hp : p ∈ nps) (hcurrent : s.currentPage p = some page)
    (hr : page.nodes[i]? = some r) (hid : r.id = node.id) (hlen : bytes.length = defaultPageSize)
    (hu : NodePage.unpack bytes = .ok page') (hs : page'.Sound p m.nextId)
    (hnodes : page'.packedNodes = page.packedNodes.set i node.packed) :
    ∃ t es' ps' found, (∀ fuel, maxTreeHeight ≤ fuel →
        NodeStore.onIndex (BTreeManager.delete treeStore fuel node.id) (s.onFile p bytes) =
          (.ok found, (s.onFile p bytes).withManager t)) ∧
      NodeSim ((s.written p bytes).withManager t) (m.write node.id none) nps es' ps' := by
  have hidle := h.idle (h.batch.trans hb)
  obtain ⟨hbefore, hafter, hput⟩ := h.toNodePages.written_puts hidle hp hlen hu
  obtain ⟨records'', hp'', hother, hsame⟩ := hput.total (h.bound_without (searchKey node.id))
  have hrecords : s.records p = some page.packedNodes := by
    rw [NodeState.records, hcurrent]
    rfl
  have hr' : page.packedNodes[i]? = some r.packed := by
    rw [NodePage.packedNodes, List.getElem?_map, hr]
    rfl
  obtain ⟨t, ps', found, hrun, h₂, hrec, hdisk⟩ := (h.toNodeCore.write hp hlen hu hs).unbind_index node.id
  have hshown : ∀ id, recordIn (without (searchKey node.id) es) (s.written p bytes).records id =
      if id = node.id then none else (m.visible id).map NodeRecordV3.packed := by
    intro id
    rw [hsame id, ← h.visible id]
    exact recordIn_without node.packed hrecords (hnodes ▸ hp'') hother hr' hid id
  refine ⟨t, _, ps', found, fun fuel hf => onIndex_onFile (hrun fuel hf), h₂, h.batch, fun id => ?_,
    fun id => ?_⟩
  · rw [recordIn_congr h₂.bound hrec, hshown id]
    exact (visible_write m.visible node.id none id).symm
  · rw [recordIn_congr h₂.bound hdisk, ← hafter, hshown id, NodeTable.write, hb]
    simp only [Bool.false_eq_true, if_false]
    rw [visible_write, h.agrees hb id]
    rfl

/-- The table without an id that it does not have. -/
theorem NodeSim.erase_absent (hnone : m.visible id = none) : NodeSim s (m.write id none) nps es ps := by
  have hcommitted : (m.committed id).map NodeRecordV3.packed = none := by
    rw [← h.agrees hb id, hnone]
    rfl
  refine ⟨h.toNodeCore, h.batch, fun id' => ?_, fun id' => ?_⟩
  · refine (h.visible id').trans (Eq.trans ?_ (visible_write m.visible id none id').symm)
    by_cases he : id' = id
    · subst he
      rw [if_pos rfl, hnone]
    · rw [if_neg he]
  · rw [h.committed id', NodeTable.write, hb]
    simp only [Bool.false_eq_true, if_false]
    rw [visible_write]
    by_cases he : id' = id
    · subst he
      rw [if_pos rfl, hcommitted]
      rfl
    · rw [if_neg he]

/-- A deletion succeeds whether or not there is such a record, and says which. -/
theorem NodeSim.deleteNode (id : Int64) :
    StoreM.Settles PagesExhausted (fun fuel => NodeStore.deleteNode fuel id) s fun found s' =>
      found = (m.visible id).isSome ∧ ∃ nps' es' ps', NodeSim s' (m.write id none) nps' es' ps' := by
  refine (h.lookupPage id).bind ?_
  rintro found s₁ ⟨rfl, h₁, -, -⟩
  cases hl : es.lookup (searchKey id) with
  | none =>
    have hnone := h.invisible hl
    refine .of_run (t := s₁) rfl ⟨by rw [hnone]; rfl, nps, es, ps, h₁.erase_absent hb hnone⟩
  | some p =>
    have hp := h₁.bound _ _ hl
    refine (h₁.loadNodePage hp).bind ?_
    rintro page s₂ ⟨hcurrent₁, hsound, h₂, hdirty, hdisk⟩
    have hcurrent : s₂.currentPage p = some page := by
      rw [NodeState.currentPage, hdirty, hdisk]
      exact hcurrent₁
    have hrec := h₂.recordOn hl hcurrent
    cases hi : page.nodes.findIdx? fun r => decide (r.id = id) with
    | none =>
      rw [NodePage.findIdx_none hi] at hrec
      have hnone := Option.map_eq_none_iff.mp hrec.symm
      exact .of_run (t := s₂) rfl ⟨by rw [hnone]; rfl, nps, es, ps, h₂.erase_absent hb hnone⟩
    | some i =>
      obtain ⟨r, hr, rfl, -⟩ := NodePage.findIdx_some hi
      have hmem := List.mem_of_getElem? hr
      have hid : r.id = r.tombstone.id := rfl
      have hset : (page.nodes.modify i fun r => { r with flags := NodeFlags.deleted }) =
          page.nodes.set i r.tombstone := modify_eq_set hr _
      have hkept : NodePage.Kept { page with nodes := page.nodes.set i r.tombstone } p m.nextId :=
        hsound.toKept.set hr hid (hsound.stored r hmem) page.usedBytes
      obtain ⟨bytes, page', hpack, hlen, hu, hs', hback⟩ := hkept.rewritten h₂.next_le (hsound.tombstone_room hr)
      have hnodes : page'.packedNodes = page.packedNodes.set i r.tombstone.packed := by
        rw [hback, NodePage.packedNodes, NodePage.packedNodes, List.map_set]
      obtain ⟨t, es', ps', found, hrun, hdel⟩ :=
        h₂.deleted hb hp hcurrent hr hid hlen hu hs' hnodes
      have hwrite : NodeStore.writeNodePage { page with nodes := page.nodes.set i r.tombstone } s₂ =
          (.ok (), s₂.onFile p bytes) := by
        unfold NodeStore.writeNodePage
        rw [StoreM.get_bind_run, h₂.batch.trans hb, hpack, hkept.pageId]
        rfl
      have hsome : (m.visible r.id).isSome = true := by
        have hfound : (page.recordWith r.id).isSome = true :=
          List.find?_isSome.mpr ⟨r, hmem, decide_eq_true rfl⟩
        rw [← Option.isSome_map (f := NodeRecordV3.packed), ← hrec, Option.isSome_map, hfound]
      refine .of_stable (n := maxTreeHeight) (t := (s₂.written p bytes).withManager t) (a := true) ?_
        ⟨hsome.symm, nps, es', ps', hdel⟩
      intro fuel hf
      change ((NodeStore.writeNodePage _ >>= fun _ => _) s₂) = _
      rw [hset]
      refine (StoreM.bind_ok _ hwrite).trans ((StoreM.bind_ok _ (hrun fuel hf)).trans ?_)
      rw [hpack]
      rfl

end Delete

end SqliteGraph.V3
