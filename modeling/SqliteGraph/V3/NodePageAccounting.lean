import SqliteGraph.V3.NodePage

/-! What a node page has counted is what it packs, after any records added or refused. -/
namespace SqliteGraph.V3
open Lib

namespace NodeRecordV3
variable {r : NodeRecordV3} {baseId : Int64}

/-- Data kept inline is not marked external. -/
def Exclusive (r : NodeRecordV3) : Prop := r.dataInline ≠ none → r.isExternal = false

instance : Decidable r.Exclusive := inferInstanceAs (Decidable (_ → _))

theorem exclusive_newInline {id : Int64} {flags : UInt32} {kind name : UInt16} {data : Bytes}
    {outOff inOff : UInt64} {outCount inCount : UInt32}
    (h : newInline id flags kind name data outOff outCount inOff inCount = .ok r) :
    r.Exclusive := by
  simp only [newInline] at h
  split at h
  · rename_i hlen
    cases h
    intro _
    have hlt : (UInt16.ofNat data.length).toNat < 2 ^ 15 :=
      Nat.lt_of_le_of_lt (UInt16.le_iff_toNat_le.mp hlen) (by decide)
    simp [isExternal, flag_of_lt hlt]
  · cases h

theorem exclusive_newExternal {id : Int64} {flags : UInt32} {kind name len : UInt16}
    {off outOff inOff : UInt64} {outCount inCount : UInt32}
    (h : newExternal id flags kind name off len outOff outCount inOff inCount = .ok r) :
    r.Exclusive := by
  simp only [newExternal] at h
  split at h
  · cases h
    intro hne
    exact absurd rfl hne
  · cases h

theorem varintSize_le {v : Nat} : varintSize v ≤ maxVarintBytes := by
  have hloop : ∀ fuel n, varintSizeLoop fuel n ≤ fuel := by
    intro fuel
    induction fuel with
    | zero => intro n; exact Nat.le_refl _
    | succ fuel ih =>
      intro n
      rw [varintSizeLoop]
      split
      · exact Nat.zero_le _
      · exact Nat.succ_le_succ (ih _)
  rw [varintSize]
  split
  · decide
  · exact hloop _ _

theorem length_pack : (r.pack baseId).length = varintSize (encodeIdDelta r.id baseId) + 4 +
    varintSize r.kindOffset.toNat + varintSize r.nameOffset.toNat +
    varintSize r.encodedDataLen.toNat + varintSize r.outgoingClusterOffset.toNat +
    varintSize r.outgoingEdgeCount.toNat + varintSize r.incomingClusterOffset.toNat +
    varintSize r.incomingEdgeCount.toNat + r.payload.length := by
  simp only [pack, List.length_append, length_encodeVarint, length_beBytes]
  omega

/-- The estimate is exact for inline data. -/
theorem length_pack_inline (h : r.Exclusive) (hd : r.dataInline ≠ none) :
    (r.pack baseId).length = r.estimatedSize baseId := by
  have hext := h hd
  have hflag : r.dataLenField &&& externalDataFlag = 0 := by
    simp only [isExternal, Bool.or_eq_false_iff] at hext
    simpa using hext.2
  have hlen : r.encodedDataLen = r.dataLen := by
    rw [encodedDataLen, hext, dataLen, mask_of_flag hflag]
    rfl
  rw [length_pack, estimatedSize, hlen]

/-- Without inline data a record is far smaller than a page. -/
theorem length_pack_external (hd : r.dataInline = none) :
    (r.pack baseId).length ≤ usableSize := by
  have hpay : r.payload.length ≤ 8 := by
    rw [payload, hd]
    cases r.dataExternalOffset with
    | none => decide
    | some off => simp
  have h : ∀ v, varintSize v ≤ 10 := fun v => varintSize_le
  have := h (encodeIdDelta r.id baseId)
  have := h r.kindOffset.toNat
  have := h r.nameOffset.toNat
  have := h r.encodedDataLen.toNat
  have := h r.outgoingClusterOffset.toNat
  have := h r.outgoingEdgeCount.toNat
  have := h r.incomingClusterOffset.toNat
  have := h r.incomingEdgeCount.toNat
  rw [length_pack, usableSize, defaultPageSize, nodePageHeaderSize]
  omega

end NodeRecordV3

namespace NodePage
variable {page page' : NodePage} {node : NodeRecordV3} {res : Except NativeBackendError Unit}

/-- The count is the packed length and has room; the base is the least id. -/
structure Accounted (page : NodePage) : Prop where
  used : page.packNodes.length = page.usedBytes.toNat
  room : page.usedBytes.toNat ≤ usableSize
  base : ∀ r ∈ page.nodes, page.baseId ≤ r.id
  attained : page.nodes ≠ [] → ∃ r ∈ page.nodes, r.id = page.baseId

theorem accounted_new (pageId : UInt64) : (new pageId).Accounted :=
  ⟨rfl, Nat.zero_le _, by simp [new], by simp [new]⟩

/-- The ways a call can go. -/
theorem addNode_cases (h : page.addNode node = (res, page')) :
    (∃ e, res = .error e ∧ page' = page) ∨
    (∃ e size, res = .error e ∧
      node.estimateCompressedSize (page.tempBaseId node) = .ok size ∧ size ≤ page.capacity ∧
      usableSize < (page.push node size).packNodes.length ∧
      page' = (page.push node size).rollback size) ∨
    (∃ size, res = .ok () ∧ (page.push node size).packNodes.length ≤ usableSize ∧
      page' = { page.push node size with
        usedBytes := .ofNat (page.push node size).packNodes.length
        blockId := nodeIdToBlock (page.tempBaseId node) }) := by
  simp only [addNode] at h
  split at h
  · cases h
    exact .inl ⟨_, rfl, rfl⟩
  · rename_i size hsize
    split at h
    · cases h
      exact .inl ⟨_, rfl, rfl⟩
    · rename_i hcap
      split at h
      · rename_i hover
        cases h
        exact .inr (.inl ⟨_, size, rfl, hsize, UInt16.not_lt.mp hcap, hover, rfl⟩)
      · rename_i hroom
        cases h
        exact .inr (.inr ⟨size, rfl, Nat.le_of_not_lt hroom, rfl⟩)

/-- On an empty page a record whose estimate has room has room itself. -/
theorem length_packNodes_push_empty {size : UInt16} (hx : node.Exclusive) (hempty : page.nodes = [])
    (hsize : node.estimateCompressedSize (page.tempBaseId node) = .ok size)
    (hcap : size ≤ page.capacity) : (page.push node size).packNodes.length ≤ usableSize := by
  have hpack : (page.push node size).packNodes = node.pack (page.tempBaseId node) := by
    simp [push, packNodes, hempty]
  rw [hpack]
  by_cases hd : node.dataInline = none
  · exact node.length_pack_external hd
  · rw [node.length_pack_inline hx hd]
    simp only [NodeRecordV3.estimateCompressedSize] at hsize
    split at hsize
    · cases hsize
    · rename_i hmax
      cases hsize
      have hle := UInt16.le_iff_toNat_le.mp hcap
      rw [UInt16.toNat_ofNat', Nat.mod_eq_of_lt (by omega), capacity, UInt16.toNat_ofNat',
        Nat.mod_eq_of_lt] at hle
      · omega
      · rw [usableSize, defaultPageSize, nodePageHeaderSize]
        omega

/-- The least id, when there is one. -/
theorem Accounted.min_eq (h : page.Accounted) (hne : page.nodes ≠ []) :
    (page.nodes.map NodeRecordV3.id).min? = some page.baseId := by
  rw [List.min?_eq_some_iff]
  obtain ⟨r, hr, hid⟩ := h.attained hne
  refine ⟨List.mem_map.mpr ⟨r, hr, hid⟩, ?_⟩
  intro id hmem
  obtain ⟨s, hs, rfl⟩ := List.mem_map.mp hmem
  exact h.base s hs

/-- A record taken off again leaves no trace. -/
theorem Accounted.rollback_push {size : UInt16} (h : page.Accounted) (hne : page.nodes ≠ []) :
    (page.push node size).rollback size = page := by
  have hmin := h.min_eq hne
  simp only [rollback, push, List.dropLast_concat, UInt16.add_sub_cancel, hmin, Option.getD_some]

theorem tempBaseId_le_node : page.tempBaseId node ≤ node.id := by
  rw [tempBaseId]
  split
  · exact Int64.le_refl _
  · exact Std.min_le_right

theorem Accounted.tempBaseId_le (h : page.Accounted) {r : NodeRecordV3} (hr : r ∈ page.nodes) :
    page.tempBaseId node ≤ r.id := by
  have hne : page.nodes.isEmpty = false := by
    cases hnodes : page.nodes with
    | nil => rw [hnodes] at hr; cases hr
    | cons _ _ => rfl
  rw [tempBaseId, hne]
  exact Int64.le_trans Std.min_le_left (h.base r hr)

theorem Accounted.tempBaseId_attained (h : page.Accounted) :
    ∃ r ∈ page.nodes ++ [node], r.id = page.tempBaseId node := by
  rw [tempBaseId]
  split
  · exact ⟨node, by simp, rfl⟩
  · rename_i hne
    have hne : page.nodes ≠ [] := fun h => hne (by rw [h]; rfl)
    rcases Std.min_eq_or (a := page.baseId) (b := node.id) with hmin | hmin
    · obtain ⟨r, hr, hid⟩ := h.attained hne
      exact ⟨r, List.mem_append_left _ hr, by rw [hmin, hid]⟩
    · exact ⟨node, by simp, hmin.symm⟩

/-- One call keeps the account, and changes nothing when it fails. -/
theorem Accounted.addNode (h : page.Accounted) (hx : node.Exclusive)
    (hadd : page.addNode node = (res, page')) :
    page'.Accounted ∧ (res ≠ .ok () → page' = page) := by
  rcases addNode_cases hadd with ⟨e, -, rfl⟩ | ⟨e, size, -, hsize, hcap, hover, rfl⟩ |
    ⟨size, rfl, hroom, rfl⟩
  · exact ⟨h, fun _ => rfl⟩
  · have hne : page.nodes ≠ [] := by
      intro hempty
      have := length_packNodes_push_empty hx hempty hsize hcap
      omega
    rw [h.rollback_push hne]
    exact ⟨h, fun _ => rfl⟩
  · refine ⟨⟨?_, ?_, ?_, ?_⟩, fun hne => absurd rfl hne⟩
    · rw [UInt16.toNat_ofNat', Nat.mod_eq_of_lt]
      · rfl
      · exact Nat.lt_of_le_of_lt hroom (by decide)
    · rw [UInt16.toNat_ofNat']
      exact Nat.le_trans (Nat.mod_le _ _) hroom
    · intro r hr
      rcases List.mem_append.mp hr with hr | hr
      · exact h.tempBaseId_le hr
      · rw [List.mem_singleton.mp hr]
        exact tempBaseId_le_node
    · intro _
      exact h.tempBaseId_attained

/-- The page after the calls, whatever their results. -/
def addNodes (page : NodePage) (nodes : List NodeRecordV3) : NodePage :=
  nodes.foldl (fun page node => (page.addNode node).2) page

theorem Accounted.addNodes {nodes : List NodeRecordV3} (h : page.Accounted)
    (hx : ∀ r ∈ nodes, r.Exclusive) : (page.addNodes nodes).Accounted := by
  induction nodes generalizing page with
  | nil => exact h
  | cons node nodes ih =>
    exact ih (h.addNode (hx node List.mem_cons_self) rfl).1
      (fun r hr => hx r (List.mem_cons_of_mem _ hr))

theorem slice_padded {header data rest : Bytes} (hh : header.length = nodePageHeaderSize) :
    slice (header ++ data ++ rest) nodePageHeaderSize data.length = data := by
  rw [List.append_assoc, slice_append_right (by omega), hh, Nat.sub_self,
    slice_append_left rfl]

theorem length_headerBytes {used checksum : Nat} :
    (page.headerBytes used checksum).length = nodePageHeaderSize := by
  simp [headerBytes, nodePageHeaderSize]

/-- The packed page says how long its data is, and holds the data. -/
theorem Accounted.pack_ok (h : page.Accounted) : ∃ bytes, page.pack = .ok bytes ∧
    bytes.length = defaultPageSize ∧ usedBytesField bytes = page.usedBytes.toNat ∧
    slice bytes nodePageHeaderSize page.usedBytes.toNat = page.packNodes := by
  have hroom := h.room
  rw [usableSize, ← h.used] at hroom
  rw [pack, if_neg (by rw [nodePageHeaderSize, defaultPageSize] at *; omega)]
  refine ⟨_, rfl, ?_, ?_, ?_⟩
  · simp only [List.length_append, List.length_replicate, length_headerBytes]
    rw [nodePageHeaderSize, defaultPageSize] at *
    omega
  · rw [usedBytesField, List.append_assoc,
      slice_append_within (by rw [length_headerBytes]; decide), headerBytes,
      slice_append_right (by simp), slice_append_right (by simp), slice_append_right (by simp),
      length_beBytes, length_beBytes, length_beBytes]
    rw [slice_append_left length_beBytes, beNat_beBytes_mod, h.used]
    exact Nat.mod_eq_of_lt page.usedBytes.toNat_lt
  · rw [← h.used]
    exact slice_padded length_headerBytes

/-- Whatever was added or refused, the page has counted the bytes that it packs, they have room, the
base is the least id, and a refused record changes nothing. -/
theorem node_page_accounting (pageId : UInt64) (nodes : List NodeRecordV3)
    (hx : ∀ r ∈ nodes, r.Exclusive) :
    let page := (new pageId).addNodes nodes
    (∃ bytes, page.pack = .ok bytes ∧ usedBytesField bytes = page.usedBytes.toNat ∧
      slice bytes nodePageHeaderSize page.usedBytes.toNat = page.packNodes) ∧
    page.packNodes.length = page.usedBytes.toNat ∧ page.usedBytes.toNat ≤ usableSize ∧
    (∀ r ∈ page.nodes, page.baseId ≤ r.id) ∧
    (page.nodes ≠ [] → ∃ r ∈ page.nodes, r.id = page.baseId) ∧
    ∀ node : NodeRecordV3, node.Exclusive → (page.addNode node).1 ≠ .ok () →
      (page.addNode node).2 = page := by
  intro page
  have h : page.Accounted := (accounted_new pageId).addNodes hx
  obtain ⟨bytes, hpack, -, hfield, hdata⟩ := h.pack_ok
  refine ⟨⟨bytes, hpack, hfield, hdata⟩, h.used, h.room, h.base, h.attained, ?_⟩
  intro node hnode hfail
  exact (h.addNode hnode rfl).2 hfail

/-- Two records, the second with the smaller id: the base moves, and both are counted anew. -/
theorem node_page_accounting_two :
    let page := (new 1).addNodes [⟨300, 0, 1, 2, 3, some [7, 8, 9], none, 0, 0, 0, 0⟩,
      ⟨-5, 0, 1, 2, 100, none, some 4096, 0, 0, 0, 0⟩]
    page.packNodes.length = page.usedBytes.toNat ∧ page.baseId = -5 := by
  have h := node_page_accounting 1 [⟨300, 0, 1, 2, 3, some [7, 8, 9], none, 0, 0, 0, 0⟩,
    ⟨-5, 0, 1, 2, 100, none, some 4096, 0, 0, 0, 0⟩] (by decide)
  exact ⟨h.2.1, by decide +kernel⟩

end NodePage

end SqliteGraph.V3
