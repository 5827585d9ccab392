import SqliteGraph.V3.NodeStore

/-! The pages of a node store: records by increasing id that come back from a page as they were put. -/
namespace SqliteGraph.V3
open Lib

namespace NodeRecordV3
variable {r s node : NodeRecordV3} {baseId : Int64}

/-- The record as a page gives it back: the length carries the flag. -/
def packed (r : NodeRecordV3) : NodeRecordV3 := { r with dataLenField := r.encodedDataLen }

/-- Its data is what the backend keeps inline, or elsewhere. -/
def Small (r : NodeRecordV3) : Prop := r.payload.length ≤ maxInlineData.toNat

instance instDecidablePredSmall : DecidablePred Small := fun _ => inferInstanceAs (Decidable (_ ≤ _))

theorem isExternal_packed : r.packed.isExternal = r.isExternal :=
  @isExternal_readBack r 0

theorem encodedDataLen_packed : r.packed.encodedDataLen = r.encodedDataLen := by
  rw [encodedDataLen, isExternal_packed]
  by_cases h : r.isExternal = true
  · rw [if_pos h]
    change r.encodedDataLen ||| externalDataFlag = _
    rw [encodedDataLen, if_pos h]
    exact or_flag (or_flag_ne _)
  · rw [if_neg h]
    rfl

@[simp] theorem packed_packed : r.packed.packed = r.packed := by
  change { r with dataLenField := r.packed.encodedDataLen } = r.packed
  rw [encodedDataLen_packed]
  rfl

@[simp] theorem packed_id : r.packed.id = r.id := rfl

theorem readBack_eq_packed (h : r.id.toInt ≤ baseId.toInt + maxDelta) :
    r.readBack baseId = r.packed := by
  have hid : reachedId baseId r.id = r.id := if_pos h
  simp only [readBack, packed, hid]

theorem dataLen_packed : r.packed.dataLen = r.dataLen := by
  change r.encodedDataLen &&& maxDataLen = r.dataLenField &&& maxDataLen
  rw [encodedDataLen]
  split
  · exact or_flag_mask _
  · rfl

/-- Two records that are packed alike are the same but for the flag. -/
theorem same_of_packed (h : r.packed = s.packed) : Same r s := by
  have hlen : r.dataLen = s.dataLen := by rw [← dataLen_packed, h, dataLen_packed]
  simp only [packed, NodeRecordV3.mk.injEq] at h
  obtain ⟨hid, hflags, hkind, hname, -, hinline, hexternal, hout, houtCount, hin, hinCount⟩ := h
  exact ⟨hid, hflags, hkind, hname, hlen, hinline, hexternal, hout, houtCount, hin, hinCount⟩

theorem Stored.packed (h : r.Stored) : r.packed.Stored := by
  rcases h with ⟨data, hd, hoff, hlen, hlt⟩ | ⟨hd, hoff⟩
  · have h : r.Stored := .inl ⟨data, hd, hoff, hlen, hlt⟩
    exact .inl ⟨data, hd, hoff, by rw [← hlen, ← (h.encodedDataLen_inline hd).1]; rfl, hlt⟩
  · exact .inr ⟨hd, hoff⟩

/-- A record built by the backend's constructors has little data, or more than a page could hold: the
length that they check is cut to 16 bits. -/
theorem Built.small_or_huge (h : r.Built) : r.Small ∨ 65535 < r.payload.length := by
  rcases h with ⟨_, _, _, _, data, _, _, _, _, h⟩ | ⟨_, _, _, _, _, _, _, _, _, _, h⟩
  · simp only [newInline] at h
    split at h
    · rename_i hle
      cases h
      have hlen := UInt16.le_iff_toNat_le.mp hle
      rw [UInt16.toNat_ofNat'] at hlen
      change data.length ≤ _ ∨ 65535 < data.length
      have hmax : maxInlineData.toNat = 64 := rfl
      omega
    · cases h
  · simp only [newExternal] at h
    split at h
    · cases h
      exact .inl (by simp [Small, payload, maxInlineData])
    · cases h

theorem estimatedSize_le_payload : r.estimatedSize baseId ≤ 84 + r.payload.length := by
  have hv : ∀ v, varintSize v ≤ 10 := fun v => varintSize_le
  have := hv (encodeIdDelta r.id baseId)
  have := hv r.kindOffset.toNat
  have := hv r.nameOffset.toNat
  have := hv r.dataLen.toNat
  have := hv r.outgoingClusterOffset.toNat
  have := hv r.outgoingEdgeCount.toNat
  have := hv r.incomingClusterOffset.toNat
  have := hv r.incomingEdgeCount.toNat
  rw [estimatedSize]
  omega

theorem Small.estimatedSize_le (h : r.Small) : r.estimatedSize baseId ≤ 148 := by
  have hle := @estimatedSize_le_payload r baseId
  have hmax : maxInlineData.toNat = 64 := rfl
  rw [Small, hmax] at h
  omega

theorem Small.estimate (h : r.Small) :
    r.estimateCompressedSize baseId = .ok (.ofNat (r.estimatedSize baseId)) := by
  have := @Small.estimatedSize_le _ baseId h
  exact if_neg (by omega)

theorem Small.stored (h : r.Built) (hs : r.Small) : r.Stored := by
  refine h.stored ?_
  have hmax : maxInlineData.toNat = 64 := rfl
  rw [Small, hmax] at hs
  rw [usableSize, defaultPageSize, nodePageHeaderSize]
  omega

/-- What the estimate cannot count is refused. -/
theorem estimate_huge (h : 65535 < r.payload.length) :
    ∃ reason, r.estimateCompressedSize baseId = .error (.invalidHeader "compressed_size" reason) := by
  refine ⟨_, if_pos ?_⟩
  rw [estimatedSize]
  omega

end NodeRecordV3

namespace NodePage
variable {page page' : NodePage} {node : NodeRecordV3} {p : Nat} {next next' : Int64}

/-- The records of a page of the store: ids handed out so far, by increasing id from the base on. -/
structure Kept (page : NodePage) (p : Nat) (next : Int64) : Prop where
  base : ∀ r ∈ page.nodes, page.baseId ≤ r.id
  attained : page.nodes ≠ [] → ∃ r ∈ page.nodes, r.id = page.baseId
  stored : ∀ r ∈ page.nodes, r.Stored
  increasing : Increasing page.nodes
  range : ∀ r ∈ page.nodes, 0 < r.id.toInt ∧ r.id.toInt < next.toInt
  pageId : page.pageId.toNat = p

/-- Besides, the page has counted its bytes, and they have room. -/
structure Sound (page : NodePage) (p : Nat) (next : Int64) : Prop extends Kept page p next where
  used : page.packNodes.length = page.usedBytes.toNat
  room : page.usedBytes.toNat ≤ usableSize

theorem Sound.accounted (h : page.Sound p next) : page.Accounted :=
  ⟨h.used, h.room, h.base, h.attained⟩

theorem Kept.mono (h : page.Kept p next) (hn : next.toInt ≤ next'.toInt) : page.Kept p next' :=
  { h with range := fun r hr => ⟨(h.range r hr).1, by have := (h.range r hr).2; omega⟩ }

theorem Sound.mono (h : page.Sound p next) (hn : next.toInt ≤ next'.toInt) : page.Sound p next' :=
  ⟨h.toKept.mono hn, h.used, h.room⟩

theorem sound_new (hp : p < 2 ^ 64) : (new (.ofNat p)).Sound p next where
  base := by simp [new]
  attained := by simp [new]
  stored := by simp [new]
  increasing := List.Pairwise.nil
  range := by simp [new]
  pageId := by simpa [new] using hp
  used := rfl
  room := Nat.zero_le _

/-- A small record is added, or the page has no room for it. -/
theorem addNode_small (page : NodePage) (hs : node.Small) :
    (∃ page', page.addNode node = (.ok (), page')) ∨
      ∃ reason page', page.addNode node = (.error (.invalidHeader "node_page" reason), page') := by
  simp only [addNode, hs.estimate]
  split
  · exact .inr ⟨_, _, rfl⟩
  · split
    · exact .inr ⟨_, _, rfl⟩
    · exact .inl ⟨_, rfl⟩

/-- An empty page has room for a small record. -/
theorem addNode_empty (h : page.Accounted) (hempty : page.nodes = []) (hs : node.Small)
    (hx : node.Exclusive) : ∃ page', page.addNode node = (.ok (), page') := by
  have hcap : page.capacity.toNat = usableSize := by
    have hused : page.usedBytes.toNat = 0 := by
      rw [← h.used, packNodes, hempty]
      rfl
    rw [capacity, hused]
    rfl
  have hle := @NodeRecordV3.Small.estimatedSize_le _ (page.tempBaseId node) hs
  have hsize : UInt16.ofNat (node.estimatedSize (page.tempBaseId node)) ≤ page.capacity := by
    rw [UInt16.le_iff_toNat_le, UInt16.toNat_ofNat', hcap]
    have hmod := Nat.mod_le (node.estimatedSize (page.tempBaseId node)) (2 ^ 16)
    have husable : usableSize = 4064 := rfl
    omega
  have hroom := length_packNodes_push_empty hx hempty hs.estimate hsize
  simp only [addNode, hs.estimate, if_neg (UInt16.not_lt.mpr hsize), if_neg (Nat.not_lt.mpr hroom)]
  exact ⟨_, rfl⟩

/-- A record with the next id goes behind the others. -/
theorem Sound.addNode (h : page.Sound p next) (hstored : node.Stored) (hx : node.Exclusive)
    (hid : node.id = next) (hpos : 0 < next.toInt) (hnext : next.toInt < next'.toInt)
    (hadd : page.addNode node = (.ok (), page')) :
    page'.Sound p next' ∧ page'.nodes = page.nodes ++ [node] := by
  have hacc := (h.accounted.addNode hx hadd).1
  have hnodes := nodes_addNode hadd
  have hmem : ∀ r ∈ page'.nodes, r ∈ page.nodes ∨ r = node := by
    intro r hr
    rw [hnodes] at hr
    simpa using hr
  refine ⟨⟨⟨hacc.base, hacc.attained, ?_, ?_, ?_, ?_⟩, hacc.used, hacc.room⟩, hnodes⟩
  · intro r hr
    rcases hmem r hr with hr | rfl
    · exact h.stored r hr
    · exact hstored
  · rw [hnodes]
    refine List.pairwise_append.mpr ⟨h.increasing, List.pairwise_singleton _ _, ?_⟩
    intro r hr s hs
    rw [List.mem_singleton.mp hs, hid, Int64.lt_iff_toInt_lt]
    exact (h.range r hr).2
  · intro r hr
    rcases hmem r hr with hr | rfl
    · have := h.range r hr
      omega
    · rw [hid]
      exact ⟨hpos, hnext⟩
  · rcases addNode_cases hadd with ⟨e, he, -⟩ | ⟨e, size, he, -⟩ | ⟨size, -, -, rfl⟩
    · cases he
    · cases he
    · exact h.pageId

/-- Written and read again, a page has the records it was written with. -/
theorem Kept.written (h : page.Kept p next) (hnext : next.toInt ≤ 2 ^ 32)
    (hroom : page.packNodes.length ≤ usableSize) :
    ∃ bytes page', page.pack = .ok bytes ∧ bytes.length = defaultPageSize ∧
      unpack bytes = .ok page' ∧ page'.Sound p next ∧
      page'.nodes = page.nodes.map NodeRecordV3.packed := by
  let counted : NodePage := { page with usedBytes := .ofNat page.packNodes.length }
  have hused : page.packNodes.length = counted.usedBytes.toNat := by
    change _ = (UInt16.ofNat _).toNat
    rw [UInt16.toNat_ofNat', Nat.mod_eq_of_lt (lt_of_le_of_lt hroom (by decide))]
  have hacc : counted.Accounted := ⟨hused, hused ▸ hroom, h.base, h.attained⟩
  obtain ⟨bytes, checksum, hpack, hunpack⟩ := hacc.unpack_pack h.stored
  obtain ⟨bytes', hpack', hlen, -⟩ := hacc.pack_ok
  cases hpack.symm.trans hpack'
  have hback : page.nodes.map (NodeRecordV3.readBack page.baseId) =
      page.nodes.map NodeRecordV3.packed := by
    refine List.map_congr_left fun r hr => NodeRecordV3.readBack_eq_packed ?_
    obtain ⟨s, hs, hbase⟩ := h.attained (List.ne_nil_of_mem hr)
    have hpos := (h.range s hs).1
    have hlt := (h.range r hr).2
    rw [← hbase]
    simp only [maxDelta]
    omega
  refine ⟨bytes, _, hpack, hlen, hunpack, ?_, hback⟩
  have hmem : ∀ r ∈ page.nodes.map (NodeRecordV3.readBack page.baseId),
      ∃ s ∈ page.nodes, s.packed = r := by
    intro r hr
    rw [hback] at hr
    exact List.mem_map.mp hr
  refine ⟨⟨?_, ?_, ?_, ?_, ?_, h.pageId⟩, ?_, hacc.room⟩
  · intro r hr
    obtain ⟨s, hs, rfl⟩ := hmem r hr
    exact h.base s hs
  · intro hne
    obtain ⟨r, hr, hid⟩ := h.attained fun hnil => hne (by change page.nodes.map _ = []; rw [hnil]; rfl)
    refine ⟨r.packed, ?_, hid⟩
    change r.packed ∈ page.nodes.map _
    rw [hback]
    exact List.mem_map_of_mem hr
  · intro r hr
    obtain ⟨s, hs, rfl⟩ := hmem r hr
    exact (h.stored s hs).packed
  · change Increasing (page.nodes.map _)
    rw [hback]
    exact List.pairwise_map.mpr h.increasing
  · intro r hr
    obtain ⟨s, hs, rfl⟩ := hmem r hr
    exact h.range s hs
  · refine Eq.trans ?_ hused
    rw [packNodes, packNodes, List.flatMap_map]
    simp only [NodeRecordV3.pack_readBack]
    rfl

theorem pack_cases (page : NodePage) :
    (∃ reason, page.pack = .error (.invalidHeader "node_page" reason)) ∨
      page.packNodes.length ≤ usableSize := by
  by_cases h : defaultPageSize < nodePageHeaderSize + page.packNodes.length
  · exact .inl ⟨_, if_pos h⟩
  · refine .inr ?_
    rw [usableSize]
    omega

/-- The record with an id, if the page has it. -/
def recordWith (page : NodePage) (id : Int64) : Option NodeRecordV3 :=
  page.nodes.find? fun r => decide (r.id = id)

theorem recordWith_eq_find (h : Increasing page.nodes) (id : Int64) :
    page.findNode id = page.recordWith id := by
  apply findNodeLoop_eq h (Nat.le_refl _)
  · exact fun i hi => absurd hi (Nat.not_lt_zero i)
  · intro i hi r hr
    rw [List.getElem?_eq_none hi] at hr
    cases hr

end NodePage

end SqliteGraph.V3
