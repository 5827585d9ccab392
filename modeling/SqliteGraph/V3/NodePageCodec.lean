import SqliteGraph.V3.NodePageAccounting

/-! What a packed node page comes back as: its records, with every id within reach of the base. -/
namespace SqliteGraph.V3
open Lib

namespace NodeRecordV3
variable {r s : NodeRecordV3} {baseId id : Int64} {rest : Bytes}

/-- Made by one of the two constructors. -/
def Built (r : NodeRecordV3) : Prop :=
  (∃ id flags kind name data outOff outCount inOff inCount,
    newInline id flags kind name data outOff outCount inOff inCount = .ok r) ∨
  (∃ id flags kind name off len outOff outCount inOff inCount,
    newExternal id flags kind name off len outOff outCount inOff inCount = .ok r)

theorem Built.exclusive (h : r.Built) : r.Exclusive := by
  rcases h with ⟨_, _, _, _, _, _, _, _, _, h⟩ | ⟨_, _, _, _, _, _, _, _, _, _, h⟩
  · exact exclusive_newInline h
  · exact exclusive_newExternal h

/-- The record has all the data that its length promises, where its length says. -/
def Stored (r : NodeRecordV3) : Prop :=
  (∃ data, r.dataInline = some data ∧ r.dataExternalOffset = none ∧
    r.dataLenField.toNat = data.length ∧ data.length < 2 ^ 15) ∨
  (r.dataInline = none ∧ r.dataExternalOffset ≠ none)

/-- A built record whose data has room on a page. -/
theorem Built.stored (h : r.Built) (hroom : r.payload.length ≤ usableSize) : r.Stored := by
  rcases h with ⟨_, _, _, _, data, _, _, _, _, h⟩ | ⟨_, _, _, _, _, _, _, _, _, _, h⟩
  · simp only [newInline] at h
    split at h
    · cases h
      have hlen : data.length ≤ 4064 := hroom
      refine .inl ⟨data, rfl, rfl, ?_, by omega⟩
      rw [UInt16.toNat_ofNat', Nat.mod_eq_of_lt (by omega)]
    · cases h
  · simp only [newExternal] at h
    split at h
    · cases h
      exact .inr ⟨rfl, by simp⟩
    · cases h

/-- The id that a packed delta leads back to. -/
def reachedId (baseId id : Int64) : Int64 :=
  if id.toInt ≤ baseId.toInt + maxDelta then id else .ofInt (baseId.toInt + maxDelta)

/-- The record as it comes back: the length carries the flag, the id is cut to what a delta reaches. -/
def readBack (baseId : Int64) (r : NodeRecordV3) : NodeRecordV3 :=
  { r with id := reachedId baseId r.id, dataLenField := r.encodedDataLen }

/-- Beyond reach the delta is cut. -/
theorem encodeIdDelta_far (h : baseId.toInt + maxDelta < id.toInt) :
    encodeIdDelta id baseId = maxDelta := by
  have := id.toInt_lt
  have := id.le_toInt
  have := baseId.toInt_lt
  have := baseId.le_toInt
  have hsat : (maxDelta : Int) < saturatingSub id baseId := by
    simp only [maxDelta] at h
    simp only [saturatingSub, maxDelta]
    omega
  simp only [encodeIdDelta]
  rw [if_neg (by omega), if_pos hsat]

theorem toInt_reachedId (h : ¬ id.toInt ≤ baseId.toInt + maxDelta) :
    (reachedId baseId id).toInt = baseId.toInt + maxDelta := by
  have := id.toInt_lt
  have := baseId.le_toInt
  rw [reachedId, if_neg h]
  simp only [maxDelta] at *
  exact Int64.toInt_ofInt_of_le (by omega) (by omega)

theorem decodeId_reached (h : baseId.toInt ≤ id.toInt) :
    decodeId (encodeIdDelta id baseId) baseId = .ok (reachedId baseId id) := by
  by_cases hr : id.toInt ≤ baseId.toInt + maxDelta
  · rw [decodeId_encodeIdDelta ⟨h, hr⟩, reachedId, if_pos hr]
  · have hfar : baseId.toInt + maxDelta < id.toInt := Int.lt_of_not_ge hr
    have hlt := id.toInt_lt
    have hmod : maxDelta % 2 ^ 32 = maxDelta := by decide
    rw [encodeIdDelta_far hfar, decodeId, hmod, decodeIdDelta, if_neg (by omega), reachedId,
      if_neg hr]

theorem encodeIdDelta_reached :
    encodeIdDelta (reachedId baseId id) baseId = encodeIdDelta id baseId := by
  by_cases hr : id.toInt ≤ baseId.toInt + maxDelta
  · rw [reachedId, if_pos hr]
  · have hfar : baseId.toInt + maxDelta < id.toInt := Int.lt_of_not_ge hr
    have hto := toInt_reachedId hr
    have hin : InReach baseId (reachedId baseId id) := by
      constructor
      · rw [hto]
        simp only [maxDelta]
        omega
      · rw [hto]
    rw [encodeIdDelta_eq hin, encodeIdDelta_far hfar, hto]
    omega

theorem encodeIdDelta_le : encodeIdDelta id baseId ≤ maxDelta := by
  simp only [encodeIdDelta]
  split
  · exact Nat.zero_le _
  · split
    · exact Nat.le_refl _
    · omega

theorem Stored.encodedDataLen_inline {data : Bytes} (h : r.Stored) (hd : r.dataInline = some data) :
    r.encodedDataLen = r.dataLenField ∧ r.dataLenField &&& externalDataFlag = 0 ∧
      r.dataLenField.toNat = data.length ∧ r.dataExternalOffset = none := by
  rcases h with ⟨data', hd', hoff, hlen, hlt⟩ | ⟨hnone, -⟩
  · rw [hd] at hd'
    cases hd'
    have hflag : r.dataLenField &&& externalDataFlag = 0 := flag_of_lt (by omega)
    refine ⟨?_, hflag, hlen, hoff⟩
    simp [encodedDataLen, isExternal, hoff, hflag]
  · rw [hd] at hnone
    cases hnone

theorem encodedDataLen_external (h : r.dataExternalOffset ≠ none) :
    r.encodedDataLen = r.dataLenField ||| externalDataFlag := by
  have hsome : r.dataExternalOffset.isSome := Option.isSome_iff_ne_none.mpr h
  simp [encodedDataLen, isExternal, hsome]

/-- The data is read as it was written. -/
theorem Stored.readPayload (h : r.Stored) : readPayload r.encodedDataLen (r.payload ++ rest) =
    .ok ((r.dataInline, r.dataExternalOffset), rest) := by
  cases hd : r.dataInline with
  | some data =>
    obtain ⟨henc, hflag, hlen, hoff⟩ := h.encodedDataLen_inline hd
    have hpay : r.payload = data := by rw [payload, hd]
    have hmask : (r.dataLenField &&& maxDataLen).toNat = data.length := by
      rw [mask_of_flag hflag, hlen]
    rw [NodeRecordV3.readPayload, henc, hflag, hmask, hpay, hoff]
    simp [readExact_append]
  | none =>
    have hoff : r.dataExternalOffset ≠ none := by
      rcases h with ⟨data, hsome, -⟩ | ⟨-, hoff⟩
      · rw [hd] at hsome
        cases hsome
      · exact hoff
    obtain ⟨off, hoff'⟩ := Option.ne_none_iff_exists'.mp hoff
    have hpay : r.payload = beBytes 8 off.toNat := by rw [payload, hd, hoff']
    have hlt : off.toNat < 256 ^ 8 := off.toNat_lt
    rw [NodeRecordV3.readPayload, encodedDataLen_external hoff, if_pos (by
      simpa using or_flag_ne r.dataLenField), hpay, readExact_append length_beBytes, hoff']
    simp [beNat_beBytes hlt]

/-- What a record is packed as is read back, whatever follows it. -/
theorem Stored.unpack_pack (h : r.Stored) (hbase : baseId.toInt ≤ r.id.toInt) :
    unpack baseId (r.pack baseId ++ rest) = .ok (r.readBack baseId, rest) := by
  have hdelta : encodeIdDelta r.id baseId ≤ 2 ^ 64 - 1 :=
    Nat.le_trans encodeIdDelta_le (by decide)
  have h16 : ∀ x : UInt16, x.toNat ≤ 2 ^ 16 - 1 := fun x => Nat.le_of_lt_succ x.toNat_lt
  have h32 : ∀ x : UInt32, x.toNat ≤ 2 ^ 64 - 1 := fun x => by
    have := x.toNat_lt
    omega
  have h64 : ∀ x : UInt64, x.toNat ≤ 2 ^ 64 - 1 := fun x => Nat.le_of_lt_succ x.toNat_lt
  simp only [unpack, pack, List.append_assoc,
    readVarint_encodeVarint hdelta (by decide), readVarint_encodeVarint (h16 _) (by decide),
    readVarint_encodeVarint (h32 _) (by decide), readVarint_encodeVarint (h64 _) (by decide),
    decodeId_reached hbase, readFlags_beBytes, UInt16.ofNat_toNat, UInt32.ofNat_toNat,
    UInt64.ofNat_toNat, h.readPayload, bind, Except.bind]
  rfl

theorem isExternal_readBack : (r.readBack baseId).isExternal = r.isExternal := by
  change (r.dataExternalOffset.isSome || r.encodedDataLen &&& externalDataFlag != 0) = r.isExternal
  by_cases h : r.isExternal = true
  · have hflag : (r.dataLenField ||| externalDataFlag) &&& externalDataFlag ≠ 0 := or_flag_ne _
    rw [encodedDataLen, if_pos h, h]
    simp [hflag]
  · rw [encodedDataLen, if_neg h]
    rfl

/-- What comes back is packed as the record itself was. -/
theorem pack_readBack : (r.readBack baseId).pack baseId = r.pack baseId := by
  have hlen : (r.readBack baseId).encodedDataLen = r.encodedDataLen := by
    rw [encodedDataLen, isExternal_readBack, encodedDataLen]
    split
    · rename_i h
      change r.encodedDataLen ||| externalDataFlag = _
      rw [encodedDataLen, if_pos h]
      exact or_flag (or_flag_ne _)
    · rename_i h
      change r.encodedDataLen = _
      rw [encodedDataLen, if_neg h]
  have hid : encodeIdDelta (r.readBack baseId).id baseId = encodeIdDelta r.id baseId :=
    encodeIdDelta_reached
  rw [pack, pack, hid, hlen]
  rfl

/-- Everything but the flag in the length is the same. -/
structure Same (r s : NodeRecordV3) : Prop where
  id : r.id = s.id
  flags : r.flags = s.flags
  kindOffset : r.kindOffset = s.kindOffset
  nameOffset : r.nameOffset = s.nameOffset
  dataLen : r.dataLen = s.dataLen
  dataInline : r.dataInline = s.dataInline
  dataExternalOffset : r.dataExternalOffset = s.dataExternalOffset
  outgoingClusterOffset : r.outgoingClusterOffset = s.outgoingClusterOffset
  outgoingEdgeCount : r.outgoingEdgeCount = s.outgoingEdgeCount
  incomingClusterOffset : r.incomingClusterOffset = s.incomingClusterOffset
  incomingEdgeCount : r.incomingEdgeCount = s.incomingEdgeCount

/-- A record comes back the same exactly when its id is within reach of the base. -/
theorem same_readBack : Same r (r.readBack baseId) ↔ r.id.toInt ≤ baseId.toInt + maxDelta := by
  constructor
  · intro h
    by_contra hfar
    have hid := congrArg Int64.toInt h.id
    change r.id.toInt = (reachedId baseId r.id).toInt at hid
    rw [toInt_reachedId hfar] at hid
    omega
  · intro h
    have hid : r.id = (r.readBack baseId).id := by
      change r.id = reachedId baseId r.id
      rw [reachedId, if_pos h]
    have hlen : r.dataLen = (r.readBack baseId).dataLen := by
      change r.dataLenField &&& maxDataLen = r.encodedDataLen &&& maxDataLen
      rw [encodedDataLen]
      split
      · exact (or_flag_mask _).symm
      · rfl
    exact ⟨hid, rfl, rfl, rfl, hlen, rfl, rfl, rfl, rfl, rfl, rfl⟩

end NodeRecordV3

namespace NodePage
variable {page page' : NodePage} {nodes : List NodeRecordV3} {rest : Bytes}

theorem unpackNodes_pack {baseId : Int64} (hs : ∀ r ∈ nodes, r.Stored)
    (hbase : ∀ r ∈ nodes, baseId.toInt ≤ r.id.toInt) :
    unpackNodes baseId nodes.length (nodes.flatMap (NodeRecordV3.pack baseId) ++ rest) =
      .ok (nodes.map (NodeRecordV3.readBack baseId), rest) := by
  induction nodes with
  | nil => rfl
  | cons r nodes ih =>
    have hr := @NodeRecordV3.Stored.unpack_pack _ _
      (nodes.flatMap (NodeRecordV3.pack baseId) ++ rest) (hs r List.mem_cons_self)
      (hbase r List.mem_cons_self)
    have hrest := ih (fun s hs' => hs s (List.mem_cons_of_mem _ hs'))
      (fun s hs' => hbase s (List.mem_cons_of_mem _ hs'))
    rw [List.flatMap_cons, List.append_assoc, List.length_cons]
    simp only [unpackNodes, hr, bind, Except.bind, hrest]
    rfl

theorem length_nodes_le : page.nodes.length ≤ page.packNodes.length := by
  rw [packNodes]
  induction page.nodes with
  | nil => exact Nat.le_refl _
  | cons r nodes ih =>
    have hpos : 0 < (r.pack page.baseId).length := by
      rw [NodeRecordV3.length_pack]
      omega
    rw [List.flatMap_cons, List.length_append, List.length_cons]
    omega

/-- The whole page, as it comes back from its own image. -/
theorem Accounted.unpack_pack (h : page.Accounted) (hs : ∀ r ∈ page.nodes, r.Stored) :
    ∃ bytes checksum, page.pack = .ok bytes ∧ unpack bytes = .ok
      { page with
        nodes := page.nodes.map (NodeRecordV3.readBack page.baseId)
        checksum
        blockId := nodeIdToBlock page.baseId } := by
  obtain ⟨bytes, hpack, hlen, hused, hdata⟩ := h.pack_ok
  have hroom := h.room
  have hshape := hpack
  rw [pack, if_neg (by rw [h.used]; rw [usableSize, nodePageHeaderSize, defaultPageSize] at *; omega)]
    at hshape
  set checksum := checksum32 (page.headerBytes page.packNodes.length 0 ++ page.packNodes) with hsum
  obtain ⟨pad, hpad⟩ : ∃ pad, bytes =
      page.headerBytes page.packNodes.length checksum ++ page.packNodes ++ pad :=
    ⟨_, (Except.ok.inj hshape).symm⟩
  have hheader : ∀ {off n : Nat}, off + n ≤ nodePageHeaderSize → slice bytes off n =
      slice (page.headerBytes page.packNodes.length checksum) off n := by
    intro off n hle
    rw [hpad, List.append_assoc, slice_append_within (by rw [length_headerBytes]; exact hle)]
  have hcount : nodeCountField bytes = page.nodes.length := by
    have hle : page.nodes.length ≤ page.packNodes.length := length_nodes_le
    have hlt : page.nodes.length < 256 ^ 2 := by
      rw [h.used] at hle
      exact Nat.lt_of_le_of_lt hle page.usedBytes.toNat_lt
    rw [nodeCountField, hheader (by decide)]
    simp only [headerBytes, slice_append_right, slice_append_left, length_beBytes,
      Nat.reduceLeDiff, Nat.reduceSub, Nat.sub_self, le_refl, beNat_beBytes hlt]
  have hbaseField : baseIdField bytes = page.baseId := by
    have hlt : page.baseId.toUInt64.toNat < 256 ^ 8 := page.baseId.toUInt64.toNat_lt
    rw [baseIdField, hheader (by decide)]
    simp only [headerBytes, slice_append_right, slice_append_left, length_beBytes,
      Nat.reduceLeDiff, Nat.reduceSub, Nat.sub_self, le_refl, beNat_beBytes hlt]
    simp
  have hpid : UInt64.ofNat (beNat (slice bytes 0 8)) = page.pageId := by
    have hlt : page.pageId.toNat < 256 ^ 8 := page.pageId.toNat_lt
    rw [hheader (by decide)]
    simp only [headerBytes, slice_append_left, length_beBytes, beNat_beBytes hlt,
      UInt64.ofNat_toNat]
  have hnext : UInt64.ofNat (beNat (slice bytes 8 8)) = page.nextPageId := by
    have hlt : page.nextPageId.toNat < 256 ^ 8 := page.nextPageId.toNat_lt
    rw [hheader (by decide)]
    simp only [headerBytes, slice_append_right, slice_append_left, length_beBytes,
      Nat.sub_self, le_refl, beNat_beBytes hlt, UInt64.ofNat_toNat]
  have hstored : beNat (slice bytes 28 4) = checksum := by
    have hlt : checksum < 256 ^ 4 := checksum32_lt _
    rw [hheader (by decide)]
    simp only [headerBytes, slice_append_right, length_beBytes, Nat.reduceLeDiff, Nat.reduceSub,
      Nat.sub_self, le_refl]
    rw [slice_self length_beBytes, beNat_beBytes hlt]
  have hnodes := @unpackNodes_pack page.nodes [] page.baseId hs
    (fun r hr => Int64.le_iff_toInt_le.mp (h.base r hr))
  rw [List.append_nil] at hnodes
  refine ⟨bytes, checksum, hpack, ?_⟩
  set back : NodePage := { page with
    nodes := page.nodes.map (NodeRecordV3.readBack page.baseId)
    checksum
    blockId := nodeIdToBlock page.baseId } with hback
  have hrepack : back.packNodes = page.packNodes := by
    rw [packNodes, packNodes, List.flatMap_map]
    simp only [hback, NodeRecordV3.pack_readBack]
  have hresum : back.calculateChecksumWithNodes = checksum := by
    rw [calculateChecksumWithNodes, hrepack, hsum, h.used]
    simp only [headerBytes, hback, List.length_map]
  have hfits : ¬ defaultPageSize < nodePageHeaderSize + page.usedBytes.toNat := by
    rw [usableSize, nodePageHeaderSize, defaultPageSize] at *
    omega
  rw [unpack, if_neg (by omega)]
  simp only [hused, hbaseField, hcount, hdata, hstored, packNodes, hnodes, hpid, hnext,
    UInt16.ofNat_toNat]
  exact (if_neg hfits).trans ((if_neg (not_not_intro rfl)).trans (if_neg (not_not_intro hresum)))

/-- The page after the calls, as long as every one succeeds. -/
def tryAddNodes : NodePage → List NodeRecordV3 → Except NativeBackendError NodePage
  | page, [] => .ok page
  | page, node :: nodes =>
    match page.addNode node with
    | (.ok (), page) => page.tryAddNodes nodes
    | (.error e, _) => .error e

/-- A record added stands behind the others. -/
theorem nodes_addNode {node : NodeRecordV3} (h : page.addNode node = (.ok (), page')) :
    page'.nodes = page.nodes ++ [node] := by
  rcases addNode_cases h with ⟨e, he, -⟩ | ⟨e, size, he, -⟩ | ⟨size, -, -, rfl⟩
  · cases he
  · cases he
  · rfl

theorem tryAddNodes_spec (h : page.tryAddNodes nodes = .ok page') :
    page' = page.addNodes nodes ∧ page'.nodes = page.nodes ++ nodes := by
  induction nodes generalizing page with
  | nil =>
    cases h
    exact ⟨rfl, (List.append_nil _).symm⟩
  | cons node nodes ih =>
    rw [tryAddNodes] at h
    split at h
    · rename_i next hadd
      obtain ⟨hpage, hnodes⟩ := ih h
      refine ⟨?_, ?_⟩
      · rw [hpage, addNodes, addNodes, List.foldl_cons, hadd]
      · rw [hnodes, nodes_addNode hadd, List.append_assoc]
        rfl
    · cases h

/-- Every record on a page has room on it. -/
theorem Accounted.payload_le (h : page.Accounted) {r : NodeRecordV3} (hr : r ∈ page.nodes) :
    r.payload.length ≤ usableSize := by
  have hpack : (r.pack page.baseId).length ≤ page.packNodes.length := by
    obtain ⟨before, after, hsplit⟩ := List.append_of_mem hr
    rw [packNodes, hsplit, List.flatMap_append, List.flatMap_cons]
    simp only [List.length_append]
    omega
  have hroom := h.room
  rw [← h.used] at hroom
  rw [NodeRecordV3.length_pack] at hpack
  omega

/-- The records come back the same exactly when no two ids are further apart than a delta reaches. -/
theorem node_page_round_trip {pageId : UInt64} (hb : ∀ r ∈ nodes, r.Built)
    (h : (new pageId).tryAddNodes nodes = .ok page) :
    (∃ bytes page', page.pack = .ok bytes ∧ unpack bytes = .ok page' ∧
      List.Forall₂ NodeRecordV3.Same nodes page'.nodes) ↔
    ∀ r ∈ nodes, ∀ s ∈ nodes, r.id.toInt ≤ s.id.toInt + maxDelta := by
  obtain ⟨hpage, hnodes⟩ := tryAddNodes_spec h
  rw [new, List.nil_append] at hnodes
  have hacc : page.Accounted := by
    rw [hpage]
    exact (accounted_new pageId).addNodes fun r hr => (hb r hr).exclusive
  have hstored : ∀ r ∈ page.nodes, r.Stored := by
    intro r hr
    exact (hb r (hnodes ▸ hr)).stored (hacc.payload_le hr)
  obtain ⟨bytes, checksum, hpack, hunpack⟩ := hacc.unpack_pack hstored
  rw [hpack]
  have hsame : List.Forall₂ NodeRecordV3.Same nodes
      (page.nodes.map (NodeRecordV3.readBack page.baseId)) ↔
      ∀ r ∈ nodes, r.id.toInt ≤ page.baseId.toInt + maxDelta := by
    rw [hnodes, List.forall₂_map_right_iff, List.forall₂_same]
    exact forall₂_congr fun r _ => NodeRecordV3.same_readBack
  constructor
  · rintro ⟨bytes', page', hbytes, hread, hall⟩ r hr s hs
    cases hbytes
    rw [hunpack] at hread
    cases hread
    have hreach := hsame.mp hall r hr
    have hleast := Int64.le_iff_toInt_le.mp (hacc.base s (hnodes ▸ hs))
    omega
  · intro hspread
    refine ⟨bytes, _, rfl, hunpack, hsame.mpr ?_⟩
    intro r hr
    obtain ⟨s, hs, hid⟩ := hacc.attained (List.ne_nil_of_mem (hnodes ▸ hr))
    rw [← hid]
    exact hspread r hr s (hnodes ▸ hs)

theorem node_page_round_trip_two : ∃ near far page bytes page',
    NodeRecordV3.newInline 300 0 1 2 [7, 8, 9] 0 0 0 0 = .ok near ∧
    NodeRecordV3.newExternal (-5) 0 1 2 4096 100 0 0 0 0 = .ok far ∧
    (new 1).tryAddNodes [near, far] = .ok page ∧ page.pack = .ok bytes ∧
    unpack bytes = .ok page' ∧ List.Forall₂ NodeRecordV3.Same [near, far] page'.nodes := by
  have hadd : (new 1).tryAddNodes [⟨300, 0, 1, 2, 3, some [7, 8, 9], none, 0, 0, 0, 0⟩,
      ⟨-5, 0, 1, 2, 100, none, some 4096, 0, 0, 0, 0⟩] = .ok ((new 1).addNodes
        [⟨300, 0, 1, 2, 3, some [7, 8, 9], none, 0, 0, 0, 0⟩,
          ⟨-5, 0, 1, 2, 100, none, some 4096, 0, 0, 0, 0⟩]) := by decide +kernel
  obtain ⟨bytes, page', hpack, hunpack, hall⟩ := (node_page_round_trip (by
    intro r hr
    rcases List.mem_pair.mp hr with rfl | rfl
    · exact .inl ⟨300, 0, 1, 2, [7, 8, 9], 0, 0, 0, 0, rfl⟩
    · exact .inr ⟨-5, 0, 1, 2, 4096, 100, 0, 0, 0, 0, rfl⟩) hadd).mpr (by decide)
  exact ⟨_, _, _, bytes, page', rfl, rfl, hadd, hpack, hunpack, hall⟩

/-- Of two records on one page, the second comes back under another id. -/
theorem not_node_page_round_trip : ∃ near far,
    NodeRecordV3.newInline 0 0 1 2 [] 0 0 0 0 = .ok near ∧
    NodeRecordV3.newInline 4294967296 0 1 2 [] 0 0 0 0 = .ok far ∧
    (do
      let page ← (new 1).tryAddNodes [near, far]
      let page' ← unpack (← page.pack)
      .ok (page'.nodes.map NodeRecordV3.id)) = .ok [0, 4294967295] := by
  refine ⟨⟨0, 0, 1, 2, 0, some [], none, 0, 0, 0, 0⟩,
    ⟨4294967296, 0, 1, 2, 0, some [], none, 0, 0, 0, 0⟩, rfl, rfl, ?_⟩
  decide +kernel

end NodePage

end SqliteGraph.V3
