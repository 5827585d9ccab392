import SqliteGraph.V3.NodePageCodec

/-! Finding a record in the bytes of a page without decoding the others. -/
namespace SqliteGraph.V3
open Lib

namespace NodePage

/-- `find_node`'s loop between `left` and `right`; the index is never outside the page. -/
def findNodeLoop (nodes : List NodeRecordV3) (nodeId : Int64) (left right : Nat) :
    Option NodeRecordV3 :=
  if left < right then
    let mid := left + (right - left) / 2
    match nodes[mid]? with
    | none => none
    | some node =>
      if node.id = nodeId then some node
      else if node.id < nodeId then findNodeLoop nodes nodeId (mid + 1) right
      else findNodeLoop nodes nodeId left mid
  else
    match nodes[left]? with
    | some node => if node.id = nodeId then some node else none
    | none => none
termination_by right - left

def findNode (page : NodePage) (nodeId : Int64) : Option NodeRecordV3 :=
  findNodeLoop page.nodes nodeId 0 page.nodes.length

/-- `decode_varint(&data[offset..])`: the value and the offset behind it. A start past the end of
the slice panics. -/
def varintAt (limit : Nat) (field reason : String) (data : Bytes) (offset : Nat) :
    Except NativeBackendError (Nat × Nat) :=
  if data.length < offset then .error (.panic "range start index out of range for slice")
  else match decodeVarint (data.drop offset) with
    | .ok (value, bytesRead) =>
      if limit < value then .error (.invalidHeader field reason) else .ok (value, offset + bytesRead)
    | .error _ => .error (.invalidHeader field reason)

abbrev varint64At := varintAt (2 ^ 64 - 1)
abbrev varint16At := varintAt (2 ^ 16 - 1)

/-- From behind a record's id delta to the start of the next record; the flags and the data are
stepped over unseen. -/
def skipRemainingFields (data : Bytes) (offset : Nat) : Except NativeBackendError Nat := do
  let offset := offset + 4
  let (_, offset) ← varint16At "node.kind_offset" "invalid varint encoding" data offset
  let (_, offset) ← varint16At "node.name_offset" "invalid varint encoding" data offset
  let (encoded, offset) ← varint16At "node.data_len" "invalid varint encoding" data offset
  let encodedDataLen := UInt16.ofNat encoded
  let (_, offset) ←
    varint64At "node.outgoing_cluster_offset" "invalid varint encoding" data offset
  let (_, offset) ← varint64At "node.outgoing_edge_count" "invalid varint encoding" data offset
  let (_, offset) ←
    varint64At "node.incoming_cluster_offset" "invalid varint encoding" data offset
  let (_, offset) ← varint64At "node.incoming_edge_count" "invalid varint encoding" data offset
  if encodedDataLen &&& externalDataFlag != 0 then .ok (offset + 8)
  else .ok (offset + (encodedDataLen &&& maxDataLen).toNat)

/-- The four bytes at the offset. -/
def flagsAt (data : Bytes) (offset : Nat) : Except NativeBackendError (UInt32 × Nat) :=
  if data.length < offset + 4 then
    .error (.invalidHeader "node.flags" "insufficient bytes for flags")
  else .ok (.ofNat (beNat (slice data offset 4)), offset + 4)

/-- The inline data or the external offset that ends the record. -/
def payloadAt (encodedDataLen : UInt16) (data : Bytes) (offset : Nat) :
    Except NativeBackendError (Option Bytes × Option UInt64) :=
  let dataLen := (encodedDataLen &&& maxDataLen).toNat
  if encodedDataLen &&& externalDataFlag != 0 then
    if data.length < offset + 8 then .error (.invalidHeader "node.data_external_offset"
      s!"insufficient bytes for external offset: need 8, have {data.length - offset}")
    else .ok (none, some (.ofNat (beNat (slice data offset 8))))
  else if data.length < offset + dataLen then .error (.invalidHeader "node.data_inline"
    s!"insufficient bytes for inline data: need {dataLen}, have {data.length - offset}")
  else .ok (some (slice data offset dataLen), none)

/-- The record at the front of the data, all of it. -/
def decodeNodeAtOffset (data : Bytes) (baseId : Int64) :
    Except NativeBackendError (Option NodeRecordV3) := do
  let (delta, offset) ← varint64At "node.id_delta" "invalid varint encoding for ID delta" data 0
  let id ← NodeRecordV3.decodeId delta baseId
  let (flags, offset) ← flagsAt data offset
  let (kindOffset, offset) ←
    varint16At "node.kind_offset" "invalid varint encoding for kind_offset" data offset
  let (nameOffset, offset) ←
    varint16At "node.name_offset" "invalid varint encoding for name_offset" data offset
  let (encodedDataLen, offset) ←
    varint16At "node.data_len" "invalid varint encoding for data_len" data offset
  let (outgoingClusterOffset, offset) ← varint64At "node.outgoing_cluster_offset"
    "invalid varint encoding for outgoing_cluster_offset" data offset
  let (outgoingEdgeCount, offset) ← varint64At "node.outgoing_edge_count"
    "invalid varint encoding for outgoing_edge_count" data offset
  let (incomingClusterOffset, offset) ← varint64At "node.incoming_cluster_offset"
    "invalid varint encoding for incoming_cluster_offset" data offset
  let (incomingEdgeCount, offset) ← varint64At "node.incoming_edge_count"
    "invalid varint encoding for incoming_edge_count" data offset
  let (dataInline, dataExternalOffset) ← payloadAt (.ofNat encodedDataLen) data offset
  .ok (some ⟨id, flags, .ofNat kindOffset, .ofNat nameOffset, .ofNat encodedDataLen, dataInline,
    dataExternalOffset, .ofNat outgoingClusterOffset, .ofNat outgoingEdgeCount,
    .ofNat incomingClusterOffset, .ofNat incomingEdgeCount⟩)

/-- The scan over what is left of the count: ids only, until the one that is asked for. -/
def scanNodes (data : Bytes) (baseId nodeId : Int64) :
    Nat → Nat → Except NativeBackendError (Option NodeRecordV3)
  | 0, _ => .ok none
  | count + 1, nodeStart => do
    let (delta, offset) ← varint64At "node.id_delta" "invalid varint encoding" data nodeStart
    let id ← NodeRecordV3.decodeId delta baseId
    if id = nodeId then decodeNodeAtOffset (data.drop nodeStart) baseId
    else scanNodes data baseId nodeId count (← skipRemainingFields data offset)

/-- The slices that the header promises are taken without a check. -/
def findNodeLazy (pageData : Bytes) (nodeId : Int64) :
    Except NativeBackendError (Option NodeRecordV3) :=
  let usedBytes := usedBytesField pageData
  if pageData.length < nodePageHeaderSize + usedBytes then
    .error (.panic "range end index out of range for slice")
  else scanNodes (slice pageData nodePageHeaderSize usedBytes) (baseIdField pageData) nodeId
    (nodeCountField pageData) 0

variable {data bytes rest : Bytes} {baseId nodeId : Int64} {node : NodeRecordV3}
  {nodes : List NodeRecordV3} {limit v n start offset : Nat}

/-- A reader that knows its offset stands where one that knows what is left does. -/
def At (data : Bytes) (offset : Nat) (rest : Bytes) : Prop :=
  offset ≤ data.length ∧ rest = data.drop offset

theorem At.length (h : At data offset rest) : offset + rest.length = data.length := by
  obtain ⟨hle, rfl⟩ := h
  rw [List.length_drop]
  omega

theorem At.drop (h : At data offset rest) (hn : n ≤ rest.length) :
    At data (offset + n) (rest.drop n) := by
  have := h.length
  obtain ⟨-, rfl⟩ := h
  exact ⟨by omega, List.drop_drop⟩

/-- The varint at the offset, whatever its reader calls it. -/
def VarintAt (limit : Nat) (data : Bytes) (offset v next : Nat) : Prop :=
  ∀ field reason, varintAt limit field reason data offset = .ok (v, next)

theorem le_of_decodeVarint (h : decodeVarint bytes = .ok (v, n)) : n ≤ bytes.length := by
  have hloop : ∀ (bytes : Bytes) (i r : Nat), decodeVarintLoop bytes i r = .ok (v, n) →
      n ≤ i + bytes.length := by
    intro bytes
    induction bytes with
    | nil => exact fun i r h => by cases h
    | cons byte bytes ih =>
      intro i r h
      simp only [decodeVarintLoop] at h
      rw [List.length_cons]
      split at h
      · cases h
      · split at h
        · cases h
          omega
        · split at h
          · cases h
          · have := ih _ _ h
            omega
  rw [decodeVarint] at h
  split at h
  · cases h
  · have := hloop _ _ _ h
    omega

theorem varintAt_of_readVarint {field reason : String}
    (h : NodeRecordV3.readVarint limit field reason bytes = .ok (v, rest))
    (hat : At data start bytes) : ∃ next, VarintAt limit data start v next ∧ At data next rest := by
  rw [NodeRecordV3.readVarint] at h
  split at h
  · rename_i value bytesRead hdecode
    split at h
    · cases h
    · rename_i hlimit
      cases h
      refine ⟨start + bytesRead, ?_, hat.drop (le_of_decodeVarint hdecode)⟩
      intro field reason
      have hle := hat.1
      rw [varintAt, if_neg (by omega), ← hat.2, hdecode]
      exact if_neg hlimit
  · cases h

theorem flagsAt_of_readFlags {flags : UInt32} (h : NodeRecordV3.readFlags bytes = .ok (flags, rest))
    (hat : At data start bytes) :
    flagsAt data start = .ok (flags, start + 4) ∧ At data (start + 4) rest := by
  have hlen := hat.length
  simp only [NodeRecordV3.readFlags, readExact] at h
  split at h
  · rename_i x y hread
    split at hread
    · rename_i hroom
      cases hread
      cases h
      refine ⟨?_, hat.drop hroom⟩
      rw [flagsAt, if_neg (by omega), slice, ← hat.2]
    · cases hread
  · cases h

/-- How many bytes of data end a record. -/
def payloadSize (encodedDataLen : UInt16) : Nat :=
  if encodedDataLen &&& externalDataFlag != 0 then 8 else (encodedDataLen &&& maxDataLen).toNat

theorem payloadAt_of_readPayload {len : UInt16} {inl : Option Bytes} {ext : Option UInt64}
    (h : NodeRecordV3.readPayload len bytes = .ok ((inl, ext), rest)) (hat : At data start bytes) :
    payloadAt len data start = .ok (inl, ext) ∧ At data (start + payloadSize len) rest := by
  have hlen := hat.length
  simp only [NodeRecordV3.readPayload, readExact] at h
  simp only [payloadAt, payloadSize]
  split at h
  · rename_i hflag
    rw [if_pos hflag, if_pos hflag]
    split at h
    · rename_i x y hread
      split at hread
      · rename_i hroom
        cases hread
        cases h
        refine ⟨?_, hat.drop hroom⟩
        rw [if_neg (by omega), slice, ← hat.2]
      · cases hread
    · cases h
  · rename_i hflag
    rw [if_neg hflag, if_neg hflag]
    split at h
    · rename_i x y hread
      split at hread
      · rename_i hroom
        cases hread
        cases h
        refine ⟨?_, hat.drop hroom⟩
        rw [if_neg (by omega), slice, ← hat.2]
      · cases hread
    · cases h

/-- Each field of a record that decodes, by its offset. -/
theorem fieldsAt_of_unpack (h : NodeRecordV3.unpack baseId bytes = .ok (node, rest))
    (hat : At data start bytes) :
    ∃ delta o kind o₁ name o₂ len o₃ outOff o₄ outCount o₅ inOff o₆ inCount o₇,
      VarintAt (2 ^ 64 - 1) data start delta o ∧
      NodeRecordV3.decodeId delta baseId = .ok node.id ∧
      flagsAt data o = .ok (node.flags, o + 4) ∧
      VarintAt (2 ^ 16 - 1) data (o + 4) kind o₁ ∧ VarintAt (2 ^ 16 - 1) data o₁ name o₂ ∧
      VarintAt (2 ^ 16 - 1) data o₂ len o₃ ∧ VarintAt (2 ^ 64 - 1) data o₃ outOff o₄ ∧
      VarintAt (2 ^ 64 - 1) data o₄ outCount o₅ ∧ VarintAt (2 ^ 64 - 1) data o₅ inOff o₆ ∧
      VarintAt (2 ^ 64 - 1) data o₆ inCount o₇ ∧
      payloadAt (.ofNat len) data o₇ = .ok (node.dataInline, node.dataExternalOffset) ∧
      At data (o₇ + payloadSize (.ofNat len)) rest ∧
      node = ⟨node.id, node.flags, .ofNat kind, .ofNat name, .ofNat len, node.dataInline,
        node.dataExternalOffset, .ofNat outOff, .ofNat outCount, .ofNat inOff, .ofNat inCount⟩ := by
  rw [NodeRecordV3.unpack] at h
  obtain ⟨⟨delta, b⟩, hdelta, h⟩ := except_bind_eq_ok h
  obtain ⟨id, hid, h⟩ := except_bind_eq_ok h
  obtain ⟨⟨flags, b₁⟩, hflags, h⟩ := except_bind_eq_ok h
  obtain ⟨⟨kind, b₂⟩, hkind, h⟩ := except_bind_eq_ok h
  obtain ⟨⟨name, b₃⟩, hname, h⟩ := except_bind_eq_ok h
  obtain ⟨⟨len, b₄⟩, hlen, h⟩ := except_bind_eq_ok h
  obtain ⟨⟨outOff, b₅⟩, houtOff, h⟩ := except_bind_eq_ok h
  obtain ⟨⟨outCount, b₆⟩, houtCount, h⟩ := except_bind_eq_ok h
  obtain ⟨⟨inOff, b₇⟩, hinOff, h⟩ := except_bind_eq_ok h
  obtain ⟨⟨inCount, b₈⟩, hinCount, h⟩ := except_bind_eq_ok h
  obtain ⟨⟨⟨inl, ext⟩, b₉⟩, hpayload, h⟩ := except_bind_eq_ok h
  cases h
  obtain ⟨o, hdelta, hat⟩ := varintAt_of_readVarint hdelta hat
  obtain ⟨hflags, hat⟩ := flagsAt_of_readFlags hflags hat
  obtain ⟨o₁, hkind, hat⟩ := varintAt_of_readVarint hkind hat
  obtain ⟨o₂, hname, hat⟩ := varintAt_of_readVarint hname hat
  obtain ⟨o₃, hlen, hat⟩ := varintAt_of_readVarint hlen hat
  obtain ⟨o₄, houtOff, hat⟩ := varintAt_of_readVarint houtOff hat
  obtain ⟨o₅, houtCount, hat⟩ := varintAt_of_readVarint houtCount hat
  obtain ⟨o₆, hinOff, hat⟩ := varintAt_of_readVarint hinOff hat
  obtain ⟨o₇, hinCount, hat⟩ := varintAt_of_readVarint hinCount hat
  obtain ⟨hpayload, hat⟩ := payloadAt_of_readPayload hpayload hat
  exact ⟨delta, o, kind, o₁, name, o₂, len, o₃, outOff, o₄, outCount, o₅, inOff, o₆, inCount, o₇,
    hdelta, hid, hflags, hkind, hname, hlen, houtOff, houtCount, hinOff, hinCount, hpayload, hat, rfl⟩

theorem decodeNodeAtOffset_eq (h : NodeRecordV3.unpack baseId bytes = .ok (node, rest)) :
    decodeNodeAtOffset bytes baseId = .ok (some node) := by
  obtain ⟨delta, o, kind, o₁, name, o₂, len, o₃, outOff, o₄, outCount, o₅, inOff, o₆, inCount, o₇,
    hdelta, hid, hflags, hkind, hname, hlen, houtOff, houtCount, hinOff, hinCount, hpayload, -,
    hnode⟩ := fieldsAt_of_unpack h (show At bytes 0 bytes from ⟨Nat.zero_le _, rfl⟩)
  rw [decodeNodeAtOffset, varint64At, hdelta]
  simp only [bind, Except.bind, hid, hflags, varint16At, hkind _ _, hname _ _, hlen _ _,
    houtOff _ _, houtCount _ _, hinOff _ _, hinCount _ _, hpayload]
  rw [← hnode]

/-- Skipping a record leads to where its decoding ends. -/
theorem skip_eq (h : NodeRecordV3.unpack baseId bytes = .ok (node, rest))
    (hat : At data start bytes) : ∃ delta offset next,
      VarintAt (2 ^ 64 - 1) data start delta offset ∧
      NodeRecordV3.decodeId delta baseId = .ok node.id ∧
      skipRemainingFields data offset = .ok next ∧ At data next rest := by
  obtain ⟨delta, o, kind, o₁, name, o₂, len, o₃, outOff, o₄, outCount, o₅, inOff, o₆, inCount, o₇,
    hdelta, hid, hflags, hkind, hname, hlen, houtOff, houtCount, hinOff, hinCount, hpayload, hat,
    hnode⟩ := fieldsAt_of_unpack h hat
  refine ⟨delta, o, o₇ + payloadSize (.ofNat len), hdelta, hid, ?_, hat⟩
  simp only [skipRemainingFields, bind, Except.bind, varint16At, varint64At, hkind _ _, hname _ _,
    hlen _ _, houtOff _ _, houtCount _ _, hinOff _ _, hinCount _ _, payloadSize]
  split <;> rfl

/-- The scan returns the first record with the id among those that decode. -/
theorem scanNodes_eq (h : unpackNodes baseId n bytes = .ok (nodes, rest))
    (hat : At data start bytes) : scanNodes data baseId nodeId n start =
      .ok (nodes.find? fun r => decide (r.id = nodeId)) := by
  induction n generalizing bytes nodes start with
  | zero =>
    cases h
    rfl
  | succ n ih =>
    rw [unpackNodes] at h
    obtain ⟨⟨node, b⟩, hnode, h⟩ := except_bind_eq_ok h
    obtain ⟨⟨others, b'⟩, hothers, h⟩ := except_bind_eq_ok h
    cases h
    obtain ⟨delta, offset, next, hdelta, hid, hskip, hnext⟩ := skip_eq hnode hat
    simp only [scanNodes, varint64At, hdelta _ _, hid, hskip, bind, Except.bind]
    by_cases heq : node.id = nodeId
    · rw [if_pos heq, ← hat.2, decodeNodeAtOffset_eq hnode, List.find?_cons_of_pos (by simpa using heq)]
    · rw [if_neg heq, ih hothers hnext, List.find?_cons_of_neg (by simpa using heq)]

variable {page : NodePage} {left right : Nat}

/-- The records of an accepted page are those of its data region, all of it. -/
theorem nodes_of_unpack (h : unpack bytes = .ok page) :
    nodePageHeaderSize + usedBytesField bytes ≤ bytes.length ∧
      unpackNodes (baseIdField bytes) (nodeCountField bytes)
        (slice bytes nodePageHeaderSize (usedBytesField bytes)) = .ok (page.nodes, []) := by
  rw [unpack] at h
  split at h
  · cases h
  · rename_i hlen
    simp only at h
    split at h
    · cases h
    · rename_i hroom
      split at h
      · cases h
      · rename_i nodes rest hnodes
        split at h
        · cases h
        · rename_i hrest
          split at h
          · cases h
          · cases h
            refine ⟨by omega, ?_⟩
            rw [hnodes, not_ne_iff.mp hrest]

/-- Records by strictly increasing id. -/
def Increasing (nodes : List NodeRecordV3) : Prop := nodes.Pairwise fun r s => r.id < s.id

instance : Decidable (Increasing nodes) := inferInstanceAs (Decidable (List.Pairwise _ _))

theorem Increasing.lt (h : Increasing nodes) {i j : Nat} {r s : NodeRecordV3} (hij : i < j)
    (hi : nodes[i]? = some r) (hj : nodes[j]? = some s) : r.id.toInt < s.id.toInt := by
  obtain ⟨hi', rfl⟩ := List.getElem?_eq_some_iff.mp hi
  obtain ⟨hj', rfl⟩ := List.getElem?_eq_some_iff.mp hj
  exact Int64.lt_iff_toInt_lt.mp (List.pairwise_iff_getElem.mp h i j hi' hj' hij)

/-- The first record with an id is the only one. -/
theorem Increasing.find (h : Increasing nodes) {i : Nat} (hi : nodes[i]? = some node) :
    nodes.find? (fun r => decide (r.id = node.id)) = some node := by
  cases hf : nodes.find? fun r => decide (r.id = node.id) with
  | none =>
    have hno := List.find?_eq_none.mp hf node (List.mem_of_getElem? hi)
    exact absurd (decide_eq_true rfl) hno
  | some r =>
    have hid : r.id = node.id := by simpa using List.find?_some hf
    obtain ⟨j, hj⟩ := List.getElem?_of_mem (List.mem_of_find?_eq_some hf)
    rcases Nat.lt_trichotomy i j with hij | rfl | hij
    · have := h.lt hij hi hj
      rw [hid] at this
      omega
    · exact hj.symm.trans hi
    · have := h.lt hij hj hi
      rw [hid] at this
      omega

theorem find_none (hle : right ≤ left)
    (hlo : ∀ i < left, ∀ r, nodes[i]? = some r → r.id < nodeId)
    (hhi : ∀ i, right ≤ i → ∀ r, nodes[i]? = some r → nodeId < r.id) :
    nodes.find? (fun r => decide (r.id = nodeId)) = none := by
  rw [List.find?_eq_none]
  intro r hr
  obtain ⟨i, hi⟩ := List.getElem?_of_mem hr
  have hid : r.id ≠ nodeId := by
    rintro rfl
    have hirr : ¬ r.id.toInt < r.id.toInt := Int.lt_irrefl _
    rcases Nat.lt_or_ge i left with hil | hil
    · exact hirr (Int64.lt_iff_toInt_lt.mp (hlo i hil r hi))
    · exact hirr (Int64.lt_iff_toInt_lt.mp (hhi i (by omega) r hi))
  simpa using hid

/-- Between bounds that keep the id, the binary search finds the record with it. -/
theorem findNodeLoop_eq (h : Increasing nodes) (hright : right ≤ nodes.length)
    (hlo : ∀ i < left, ∀ r, nodes[i]? = some r → r.id < nodeId)
    (hhi : ∀ i, right ≤ i → ∀ r, nodes[i]? = some r → nodeId < r.id) :
    findNodeLoop nodes nodeId left right = nodes.find? fun r => decide (r.id = nodeId) := by
  have htrans : ∀ {x y z : Int64}, x < y → y < z → x < z := fun hxy hyz => by
    rw [Int64.lt_iff_toInt_lt] at *
    omega
  fun_induction findNodeLoop nodes nodeId left right with
  | case1 left right hlt mid hnone =>
    have hout := List.getElem?_eq_none_iff.mp hnone
    omega
  | case2 left right hlt mid node hnode hid =>
    rw [← hid, h.find hnode]
  | case3 left right hlt mid node hnode hne hless ih =>
    apply ih hright
    · intro i hi r hr
      rcases Nat.lt_or_eq_of_le (Nat.le_of_lt_succ hi) with hi | rfl
      · exact htrans (Int64.lt_iff_toInt_lt.mpr (h.lt hi hr hnode)) hless
      · rw [hnode] at hr
        cases hr
        exact hless
    · exact hhi
  | case4 left right hlt mid node hnode hne hless ih =>
    have hmore : nodeId < node.id := by
      rw [Int64.lt_iff_toInt_lt] at hless ⊢
      have hne' : node.id.toInt ≠ nodeId.toInt := fun heq => hne (Int64.toInt_inj.mp heq)
      omega
    apply ih (by omega) hlo
    intro i hi r hr
    rcases Nat.lt_or_eq_of_le hi with hi | rfl
    · exact htrans hmore (Int64.lt_iff_toInt_lt.mpr (h.lt hi hnode hr))
    · rw [hnode] at hr
      cases hr
      exact hmore
  | case5 left right hlt node hnode hid =>
    rw [← hid, h.find hnode]
  | case6 left right hlt node hnode hne =>
    exact (find_none (Nat.le_of_not_lt hlt) hlo hhi).symm
  | case7 left right hlt hnone =>
    exact (find_none (Nat.le_of_not_lt hlt) hlo hhi).symm

/-- On every accepted page the scan returns the first record with the id; where the ids increase,
so does the binary search over the decoded page. -/
theorem lazy_search (h : unpack bytes = .ok page) (nodeId : Int64) :
    findNodeLazy bytes nodeId = .ok (page.nodes.find? fun r => decide (r.id = nodeId)) ∧
      (Increasing page.nodes → findNodeLazy bytes nodeId = .ok (page.findNode nodeId)) := by
  obtain ⟨hlen, hnodes⟩ := nodes_of_unpack h
  have hlazy : findNodeLazy bytes nodeId =
      .ok (page.nodes.find? fun r => decide (r.id = nodeId)) := by
    rw [findNodeLazy, if_neg (by omega)]
    exact scanNodes_eq hnodes ⟨Nat.zero_le _, rfl⟩
  refine ⟨hlazy, fun hinc => ?_⟩
  have hsearch : page.findNode nodeId = page.nodes.find? fun r => decide (r.id = nodeId) := by
    apply findNodeLoop_eq hinc (Nat.le_refl _)
    · exact fun i hi => absurd hi (Nat.not_lt_zero i)
    · intro i hi r hr
      rw [List.getElem?_eq_none hi] at hr
      cases hr
  rw [hlazy, hsearch]

theorem lazy_search_two : ∃ bytes page, unpack bytes = .ok page ∧
    page.nodes.map NodeRecordV3.id = [7, 9] ∧
    findNodeLazy bytes 9 = .ok (page.findNode 9) := by
  let records : List NodeRecordV3 := [⟨7, 0, 1, 2, 3, some [7, 8, 9], none, 0, 0, 0, 0⟩,
    ⟨9, 0, 1, 2, 100, none, some 4096, 0, 0, 0, 0⟩]
  have hacc : ((new 1).addNodes records).Accounted :=
    (accounted_new 1).addNodes (by decide)
  have hnodes : ((new 1).addNodes records).nodes = records := by decide +kernel
  have hstored : ∀ r ∈ ((new 1).addNodes records).nodes, r.Stored := by
    intro r hr
    rw [hnodes] at hr
    rcases List.mem_pair.mp hr with rfl | rfl
    · exact .inl ⟨_, rfl, rfl, rfl, by decide⟩
    · exact .inr ⟨rfl, by decide⟩
  obtain ⟨bytes, checksum, -, hunpack⟩ := hacc.unpack_pack hstored
  let back := ((new 1).addNodes records).nodes.map
    (NodeRecordV3.readBack ((new 1).addNodes records).baseId)
  have hids : back.map NodeRecordV3.id = [7, 9] := by decide +kernel
  have hinc : Increasing back := by decide +kernel
  exact ⟨bytes, _, hunpack, hids, (lazy_search hunpack 9).2 hinc⟩

end NodePage

end SqliteGraph.V3
