import SqliteGraph.V3.Bincode
import SqliteGraph.V3.KvRoundTrip
import SqliteGraph.V3.WalLog

/-! Recovery reads what a log has flushed, from the whole file or from a torn one. -/
namespace SqliteGraph.V3
open Lib

/-- A file begins with a valid header, and both readers get just these records from it. -/
structure WalReads (codec : Bincode) (file : Bytes) (records : List V3WALRecord) : Prop where
  header : ∃ header, V3WALHeader.read "Failed to read WAL header" file = .ok header
  frames : (walFrames file).map (fun f => f.bind codec.deserialize) = records.map some
  recover : ∀ r, WALRecovery.recover codec (some file) r = .ok (records.foldl WALRecovery.replay r)

/-- A file that is there and not empty holds the flushed records. -/
def WalWellFormed (codec : Bincode) (flushed : List V3WALRecord) (file : Option Bytes) : Prop :=
  ∀ bytes, file = some bytes → bytes ≠ [] → WalReads codec bytes flushed

/-- The room a record takes in a file. -/
def recordSize (codec : Bincode) (record : V3WALRecord) : Nat := frameSize (record.payload codec)

/-- A call that adds to a log. -/
def WalCall.Adds : WalCall → Prop
  | append _ | flush => True
  | writeHeader _ | truncate => False

namespace V3WALRecord
variable {codec : Bincode} {record : V3WALRecord}

theorem Accepted.serialize (h : record.Accepted codec) :
    codec.serialize record = some (record.payload codec) := by
  obtain ⟨bytes, hs, -⟩ := h
  simp [payload, hs]

theorem Accepted.framable (h : record.Accepted codec) (hcodec : codec.RoundTrips) :
    Framable maxRecordSize (record.payload codec) := by
  refine ⟨(hcodec _ _ h.serialize).1, ?_⟩
  obtain ⟨bytes, hs, hlen⟩ := h
  simpa [payload, hs] using hlen

theorem Accepted.deserialize (h : record.Accepted codec) (hcodec : codec.RoundTrips) :
    codec.deserialize (record.payload codec) = some record := (hcodec _ _ h.serialize).2

end V3WALRecord

section Reading
variable {codec : Bincode} {records : List V3WALRecord} {file : Bytes} {cut : Nat}

theorem length_bytes :
    (WalLog.bytes codec records).length = (records.map (recordSize codec)).sum := by
  rw [WalLog.bytes, length_frames, List.map_map]
  rfl

theorem WalFile.length (h : WalFile codec records file) :
    file.length = v3WalHeaderSize + (records.map (recordSize codec)).sum := by
  obtain ⟨header, hm, -, -, rfl⟩ := h
  rw [List.length_append, V3WALHeader.length_toBytes hm, length_bytes]

theorem foldl_round (hcodec : codec.RoundTrips) (ha : ∀ record ∈ records, record.Accepted codec)
    (r : WALRecovery) :
    (records.map fun record => some (record.payload codec)).foldl (WALRecovery.round codec) r =
      records.foldl WALRecovery.replay r := by
  induction records generalizing r with
  | nil => rfl
  | cons record records ih =>
    have hround : WALRecovery.round codec r (some (record.payload codec)) = r.replay record := by
      rw [WALRecovery.round, (ha record (by simp)).deserialize hcodec]
    rw [List.map_cons, List.foldl_cons, hround, List.foldl_cons]
    exact ih (fun record hr => ha record (by simp [hr])) _

/-- A cut after the header leaves the header, and of the records what comes before the cut. -/
theorem WalFile.take (h : WalFile codec records file) (hcut : v3WalHeaderSize ≤ cut) :
    ∃ header : V3WALHeader, (∀ context, V3WALHeader.read context (file.take cut) = .ok header) ∧
      (file.take cut).drop v3WalHeaderSize =
        (WalLog.bytes codec records).take (cut - v3WalHeaderSize) := by
  obtain ⟨header, hm, hr, hv, rfl⟩ := h
  have hlen := V3WALHeader.length_toBytes hm
  have htake : (header.toBytes ++ WalLog.bytes codec records).take cut =
      header.toBytes ++ (WalLog.bytes codec records).take (cut - v3WalHeaderSize) := by
    rw [List.take_append, List.take_of_length_le (by omega), hlen]
  refine ⟨header, fun context => ?_, ?_⟩
  · rw [htake]
    exact V3WALHeader.read_append hm hr hv
  · rw [htake, List.drop_left' hlen]

/-- The frames of a file that has been cut: the whole records, and at most one thing more, which is
skipped. -/
theorem WalFile.frames (h : WalFile codec records file) (hcodec : codec.RoundTrips)
    (ha : ∀ record ∈ records, record.Accepted codec) (hcut : v3WalHeaderSize ≤ cut) :
    ∃ torn, (torn = [] ∨ torn = [none]) ∧ (file.length ≤ cut → torn = []) ∧
      walFrames (file.take cut) = (whole (recordSize codec) (cut - v3WalHeaderSize) records).map
        (fun record => some (record.payload codec)) ++ torn := by
  obtain ⟨-, -, hdrop⟩ := h.take hcut
  have hframable : ∀ p ∈ records.map (V3WALRecord.payload codec), Framable maxRecordSize p := by
    intro p hp
    obtain ⟨record, hr, rfl⟩ := List.mem_map.mp hp
    exact (ha record hr).framable hcodec
  have hfuel : ((Lib.frames (records.map (V3WALRecord.payload codec))).take
      (cut - v3WalHeaderSize)).length ≤ (file.take cut).length := by
    change ((WalLog.bytes codec records).take _).length ≤ _
    rw [← hdrop, List.length_drop]
    omega
  obtain ⟨torn, htorn, hall, hread⟩ := readFrames_take (by decide) hframable hfuel
  refine ⟨torn, htorn, fun hle => hall ?_, ?_⟩
  · rw [h.length] at hle
    change (WalLog.bytes codec records).length ≤ _
    rw [length_bytes]
    omega
  · rw [walFrames, hdrop, WalLog.bytes, hread, whole_map, List.map_map]
    rfl

/-- The whole file is read. -/
theorem WalFile.reads (h : WalFile codec records file) (hcodec : codec.RoundTrips)
    (ha : ∀ record ∈ records, record.Accepted codec) : WalReads codec file records := by
  have hlen := h.length
  have hle : v3WalHeaderSize ≤ file.length := by omega
  obtain ⟨header, hheader, -⟩ := h.take hle
  obtain ⟨torn, -, hall, hframes⟩ := h.frames hcodec ha hle
  rw [List.take_length] at hheader hframes
  rw [hall (le_refl _), List.append_nil, whole_of_le (by omega)] at hframes
  refine ⟨⟨header, hheader _⟩, ?_, fun r => ?_⟩
  · rw [hframes, List.map_map]
    exact List.map_congr_left fun record hr => (ha record hr).deserialize hcodec
  · simp [WALRecovery.recover, hheader, Bind.bind, Except.bind, hframes, foldl_round hcodec ha]

theorem WalSim.wellFormed {l : WalLog} {s : WalState} (h : WalSim codec l s)
    (hcodec : codec.RoundTrips) : WalWellFormed codec l.flushed s.file := by
  intro bytes hbytes hne
  cases hheader : l.hasHeader with
  | false =>
    rw [(h.absent hheader).1] at hbytes
    cases hbytes
  | true =>
    obtain ⟨file, hfile, hwal⟩ := h.present hheader
    obtain rfl : file = bytes := by simpa [hfile] using hbytes
    exact hwal.reads hcodec fun record hr => h.accepted record (List.mem_append_left _ hr)

end Reading

section Torn
variable {codec : Bincode} {records : List V3WALRecord} {file : Bytes} {cut : Nat}

/-- The log just after its header has been written. -/
def WALWriter.createdLog (w : WALWriter) : WalLog := ⟨true, [], [], w.currentLsn, w.committedLsn⟩

theorem WALWriter.new_ok {found : Option Bytes} {startLsn : UInt64} {w : WALWriter}
    (hw : WALWriter.new found startLsn = .ok w) (hstart : lsnIsValid startLsn) :
    w = ⟨w.currentLsn, w.committedLsn, [], walFlushThreshold⟩ ∧ w.createdLog.Numbered := by
  cases found with
  | none =>
    obtain rfl : _ = w := Except.ok.inj hw
    exact ⟨rfl, hstart, UInt64.zero_le⟩
  | some bytes =>
    cases hr : V3WALHeader.read "Failed to read WAL header" bytes with
    | error e => simp [WALWriter.new, hr, Bind.bind, Except.bind] at hw
    | ok header =>
      obtain rfl : _ = w := by simpa [WALWriter.new, hr, Bind.bind, Except.bind] using hw
      exact ⟨rfl, V3WALHeader.validate_numbers (V3WALHeader.read_validate hr)⟩

/-- A new writer, whatever file it has found, makes a file with a valid header. -/
theorem WalSim.created {found : Option Bytes} {startLsn now : UInt64} {w : WALWriter}
    (hw : WALWriter.new found startLsn = .ok w) (hstart : lsnIsValid startLsn) :
    WalSim codec w.createdLog (WALWriter.writeHeader now ⟨found, w⟩).2 := by
  obtain ⟨hform, hnumbered⟩ := WALWriter.new_ok hw hstart
  have hfresh : WalSim codec ⟨false, [], [], w.currentLsn, w.committedLsn⟩ ⟨none, w⟩ := by
    rw [hform]
    exact .fresh
  exact hfresh.writeHeader rfl hnumbered

section Kv
variable {J : Type} {json : JsonCodec J} {hashKey : Bytes → UInt64} {clock : Nat → UInt64}
  {kv : KvStore J}

theorem foldl_kvRound (hcodec : codec.RoundTrips) (ha : ∀ record ∈ records, record.Accepted codec)
    (s : KvStore J × Nat) :
    (records.map fun record => some (record.payload codec)).foldl
        (kvRound json hashKey clock codec) s =
      records.foldl (applyKvRecord json hashKey clock) s := by
  induction records generalizing s with
  | nil => rfl
  | cons record records ih =>
    have hround : kvRound json hashKey clock codec s (some (record.payload codec)) =
        applyKvRecord json hashKey clock s record := by
      rw [kvRound, (ha record (by simp)).deserialize hcodec]
    rw [List.map_cons, List.foldl_cons, hround, ih fun record hr => ha record (by simp [hr])]
    rfl

theorem WalFile.replayKv_take (h : WalFile codec records file) (hcodec : codec.RoundTrips)
    (ha : ∀ record ∈ records, record.Accepted codec) (hcut : v3WalHeaderSize ≤ cut) :
    replayKv json hashKey clock codec kv (file.take cut) =
      .ok ((whole (recordSize codec) (cut - v3WalHeaderSize) records).foldl
        (applyKvRecord json hashKey clock) (kv, 0)) := by
  obtain ⟨header, hheader, -⟩ := h.take hcut
  obtain ⟨torn, htorn, -, hframes⟩ := h.frames hcodec ha hcut
  have hskip : ∀ s, torn.foldl (kvRound json hashKey clock codec) s = s := by
    rcases htorn with rfl | rfl <;> intro s <;> rfl
  rw [replayKv, hheader]
  simp only [Bind.bind, Except.bind]
  rw [hframes, List.foldl_append, hskip,
    foldl_kvRound hcodec fun record hr => ha record (whole_subset hr)]

theorem WalFile.replayKv (h : WalFile codec records file) (hcodec : codec.RoundTrips)
    (ha : ∀ record ∈ records, record.Accepted codec) :
    replayKv json hashKey clock codec kv file =
      .ok (records.foldl (applyKvRecord json hashKey clock) (kv, 0)) := by
  have hlen := h.length
  have htake : V3.replayKv json hashKey clock codec kv (file.take file.length) =
      .ok ((whole (recordSize codec) (file.length - v3WalHeaderSize) records).foldl
        (applyKvRecord json hashKey clock) (kv, 0)) := h.replayKv_take hcodec ha (by omega)
  rwa [List.take_length, whole_of_le (by omega)] at htake

end Kv

theorem hasHeader_exec {l : WalLog} {call : WalCall} (hl : l.hasHeader = true) (hadds : call.Adds) :
    (l.exec codec call).hasHeader = true := by
  cases call with
  | writeHeader now => exact hadds.elim
  | truncate => exact hadds.elim
  | flush => exact hl
  | append record =>
    rw [WalLog.exec, WalLog.append]
    split
    · split <;> exact hl
    · exact hl

end Torn

end SqliteGraph.V3
