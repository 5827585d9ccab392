import SqliteGraph.V3.WalRecovery

/-! The log as the records it holds, and the file and buffer that carry them. -/
namespace SqliteGraph.V3
open Lib

namespace V3WALHeader
variable {h : V3WALHeader} {rest : Bytes} {context : String}

theorem length_toBytes (hm : h.magic.length = 8) : h.toBytes.length = v3WalHeaderSize := by
  simp [toBytes, hm, v3WalHeaderSize]

theorem fromBytes_toBytes (hm : h.magic.length = 8) (hr : h.reserved2 = 0) :
    fromBytes h.toBytes = .ok h := by
  have hlen := length_toBytes hm
  rw [fromBytes, if_neg (by omega)]
  congr 1
  obtain ⟨m, ver, ps, ca, cu, co, ch, r0, r1, r2⟩ := h
  replace hm : m.length = 8 := hm
  replace hr : r2 = 0 := hr
  simp only [toBytes, slice_append_right, slice_append_left, slice_self, hm, length_leBytes,
    Nat.reduceLeDiff, Nat.reduceSub, le_refl, Nat.sub_self, mk.injEq, true_and, hr, and_true]
  refine ⟨?_, ?_, ?_, ?_, ?_, ?_, ?_, ?_⟩
  · rw [leNat_leBytes ver.toNat_lt, UInt32.ofNat_toNat]
  · rw [leNat_leBytes ps.toNat_lt, UInt32.ofNat_toNat]
  all_goals rw [leNat_leBytes (UInt64.toNat_lt _), UInt64.ofNat_toNat]

/-- A valid header at the front of a file is read, whatever follows it. -/
theorem read_append (hm : h.magic.length = 8) (hr : h.reserved2 = 0) (hv : h.validate = .ok ()) :
    read context (h.toBytes ++ rest) = .ok h := by
  simp [read, readExact_append (length_toBytes hm), fromBytes_toBytes hm hr, hv, Bind.bind,
    Except.bind]

theorem validate_numbers (hv : h.validate = .ok ()) :
    lsnIsValid h.currentLsn ∧ h.committedLsn ≤ h.currentLsn := by
  unfold validate at hv
  split_ifs at hv with _ _ _ hcurrent hcommitted _
  exact ⟨hcurrent, UInt64.not_lt.mp hcommitted⟩

theorem read_validate {file : Bytes} (hr : read context file = .ok h) : h.validate = .ok () := by
  unfold read at hr
  split at hr
  · cases hr
  · rename_i headerBytes _ _
    cases hb : fromBytes headerBytes with
    | error e => simp [hb, Bind.bind, Except.bind] at hr
    | ok header =>
      cases hv : header.validate with
      | error e => simp [hb, hv, Bind.bind, Except.bind] at hr
      | ok _ =>
        obtain rfl : header = h := by simpa [hb, hv, Bind.bind, Except.bind] using hr
        exact hv

/-- A file that is read begins with the magic bytes. -/
theorem read_magic {file : Bytes} (hr : read context file = .ok h) : file.take 8 = v3WalMagic := by
  have hv := read_validate hr
  unfold validate at hv
  have hmagic : h.magic = v3WalMagic := by
    by_contra hne
    rw [if_pos hne] at hv
    cases hv
  rw [← hmagic]
  unfold read at hr
  split at hr
  · cases hr
  · rename_i headerBytes _ hexact
    have htake : headerBytes = file.take v3WalHeaderSize := by
      unfold readExact at hexact
      split at hexact
      · cases hexact
        rfl
      · cases hexact
    unfold fromBytes at hr
    split at hr
    · cases hr
    · simp only [Bind.bind, Except.bind] at hr
      split at hr
      · cases hr
      · cases hr
        rw [htake, slice, List.drop_zero, List.take_take]
        rfl

end V3WALHeader

/-- The bytes of a record that has some. -/
def V3WALRecord.payload (codec : Bincode) (record : V3WALRecord) : Bytes :=
  (codec.serialize record).getD []

/-- A record that `append` takes. -/
def V3WALRecord.Accepted (codec : Bincode) (record : V3WALRecord) : Prop :=
  ∃ bytes, codec.serialize record = some bytes ∧ bytes.length ≤ maxRecordSize

instance {codec : Bincode} {record : V3WALRecord} : Decidable (record.Accepted codec) :=
  match h : codec.serialize record with
  | none => .isFalse fun ⟨_, hb, _⟩ => by simp [h] at hb
  | some bytes => decidable_of_iff (bytes.length ≤ maxRecordSize) (by simp [V3WALRecord.Accepted, h])

/-- A call on a writer. -/
inductive WalCall
  | writeHeader (now : UInt64)
  | append (record : V3WALRecord)
  | flush
  | truncate

namespace WalCall

def exec (codec : Bincode) : WalCall → WalM Unit
  | writeHeader now => WALWriter.writeHeader now
  | append record => WALWriter.append codec record
  | flush => WALWriter.flush
  | truncate => WALWriter.truncate

/-- A caller goes on after an error. -/
def run (codec : Bincode) (calls : List WalCall) (s : WalState) : WalState :=
  calls.foldl (fun s call => (call.exec codec s).2) s

end WalCall

/-- What the calls so far should have left: a header or not, the records flushed since the last
`truncate`, the records that wait, and the numbers that a header would get. -/
structure WalLog where
  hasHeader : Bool
  flushed : List V3WALRecord
  pending : List V3WALRecord
  currentLsn : UInt64
  committedLsn : UInt64

namespace WalLog
variable (codec : Bincode)

def new (startLsn : UInt64) : WalLog := ⟨false, [], [], startLsn, lsnInvalid⟩

def flush (l : WalLog) : WalLog := { l with flushed := l.flushed ++ l.pending, pending := [] }

def bytes (records : List V3WALRecord) : Bytes := frames (records.map (V3WALRecord.payload codec))

def push (l : WalLog) (record : V3WALRecord) : WalLog := { l with pending := l.pending ++ [record] }

def next (l : WalLog) : WalLog := { l with currentLsn := lsnNext l.currentLsn }

/-- One more record fills the buffer. -/
def Fills (l : WalLog) (record : V3WALRecord) : Prop :=
  walFlushThreshold ≤ (bytes codec (l.push record).pending).length

instance {l : WalLog} {record : V3WALRecord} : Decidable (l.Fills codec record) :=
  inferInstanceAs (Decidable (_ ≤ _))

def append (l : WalLog) (record : V3WALRecord) : WalLog :=
  if record.Accepted codec then
    (if l.Fills codec record then (l.push record).flush else l.push record).next
  else l

def exec (l : WalLog) : WalCall → WalLog
  | .writeHeader _ => { l with hasHeader := true }
  | .append record => l.append codec record
  | .flush => l.flush
  | .truncate => { l with hasHeader := false, flushed := [] }

def run (calls : List WalCall) (l : WalLog) : WalLog := calls.foldl (exec codec) l

/-- The header would be valid. -/
def Numbered (l : WalLog) : Prop := lsnIsValid l.currentLsn ∧ l.committedLsn ≤ l.currentLsn

instance {l : WalLog} : Decidable l.Numbered := inferInstanceAs (Decidable (_ ∧ _))

/-- A header is not written over flushed records, and is there before anything is flushed. -/
def Allows (l : WalLog) : WalCall → Prop
  | .writeHeader _ => l.flushed = [] ∧ l.Numbered
  | .append record => record.Accepted codec → l.Fills codec record → l.hasHeader
  | .flush => l.pending = [] ∨ l.hasHeader
  | .truncate => True

instance {l : WalLog} : (call : WalCall) → Decidable (l.Allows codec call)
  | .writeHeader _ => inferInstanceAs (Decidable (_ ∧ _))
  | .append _ => inferInstanceAs (Decidable (_ → _ → _))
  | .flush => inferInstanceAs (Decidable (_ ∨ _))
  | .truncate => inferInstanceAs (Decidable True)

/-- Every call of a run comes at a log that allows it. -/
def AllowsAll : WalLog → List WalCall → Prop
  | _, [] => True
  | l, call :: calls => l.Allows codec call ∧ AllowsAll (l.exec codec call) calls

instance decidableAllowsAll :
    (l : WalLog) → (calls : List WalCall) → Decidable (l.AllowsAll codec calls)
  | _, [] => .isTrue trivial
  | l, call :: calls =>
    have := decidableAllowsAll (l.exec codec call) calls
    inferInstanceAs (Decidable (_ ∧ _))

end WalLog

/-- What a file with these records looks like. -/
def WalFile (codec : Bincode) (records : List V3WALRecord) (file : Bytes) : Prop :=
  ∃ h : V3WALHeader, h.magic.length = 8 ∧ h.reserved2 = 0 ∧ h.validate = .ok () ∧
    file = h.toBytes ++ WalLog.bytes codec records

/-- The file and the buffer carry a log. -/
structure WalSim (codec : Bincode) (l : WalLog) (s : WalState) : Prop where
  accepted : ∀ record ∈ l.flushed ++ l.pending, record.Accepted codec
  buffer : s.writer.buffer = WalLog.bytes codec l.pending
  threshold : s.writer.flushThreshold = walFlushThreshold
  currentLsn : s.writer.currentLsn = l.currentLsn
  committedLsn : s.writer.committedLsn = l.committedLsn
  absent : l.hasHeader = false → s.file = none ∧ l.flushed = []
  present : l.hasHeader = true → ∃ file, s.file = some file ∧ WalFile codec l.flushed file

namespace WALWriter
variable {codec : Bincode} {s : WalState} {record : V3WALRecord}

theorem flush_empty (h : s.writer.buffer = []) : flush s = (.ok (), s) := by simp [flush, h]

theorem flush_buffer (h : s.writer.buffer ≠ []) :
    flush s = (.ok (), ⟨some (s.file.getD [] ++ s.writer.buffer), { s.writer with buffer := [] }⟩) := by
  simp [flush, h]

theorem flush_ok : flush s = (.ok (), (flush s).2) := by
  by_cases h : s.writer.buffer = []
  · rw [flush_empty h]
  · rw [flush_buffer h]

theorem append_rejected (h : ¬ record.Accepted codec) : (append codec record s).2 = s := by
  unfold append V3WALRecord.toBytes
  cases hs : codec.serialize record with
  | none => simp
  | some bytes =>
    have hlen : maxRecordSize < bytes.length := by
      by_contra hle
      exact h ⟨bytes, hs, by omega⟩
    simp [hlen]

/-- A record that is taken goes to the buffer, which is then flushed if it is full. -/
theorem append_accepted (h : record.Accepted codec) :
    append codec record s =
      (.ok (), (if s.writer.flushThreshold ≤ (s.push (record.payload codec)).writer.buffer.length then
        (flush (s.push (record.payload codec))).2
      else s.push (record.payload codec)).next) := by
  obtain ⟨bytes, hs, hlen⟩ := h
  have hbytes : record.toBytes codec = .ok bytes := by
    simp only [V3WALRecord.toBytes, hs]
    rw [if_neg (by omega)]
  have hpayload : record.payload codec = bytes := by simp [V3WALRecord.payload, hs]
  rw [append, hbytes, StoreM.ofExcept_ok_bind_run, if_neg (by omega), StoreM.modify_bind_run,
    StoreM.get_bind_run, hpayload]
  by_cases hfull : s.writer.flushThreshold ≤ (s.push bytes).writer.buffer.length
  · rw [if_pos hfull, if_pos (by exact hfull), StoreM.bind_ok _ flush_ok]
    rfl
  · rw [if_neg hfull, if_neg (by exact hfull)]
    rfl

end WALWriter

namespace WalLog
variable {codec : Bincode} {records : List V3WALRecord} {record : V3WALRecord}

theorem bytes_append {a b : List V3WALRecord} :
    bytes codec (a ++ b) = bytes codec a ++ bytes codec b := by
  rw [bytes, List.map_append, frames_append, bytes, bytes]

theorem bytes_singleton : bytes codec [record] = frame (record.payload codec) := by
  simp [bytes, frames]

theorem bytes_eq_nil (h : bytes codec records = []) : records = [] := by
  cases records with
  | nil => rfl
  | cons record records =>
    have hlen := congrArg List.length h
    simp [bytes] at hlen

variable {l : WalLog}

theorem append_of_rejected (h : ¬ record.Accepted codec) : l.append codec record = l := if_neg h

theorem append_flushed (h : record.Accepted codec) :
    (l.append codec record).flushed =
      if l.Fills codec record then l.flushed ++ (l.pending ++ [record]) else l.flushed := by
  rw [append, if_pos h]
  split <;> rfl

theorem append_records (h : record.Accepted codec) :
    (l.append codec record).flushed ++ (l.append codec record).pending =
      l.flushed ++ (l.pending ++ [record]) := by
  rw [append, if_pos h]
  split
  · exact List.append_nil _
  · rfl

end WalLog

namespace WalSim
variable {codec : Bincode} {l : WalLog} {s : WalState} {record : V3WALRecord}

theorem fresh {startLsn lsn : UInt64} :
    WalSim codec ⟨false, [], [], startLsn, lsn⟩ ⟨none, ⟨startLsn, lsn, [], walFlushThreshold⟩⟩ :=
  ⟨by simp, rfl, rfl, rfl, rfl, fun _ => ⟨rfl, rfl⟩, by simp⟩

theorem writeHeader {now : UInt64} (h : WalSim codec l s) (hflushed : l.flushed = [])
    (hn : l.Numbered) :
    WalSim codec { l with hasHeader := true } (WALWriter.writeHeader now s).2 := by
  refine ⟨h.accepted, h.buffer, h.threshold, h.currentLsn, h.committedLsn, by simp, fun _ => ?_⟩
  refine ⟨_, rfl, s.writer.header now, rfl, rfl, ?_, ?_⟩
  · have hlt : ¬ l.currentLsn < l.committedLsn := UInt64.not_lt.mpr hn.2
    have hinvalid : ¬ l.committedLsn < lsnInvalid := UInt64.not_lt_zero
    simp [V3WALHeader.validate, WALWriter.header, h.currentLsn, h.committedLsn, hn.1, hlt, hinvalid]
  · simp [hflushed, WalLog.bytes, frames]

theorem flush (h : WalSim codec l s) (hl : l.pending = [] ∨ l.hasHeader = true) :
    WalSim codec l.flush (WALWriter.flush s).2 := by
  by_cases hb : s.writer.buffer = []
  · have hp : l.pending = [] := WalLog.bytes_eq_nil (h.buffer ▸ hb)
    have hsame : l.flush = l := by
      obtain ⟨hasHeader, flushed, pending, lsn, committed⟩ := l
      simp only at hp
      simp [WalLog.flush, hp]
    rw [WALWriter.flush_empty hb, hsame]
    exact h
  · have hp : l.pending ≠ [] := fun hp => hb (by rw [h.buffer, hp]; rfl)
    have hheader := hl.resolve_left hp
    obtain ⟨file, hfile, header, hm, hr, hv, heq⟩ := h.present hheader
    rw [WALWriter.flush_buffer hb]
    refine ⟨by simpa [WalLog.flush] using h.accepted, rfl, h.threshold, h.currentLsn,
      h.committedLsn, fun habsent => ?_, fun _ => ⟨_, rfl, header, hm, hr, hv, ?_⟩⟩
    · simp [WalLog.flush, hheader] at habsent
    · rw [hfile, Option.getD_some, heq, h.buffer, List.append_assoc, ← WalLog.bytes_append]
      rfl

theorem push (h : WalSim codec l s) (ha : record.Accepted codec) :
    WalSim codec (l.push record) (s.push (record.payload codec)) := by
  refine ⟨fun r hr => ?_, ?_, h.threshold, h.currentLsn, h.committedLsn, h.absent, h.present⟩
  · change r ∈ l.flushed ++ (l.pending ++ [record]) at hr
    rw [← List.append_assoc, List.mem_append, List.mem_singleton] at hr
    exact hr.elim (h.accepted r) (fun hr => hr ▸ ha)
  · change s.writer.buffer ++ frame (record.payload codec) = _
    rw [h.buffer, WalLog.push, WalLog.bytes_append, WalLog.bytes_singleton]

theorem next (h : WalSim codec l s) : WalSim codec l.next s.next :=
  ⟨h.accepted, h.buffer, h.threshold, congrArg lsnNext h.currentLsn, h.committedLsn, h.absent,
    h.present⟩

theorem append (h : WalSim codec l s)
    (hl : record.Accepted codec → l.Fills codec record → l.hasHeader = true) :
    WalSim codec (l.append codec record) (WALWriter.append codec record s).2 := by
  by_cases ha : record.Accepted codec
  · have hpush := h.push ha
    have hfull : s.writer.flushThreshold ≤ (s.push (record.payload codec)).writer.buffer.length ↔
        l.Fills codec record := by
      rw [h.threshold, hpush.buffer]
      rfl
    rw [WALWriter.append_accepted ha, WalLog.append, if_pos ha]
    by_cases hf : l.Fills codec record
    · rw [if_pos hf, if_pos (hfull.mpr hf)]
      exact (hpush.flush (.inr (hl ha hf))).next
    · rw [if_neg hf, if_neg (fun hlen => hf (hfull.mp hlen))]
      exact hpush.next
  · rw [WALWriter.append_rejected ha, WalLog.append, if_neg ha]
    exact h

theorem truncate (h : WalSim codec l s) :
    WalSim codec { l with hasHeader := false, flushed := [] } (WALWriter.truncate s).2 :=
  ⟨fun r hr => h.accepted r (List.mem_append_right _ hr), h.buffer, h.threshold, h.currentLsn,
    h.committedLsn, fun _ => ⟨rfl, rfl⟩, by simp⟩

/-- A call that the log allows keeps the two together. -/
theorem exec {call : WalCall} (h : WalSim codec l s) (hl : l.Allows codec call) :
    WalSim codec (l.exec codec call) (call.exec codec s).2 := by
  cases call with
  | writeHeader now => exact h.writeHeader hl.1 hl.2
  | append record => exact h.append hl
  | flush => exact h.flush hl
  | truncate => exact h.truncate

theorem run {calls : List WalCall} (h : WalSim codec l s) (hl : l.AllowsAll codec calls) :
    WalSim codec (l.run codec calls) (WalCall.run codec calls s) := by
  induction calls generalizing l s with
  | nil => exact h
  | cons call calls ih => exact ih (h.exec hl.1) hl.2

end WalSim

end SqliteGraph.V3
