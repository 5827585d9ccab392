import SqliteGraph.Lib.Format
import SqliteGraph.V3.Wal

/-! The bytes that bincode makes of a record: the variant's number, then its fields. -/
namespace SqliteGraph.V3
open Lib Format

namespace V3WALRecord

/-- The variant's number and fields, in the order of the source. -/
def write : V3WALRecord → Bytes
  | pageAllocate lsn pageId timestamp =>
    leBytes 4 0 ++ (u64.pair (u64.pair u64)).write (lsn, pageId, timestamp)
  | pageFree lsn pageId checksum timestamp =>
    leBytes 4 1 ++ (u64.pair (u64.pair (u32.pair u64))).write (lsn, pageId, checksum, timestamp)
  | pageWrite lsn pageId offset data checksum timestamp =>
    leBytes 4 2 ++ (u64.pair (u64.pair (u32.pair (bytes.pair (u32.pair u64))))).write
      (lsn, pageId, offset, data, checksum, timestamp)
  | btreeSplit lsn originalPageId newPageId splitKey pageType timestamp =>
    leBytes 4 3 ++ (u64.pair (u64.pair (u64.pair (u64.pair (u8.pair u64))))).write
      (lsn, originalPageId, newPageId, splitKey, pageType, timestamp)
  | checkpoint lsn rootPageId totalPages btreeHeight freePageListHead headerSnapshot timestamp =>
    leBytes 4 4 ++ (u64.pair (u64.pair (u64.pair (u32.pair (u64.pair (bytes.pair u64)))))).write
      (lsn, rootPageId, totalPages, btreeHeight, freePageListHead, headerSnapshot, timestamp)
  | transactionBegin txId lsn timestamp =>
    leBytes 4 5 ++ (u64.pair (u64.pair u64)).write (txId, lsn, timestamp)
  | transactionCommit txId lsn timestamp =>
    leBytes 4 6 ++ (u64.pair (u64.pair u64)).write (txId, lsn, timestamp)
  | transactionRollback txId lsn timestamp =>
    leBytes 4 7 ++ (u64.pair (u64.pair u64)).write (txId, lsn, timestamp)
  | kvSet lsn key valueBytes valueType ttlSeconds timestamp =>
    leBytes 4 8 ++ (u64.pair (bytes.pair (bytes.pair (u8.pair (u64.option.pair u64))))).write
      (lsn, key, valueBytes, valueType, ttlSeconds, timestamp)
  | kvDelete lsn key timestamp =>
    leBytes 4 9 ++ (u64.pair (bytes.pair u64)).write (lsn, key, timestamp)
  | kvTombstone lsn key oldValueBytes oldValueType timestamp =>
    leBytes 4 10 ++ (u64.pair (bytes.pair (bytes.option.pair (u8.pair u64)))).write
      (lsn, key, oldValueBytes, oldValueType, timestamp)
  | edgeInsert lsn src dst direction pageId timestamp =>
    leBytes 4 11 ++ (u64.pair (i64.pair (i64.pair (u8.pair (u64.pair u64))))).write
      (lsn, src, dst, direction, pageId, timestamp)

/-- What comes after the fields is left unread. -/
def read (bs : Bytes) : Option V3WALRecord := do
  let (variant, bs) ← (word 4).read bs
  match variant with
  | 0 => do
    let ((lsn, pageId, timestamp), _) ← (u64.pair (u64.pair u64)).read bs
    some (pageAllocate lsn pageId timestamp)
  | 1 => do
    let ((lsn, pageId, checksum, timestamp), _) ← (u64.pair (u64.pair (u32.pair u64))).read bs
    some (pageFree lsn pageId checksum timestamp)
  | 2 => do
    let ((lsn, pageId, offset, data, checksum, timestamp), _) ←
      (u64.pair (u64.pair (u32.pair (bytes.pair (u32.pair u64))))).read bs
    some (pageWrite lsn pageId offset data checksum timestamp)
  | 3 => do
    let ((lsn, originalPageId, newPageId, splitKey, pageType, timestamp), _) ←
      (u64.pair (u64.pair (u64.pair (u64.pair (u8.pair u64))))).read bs
    some (btreeSplit lsn originalPageId newPageId splitKey pageType timestamp)
  | 4 => do
    let ((lsn, rootPageId, totalPages, btreeHeight, freePageListHead, headerSnapshot, timestamp), _) ←
      (u64.pair (u64.pair (u64.pair (u32.pair (u64.pair (bytes.pair u64)))))).read bs
    some (checkpoint lsn rootPageId totalPages btreeHeight freePageListHead headerSnapshot timestamp)
  | 5 => do
    let ((txId, lsn, timestamp), _) ← (u64.pair (u64.pair u64)).read bs
    some (transactionBegin txId lsn timestamp)
  | 6 => do
    let ((txId, lsn, timestamp), _) ← (u64.pair (u64.pair u64)).read bs
    some (transactionCommit txId lsn timestamp)
  | 7 => do
    let ((txId, lsn, timestamp), _) ← (u64.pair (u64.pair u64)).read bs
    some (transactionRollback txId lsn timestamp)
  | 8 => do
    let ((lsn, key, valueBytes, valueType, ttlSeconds, timestamp), _) ←
      (u64.pair (bytes.pair (bytes.pair (u8.pair (u64.option.pair u64))))).read bs
    some (kvSet lsn key valueBytes valueType ttlSeconds timestamp)
  | 9 => do
    let ((lsn, key, timestamp), _) ← (u64.pair (bytes.pair u64)).read bs
    some (kvDelete lsn key timestamp)
  | 10 => do
    let ((lsn, key, oldValueBytes, oldValueType, timestamp), _) ←
      (u64.pair (bytes.pair (bytes.option.pair (u8.pair u64)))).read bs
    some (kvTombstone lsn key oldValueBytes oldValueType timestamp)
  | 11 => do
    let ((lsn, src, dst, direction, pageId, timestamp), _) ←
      (u64.pair (i64.pair (i64.pair (u8.pair (u64.pair u64))))).read bs
    some (edgeInsert lsn src dst direction pageId timestamp)
  | _ => none

/-- The byte strings of a record are as long as memory has room for. -/
def Sized : V3WALRecord → Prop
  | pageWrite _ _ _ data _ _ => data.length < 2 ^ 64
  | checkpoint _ _ _ _ _ headerSnapshot _ => headerSnapshot.length < 2 ^ 64
  | kvSet _ key valueBytes _ _ _ => key.length < 2 ^ 64 ∧ valueBytes.length < 2 ^ 64
  | kvDelete _ key _ => key.length < 2 ^ 64
  | kvTombstone _ key oldValueBytes _ _ =>
    key.length < 2 ^ 64 ∧ (oldValueBytes.getD []).length < 2 ^ 64
  | _ => True

instance : DecidablePred Sized
  | pageWrite .. | checkpoint .. | kvDelete .. => inferInstanceAs (Decidable (_ < _))
  | kvSet .. | kvTombstone .. => inferInstanceAs (Decidable (_ ∧ _))
  | pageAllocate .. | pageFree .. | btreeSplit .. | transactionBegin .. | transactionCommit ..
  | transactionRollback .. | edgeInsert .. => inferInstanceAs (Decidable True)

theorem read_variant {n : Nat} {rest : Bytes} (hn : n < 256 ^ 4) :
    (word 4).read (leBytes 4 n ++ rest) = some (n, rest) := (word 4).read_write rest hn

/-- A record is read back. -/
theorem read_write (record : V3WALRecord) (h : record.Sized) : read record.write = some record := by
  cases record with
  | kvTombstone lsn key oldValueBytes oldValueType timestamp =>
    have hkey : bytes.Fits key := h.1
    have hold : bytes.option.Fits oldValueBytes := by
      cases oldValueBytes with
      | none => exact fits_option_none
      | some b => exact fits_option_some.mpr h.2
    simp [write, read, read_variant, read_write_end, hkey, hold]
  | kvSet lsn key valueBytes valueType ttlSeconds timestamp =>
    have hkey : bytes.Fits key := h.1
    have hvalue : bytes.Fits valueBytes := h.2
    have httl : u64.option.Fits ttlSeconds := fun _ _ => fits_u64
    simp [write, read, read_variant, read_write_end, hkey, hvalue, httl]
  | kvDelete lsn key timestamp =>
    have hkey : bytes.Fits key := h
    simp [write, read, read_variant, read_write_end, hkey]
  | pageWrite lsn pageId offset data checksum timestamp =>
    have hdata : bytes.Fits data := h
    simp [write, read, read_variant, read_write_end, hdata]
  | checkpoint lsn rootPageId totalPages btreeHeight freePageListHead headerSnapshot timestamp =>
    have hsnapshot : bytes.Fits headerSnapshot := h
    simp [write, read, read_variant, read_write_end, hsnapshot]
  | _ => simp [write, read, read_variant, read_write_end]

theorem write_ne_nil (record : V3WALRecord) : record.write ≠ [] := by
  cases record <;> simp [write, leBytes]

end V3WALRecord

/-- bincode, for records that fit into memory. -/
def bincode : Bincode where
  serialize record := if record.Sized then some record.write else none
  deserialize := V3WALRecord.read

theorem bincode_roundTrips : bincode.RoundTrips := by
  intro record bytes h
  by_cases hsized : record.Sized
  · obtain rfl : record.write = bytes := by simpa [bincode, hsized] using h
    exact ⟨record.write_ne_nil, record.read_write hsized⟩
  · simp [bincode, hsized] at h

end SqliteGraph.V3
