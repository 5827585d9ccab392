import SqliteGraph.Lib.Frames
import SqliteGraph.Lib.StoreM
import SqliteGraph.V3.Error

/-! The write-ahead log: its header, its records, and the writer with its buffer. -/
namespace SqliteGraph.V3
open Lib

def v3WalMagic : Bytes := [0x56, 0x33, 0x57, 0x41, 0x4C, 0, 0, 0]
def v3WalVersion : UInt32 := 1
def v3WalHeaderSize : Nat := 64
def maxRecordSize : Nat := 1024 * 1024
def walFlushThreshold : Nat := 64 * 1024
def lsnBegin : UInt64 := 1
def lsnInvalid : UInt64 := 0

def lsnIsValid (lsn : UInt64) : Prop := lsnBegin ≤ lsn

instance (lsn : UInt64) : Decidable (lsnIsValid lsn) := inferInstanceAs (Decidable (_ ≤ _))

/-- It wraps. -/
def lsnNext (lsn : UInt64) : UInt64 := lsn + 1

structure V3WALHeader where
  magic : Bytes
  version : UInt32
  pageSize : UInt32
  createdAt : UInt64
  currentLsn : UInt64
  committedLsn : UInt64
  checkpointedLsn : UInt64
  reserved0 : UInt64
  reserved1 : UInt64
  reserved2 : UInt64
  deriving DecidableEq, Repr

namespace V3WALHeader

def validate (h : V3WALHeader) : Except NativeBackendError Unit :=
  if h.magic ≠ v3WalMagic then
    .error (.invalidHeader "magic" s!"expected {v3WalMagic}, found {h.magic}")
  else if h.version ≠ v3WalVersion then
    .error (.unsupportedVersion h.version.toNat v3WalVersion.toNat)
  else if h.pageSize ≠ 4096 ∧ h.pageSize ≠ 8192 ∧ h.pageSize ≠ 16384 then
    .error (.invalidHeader "page_size" "must be 4096, 8192, or 16384")
  else if ¬ lsnIsValid h.currentLsn then
    .error (.invalidHeader "current_lsn" "must be >= LSN_BEGIN")
  else if h.currentLsn < h.committedLsn then
    .error (.invalidHeader "committed_lsn" "cannot be greater than current_lsn")
  else if h.committedLsn < h.checkpointedLsn then
    .error (.invalidHeader "checkpointed_lsn" "cannot be greater than committed_lsn")
  else .ok ()

/-- The last reserved word has no room. -/
def toBytes (h : V3WALHeader) : Bytes :=
  h.magic ++ (leBytes 4 h.version.toNat ++ (leBytes 4 h.pageSize.toNat ++
    (leBytes 8 h.createdAt.toNat ++ (leBytes 8 h.currentLsn.toNat ++
      (leBytes 8 h.committedLsn.toNat ++ (leBytes 8 h.checkpointedLsn.toNat ++
        (leBytes 8 h.reserved0.toNat ++ leBytes 8 h.reserved1.toNat)))))))

def fromBytes (bytes : Bytes) : Except NativeBackendError V3WALHeader :=
  if bytes.length < v3WalHeaderSize then
    .error (.invalidHeader "bytes" s!"expected {v3WalHeaderSize} bytes, found {bytes.length}")
  else .ok {
    magic := slice bytes 0 8
    version := .ofNat (leNat (slice bytes 8 4))
    pageSize := .ofNat (leNat (slice bytes 12 4))
    createdAt := .ofNat (leNat (slice bytes 16 8))
    currentLsn := .ofNat (leNat (slice bytes 24 8))
    committedLsn := .ofNat (leNat (slice bytes 32 8))
    checkpointedLsn := .ofNat (leNat (slice bytes 40 8))
    reserved0 := .ofNat (leNat (slice bytes 48 8))
    reserved1 := .ofNat (leNat (slice bytes 56 8))
    reserved2 := 0 }

/-- The header at the front of a file. -/
def read (context : String) (file : Bytes) : Except NativeBackendError V3WALHeader :=
  match readExact v3WalHeaderSize file with
  | none => .error (.ioError context)
  | some (headerBytes, _) => do
    let header ← fromBytes headerBytes
    header.validate
    .ok header

end V3WALHeader

inductive V3WALRecord
  | pageAllocate (lsn pageId timestamp : UInt64)
  | pageFree (lsn pageId : UInt64) (checksum : UInt32) (timestamp : UInt64)
  | pageWrite (lsn pageId : UInt64) (offset : UInt32) (data : Bytes) (checksum : UInt32)
      (timestamp : UInt64)
  | btreeSplit (lsn originalPageId newPageId splitKey : UInt64) (pageType : UInt8)
      (timestamp : UInt64)
  | checkpoint (lsn rootPageId totalPages : UInt64) (btreeHeight : UInt32)
      (freePageListHead : UInt64) (headerSnapshot : Bytes) (timestamp : UInt64)
  | transactionBegin (txId lsn timestamp : UInt64)
  | transactionCommit (txId lsn timestamp : UInt64)
  | transactionRollback (txId lsn timestamp : UInt64)
  | kvSet (lsn : UInt64) (key valueBytes : Bytes) (valueType : UInt8) (ttlSeconds : Option UInt64)
      (timestamp : UInt64)
  | kvDelete (lsn : UInt64) (key : Bytes) (timestamp : UInt64)
  | kvTombstone (lsn : UInt64) (key : Bytes) (oldValueBytes : Option Bytes) (oldValueType : UInt8)
      (timestamp : UInt64)
  | edgeInsert (lsn : UInt64) (src dst : Int64) (direction : UInt8) (pageId timestamp : UInt64)
  deriving DecidableEq, Repr

/-- `bincode::serialize` and `deserialize` for records. -/
structure Bincode where
  serialize : V3WALRecord → Option Bytes
  deserialize : Bytes → Option V3WALRecord

/-- What is written is not empty, and is read back. -/
def Bincode.RoundTrips (codec : Bincode) : Prop :=
  ∀ record bytes, codec.serialize record = some bytes →
    bytes ≠ [] ∧ codec.deserialize bytes = some record

namespace V3WALRecord

def lsn : V3WALRecord → UInt64
  | pageAllocate lsn .. | pageFree lsn .. | pageWrite lsn .. | btreeSplit lsn .. | checkpoint lsn ..
  | transactionBegin _ lsn _ | transactionCommit _ lsn _ | transactionRollback _ lsn _
  | kvSet lsn .. | kvDelete lsn .. | kvTombstone lsn .. | edgeInsert lsn .. => lsn

def toBytes (codec : Bincode) (record : V3WALRecord) : Except NativeBackendError Bytes :=
  match codec.serialize record with
  | none => .error .bincodeError
  | some bytes =>
    if maxRecordSize < bytes.length then .error (.recordTooLarge bytes.length maxRecordSize)
    else .ok bytes

end V3WALRecord

structure WALWriter where
  currentLsn : UInt64
  committedLsn : UInt64
  buffer : Bytes
  flushThreshold : Nat
  deriving DecidableEq, Repr

/-- A writer and its file, if there is one. -/
structure WalState where
  file : Option Bytes
  writer : WALWriter
  deriving DecidableEq, Repr

def WalState.push (s : WalState) (bytes : Bytes) : WalState :=
  { s with writer := { s.writer with buffer := s.writer.buffer ++ frame bytes } }

def WalState.next (s : WalState) : WalState :=
  { s with writer := { s.writer with currentLsn := lsnNext s.writer.currentLsn } }

abbrev WalM (α : Type) : Type := StoreM WalState NativeBackendError α

namespace WALWriter

/-- The numbers of a file that is there already go before `startLsn`. -/
def new (file : Option Bytes) (startLsn : UInt64) : Except NativeBackendError WALWriter :=
  match file with
  | none => .ok ⟨startLsn, lsnInvalid, [], walFlushThreshold⟩
  | some bytes => do
    let header ← V3WALHeader.read "Failed to read WAL header" bytes
    .ok ⟨header.currentLsn, header.committedLsn, [], walFlushThreshold⟩

/-- `now` is what the clock says. -/
def header (w : WALWriter) (now : UInt64) : V3WALHeader :=
  ⟨v3WalMagic, v3WalVersion, 4096, now, w.currentLsn, w.committedLsn, lsnInvalid, 0, 0, 0⟩

/-- The file is made anew. -/
def writeHeader (now : UInt64) : WalM Unit :=
  .modify fun s => { s with file := some (s.writer.header now).toBytes }

/-- A file that is not there is made, without a header. -/
def flush : WalM Unit := do
  let s ← .get
  if s.writer.buffer.isEmpty then pure ()
  else .modify fun s =>
    ⟨some (s.file.getD [] ++ s.writer.buffer), { s.writer with buffer := [] }⟩

def append (codec : Bincode) (record : V3WALRecord) : WalM Unit := do
  let bytes ← .ofExcept (record.toBytes codec)
  if maxRecordSize < bytes.length then
    .throw (.serializationError s!"Record size {bytes.length} exceeds maximum {maxRecordSize}")
  else do
    .modify fun s => s.push bytes
    let s ← .get
    if s.writer.flushThreshold ≤ s.writer.buffer.length then flush else pure ()
    .modify WalState.next

/-- The file is removed. -/
def truncate : WalM Unit := .modify fun s => { s with file := none }

end WALWriter

end SqliteGraph.V3
