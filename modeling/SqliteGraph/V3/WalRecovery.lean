import SqliteGraph.V3.Header
import SqliteGraph.V3.KvCheckpoint
import SqliteGraph.V3.Wal

/-! What is recovered from a log: pages and a header, and the keys, which a checkpoint file may hold. -/
namespace SqliteGraph.V3
open Lib

structure WALRecoveryStats where
  recordsProcessed : Nat
  recordsApplied : Nat
  recordsSkipped : Nat
  pageAllocations : Nat
  pageFrees : Nat
  pageWrites : Nat
  btreeSplits : Nat
  checkpoints : Nat
  deriving DecidableEq, Repr

structure WALRecovery where
  pageCache : AList (fun _ : UInt64 => Bytes)
  stats : WALRecoveryStats
  checkpointHeader : Option PersistentHeaderV3
  lastLsn : UInt64

/-- `{:?}` of the error of a header that is too short. -/
def NativeBackendError.debug : NativeBackendError → String
  | .invalidHeader field reason =>
    s!"InvalidHeader \x7b field: {field.quote}, reason: {reason.quote} \x7d"
  | _ => ""

/-- A frame is a payload to be processed, or one that is skipped. -/
def walFrames (file : Bytes) : List (Option Bytes) :=
  readFrames maxRecordSize file.length (file.drop v3WalHeaderSize)

namespace WALRecovery

def new : WALRecovery := ⟨∅, ⟨0, 0, 0, 0, 0, 0, 0, 0⟩, none, lsnInvalid⟩

def emptyPage : Bytes := List.replicate 4096 0

/-- The page as it is in the cache, or a new one. -/
def pageOf (r : WALRecovery) (pageId : UInt64) : Bytes := (r.pageCache.lookup pageId).getD emptyPage

/-- Data that would go beyond the page is left out. -/
def copyInto (page : Bytes) (offset : Nat) (data : Bytes) : Bytes :=
  if offset + data.length ≤ page.length then
    page.take offset ++ (data ++ page.drop (offset + data.length))
  else page

def applyRecord (r : WALRecovery) : V3WALRecord → Except NativeBackendError WALRecovery
  | .pageAllocate lsn pageId _ => .ok { r with
      pageCache := r.pageCache.insert pageId emptyPage
      stats := { r.stats with pageAllocations := r.stats.pageAllocations + 1 }
      lastLsn := lsn }
  | .pageFree lsn pageId _ _ => .ok { r with
      pageCache := r.pageCache.erase pageId
      stats := { r.stats with pageFrees := r.stats.pageFrees + 1 }
      lastLsn := lsn }
  | .pageWrite lsn pageId offset data _ _ => .ok { r with
      pageCache := r.pageCache.insert pageId (copyInto (r.pageOf pageId) offset.toNat data)
      stats := { r.stats with pageWrites := r.stats.pageWrites + 1 }
      lastLsn := lsn }
  | .btreeSplit lsn _ newPageId _ _ _ => .ok { r with
      pageCache := r.pageCache.insert newPageId emptyPage
      stats := { r.stats with btreeSplits := r.stats.btreeSplits + 1 }
      lastLsn := lsn }
  | .checkpoint lsn _ _ _ _ headerSnapshot _ =>
    if headerSnapshot = [] then .ok { r with
      stats := { r.stats with checkpoints := r.stats.checkpoints + 1 }
      lastLsn := lsn }
    else match PersistentHeaderV3.fromBytes headerSnapshot with
      | .error e =>
        .error (.deserializationError s!"Failed to restore checkpoint header: {e.debug}")
      | .ok restored => .ok { r with
        checkpointHeader := some restored
        stats := { r.stats with checkpoints := r.stats.checkpoints + 1 }
        lastLsn := lsn }
  | .transactionBegin _ lsn _ | .transactionCommit _ lsn _ | .transactionRollback _ lsn _
  | .kvSet lsn .. | .kvDelete lsn .. | .kvTombstone lsn .. => .ok { r with lastLsn := lsn }
  | .edgeInsert lsn _ _ _ pageId _ => .ok { r with
      pageCache := r.pageCache.insert pageId (r.pageOf pageId)
      lastLsn := lsn }

def skip (r : WALRecovery) : WALRecovery :=
  { r with stats := { r.stats with recordsSkipped := r.stats.recordsSkipped + 1 } }

def process (r : WALRecovery) : WALRecovery :=
  { r with stats := { r.stats with recordsProcessed := r.stats.recordsProcessed + 1 } }

/-- A record that cannot be applied is skipped. -/
def replay (r : WALRecovery) (record : V3WALRecord) : WALRecovery :=
  match r.process.applyRecord record with
  | .error _ => r.process.skip
  | .ok r => { r with
    stats := { r.stats with recordsApplied := r.stats.recordsApplied + 1 }
    lastLsn := record.lsn }

/-- One round of the loop. -/
def round (codec : Bincode) (r : WALRecovery) : Option Bytes → WALRecovery
  | none => r.skip
  | some buffer =>
    match codec.deserialize buffer with
    | none => r.process.skip
    | some record => r.replay record

def recover (codec : Bincode) (file : Option Bytes) (r : WALRecovery) :
    Except NativeBackendError WALRecovery :=
  match file with
  | none => .ok r
  | some bytes => do
    let _ ← V3WALHeader.read "Failed to read WAL header" bytes
    .ok ((walFrames bytes).foldl (round codec) r)

end WALRecovery

structure Sha256 where
  digest : Bytes → Bytes
  length_digest : ∀ data, (digest data).length = 32

section Kv
variable {J : Type} (json : JsonCodec J) (hashKey : Bytes → UInt64)

section Checkpoint
variable (sha : Sha256)

/-- The first six bytes name the format, the last its version. -/
def kvCheckpointMagic : Bytes := [0x56, 0x33, 0x4B, 0x56, 0x43, 0x4B, 0, 2]

/-- The file that takes the place of the one before. -/
def writeKvCheckpoint (choices : Nat → Nat) (now : UInt64) (kv : KvStore J) : Bytes :=
  let data := kv.toBytes json choices now
  kvCheckpointMagic ++ (leBytes 4 2 ++ (leBytes 4 (min data.length (2 ^ 32 - 1)) ++
    (sha.digest data ++ data)))

def readPart (context : String) (n : Nat) (bytes : Bytes) :
    Except NativeBackendError (Bytes × Bytes) :=
  match readExact n bytes with
  | some r => .ok r
  | none => .error (.ioError context)

def parseKvCheckpoint (clock : Nat → UInt64) (file : Bytes) :
    Except NativeBackendError (KvStore J) := do
  let (magic, rest) ← readPart "Failed to read checkpoint magic" 8 file
  if magic.take 6 ≠ kvCheckpointMagic.take 6 then
    .error (.invalidHeader "magic" s!"checkpoint magic prefix mismatch: got {magic}")
  else do
    let (_, rest) ← readPart "Failed to read checkpoint version" 4 rest
    let (dataLen, rest) ← readPart "Failed to read checkpoint data length" 4 rest
    let (storedChecksum, rest) ←
      if magic[7]? = some 2 then do
        let (checksum, rest) ← readPart "Failed to read checkpoint checksum" 32 rest
        .ok (some checksum, rest)
      else .ok (none, rest)
    let (data, _) ← readPart "Failed to read checkpoint data" (leNat dataLen) rest
    if storedChecksum.any (fun stored => decide (sha.digest data ≠ stored)) then
      .error (.invalidHeader "checksum" "checkpoint checksum mismatch - data may be corrupt")
    else match KvStore.fromBytes json hashKey clock data with
      | .ok kv => .ok kv
      | .error e =>
        .error (.invalidHeader "checkpoint_data" s!"Failed to deserialize checkpoint: {e}")

/-- The contents, if there is a file, and the file, which is deleted when it cannot be read. -/
def readKvCheckpoint (clock : Nat → UInt64) :
    Option Bytes → Except NativeBackendError (Option (KvStore J)) × Option Bytes
  | none => (.ok none, none)
  | some file =>
    match parseKvCheckpoint json hashKey sha clock file with
    | .ok kv => (.ok (some kv), some file)
    | .error e => (.error e, none)

end Checkpoint

section Replay
variable (clock : Nat → UInt64) (codec : Bincode)

/-- The store and how many records have been applied, which is also how often the clock has been
read. -/
def applyKvRecord (s : KvStore J × Nat) : V3WALRecord → KvStore J × Nat
  | .kvSet lsn key valueBytes valueType ttlSeconds _ =>
    match KvValue.fromBytes json valueBytes valueType with
    | some value => (s.1.set hashKey (clock s.2) key value ttlSeconds lsn, s.2 + 1)
    | none => s
  | .kvDelete lsn key _ => (s.1.delete hashKey (clock s.2) key lsn, s.2 + 1)
  | .kvTombstone lsn key _ _ _ => (s.1.set hashKey (clock s.2) key .null none lsn, s.2 + 1)
  | _ => s

/-- One round of the loop. -/
def kvRound (s : KvStore J × Nat) : Option Bytes → KvStore J × Nat
  | none => s
  | some buffer =>
    match codec.deserialize buffer with
    | none => s
    | some record => applyKvRecord json hashKey clock s record

/-- What the log says about keys. -/
def replayKv (kv : KvStore J) (file : Bytes) : Except NativeBackendError (KvStore J × Nat) := do
  let _ ← V3WALHeader.read "Failed to read WAL header for KV recovery" file
  .ok ((walFrames file).foldl (kvRound json hashKey clock codec) (kv, 0))

/-- Without a log, a checkpoint counts as one record; the second result is the checkpoint file. -/
def recoverKv (sha : Sha256) (kv : KvStore J) (wal checkpoint : Option Bytes) :
    Except NativeBackendError (KvStore J × Nat) × Option Bytes :=
  match wal with
  | some file => (replayKv json hashKey clock codec kv file, checkpoint)
  | none =>
    match readKvCheckpoint json hashKey sha clock checkpoint with
    | (.ok (some found), checkpoint) => (.ok (found, 1), checkpoint)
    | (_, checkpoint) => (.ok (kv, 0), checkpoint)

end Replay

end Kv

end SqliteGraph.V3
