import SqliteGraph.V3.WalRecovery

/-! The keys of a backend: in memory, in the log and in a checkpoint file, over crashes. -/
namespace SqliteGraph.V3
open Lib

/-- The part of `V3Backend` that keys are kept in, and the two files beside the database. -/
@[ext] structure KvSession (J : Type) where
  wal : Option Bytes
  checkpoint : Option Bytes
  writer : Option WALWriter
  kvStore : Option (KvStore J)

/-- What a checkpoint record says of the index, the allocator and the header. -/
structure CheckpointFields where
  rootPageId : UInt64
  totalPages : UInt64
  btreeHeight : UInt32
  freePageListHead : UInt64
  headerSnapshot : Bytes
  length_headerSnapshot : headerSnapshot.length = v3HeaderSize

namespace KvSession
variable {J : Type} (json : JsonCodec J) (hashKey : Bytes → UInt64) (sha : Sha256) (codec : Bincode)

abbrev KvM (J α : Type) : Type := StoreM (KvSession J) NativeBackendError α

/-- A call on the writer, if there is one. -/
def onWal (call : WALWriter → WalM Unit) : KvM J Unit := fun s =>
  match s.writer with
  | none => (.ok (), s)
  | some w =>
    match call w ⟨s.wal, w⟩ with
    | (r, t) => (r, { s with wal := t.file, writer := some t.writer })

/-- `V3Backend::create_with_wal` on a path without files. -/
def createWithWal (now : UInt64) : Except NativeBackendError (KvSession J) := do
  let w ← WALWriter.new none lsnBegin
  match WALWriter.writeHeader now ⟨none, w⟩ with
  | (.ok _, t) => .ok ⟨t.file, none, some t.writer, none⟩
  | (.error e, _) => .error e

/-- The version of a write. -/
def version (s : KvSession J) : UInt64 :=
  match s.writer with
  | some w => w.committedLsn
  | none => 1

/-- The store, which the first write makes. -/
def store (s : KvSession J) : KvStore J := s.kvStore.getD .new

def kvSetRecord (version timestamp : UInt64) (key : Bytes) (value : KvValue J)
    (ttlSeconds : Option UInt64) : V3WALRecord :=
  .kvSet version key (value.toBytes json) value.typeTag ttlSeconds timestamp

/-- `now` and `timestamp` are what the clock says to the store and to the record. -/
def kvSet (now timestamp : UInt64) (key : Bytes) (value : KvValue J) (ttlSeconds : Option UInt64) :
    KvM J Unit := do
  let s ← .get
  .modify fun s => { s with kvStore := some (s.store.set hashKey now key value ttlSeconds s.version) }
  onWal fun _ => WALWriter.append codec (kvSetRecord json s.version timestamp key value ttlSeconds)

def kvDelete (now timestamp : UInt64) (key : Bytes) : KvM J Unit := do
  let s ← .get
  .modify fun s => { s with kvStore := some (s.store.delete hashKey now key s.version) }
  onWal fun _ => WALWriter.append codec (.kvDelete s.version key timestamp)

def checkpointRecord (fields : CheckpointFields) (timestamp : UInt64) (w : WALWriter) : V3WALRecord :=
  .checkpoint w.currentLsn fields.rootPageId fields.totalPages fields.btreeHeight
    fields.freePageListHead fields.headerSnapshot timestamp

/-- The store takes the place of the checkpoint file, if there is a store. -/
def writeCheckpoint (choices : Nat → Nat) (now : UInt64) (s : KvSession J) : KvSession J := { s with
  checkpoint := match s.kvStore with
    | some kv => some (writeKvCheckpoint json sha choices now kv)
    | none => s.checkpoint }

/-- The part of `flush_to_disk` that is about keys; the one on edges, indexes and the header comes
before it. -/
def flushToDisk (choices : Nat → Nat) (now timestamp : UInt64) (fields : CheckpointFields) :
    KvM J Unit := do
  .modify (writeCheckpoint json sha choices now)
  onWal fun w => WALWriter.append codec (checkpointRecord fields timestamp w)
  onWal fun _ => WALWriter.flush
  onWal fun _ => WALWriter.truncate

/-- `V3Backend::open` on the files that are there: a log that says nothing about keys counts as
none. -/
def openFiles (clock : Nat → UInt64) (s : KvSession J) : Except NativeBackendError (KvSession J) := do
  let writer ← match s.wal with
    | some file => do
      let w ← WALWriter.new (some file) lsnBegin
      .ok (some w)
    | none => .ok none
  let recovered := match s.wal with
    | some file =>
      match (recoverKv json hashKey clock codec sha .new (some file) s.checkpoint).1 with
      | .ok (kv, count) => if 0 < count then some kv else none
      | .error _ => none
    | none => none
  match recovered with
  | some kv => .ok ⟨s.wal, s.checkpoint, writer, some kv⟩
  | none =>
    match readKvCheckpoint json hashKey sha clock s.checkpoint with
    | (.ok found, checkpoint) => .ok ⟨s.wal, checkpoint, writer, found⟩
    | (.error _, checkpoint) => .ok ⟨s.wal, checkpoint, writer, none⟩

end KvSession

/-- A call on a backend, or a crash and what the clock says when the files are opened again. -/
inductive KvCall (J : Type)
  | set (now timestamp : UInt64) (key : Bytes) (value : KvValue J) (ttlSeconds : Option UInt64)
  | delete (now timestamp : UInt64) (key : Bytes)
  | flush (choices : Nat → Nat) (now timestamp : UInt64) (fields : CheckpointFields)
  | crash (clock : Nat → UInt64)

namespace KvCall
variable {J : Type} (json : JsonCodec J) (hashKey : Bytes → UInt64) (sha : Sha256) (codec : Bincode)

/-- A caller goes on after an error, but not when the files cannot be opened. -/
def exec (s : KvSession J) : KvCall J → Option (KvSession J)
  | set now timestamp key value ttlSeconds =>
    some (KvSession.kvSet json hashKey codec now timestamp key value ttlSeconds s).2
  | delete now timestamp key => some (KvSession.kvDelete hashKey codec now timestamp key s).2
  | flush choices now timestamp fields =>
    some (KvSession.flushToDisk json sha codec choices now timestamp fields s).2
  | crash clock => (s.openFiles json hashKey sha codec clock).toOption

end KvCall

end SqliteGraph.V3
