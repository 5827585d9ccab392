import SqliteGraph.V3.KvStore

/-! The key-value store as bytes: what a checkpoint keeps of it, and how it is read back. -/
namespace SqliteGraph.V3
open Lib

/-- `serde_json::to_vec` and `from_slice`. -/
structure JsonCodec (J : Type) where
  toVec : J → Option Bytes
  fromSlice : Bytes → Option J

namespace KvValue
variable {J : Type} (codec : JsonCodec J)

def typeTag : KvValue J → UInt8
  | .null => 0
  | .integer _ => 1
  | .float _ => 2
  | .string _ => 3
  | .boolean _ => 4
  | .bytes _ => 5
  | .json _ => 6

def toBytes : KvValue J → Bytes
  | .null => []
  | .integer v => leBytes 8 v.toUInt64.toNat
  | .float bits => leBytes 8 bits.toNat
  | .string s => s.toUTF8.data.toList
  | .boolean b => [if b then 1 else 0]
  | .bytes b => b
  | .json v => (codec.toVec v).getD []

/-- A guard that fails leaves no other arm for its tag. -/
def fromBytes (bytes : Bytes) (typeTag : UInt8) : Option (KvValue J) :=
  if typeTag = 0 then some .null
  else if typeTag = 1 ∧ 8 ≤ bytes.length then
    some (.integer (UInt64.ofNat (leNat (bytes.take 8))).toInt64)
  else if typeTag = 2 ∧ 8 ≤ bytes.length then some (.float (.ofNat (leNat (bytes.take 8))))
  else if typeTag = 3 then (String.fromUTF8? ⟨bytes.toArray⟩).map .string
  else if typeTag = 4 ∧ bytes ≠ [] then some (.boolean (decide (bytes.head? ≠ some 0)))
  else if typeTag = 5 then some (.bytes bytes)
  else if typeTag = 6 then (codec.fromSlice bytes).map .json
  else none

end KvValue

namespace KvStore
variable {J : Type} (codec : JsonCodec J)

/-- What does not fit the width of a length field counts as its largest value. -/
def entryBytes (e : KvEntry J) : Bytes :=
  let valueBytes := e.value.toBytes codec
  leBytes 2 (min e.key.length 65535) ++ (e.key ++ (leBytes 2 (min valueBytes.length 65535) ++
    (valueBytes ++ (e.value.typeTag :: (leBytes 8 (e.metadata.ttlSeconds.getD 0).toNat ++
      leBytes 8 e.metadata.version.toNat)))))

/-- The latest version of a chain, unless it is a tombstone or has expired. -/
def liveEntry (now : UInt64) (versions : List (KvEntry J)) : Option (KvEntry J) :=
  versions.getLast?.filter fun e => !e.value.isNull && !e.metadata.isExpiredAt now

/-- `choices` gives the order in which the hash map is gone through. -/
def liveEntries (s : KvStore J) (choices : Nat → Nat) (now : UInt64) : List (KvEntry J) :=
  (drain choices s.entries.entries).filterMap fun e => liveEntry now e.2

def toBytes (s : KvStore J) (choices : Nat → Nat) (now : UInt64) : Bytes :=
  leBytes 4 (min s.entries.entries.length (2 ^ 32 - 1)) ++
    (s.liveEntries choices now).flatMap (entryBytes codec)

/-- The message of an unexpected end of file. -/
def readError : String := "failed to fill whole buffer"

def readField (n : Nat) (bytes : Bytes) : Except String (Bytes × Bytes) :=
  match readExact n bytes with
  | some r => .ok r
  | none => .error readError

def readValue (bytes : Bytes) (valueType : UInt8) : Except String (KvValue J) :=
  match KvValue.fromBytes codec bytes valueType with
  | some value => .ok value
  | none => .error "Failed to deserialize value"

/-- An entry after its key length; `now` is what the clock says when it is put together. -/
def readEntry (keyLen : Nat) (now : UInt64) (bytes : Bytes) : Except String (KvEntry J × Bytes) := do
  let (key, bytes) ← readField keyLen bytes
  let (valueLen, bytes) ← readField 2 bytes
  let (valueBytes, bytes) ← readField (leNat valueLen) bytes
  let (valueType, bytes) ← readField 1 bytes
  let value ← readValue codec valueBytes (valueType.headD 0)
  let (ttl, bytes) ← readField 8 bytes
  let ttl : UInt64 := .ofNat (leNat ttl)
  let (version, bytes) ← readField 8 bytes
  .ok (⟨key, value, ⟨now, now, if 0 < ttl then some ttl else none, .ofNat (leNat version)⟩⟩, bytes)

section Hashed
variable (hashKey : Bytes → UInt64)

/-- The loop of `from_bytes`, which ends with the data if that comes before the count. -/
def readEntries : Nat → (Nat → UInt64) → Bytes → AList (fun _ : UInt64 => List (KvEntry J)) →
    Except String (AList (fun _ : UInt64 => List (KvEntry J)))
  | 0, _, _, newEntries => .ok newEntries
  | count + 1, clock, bytes, newEntries =>
    match readExact 2 bytes with
    | none => .ok newEntries
    | some (keyLen, bytes) => do
      let (entry, bytes) ← readEntry codec (leNat keyLen) (clock 0) bytes
      readEntries count (fun i => clock (i + 1)) bytes
        (newEntries.insert (hashKey entry.key) [entry])

/-- The contents before do not matter; `clock` is what the clock says at each entry. -/
def fromBytes (clock : Nat → UInt64) (bytes : Bytes) : Except String (KvStore J) :=
  if bytes.length < 4 then .error "Checkpoint data too short"
  else do
    let (count, bytes) ← readField 4 bytes
    let newEntries ← readEntries codec hashKey (leNat count) clock bytes ∅
    .ok ⟨newEntries⟩

end Hashed

end KvStore

end SqliteGraph.V3
