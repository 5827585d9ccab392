import SqliteGraph.Lib.Bytes
import SqliteGraph.Lib.HashOrder

/-! The key-value store: version chains filed under the keys' hashes. -/
namespace SqliteGraph.V3
open Lib

/-- `J` is a JSON value; a float is given by its bits. -/
inductive KvValue (J : Type)
  | null
  | integer (v : Int64)
  | float (bits : UInt64)
  | string (s : String)
  | boolean (b : Bool)
  | bytes (b : Bytes)
  | json (v : J)
  deriving DecidableEq

def KvValue.isNull {J : Type} : KvValue J → Bool
  | .null => true
  | _ => false

/-- `u64::saturating_add`. -/
def saturatingAdd (a b : UInt64) : UInt64 := .ofNat (min (a.toNat + b.toNat) (2 ^ 64 - 1))

structure KvMetadata where
  createdAt : UInt64
  updatedAt : UInt64
  ttlSeconds : Option UInt64
  version : UInt64
  deriving DecidableEq

/-- When the entry expires. -/
def KvMetadata.expiry (m : KvMetadata) : Option UInt64 := m.ttlSeconds.map (saturatingAdd m.updatedAt)

def KvMetadata.isExpiredAt (m : KvMetadata) (now : UInt64) : Bool :=
  match m.ttlSeconds with
  | some ttl => decide (saturatingAdd m.updatedAt ttl ≤ now)
  | none => false

structure KvEntry (J : Type) where
  key : Bytes
  value : KvValue J
  metadata : KvMetadata

/-- The hash map from a key's hash to a chain, the oldest version first. -/
structure KvStore (J : Type) where
  entries : AList (fun _ : UInt64 => List (KvEntry J))

namespace KvStore
variable {J : Type}

def new : KvStore J := ⟨∅⟩

def chain (s : KvStore J) (h : UInt64) : List (KvEntry J) := (s.entries.lookup h).getD []

/-- `partition_point`; versions do not decrease along a chain. -/
def partitionPoint (versions : List (KvEntry J)) (snapshotLsn : UInt64) : Nat :=
  (versions.takeWhile fun e => decide (e.metadata.version ≤ snapshotLsn)).length

/-- What a chain says at a snapshot; 0 asks for the latest version. -/
def readChain (now : UInt64) (versions : List (KvEntry J)) (snapshotLsn : UInt64) :
    Option (KvValue J) :=
  if snapshotLsn = 0 then
    (versions.getLast?.filter fun e => !e.metadata.isExpiredAt now).map (·.value)
  else
    let idx := partitionPoint versions snapshotLsn
    if idx = 0 then none
    else match versions[idx - 1]? with
      | some entry =>
        if entry.metadata.isExpiredAt now then none
        else if entry.value.isNull then none
        else some entry.value
      | none => none

section Hashed
variable (hashKey : Bytes → UInt64)

def getAtSnapshot (s : KvStore J) (now : UInt64) (key : Bytes) (snapshotLsn : UInt64) :
    Option (KvValue J) :=
  match s.entries.lookup (hashKey key) with
  | some versions => readChain now versions snapshotLsn
  | none => none

/-- `entry(key_hash).or_default().push(entry)`. -/
def push (s : KvStore J) (entry : KvEntry J) : KvStore J :=
  ⟨s.entries.insert (hashKey entry.key) (s.chain (hashKey entry.key) ++ [entry])⟩

/-- `now` is what the clock says during the call. -/
def set (s : KvStore J) (now : UInt64) (key : Bytes) (value : KvValue J) (ttlSeconds : Option UInt64)
    (version : UInt64) : KvStore J :=
  let createdAt := match (s.chain (hashKey key)).getLast? with
    | some e => e.metadata.createdAt
    | none => now
  s.push hashKey ⟨key, value, ⟨createdAt, now, ttlSeconds, version⟩⟩

def delete (s : KvStore J) (now : UInt64) (key : Bytes) (version : UInt64) : KvStore J :=
  s.push hashKey ⟨key, .null, ⟨now, now, none, version⟩⟩

end Hashed

/-- What a scan takes from a chain. -/
def scanChain (now : UInt64) (pre : Bytes) (snapshotLsn : UInt64) (versions : List (KvEntry J)) :
    Option (Bytes × KvValue J) :=
  match versions.getLast? with
  | some entry =>
    if pre <+: entry.key ∧ entry.metadata.version ≤ snapshotLsn ∧
        ¬ entry.metadata.isExpiredAt now ∧ ¬ entry.value.isNull then
      some (entry.key, entry.value)
    else none
  | none => none

/-- `choices` gives the order in which the hash map is gone through. -/
def prefixScan (s : KvStore J) (choices : Nat → Nat) (now : UInt64) (pre : Bytes)
    (snapshotLsn : UInt64) : List (Bytes × KvValue J) :=
  ((drain choices s.entries.entries).filterMap fun e => scanChain now pre snapshotLsn e.2).mergeSort
    fun a b => decide (a.1 ≤ b.1)

/-- `V3Backend::kv_get`, to which `Null` is no value. -/
def kvGet (hashKey : Bytes → UInt64) (s : KvStore J) (now : UInt64) (key : Bytes)
    (snapshotLsn : UInt64) : Option (KvValue J) :=
  (s.getAtSnapshot hashKey now key snapshotLsn).filter fun v => !v.isNull

section Chains
variable {hashKey : Bytes → UInt64} {s : KvStore J} {h : UInt64} {entry : KvEntry J}

theorem getAtSnapshot_eq (now : UInt64) (key : Bytes) (snapshotLsn : UInt64) :
    s.getAtSnapshot hashKey now key snapshotLsn =
      readChain now (s.chain (hashKey key)) snapshotLsn := by
  unfold getAtSnapshot chain
  cases s.entries.lookup (hashKey key) with
  | some versions => rfl
  | none => simp [readChain, partitionPoint]

@[simp] theorem chain_new : (new : KvStore J).chain h = [] := rfl

theorem chain_push :
    (s.push hashKey entry).chain h =
      if hashKey entry.key = h then s.chain h ++ [entry] else s.chain h := by
  by_cases hh : h = hashKey entry.key
  · subst hh
    simp [push, chain]
  · simp [push, chain, AList.lookup_insert_ne hh, Ne.symm hh]

end Chains

end KvStore

/-- A call that writes, and the clock it reads. -/
inductive KvChange (J : Type)
  | set (value : KvValue J) (ttlSeconds : Option UInt64)
  | delete

structure KvWrite (J : Type) where
  now : UInt64
  key : Bytes
  version : UInt64
  change : KvChange J

namespace KvWrite
variable {J : Type} (hashKey : Bytes → UInt64)

def apply (s : KvStore J) (w : KvWrite J) : KvStore J :=
  match w.change with
  | .set value ttlSeconds => s.set hashKey w.now w.key value ttlSeconds w.version
  | .delete => s.delete hashKey w.now w.key w.version

def run (history : List (KvWrite J)) : KvStore J := history.foldl (apply hashKey) .new

end KvWrite

end SqliteGraph.V3
