import SqliteGraph.V3.KvHistory
import SqliteGraph.V3.KvRecovery

/-! A write of a key that fails at the log: when the reads after it answer as before. -/
namespace SqliteGraph.V3
open Lib

section Reads
variable {J : Type} {hashKey : Bytes → UInt64} {s : KvStore J} {entry : KvEntry J}
  {versions : List (KvEntry J)} {t snapshot : UInt64} {key : Bytes}

/-- What a read at time `t` gets of a value written at `now`. -/
def KvValue.shownAt (value : KvValue J) (now : UInt64) (ttlSeconds : Option UInt64) (t : UInt64) :
    Option (KvValue J) :=
  if ttlSeconds.any fun ttl => decide (saturatingAdd now ttl ≤ t) then none else value.present

def KvEntry.shownAt (t : UInt64) (e : KvEntry J) : Option (KvValue J) :=
  e.value.shownAt e.metadata.updatedAt e.metadata.ttlSeconds t

theorem KvEntry.shown_present (e : KvEntry J) :
    (e.shown t snapshot).filter (fun v => !v.isNull) = e.shownAt t := by
  obtain ⟨key, value, ⟨createdAt, updatedAt, ttlSeconds, version⟩⟩ := e
  have hpresent : (if snapshot ≠ 0 ∧ value.isNull then none else some value).filter
      (fun v => !v.isNull) = value.present := by
    cases hnull : value.isNull <;> by_cases hs : snapshot = 0 <;>
      simp [KvValue.present, Option.filter, hnull, hs]
  cases ttlSeconds with
  | none => exact hpresent
  | some ttl =>
    rw [shown, shownAt, KvValue.shownAt]
    by_cases hle : saturatingAdd updatedAt ttl ≤ t
    · simp [KvMetadata.isExpiredAt, hle]
    · simpa [KvMetadata.isExpiredAt, hle] using hpresent

/-- A read takes the last entry before the first one that the snapshot does not see. -/
theorem kvGet_eq (s : KvStore J) : s.kvGet hashKey t key snapshot =
    ((s.chain (hashKey key)).takeWhile (KvEntry.visible snapshot)).getLast?.bind
      (KvEntry.shownAt t) := by
  rw [KvStore.kvGet, KvStore.getAtSnapshot_eq, readChain_takeWhile]
  cases ((s.chain (hashKey key)).takeWhile (KvEntry.visible snapshot)).getLast? with
  | none => rfl
  | some e => exact e.shown_present

end Reads

namespace KvSession
variable {J : Type} (json : JsonCodec J) (hashKey : Bytes → UInt64) (codec : Bincode)

/-- `V3Backend::kv_get`. -/
def kvGet (s : KvSession J) (t : UInt64) (key : Bytes) (snapshot : UInt64) : Option (KvValue J) :=
  s.kvStore.bind fun kv => kv.kvGet hashKey t key snapshot

section Proofs
variable {json hashKey codec} {s : KvSession J} {record : V3WALRecord} {entry : KvEntry J}
  {t : UInt64}

end Proofs

end KvSession

end SqliteGraph.V3
