import SqliteGraph.V3.KvRoundTrip
import SqliteGraph.V3.WalRecovery

/-! The map from keys to values that a store stands for, and what records and a checkpoint do to it. -/
namespace SqliteGraph.V3
open Lib

/-- A value, unless it is `Null`. -/
def KvValue.present {J : Type} (v : KvValue J) : Option (KvValue J) := if v.isNull then none else some v

namespace KvStore
variable {J : Type} {json : JsonCodec J} {hashKey : Bytes → UInt64} {s s' : KvStore J}
  {choices : Nat → Nat} {clock : Nat → UInt64} {now : UInt64} {key : Bytes} {entry : KvEntry J}

section Defs
variable (hashKey)

/-- The value a store has for a key, however long it is to live. -/
def valueOf (s : KvStore J) (key : Bytes) : Option (KvValue J) :=
  ((s.chain (hashKey key)).getLast?.filter fun e => decide (e.key = key)).bind (·.value.present)

def Knows (s : KvStore J) (key : Bytes) : Prop := ∃ e ∈ s.chain (hashKey key), e.key = key

/-- No other key is filed under the key's hash. -/
def Alone (s : KvStore J) (key : Bytes) : Prop := ∀ e ∈ s.chain (hashKey key), e.key = key

/-- Every chain is filed under the hash of one key. -/
structure Tidy (s : KvStore J) : Prop where
  filed : s.Filed hashKey
  alone : ∀ h, ∀ e ∈ s.chain h, ∀ e' ∈ s.chain h, e.key = e'.key

/-- The live entries can be read back from a checkpoint, they are all that has a value, and there is
room for them. -/
structure Checkpointable (json : JsonCodec J) (choices : Nat → Nat) (now : UInt64) (s : KvStore J) :
    Prop where
  fits : ∀ e ∈ s.liveEntries choices now, Fits json e
  readable : ∀ e ∈ s.liveEntries choices now, readBack json e = some e.value
  unexpired : ∀ h e, (s.chain h).getLast? = some e → e.value.isNull = false →
    e.metadata.isExpiredAt now = false
  room : (s.toBytes json choices now).length ≤ 2 ^ 32 - 1

end Defs

theorem valueOf_new : valueOf hashKey (new : KvStore J) = fun _ => none := rfl

theorem tidy_new : Tidy hashKey (new : KvStore J) :=
  ⟨fun _ _ he => (by simp at he), fun _ _ he => (by simp at he)⟩

theorem Tidy.alone_of_knows (hs : Tidy hashKey s) (hk : Knows hashKey s key) : Alone hashKey s key := by
  obtain ⟨e, he, rfl⟩ := hk
  exact fun e' he' => hs.alone _ e' he' e he

theorem Knows.of_mem (hs : s.Filed hashKey) {h : UInt64} {e : KvEntry J} (he : e ∈ s.chain h) :
    Knows hashKey s e.key :=
  ⟨e, by rwa [hs h e he], rfl⟩

theorem mem_chain_push {h : UInt64} {e : KvEntry J} :
    e ∈ (s.push hashKey entry).chain h ↔
      e ∈ s.chain h ∨ hashKey entry.key = h ∧ e = entry := by
  rw [chain_push]
  by_cases hh : hashKey entry.key = h <;> simp [hh]

theorem knows_push : Knows hashKey (s.push hashKey entry) key ↔
    Knows hashKey s key ∨ key = entry.key := by
  simp only [Knows, mem_chain_push]
  constructor
  · rintro ⟨e, he | ⟨-, rfl⟩, rfl⟩
    · exact .inl ⟨e, he, rfl⟩
    · exact .inr rfl
  · rintro (⟨e, he, rfl⟩ | rfl)
    · exact ⟨e, .inl he, rfl⟩
    · exact ⟨entry, .inr ⟨rfl, rfl⟩, rfl⟩

theorem Tidy.push (hs : Tidy hashKey s) (ha : Alone hashKey s entry.key) :
    Tidy hashKey (s.push hashKey entry) := by
  have hkey : ∀ {h e}, e ∈ (s.push hashKey entry).chain h → hashKey entry.key = h →
      e.key = entry.key := by
    intro h e he hh
    rcases mem_chain_push.mp he with hin | ⟨-, heq⟩
    · exact ha e (hh ▸ hin)
    · rw [heq]
  refine ⟨fun h e he => ?_, fun h e he e' he' => ?_⟩
  · rcases mem_chain_push.mp he with hin | ⟨hh, heq⟩
    · exact hs.filed h e hin
    · rw [heq, hh]
  · by_cases hh : hashKey entry.key = h
    · rw [hkey he hh, hkey he' hh]
    · rw [chain_push, if_neg hh] at he he'
      exact hs.alone h e he e' he'

/-- A write changes the value of its own key only. -/
theorem valueOf_push (ha : Alone hashKey s entry.key) :
    valueOf hashKey (s.push hashKey entry) =
      Function.update (valueOf hashKey s) entry.key entry.value.present := by
  funext key
  by_cases hh : hashKey entry.key = hashKey key
  · by_cases hk : key = entry.key
    · subst hk
      simp [valueOf, chain_push, Option.filter]
    · -- the last entry of a chain that is filed under the same hash is not one of this key
      have hnone : valueOf hashKey s key = none := by
        rw [valueOf]
        cases hl : (s.chain (hashKey key)).getLast? with
        | none => rfl
        | some e =>
          have he := ha e (hh ▸ List.mem_of_getLast? hl)
          have hne : e.key ≠ key := fun heq => hk (heq ▸ he)
          simp [hne]
      rw [Function.update_of_ne hk, hnone]
      simp [valueOf, chain_push, hh, Ne.symm hk]
  · have hk : key ≠ entry.key := fun hk => hh (hk ▸ rfl)
    rw [Function.update_of_ne hk, valueOf, valueOf, chain_push, if_neg hh]

end KvStore

section Records
variable {J : Type} (json : JsonCodec J)

/-- The key that a record is about, and the value it gives it. -/
def V3WALRecord.effect : V3WALRecord → Option (Bytes × Option (KvValue J))
  | .kvSet _ key valueBytes valueType _ _ =>
    (KvValue.fromBytes json valueBytes valueType).map fun value => (key, value.present)
  | .kvDelete _ key _ => some (key, none)
  | .kvTombstone _ key _ _ _ => some (key, none)
  | _ => none

/-- The map after some records. -/
def valuesAfter (records : List V3WALRecord) (m : Bytes → Option (KvValue J)) :
    Bytes → Option (KvValue J) :=
  records.foldl (fun m record =>
    match record.effect json with
    | some (key, v) => Function.update m key v
    | none => m) m

variable {json} {hashKey : Bytes → UInt64} {clock : Nat → UInt64} {record : V3WALRecord}
  {records : List V3WALRecord} {s : KvStore J × Nat} {m : Bytes → Option (KvValue J)} {key : Bytes}
  {v : Option (KvValue J)}

@[simp] theorem valuesAfter_nil : valuesAfter json [] m = m := rfl

theorem valuesAfter_append {a b : List V3WALRecord} :
    valuesAfter json (a ++ b) m = valuesAfter json b (valuesAfter json a m) := List.foldl_append ..

theorem valuesAfter_singleton (h : record.effect json = some (key, v)) :
    valuesAfter json [record] m = Function.update m key v := by
  simp [valuesAfter, h]

theorem applyKvRecord_none (h : record.effect json = none) :
    applyKvRecord json hashKey clock s record = s := by
  cases record with
  | kvSet lsn key valueBytes valueType ttlSeconds timestamp =>
    rw [V3WALRecord.effect, Option.map_eq_none_iff] at h
    rw [applyKvRecord, h]
  | kvDelete => cases h
  | kvTombstone => cases h
  | _ => rfl

theorem applyKvRecord_some (h : record.effect json = some (key, v)) :
    ∃ entry : KvEntry J, entry.key = key ∧ entry.value.present = v ∧
      applyKvRecord json hashKey clock s record = (s.1.push hashKey entry, s.2 + 1) := by
  cases record with
  | kvSet lsn key' valueBytes valueType ttlSeconds timestamp =>
    obtain ⟨value, hvalue, heq⟩ := Option.map_eq_some_iff.mp h
    cases heq
    exact ⟨_, rfl, rfl, by rw [applyKvRecord, hvalue]; rfl⟩
  | kvDelete =>
    cases h
    exact ⟨_, rfl, rfl, rfl⟩
  | kvTombstone =>
    cases h
    exact ⟨_, rfl, rfl, rfl⟩
  | _ => cases h

/-- Records about keys without a clash of hashes are replayed as updates of the map. -/
theorem replay_spec (clock : Nat → UInt64) {K : Bytes → Prop}
    (hK : ∀ key key', K key → K key' → hashKey key = hashKey key' → key = key')
    (hrec : ∀ record ∈ records, ∀ key v, record.effect json = some (key, v) → K key)
    (hs : s.1.Tidy hashKey) (hsK : ∀ key, s.1.Knows hashKey key → K key) :
    let t := records.foldl (applyKvRecord json hashKey clock) s
    t.1.Tidy hashKey ∧ t.1.valueOf hashKey = valuesAfter json records (s.1.valueOf hashKey) ∧
      (∀ key, s.1.Knows hashKey key → t.1.Knows hashKey key) ∧
      ∀ record ∈ records, ∀ key v, record.effect json = some (key, v) → t.1.Knows hashKey key := by
  induction records generalizing s with
  | nil => exact ⟨hs, rfl, fun _ hk => hk, by simp⟩
  | cons record records ih =>
    have hrest : ∀ record ∈ records, ∀ key v, record.effect json = some (key, v) → K key :=
      fun record hr => hrec record (by simp [hr])
    cases he : record.effect json with
    | none =>
      obtain ⟨htidy, hvalues, hmono, hknows⟩ := ih hrest hs hsK
      simp only [List.foldl_cons, applyKvRecord_none he]
      refine ⟨htidy, ?_, hmono, fun record' hr key v heff => ?_⟩
      · rw [hvalues, valuesAfter, valuesAfter, List.foldl_cons, he]
      · rcases List.mem_cons.mp hr with rfl | hr
        · cases he.symm.trans heff
        · exact hknows record' hr key v heff
    | some p =>
      obtain ⟨key, v⟩ := p
      have happlies : ∃ entry : KvEntry J, entry.key = key ∧ entry.value.present = v ∧
          applyKvRecord json hashKey clock s record = (s.1.push hashKey entry, s.2 + 1) :=
        applyKvRecord_some he
      obtain ⟨entry, rfl, rfl, happly⟩ := happlies
      have hkey : K entry.key := hrec record (by simp) _ _ he
      have ha : s.1.Alone hashKey entry.key := fun e hin =>
        hK _ _ (hsK _ (.of_mem hs.filed hin)) hkey (hs.filed _ e hin)
      have hsK' : ∀ key, (s.1.push hashKey entry).Knows hashKey key → K key := by
        intro key hk
        rcases KvStore.knows_push.mp hk with hk | rfl
        · exact hsK key hk
        · exact hkey
      obtain ⟨htidy, hvalues, hmono, hknows⟩ := ih (s := (s.1.push hashKey entry, s.2 + 1)) hrest
        (hs.push ha) hsK'
      simp only [List.foldl_cons, happly]
      refine ⟨htidy, ?_, fun key hk => hmono key (KvStore.knows_push.mpr (.inl hk)),
        fun record' hr key v heff => ?_⟩
      · rw [hvalues, KvStore.valueOf_push ha, valuesAfter, valuesAfter, List.foldl_cons, he]
      · rcases List.mem_cons.mp hr with rfl | hr
        · cases he.symm.trans heff
          exact hmono _ (KvStore.knows_push.mpr (.inr rfl))
        · exact hknows record' hr key v heff

/-- Where nothing has been counted, nothing has been applied. -/
theorem replay_count :
    let t := records.foldl (applyKvRecord json hashKey clock) s
    s.2 ≤ t.2 ∧ (t.2 = s.2 → t = s) := by
  induction records generalizing s with
  | nil => exact ⟨le_refl _, fun _ => rfl⟩
  | cons record records ih =>
    obtain ⟨hle, heq⟩ := ih (s := applyKvRecord json hashKey clock s record)
    simp only [List.foldl_cons]
    cases he : record.effect json with
    | none =>
      rw [applyKvRecord_none he] at hle heq ⊢
      exact ⟨hle, heq⟩
    | some p =>
      have happlies : ∃ entry : KvEntry J, entry.key = p.1 ∧ entry.value.present = p.2 ∧
          applyKvRecord json hashKey clock s record = (s.1.push hashKey entry, s.2 + 1) :=
        applyKvRecord_some he
      obtain ⟨entry, -, -, happly⟩ := happlies
      rw [happly] at hle ⊢
      exact ⟨by omega, fun h => by omega⟩

end Records

section Checkpoint
variable {J : Type} {json : JsonCodec J} {hashKey : Bytes → UInt64} {sha : Sha256} {s s' : KvStore J}
  {choices : Nat → Nat} {clock : Nat → UInt64} {now : UInt64}

theorem readPart_append {context : String} {n : Nat} {x rest : Bytes} (h : x.length = n) :
    readPart context n (x ++ rest) = .ok (x, rest) := by
  rw [readPart, readExact_append h]

/-- A checkpoint with room for its length is read down to its data. -/
theorem parse_write (hroom : (s.toBytes json choices now).length ≤ 2 ^ 32 - 1)
    (hs' : KvStore.fromBytes json hashKey clock (s.toBytes json choices now) = .ok s') :
    parseKvCheckpoint json hashKey sha clock (writeKvCheckpoint json sha choices now s) = .ok s' := by
  have hlen : leNat (leBytes 4 (s.toBytes json choices now).length) =
      (s.toBytes json choices now).length := leNat_leBytes (lt_of_le_of_lt hroom (by decide))
  have hdata : readPart "Failed to read checkpoint data" (s.toBytes json choices now).length
      (s.toBytes json choices now) = .ok (s.toBytes json choices now, []) := by
    have h : readPart "Failed to read checkpoint data" (s.toBytes json choices now).length
        (s.toBytes json choices now ++ []) = .ok (s.toBytes json choices now, []) :=
      readPart_append rfl
    rwa [List.append_nil] at h
  have hbind : ∀ {α β : Type} (a : α) (f : α → Except NativeBackendError β),
      (Except.ok a >>= f) = f a := fun _ _ => rfl
  unfold parseKvCheckpoint writeKvCheckpoint
  simp only [Nat.min_eq_left hroom, readPart_append (by rfl : kvCheckpointMagic.length = 8), hbind,
    readPart_append length_leBytes, readPart_append (sha.length_digest _), hlen, hdata]
  rw [if_neg (by simp), if_pos (by decide), if_neg (by simp), hs']

theorem length_liveEntries_le_toBytes :
    (s.liveEntries choices now).length ≤ (s.toBytes json choices now).length := by
  have hsum : ((s.liveEntries choices now).map fun e => (KvStore.entryBytes json e).length).length ≤
      ((s.liveEntries choices now).map fun e => (KvStore.entryBytes json e).length).sum := by
    refine List.length_le_sum_of_one_le _ fun n hn => ?_
    obtain ⟨e, -, rfl⟩ := List.mem_map.mp hn
    rw [KvStore.entryBytes, List.length_append, length_leBytes]
    omega
  rw [List.length_map] at hsum
  rw [KvStore.toBytes, List.length_append, List.length_flatMap]
  omega

theorem valueOf_eq_live {key : Bytes} (h : s.Checkpointable json choices now) :
    s.valueOf hashKey key =
      ((KvStore.liveEntry now (s.chain (hashKey key))).filter fun e => decide (e.key = key)).map
        (·.value) := by
  rw [KvStore.valueOf]
  cases hl : (s.chain (hashKey key)).getLast? with
  | none => simp [KvStore.liveEntry, hl]
  | some e =>
    cases hnull : e.value.isNull with
    | true =>
      have hlive : KvStore.liveEntry now (s.chain (hashKey key)) = none := by
        simp [KvStore.liveEntry, hl, hnull]
      by_cases hk : e.key = key <;> simp [hlive, Option.filter, hk, KvValue.present, hnull]
    | false =>
      have hlive : KvStore.liveEntry now (s.chain (hashKey key)) = some e :=
        KvStore.liveEntry_eq_some.mpr ⟨hl, hnull, h.unexpired _ e hl hnull⟩
      by_cases hk : e.key = key <;> simp [hlive, Option.filter, hk, KvValue.present, hnull]

/-- What has been checkpointed comes back as the same map. -/
theorem checkpoint_restores (sha : Sha256) (clock : Nat → UInt64) (hs : s.Tidy hashKey) (h : s.Checkpointable json choices now) :
    ∃ s', parseKvCheckpoint json hashKey sha clock (writeKvCheckpoint json sha choices now s) = .ok s' ∧
      s'.Tidy hashKey ∧ s'.valueOf hashKey = s.valueOf hashKey := by
  have hcount : (s.liveEntries choices now).length ≤ 2 ^ 32 - 1 :=
    length_liveEntries_le_toBytes.trans h.room
  rcases KvStore.fromBytes_fits clock hs.filed hcount h.fits with
    ⟨m, -, e, he, hnone⟩ | ⟨s', hok, hchain, habsent⟩
  · cases (h.readable e he).symm.trans hnone
  have hparsed := (KvStore.fromBytes_parsed hok).1
  refine ⟨s', parse_write h.room hok, ⟨hparsed.filed, fun hash e he e' he' => ?_⟩, ?_⟩
  · cases hl : s'.entries.lookup hash with
    | none => simp [KvStore.chain, hl] at he
    | some versions =>
      obtain ⟨only, rfl, -⟩ := hparsed hash versions hl
      rw [KvStore.chain, hl, Option.getD_some, List.mem_singleton] at he he'
      rw [he, he']
  · funext key
    rw [valueOf_eq_live h]
    by_cases hmem : hashKey key ∈ (s.liveEntries choices now).map fun e => hashKey e.key
    · obtain ⟨e, he, hhash⟩ := List.mem_map.mp hmem
      obtain ⟨i, hi, hget⟩ := List.getElem_of_mem he
      obtain ⟨v, hv, hc⟩ := hchain i e (by rw [List.getElem?_eq_getElem hi, hget])
      cases (h.readable e he).symm.trans hv
      have hlive := (KvStore.mem_liveEntries hs.filed).mp he
      have hnull := (KvStore.liveEntry_eq_some.mp hlive).2.1
      rw [hhash] at hlive hc
      rw [KvStore.valueOf, hc, hlive]
      by_cases hk : e.key = key <;> simp [Option.filter, KvStore.restored, hk, KvValue.present, hnull]
    · have hlive : KvStore.liveEntry now (s.chain (hashKey key)) = none := by
        cases hl : KvStore.liveEntry now (s.chain (hashKey key)) with
        | none => rfl
        | some e =>
          have hhash := hs.filed _ e (List.mem_of_getLast? (KvStore.liveEntry_eq_some.mp hl).1)
          exact absurd (List.mem_map.mpr
            ⟨e, (KvStore.mem_liveEntries hs.filed).mpr (hhash ▸ hl), hhash⟩) hmem
      rw [KvStore.valueOf, habsent _ hmem, hlive]
      rfl

end Checkpoint

end SqliteGraph.V3
