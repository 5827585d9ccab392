import SqliteGraph.V3.KvCheckpoint
import SqliteGraph.V3.KvScan

/-! What a checkpoint brings back of the store it was made of. -/
namespace SqliteGraph.V3
open Lib
variable {J : Type} {codec : JsonCodec J} {hashKey : Bytes → UInt64} {s s' : KvStore J}
  {choices : Nat → Nat} {clock : Nat → UInt64} {now h : UInt64} {key bytes rest : Bytes} {v : KvValue J}
  {e : KvEntry J} {l : List (KvEntry J)} {count : Nat}

namespace KvValue

/-- Reading back needs help with JSON only. -/
theorem fromBytes_toBytes :
    fromBytes codec (v.toBytes codec) v.typeTag =
      match v with
      | .json j => (codec.fromSlice ((codec.toVec j).getD [])).map .json
      | v => some v := by
  cases v with
  | null => rfl
  | integer v =>
    have hlt : v.toUInt64.toNat < 256 ^ 8 := v.toUInt64.toNat_lt
    simp [fromBytes, toBytes, typeTag, List.take_of_length_le, leNat_leBytes hlt]
  | float bits =>
    have hlt : bits.toNat < 256 ^ 8 := bits.toNat_lt
    simp [fromBytes, toBytes, typeTag, List.take_of_length_le, leNat_leBytes hlt]
  | string s =>
    have hutf : String.fromUTF8? ⟨s.toUTF8.data.toList.toArray⟩ = some s := by
      unfold String.fromUTF8?
      exact dif_pos s.isValidUTF8
    simp only [fromBytes, toBytes, typeTag, hutf]
    rfl
  | boolean b => cases b <;> rfl
  | bytes b => rfl
  | json v => rfl

/-- No kind of value but JSON comes out longer than its bytes, beyond a fixed width. -/
theorem length_toBytes_of_fromBytes {tag : UInt8} (hv : fromBytes codec bytes tag = some v)
    (hjson : ∀ j, v ≠ .json j) : (v.toBytes codec).length ≤ max 8 bytes.length := by
  unfold fromBytes at hv
  split at hv
  · cases hv
    simp [toBytes]
  · split at hv
    · cases hv
      simp [toBytes]
    · split at hv
      · cases hv
        simp [toBytes]
      · split at hv
        · obtain ⟨s, hs, rfl⟩ := Option.map_eq_some_iff.mp hv
          unfold String.fromUTF8? at hs
          split at hs
          · cases hs
            simp [toBytes, String.toUTF8, String.fromUTF8]
          · cases hs
        · split at hv
          · cases hv
            simp [toBytes]
          · split at hv
            · cases hv
              simp [toBytes]
            · split at hv
              · obtain ⟨j, -, rfl⟩ := Option.map_eq_some_iff.mp hv
                exact (hjson j rfl).elim
              · cases hv

end KvValue

namespace KvStore

/-- The key and the value fit their length fields. -/
structure Fits (codec : JsonCodec J) (e : KvEntry J) : Prop where
  key : e.key.length ≤ 65535
  value : (e.value.toBytes codec).length ≤ 65535

def readBack (codec : JsonCodec J) (e : KvEntry J) : Option (KvValue J) :=
  KvValue.fromBytes codec (e.value.toBytes codec) e.value.typeTag

/-- The entry as it comes back, put together at a time. -/
def restored (now : UInt64) (v : KvValue J) (e : KvEntry J) : KvEntry J :=
  ⟨e.key, v, ⟨now, now, if 0 < e.metadata.ttlSeconds.getD 0 then some (e.metadata.ttlSeconds.getD 0)
    else none, e.metadata.version⟩⟩

/-- An entry's bytes after the length of its key. -/
def bodyBytes (codec : JsonCodec J) (e : KvEntry J) : Bytes :=
  e.key ++ (leBytes 2 (e.value.toBytes codec).length ++ (e.value.toBytes codec ++
    ([e.value.typeTag] ++ (leBytes 8 (e.metadata.ttlSeconds.getD 0).toNat ++
      leBytes 8 e.metadata.version.toNat))))

theorem entryBytes_of_fits (hf : Fits codec e) :
    entryBytes codec e = leBytes 2 e.key.length ++ bodyBytes codec e := by
  simp only [entryBytes, bodyBytes, Nat.min_eq_left hf.key, Nat.min_eq_left hf.value]
  rfl

theorem readField_append {n : Nat} {x : Bytes} (h : x.length = n) :
    readField n (x ++ rest) = .ok (x, rest) := by
  rw [readField, readExact_append h]

/-- An entry within the widths is read field by field, up to its value. -/
theorem readEntry_ok (hf : Fits codec e) :
    readEntry codec e.key.length now (bodyBytes codec e ++ rest) =
      match readBack codec e with
      | some v => .ok (restored now v e, rest)
      | none => .error "Failed to deserialize value" := by
  have hvalue : leNat (leBytes 2 (e.value.toBytes codec).length) = (e.value.toBytes codec).length :=
    leNat_leBytes (lt_of_le_of_lt hf.value (by decide))
  have hword : ∀ x : UInt64, UInt64.ofNat (leNat (leBytes 8 x.toNat)) = x := by
    intro x
    rw [leNat_leBytes x.toNat_lt, UInt64.ofNat_toNat]
  have hbind : ∀ {α β : Type} (a : α) (f : α → Except String β), (Except.ok a >>= f) = f a :=
    fun _ _ => rfl
  simp only [readEntry, bodyBytes, List.append_assoc, readField_append rfl,
    readField_append length_leBytes, hbind, hvalue]
  rw [readField_append (by rfl : [e.value.typeTag].length = 1), hbind]
  simp only [List.headD_cons]
  rw [readValue, ← readBack]
  cases readBack codec e with
  | none => rfl
  | some v =>
    simp only [hbind, readField_append length_leBytes, hword]
    rfl

/-- The loop over entries within the widths: either a value cannot be read back, or all entries are
put in, each under its own hash. -/
theorem readEntries_fits (clock : Nat → UInt64) (acc : AList (fun _ : UInt64 => List (KvEntry J)))
    (hfit : ∀ e ∈ l, Fits codec e) (hcount : l.length ≤ count)
    (hnodup : (l.map fun e => hashKey e.key).Nodup) :
    (∃ m, readEntries codec hashKey count clock (l.flatMap (entryBytes codec)) acc = .error m ∧
      ∃ e ∈ l, readBack codec e = none) ∨
    ∃ acc', readEntries codec hashKey count clock (l.flatMap (entryBytes codec)) acc = .ok acc' ∧
      (∀ i e, l[i]? = some e → ∃ v, readBack codec e = some v ∧
        acc'.lookup (hashKey e.key) = some [restored (clock i) v e]) ∧
      ∀ h, h ∉ l.map (fun e => hashKey e.key) → acc'.lookup h = acc.lookup h := by
  induction l generalizing count clock acc with
  | nil =>
    refine .inr ⟨acc, ?_, by simp, fun _ _ => rfl⟩
    cases count with
    | zero => rfl
    | succ count => rfl
  | cons e l ih =>
    cases count with
    | zero => cases hcount
    | succ count =>
      have hf := hfit e (by simp)
      have hkey : leNat (leBytes 2 e.key.length) = e.key.length :=
        leNat_leBytes (lt_of_le_of_lt hf.key (by decide))
      rw [List.map_cons, List.nodup_cons] at hnodup
      have hread : readEntries codec hashKey (count + 1) clock ((e :: l).flatMap (entryBytes codec)) acc =
          (match readBack codec e with
            | some v => .ok (restored (clock 0) v e, l.flatMap (entryBytes codec))
            | none => .error "Failed to deserialize value") >>= fun r =>
              readEntries codec hashKey count (fun i => clock (i + 1)) r.2
                (acc.insert (hashKey r.1.key) [r.1]) := by
        rw [readEntries, List.flatMap_cons, entryBytes_of_fits hf, List.append_assoc,
          readExact_append length_leBytes]
        simp only [hkey, readEntry_ok hf]
      rw [hread]
      cases hb : readBack codec e with
      | none => exact .inl ⟨_, rfl, e, by simp, hb⟩
      | some v =>
        have hrest := ih (fun i => clock (i + 1)) (acc.insert (hashKey e.key) [restored (clock 0) v e])
          (fun e he => hfit e (by simp [he])) (Nat.le_of_succ_le_succ hcount) hnodup.2
        rcases hrest with ⟨m, hm, e', he', hnone⟩ | ⟨acc', hok, hin, hout⟩
        · exact .inl ⟨m, hm, e', by simp [he'], hnone⟩
        · refine .inr ⟨acc', hok, ?_, ?_⟩
          · intro i e' he'
            cases i with
            | zero =>
              cases he'
              refine ⟨v, hb, ?_⟩
              rw [hout _ hnodup.1]
              exact AList.lookup_insert _
            | succ i => exact hin i e' he'
          · intro h hh
            rw [List.map_cons, List.mem_cons, not_or] at hh
            rw [hout h hh.2]
            exact AList.lookup_insert_ne hh.1

theorem isExpiredAt_eq (m : KvMetadata) : m.isExpiredAt now = m.expiry.any (· ≤ now) := by
  unfold KvMetadata.isExpiredAt KvMetadata.expiry
  cases m.ttlSeconds <;> rfl

theorem liveEntry_eq_some {versions : List (KvEntry J)} :
    liveEntry now versions = some e ↔ versions.getLast? = some e ∧ e.value.isNull = false ∧
      e.metadata.isExpiredAt now = false := by
  simp [liveEntry, Option.filter_eq_some_iff]

/-- The live entries are those at the ends of the chains. -/
theorem mem_liveEntries (hs : s.Filed hashKey) :
    e ∈ s.liveEntries choices now ↔ liveEntry now (s.chain (hashKey e.key)) = some e := by
  simp only [liveEntries, List.mem_filterMap, (drain_perm _ _).mem_iff]
  constructor
  · rintro ⟨⟨h, versions⟩, hmem, hlive⟩
    have hchain : s.chain h = versions := by rw [chain, AList.mem_lookup_iff.mpr hmem, Option.getD_some]
    have hlast := List.mem_of_getLast? (liveEntry_eq_some.mp hlive).1
    rwa [hs h e (hchain ▸ hlast), hchain]
  · intro hlive
    cases hl : s.entries.lookup (hashKey e.key) with
    | none => simp [chain, hl, liveEntry] at hlive
    | some versions =>
      rw [chain, hl, Option.getD_some] at hlive
      exact ⟨⟨_, versions⟩, AList.mem_lookup_iff.mp hl, hlive⟩

theorem liveEntries_nodup (hs : s.Filed hashKey) :
    ((s.liveEntries choices now).map fun e => hashKey e.key).Nodup := by
  have hhash : ∀ x ∈ s.entries.entries, ∀ e, liveEntry now x.2 = some e → hashKey e.key = x.1 := by
    rintro ⟨h, versions⟩ hmem e hlive
    refine hs h e ?_
    rw [chain, AList.mem_lookup_iff.mpr hmem, Option.getD_some]
    exact List.mem_of_getLast? (liveEntry_eq_some.mp hlive).1
  have hkeys : (drain choices s.entries.entries).Pairwise fun x y => x.1 ≠ y.1 :=
    ((drain_perm _ _).pairwise_iff fun h => h.symm).mpr (List.pairwise_map.mp s.entries.nodupKeys)
  rw [List.nodup_iff_pairwise_ne, List.pairwise_map, liveEntries, List.pairwise_filterMap]
  refine hkeys.imp_of_mem fun {x y} hx hy hne r hr r' hr' heq => hne ?_
  rw [← hhash x ((drain_perm _ _).mem_iff.mp hx) r hr, heq,
    hhash y ((drain_perm _ _).mem_iff.mp hy) r' hr']

/-- The key is there, with its current value and the time when that expires. -/
def Holds (hashKey : Bytes → UInt64) (s : KvStore J) (now : UInt64) (key : Bytes) (v : KvValue J)
    (expiry : Option UInt64) : Prop :=
  ∃ e, liveEntry now (s.chain (hashKey key)) = some e ∧ e.key = key ∧ e.value = v ∧
    e.metadata.expiry = expiry

/-- The checkpoint is read, and gives the same keys with the same values until the same times. -/
def RoundTrips (hashKey : Bytes → UInt64) (codec : JsonCodec J) (choices : Nat → Nat)
    (clock : Nat → UInt64) (now : UInt64) (s : KvStore J) : Prop :=
  ∃ s', fromBytes codec hashKey clock (s.toBytes codec choices now) = .ok s' ∧
    (∀ key v expiry, s'.Holds hashKey now key v expiry ↔ s.Holds hashKey now key v expiry) ∧
    ∀ key, s'.kvGet hashKey now key 0 = s.kvGet hashKey now key 0

/-- The live entries fit the format, their JSON can be read back, and their times to live are not
zero and end at the same time when they are counted from the load. -/
structure Savable (codec : JsonCodec J) (choices : Nat → Nat) (clock : Nat → UInt64) (now : UInt64)
    (s : KvStore J) : Prop where
  count : (s.liveEntries choices now).length ≤ 2 ^ 32 - 1
  fits : ∀ e ∈ s.liveEntries choices now, Fits codec e
  json : ∀ e ∈ s.liveEntries choices now, ∀ j, e.value = .json j →
    codec.fromSlice ((codec.toVec j).getD []) = some j
  ttl : ∀ i e ttl, (s.liveEntries choices now)[i]? = some e → e.metadata.ttlSeconds = some ttl →
    ttl ≠ 0 ∧ saturatingAdd (clock i) ttl = saturatingAdd e.metadata.updatedAt ttl

theorem readBack_iff : readBack codec e = some e.value ↔
    ∀ j, e.value = .json j → codec.fromSlice ((codec.toVec j).getD []) = some j := by
  rw [readBack, KvValue.fromBytes_toBytes]
  cases he : e.value with
  | json j => simp
  | _ => simp

theorem expiry_restored_iff {t : UInt64} :
    (restored t v e).metadata.expiry = e.metadata.expiry ↔
      ∀ ttl, e.metadata.ttlSeconds = some ttl →
        ttl ≠ 0 ∧ saturatingAdd t ttl = saturatingAdd e.metadata.updatedAt ttl := by
  simp only [restored, KvMetadata.expiry]
  cases e.metadata.ttlSeconds with
  | none => simp
  | some ttl =>
    by_cases hz : ttl = 0
    · simp [hz]
    · have hpos : 0 < ttl := UInt64.pos_iff_ne_zero.mpr hz
      simp [hz, hpos]

theorem kvGet_eq_some :
    s.kvGet hashKey now key 0 = some v ↔
      ∃ e, liveEntry now (s.chain (hashKey key)) = some e ∧ e.value = v := by
  rw [kvGet, getAtSnapshot_eq]
  simp only [readChain, if_true, liveEntry]
  cases (s.chain (hashKey key)).getLast? with
  | none => simp
  | some e =>
    cases he : e.metadata.isExpiredAt now with
    | true => simp [Option.filter, he]
    | false => cases hn : e.value.isNull <;> simp [Option.filter, he, hn]

/-- A point read sees the keys that share its key's hash. -/
theorem kvGet_eq_some_iff_holds (hs : s.Filed hashKey) :
    s.kvGet hashKey now key 0 = some v ↔
      ∃ key' expiry, hashKey key' = hashKey key ∧ s.Holds hashKey now key' v expiry := by
  rw [kvGet_eq_some]
  constructor
  · rintro ⟨e, hlive, rfl⟩
    have hhash := hs _ e (List.mem_of_getLast? (liveEntry_eq_some.mp hlive).1)
    exact ⟨e.key, _, hhash, e, hhash ▸ hlive, rfl, rfl, rfl⟩
  · rintro ⟨key', expiry, hhash, e, hlive, -, hv, -⟩
    exact ⟨e, hhash ▸ hlive, hv⟩

/-- An entry as it can come out of a file. -/
structure Parsed (codec : JsonCodec J) (e : KvEntry J) : Prop where
  key : e.key.length ≤ 65535
  value : ∃ bytes tag, bytes.length ≤ 65535 ∧ KvValue.fromBytes codec bytes tag = some e.value

theorem readField_eq_ok {n : Nat} {x : Bytes} (h : readField n bytes = .ok (x, rest)) : x.length = n := by
  unfold readField at h
  split at h
  · rename_i hr
    cases h
    exact readExact_length hr
  · cases h

theorem length_field {x : Bytes} (h : x.length = 2) : leNat x ≤ 65535 := by
  have : leNat x < 256 ^ x.length := leNat_lt
  rw [h] at this
  omega

theorem readEntry_parsed {keyLen : Nat} (hk : keyLen ≤ 65535)
    (h : readEntry codec keyLen now bytes = .ok (e, rest)) : Parsed codec e := by
  unfold readEntry at h
  obtain ⟨⟨key, bs₁⟩, hkey, h⟩ := except_bind_eq_ok h
  obtain ⟨⟨valueLen, bs₂⟩, hlen, h⟩ := except_bind_eq_ok h
  obtain ⟨⟨valueBytes, bs₃⟩, hbytes, h⟩ := except_bind_eq_ok h
  obtain ⟨⟨valueType, bs₄⟩, -, h⟩ := except_bind_eq_ok h
  obtain ⟨value, hvalue, h⟩ := except_bind_eq_ok h
  obtain ⟨⟨ttl, bs₅⟩, -, h⟩ := except_bind_eq_ok h
  obtain ⟨⟨version, bs₆⟩, -, h⟩ := except_bind_eq_ok h
  cases h
  refine ⟨(readField_eq_ok hkey).trans_le hk, valueBytes, valueType.headD 0, ?_, ?_⟩
  · exact (readField_eq_ok hbytes).trans_le (length_field (readField_eq_ok hlen))
  · unfold readValue at hvalue
    split at hvalue
    · rename_i hv
      cases hvalue
      exact hv
    · cases hvalue

/-- Chains of one parsed entry, filed under its key's hash. -/
def AllParsed (codec : JsonCodec J) (hashKey : Bytes → UInt64)
    (acc : AList (fun _ : UInt64 => List (KvEntry J))) : Prop :=
  ∀ h versions, acc.lookup h = some versions →
    ∃ e, versions = [e] ∧ hashKey e.key = h ∧ Parsed codec e

theorem readEntries_parsed {acc acc' : AList (fun _ : UInt64 => List (KvEntry J))}
    (hacc : AllParsed codec hashKey acc)
    (h : readEntries codec hashKey count clock bytes acc = .ok acc') :
    AllParsed codec hashKey acc' ∧ acc'.keys.length ≤ acc.keys.length + count := by
  induction count generalizing clock bytes acc with
  | zero =>
    cases h
    exact ⟨hacc, le_refl _⟩
  | succ count ih =>
    unfold readEntries at h
    cases hr : readExact 2 bytes with
    | none =>
      rw [hr] at h
      cases h
      exact ⟨hacc, by omega⟩
    | some r =>
      obtain ⟨keyLen, bs⟩ := r
      rw [hr] at h
      obtain ⟨⟨e, bs'⟩, he, h⟩ := except_bind_eq_ok h
      have hparsed := readEntry_parsed (length_field (readExact_length hr)) he
      have hinsert : AllParsed codec hashKey (acc.insert (hashKey e.key) [e]) := by
        intro h versions hl
        by_cases hh : h = hashKey e.key
        · subst hh
          rw [AList.lookup_insert] at hl
          cases hl
          exact ⟨e, rfl, rfl, hparsed⟩
        · rw [AList.lookup_insert_ne hh] at hl
          exact hacc h versions hl
      obtain ⟨hall, hlen⟩ := ih hinsert h
      refine ⟨hall, hlen.trans ?_⟩
      rw [AList.keys_insert, List.length_cons]
      have := List.length_erase_le (a := hashKey e.key) (l := acc.keys)
      omega

/-- The bytes after the count. -/
theorem fromBytes_toBytes :
    fromBytes codec hashKey clock (s.toBytes codec choices now) =
      readEntries codec hashKey (min s.entries.entries.length (2 ^ 32 - 1)) clock
        ((s.liveEntries choices now).flatMap (entryBytes codec)) ∅ >>= fun acc => .ok ⟨acc⟩ := by
  have hlen : ¬ (s.toBytes codec choices now).length < 4 := by
    rw [toBytes, List.length_append, length_leBytes]
    omega
  have hcount : leNat (leBytes 4 (min s.entries.entries.length (2 ^ 32 - 1))) =
      min s.entries.entries.length (2 ^ 32 - 1) := leNat_leBytes (by omega)
  rw [fromBytes, if_neg hlen, toBytes, readField_append length_leBytes]
  change readEntries codec hashKey (leNat _) clock _ ∅ >>= _ = _
  rw [hcount]

theorem length_liveEntries_le : (s.liveEntries choices now).length ≤ s.entries.entries.length := by
  rw [← (drain_perm choices s.entries.entries).length_eq]
  exact List.length_filterMap_le ..

/-- A store read from a checkpoint: every chain is one parsed entry under its hash. -/
theorem fromBytes_parsed (h : fromBytes codec hashKey clock (s.toBytes codec choices now) = .ok s') :
    AllParsed codec hashKey s'.entries ∧
      s'.entries.keys.length ≤ min s.entries.entries.length (2 ^ 32 - 1) := by
  rw [fromBytes_toBytes] at h
  obtain ⟨acc, hacc, h⟩ := except_bind_eq_ok h
  cases h
  have hempty : AllParsed codec hashKey (∅ : AList (fun _ : UInt64 => List (KvEntry J))) := by
    intro h versions hl
    cases hl
  simpa using readEntries_parsed hempty hacc

theorem AllParsed.filed (h : AllParsed codec hashKey s.entries) : s.Filed hashKey := by
  intro hash e he
  cases hl : s.entries.lookup hash with
  | none => simp [chain, hl] at he
  | some versions =>
    obtain ⟨e', rfl, hhash, -⟩ := h hash versions hl
    rw [chain, hl, Option.getD_some, List.mem_singleton] at he
    rwa [he]

theorem holds_iff (choices : Nat → Nat) (hs : s.Filed hashKey) {expiry : Option UInt64} :
    s.Holds hashKey now key v expiry ↔ ∃ e ∈ s.liveEntries choices now,
      e.key = key ∧ e.value = v ∧ e.metadata.expiry = expiry := by
  constructor
  · rintro ⟨e, hlive, rfl, rfl, rfl⟩
    exact ⟨e, (mem_liveEntries hs).mpr hlive, rfl, rfl, rfl⟩
  · rintro ⟨e, hmem, rfl, rfl, rfl⟩
    exact ⟨e, (mem_liveEntries hs).mp hmem, rfl, rfl, rfl⟩

/-- The entries have come back into a store, each under its own hash. -/
structure Restores (codec : JsonCodec J) (hashKey : Bytes → UInt64) (clock : Nat → UInt64)
    (l : List (KvEntry J)) (s' : KvStore J) : Prop where
  chain : ∀ i e, l[i]? = some e → ∃ v, readBack codec e = some v ∧
    s'.chain (hashKey e.key) = [restored (clock i) v e]
  absent : ∀ h, h ∉ l.map (fun e => hashKey e.key) → s'.chain h = []

/-- Entries within the widths come back, unless a value cannot be read. -/
theorem fromBytes_fits (clock : Nat → UInt64) (hs : s.Filed hashKey)
    (hcount : (s.liveEntries choices now).length ≤ 2 ^ 32 - 1)
    (hfits : ∀ e ∈ s.liveEntries choices now, Fits codec e) :
    (∃ m, fromBytes codec hashKey clock (s.toBytes codec choices now) = .error m ∧
      ∃ e ∈ s.liveEntries choices now, readBack codec e = none) ∨
    ∃ s', fromBytes codec hashKey clock (s.toBytes codec choices now) = .ok s' ∧
      Restores codec hashKey clock (s.liveEntries choices now) s' := by
  rw [fromBytes_toBytes]
  have hle := Nat.le_min.mpr ⟨length_liveEntries_le (s := s), hcount⟩
  rcases readEntries_fits clock ∅ hfits hle (liveEntries_nodup hs) with
    ⟨m, hm, hnone⟩ | ⟨acc, hok, hin, hout⟩
  · exact .inl ⟨m, by rw [hm]; rfl, hnone⟩
  · refine .inr ⟨⟨acc⟩, by rw [hok]; rfl, fun i e he => ?_, fun h hh => ?_⟩
    · obtain ⟨v, hv, hl⟩ := hin i e he
      exact ⟨v, hv, by rw [KvStore.chain, hl, Option.getD_some]⟩
    · rw [KvStore.chain, hout h hh]
      rfl

theorem liveEntry_restored {t : UInt64} (hnull : e.value.isNull = false)
    (hexpired : e.metadata.isExpiredAt now = false)
    (hexpiry : (restored t e.value e).metadata.expiry = e.metadata.expiry) :
    liveEntry now [restored t e.value e] = some (restored t e.value e) := by
  rw [liveEntry_eq_some]
  refine ⟨rfl, hnull, ?_⟩
  rw [isExpiredAt_eq, hexpiry, ← isExpiredAt_eq, hexpired]

theorem Savable.roundTrips (h : Savable codec choices clock now s) (hs : s.Filed hashKey) :
    RoundTrips hashKey codec choices clock now s := by
  have hback : ∀ e ∈ s.liveEntries choices now, readBack codec e = some e.value := fun e he =>
    readBack_iff.mpr (h.json e he)
  rcases fromBytes_fits clock hs h.count h.fits with ⟨m, -, e, he, hnone⟩ | ⟨s', hok, hchain, habsent⟩
  · cases (hback e he).symm.trans hnone
  have hs' : s'.Filed hashKey := (fromBytes_parsed hok).1.filed
  have hrestored : ∀ e ∈ s.liveEntries choices now, ∃ t,
      s'.chain (hashKey e.key) = [restored t e.value e] ∧
        liveEntry now [restored t e.value e] = some (restored t e.value e) ∧
          (restored t e.value e).metadata.expiry = e.metadata.expiry := by
    intro e he
    obtain ⟨i, hi, hget⟩ := List.getElem_of_mem he
    have hget : (s.liveEntries choices now)[i]? = some e := by rw [List.getElem?_eq_getElem hi, hget]
    obtain ⟨v, hv, hc⟩ := hchain i e hget
    cases (hback e he).symm.trans hv
    obtain ⟨-, hnull, hexpired⟩ := liveEntry_eq_some.mp ((mem_liveEntries hs).mp he)
    have hexpiry : (restored (clock i) e.value e).metadata.expiry = e.metadata.expiry :=
      expiry_restored_iff.mpr fun ttl => h.ttl i e ttl hget
    exact ⟨clock i, hc, liveEntry_restored hnull hexpired hexpiry, hexpiry⟩
  have hholds : ∀ key v expiry, s'.Holds hashKey now key v expiry ↔ s.Holds hashKey now key v expiry := by
    intro key v expiry
    rw [holds_iff choices hs]
    constructor
    · rintro ⟨e', hlive, hkey, hvalue, hexp⟩
      by_cases hmem : hashKey key ∈ (s.liveEntries choices now).map fun e => hashKey e.key
      · obtain ⟨e, he, hhash⟩ := List.mem_map.mp hmem
        obtain ⟨t, hc, hl, hexpiry⟩ := hrestored e he
        rw [← hhash, hc, hl] at hlive
        cases hlive
        exact ⟨e, he, hkey, hvalue, hexpiry ▸ hexp⟩
      · rw [habsent _ hmem] at hlive
        cases hlive
    · rintro ⟨e, he, rfl, rfl, rfl⟩
      obtain ⟨t, hc, hl, hexpiry⟩ := hrestored e he
      rw [← hc] at hl
      exact ⟨restored t e.value e, hl, rfl, rfl, hexpiry⟩
  refine ⟨s', hok, hholds, fun key => ?_⟩
  ext v
  simp only [kvGet_eq_some_iff_holds hs, kvGet_eq_some_iff_holds hs', hholds]

theorem RoundTrips.savable (h : RoundTrips hashKey codec choices clock now s) (hs : s.Filed hashKey)
    (hlong : ∀ e ∈ s.liveEntries choices now, ∀ j, e.value = .json j →
      (e.value.toBytes codec).length ≤ 65535) :
    Savable codec choices clock now s := by
  obtain ⟨s', hok, hholds, -⟩ := h
  obtain ⟨hparsed, hlen⟩ := fromBytes_parsed hok
  have hthere : ∀ e ∈ s.liveEntries choices now,
      s'.Holds hashKey now e.key e.value e.metadata.expiry := fun e he =>
    (hholds _ _ _).mpr ((holds_iff choices hs).mpr ⟨e, he, rfl, rfl, rfl⟩)
  have hentry : ∀ e ∈ s.liveEntries choices now, ∃ e', s'.entries.lookup (hashKey e.key) = some [e'] ∧
      e'.key = e.key ∧ e'.value = e.value ∧ Parsed codec e' := by
    intro e he
    obtain ⟨e', hlive, hkey, hvalue, -⟩ := hthere e he
    cases hl : s'.entries.lookup (hashKey e.key) with
    | none => simp [KvStore.chain, hl, liveEntry] at hlive
    | some versions =>
      obtain ⟨e'', rfl, -, hp⟩ := hparsed _ versions hl
      rw [KvStore.chain, hl] at hlive
      cases (liveEntry_eq_some.mp hlive).1
      exact ⟨e'', rfl, hkey, hvalue, hp⟩
  have hfits : ∀ e ∈ s.liveEntries choices now, Fits codec e := by
    intro e he
    obtain ⟨e', -, hkey, hvalue, hp⟩ := hentry e he
    refine ⟨hkey ▸ hp.key, ?_⟩
    by_cases hjson : ∃ j, e.value = .json j
    · obtain ⟨j, hj⟩ := hjson
      exact hlong e he j hj
    · obtain ⟨bytes, tag, hbytes, hv⟩ := hp.value
      rw [hvalue] at hv
      have := KvValue.length_toBytes_of_fromBytes hv fun j hj => hjson ⟨j, hj⟩
      omega
  have hcount : (s.liveEntries choices now).length ≤ 2 ^ 32 - 1 := by
    have hsub : (s.liveEntries choices now).map (fun e => hashKey e.key) ⊆ s'.entries.keys := by
      intro h hh
      obtain ⟨e, he, rfl⟩ := List.mem_map.mp hh
      obtain ⟨e', hl, -⟩ := hentry e he
      exact AList.mem_keys.mp (AList.lookup_isSome.mp (by rw [hl]; rfl))
    have := (List.subperm_of_subset (liveEntries_nodup hs) hsub).length_le
    rw [List.length_map] at this
    omega
  rcases fromBytes_fits clock hs hcount hfits with ⟨m, hm, -⟩ | ⟨s'', hok', hchain, -⟩
  · cases hm.symm.trans hok
  cases hok'.symm.trans hok
  have hback : ∀ i e, (s.liveEntries choices now)[i]? = some e → readBack codec e = some e.value ∧
      (restored (clock i) e.value e).metadata.expiry = e.metadata.expiry := by
    intro i e he
    obtain ⟨v, hv, hc⟩ := hchain i e he
    obtain ⟨e', hlive, -, hvalue, hexpiry⟩ := hthere e (List.mem_of_getElem? he)
    rw [hc] at hlive
    cases (liveEntry_eq_some.mp hlive).1
    obtain rfl : v = e.value := hvalue
    exact ⟨hv, hexpiry⟩
  refine ⟨hcount, hfits, fun e he => ?_, fun i e ttl he => expiry_restored_iff.mp (hback i e he).2 ttl⟩
  obtain ⟨i, hi, hget⟩ := List.getElem_of_mem he
  exact readBack_iff.mp (hback i e (by rw [List.getElem?_eq_getElem hi, hget])).1

end KvStore

/-- What a store of keys filed under their hashes must be like for its checkpoint to bring it back; a
store that comes back is like that, unless it holds JSON whose text is too long for the format. -/
theorem kv_checkpoint_round_trip (hashKey : Bytes → UInt64) (codec : JsonCodec J)
    (choices : Nat → Nat) (clock : Nat → UInt64) (now : UInt64) {s : KvStore J}
    (hs : s.Filed hashKey) :
    (KvStore.Savable codec choices clock now s →
        KvStore.RoundTrips hashKey codec choices clock now s) ∧
      (KvStore.RoundTrips hashKey codec choices clock now s →
        KvStore.Savable codec choices clock now s ∨
          ∃ e ∈ s.liveEntries choices now, ∃ j, e.value = .json j ∧
            65535 < (e.value.toBytes codec).length) := by
  refine ⟨fun h => h.roundTrips hs, fun h => ?_⟩
  by_cases hlong : ∃ e ∈ s.liveEntries choices now, ∃ j, e.value = .json j ∧
      65535 < (e.value.toBytes codec).length
  · exact .inr hlong
  · refine .inl (h.savable hs fun e he j hj => ?_)
    by_contra hlt
    exact hlong ⟨e, he, j, hj, by omega⟩

/-- JSON without values to write. -/
def noJson : JsonCodec Empty := ⟨fun v => v.elim, fun _ => none⟩

/-- A key without a time to live, and one with ten seconds. -/
def withTtl : List (KvWrite Empty) :=
  [⟨0, [1], 1, .set (.integer 7) none⟩, ⟨0, [2], 1, .set (.boolean true) (some 10)⟩]

/-- The hash of a key of one byte is that byte. -/
def byteHash (key : Bytes) : UInt64 := .ofNat (leNat key)

theorem kv_checkpoint_round_trip_withTtl :
    let s := KvWrite.run byteHash withTtl
    (KvStore.Savable noJson (fun _ => 0) (fun _ => 0) 5 s →
        KvStore.RoundTrips byteHash noJson (fun _ => 0) (fun _ => 0) 5 s) ∧
      (KvStore.RoundTrips byteHash noJson (fun _ => 0) (fun _ => 0) 5 s →
        KvStore.Savable noJson (fun _ => 0) (fun _ => 0) 5 s ∨
          ∃ e ∈ s.liveEntries (fun _ => 0) 5, ∃ j, e.value = .json j ∧
            65535 < (e.value.toBytes noJson).length) :=
  kv_checkpoint_round_trip byteHash noJson (fun _ => 0) (fun _ => 0) 5 KvWrite.filed_run

/-- A store loaded at 8 expires the key at 18, which expired at 10. -/
theorem not_kv_checkpoint_round_trip :
    let s := KvWrite.run byteHash withTtl
    let expiry := fun s : KvStore Empty => (s.chain 2).getLast?.bind (·.metadata.expiry)
    expiry s = some 10 ∧
      ((KvStore.fromBytes noJson byteHash (fun _ => 8) (s.toBytes noJson (fun _ => 0) 5)).map
        expiry).toOption = some (some 18) := by
  decide +kernel

end SqliteGraph.V3
