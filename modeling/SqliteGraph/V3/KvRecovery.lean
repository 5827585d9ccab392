import SqliteGraph.V3.KvReplay
import SqliteGraph.V3.KvSession
import SqliteGraph.V3.WalReading

/-! What a crash leaves of the keys: the last write of each key that has reached a file. -/
namespace SqliteGraph.V3
open Lib

/-- The maps that the writes so far stand for, that the logged ones stand for, and that those stand
for which have been flushed to the log or into a checkpoint. -/
structure KvDurability (J : Type) where
  current : Bytes → Option (KvValue J)
  logged : Bytes → Option (KvValue J)
  durable : Bytes → Option (KvValue J)

/-- bincode reads back what it writes, and writes a checkpoint record within the limit. -/
structure Bincode.Lawful (codec : Bincode) : Prop where
  roundTrips : codec.RoundTrips
  checkpoint : ∀ fields timestamp w, (KvSession.checkpointRecord fields timestamp w).Accepted codec

/-- One more record fills the buffer. -/
def WALWriter.Fills (codec : Bincode) (w : WALWriter) (record : V3WALRecord) : Prop :=
  w.flushThreshold ≤ (w.buffer ++ frame (record.payload codec)).length

instance {codec : Bincode} {w : WALWriter} {record : V3WALRecord} : Decidable (w.Fills codec record) :=
  inferInstanceAs (Decidable (_ ≤ _))

section Session
variable {J : Type} (json : JsonCodec J) (hashKey : Bytes → UInt64) (sha : Sha256) (codec : Bincode)

namespace KvDurability

def new : KvDurability J := ⟨fun _ => none, fun _ => none, fun _ => none⟩

/-- A write reaches the log when its record is taken, and the file when it fills the buffer. -/
def write (g : KvDurability J) (writer : Option WALWriter) (key : Bytes) (v : Option (KvValue J))
    (record : V3WALRecord) : KvDurability J :=
  let current := Function.update g.current key v
  match writer with
  | none => { g with current := current }
  | some w =>
    if record.Accepted codec then
      let logged := Function.update g.logged key v
      ⟨current, logged, if w.Fills codec record then logged else g.durable⟩
    else { g with current := current }

def exec (s : KvSession J) (g : KvDurability J) : KvCall J → KvDurability J
  | .set _ timestamp key value ttlSeconds =>
    g.write codec s.writer key value.present
      (KvSession.kvSetRecord json s.version timestamp key value ttlSeconds)
  | .delete _ timestamp key => g.write codec s.writer key none (.kvDelete s.version key timestamp)
  | .flush .. => ⟨g.current, g.current, g.current⟩
  | .crash _ => ⟨g.durable, g.durable, g.durable⟩

end KvDurability

namespace KvCall

/-- A record that fills the buffer needs a file to go to, which has a header. -/
def HasRoom (s : KvSession J) (record : V3WALRecord) : Prop :=
  ∀ w, s.writer = some w → record.Accepted codec → w.Fills codec record → s.wal ≠ none

/-- No other key is filed under the hash of the key, a value that is logged can be read back, and
what is checkpointed fits the format. -/
def Allows (s : KvSession J) : KvCall J → Prop
  | set _ timestamp key value ttlSeconds =>
    s.store.Alone hashKey key ∧
    (s.writer ≠ none →
      KvValue.fromBytes json (value.toBytes json) value.typeTag = some value) ∧
    HasRoom codec s (KvSession.kvSetRecord json s.version timestamp key value ttlSeconds)
  | delete _ timestamp key =>
    s.store.Alone hashKey key ∧ HasRoom codec s (.kvDelete s.version key timestamp)
  | flush choices now _ _ => ∀ kv, s.kvStore = some kv → kv.Checkpointable json choices now
  | crash _ => True

/-- Every call of a run comes at a state that allows it. -/
def AllowsAll : KvSession J → List (KvCall J) → Prop
  | _, [] => True
  | s, call :: calls => Allows json hashKey codec s call ∧
    ∀ s', call.exec json hashKey sha codec s = some s' → AllowsAll s' calls

/-- A run, and what it should have made durable; there is no state after files that cannot be
opened. -/
def run : List (KvCall J) → KvSession J × KvDurability J → Option (KvSession J × KvDurability J)
  | [], p => some p
  | call :: calls, (s, g) =>
    (call.exec json hashKey sha codec s).bind fun s' => run calls (s', g.exec json codec s call)

end KvCall

end Session

section Proofs
variable {J : Type} {json : JsonCodec J} {hashKey : Bytes → UInt64} {sha : Sha256} {codec : Bincode}
  {s s' : KvSession J} {g : KvDurability J} {w : WALWriter} {record : V3WALRecord} {key : Bytes}
  {v : Option (KvValue J)}

/-- The log file covers what is durable, and the buffer what is logged. -/
structure LogCovers (json : JsonCodec J) (hashKey : Bytes → UInt64) (codec : Bincode)
    (s : KvSession J) (g : KvDurability J) (w : WALWriter) (l : WalLog) : Prop where
  writer : s.writer = some w
  sim : WalSim codec l ⟨s.wal, w⟩
  hasHeader : l.hasHeader = true
  noCheckpoint : s.checkpoint = none
  knows : ∀ record ∈ l.flushed ++ l.pending, ∀ key (v : Option (KvValue J)),
    record.effect json = some (key, v) → s.store.Knows hashKey key
  durable : valuesAfter json l.flushed (fun _ => none) = g.durable
  logged : valuesAfter json (l.flushed ++ l.pending) (fun _ => none) = g.logged

/-- There is no log file, and the checkpoint file covers what is durable. -/
structure CheckpointCovers (json : JsonCodec J) (hashKey : Bytes → UInt64) (sha : Sha256)
    (s : KvSession J) (g : KvDurability J) : Prop where
  noLog : s.wal = none
  unused : s.kvStore = none → s.checkpoint = none
  empty : s.checkpoint = none → g.durable = fun _ => none
  parsed : ∀ file, s.checkpoint = some file → ∀ clock, ∃ kv : KvStore J,
    parseKvCheckpoint json hashKey sha clock file = .ok kv ∧ kv.Tidy hashKey ∧
      kv.valueOf hashKey = g.durable

/-- What ties a session to its durable map. -/
structure KvInv (json : JsonCodec J) (hashKey : Bytes → UInt64) (sha : Sha256) (codec : Bincode)
    (s : KvSession J) (g : KvDurability J) : Prop where
  tidy : s.store.Tidy hashKey
  current : s.store.valueOf hashKey = g.current
  files : (∃ w l, LogCovers json hashKey codec s g w l) ∨ CheckpointCovers json hashKey sha s g

theorem onWal_none {call : WALWriter → WalM Unit} (h : s.writer = none) :
    KvSession.onWal call s = (.ok (), s) := by simp [KvSession.onWal, h]

theorem onWal_some {call : WALWriter → WalM Unit} (h : s.writer = some w) :
    KvSession.onWal call s = ((call w ⟨s.wal, w⟩).1, { s with
      wal := (call w ⟨s.wal, w⟩).2.file
      writer := some (call w ⟨s.wal, w⟩).2.writer }) := by
  simp [KvSession.onWal, h]

theorem onWal_kvStore {call : WALWriter → WalM Unit} :
    (KvSession.onWal call s).2.kvStore = s.kvStore := by
  cases hw : s.writer with
  | none => rw [onWal_none hw]
  | some w => rw [onWal_some hw]

theorem onWal_checkpoint {call : WALWriter → WalM Unit} :
    (KvSession.onWal call s).2.checkpoint = s.checkpoint := by
  cases hw : s.writer with
  | none => rw [onWal_none hw]
  | some w => rw [onWal_some hw]

namespace KvDurability

theorem write_current {writer : Option WALWriter} :
    (g.write codec writer key v record).current = Function.update g.current key v := by
  unfold write
  cases writer with
  | none => rfl
  | some w => dsimp only; split <;> rfl

theorem write_rejected (h : ¬ record.Accepted codec) :
    g.write codec (some w) key v record = { g with current := Function.update g.current key v } := by
  simp [write, h]

theorem write_accepted (h : record.Accepted codec) :
    g.write codec (some w) key v record =
      ⟨Function.update g.current key v, Function.update g.logged key v,
        if w.Fills codec record then Function.update g.logged key v else g.durable⟩ := by
  simp [write, h]

end KvDurability

theorem WalSim.fills_iff {l : WalLog} {file : Option Bytes} (h : WalSim codec l ⟨file, w⟩) :
    w.Fills codec record ↔ l.Fills codec record := by
  rw [WALWriter.Fills, WalLog.Fills, WalLog.push, WalLog.bytes_append, WalLog.bytes_singleton,
    ← h.buffer, ← h.threshold]

/-- A write while the log covers what is durable. -/
theorem LogCovers.write {l : WalLog} {kv : KvStore J} (h : LogCovers json hashKey codec s g w l)
    (hknows : ∀ key, s.store.Knows hashKey key → kv.Knows hashKey key) (hkey : kv.Knows hashKey key)
    (heff : record.effect json = some (key, v)) :
    ∃ w', LogCovers json hashKey codec
      (KvSession.onWal (fun _ => WALWriter.append codec record) { s with kvStore := some kv }).2
      (g.write codec s.writer key v record) w' (l.append codec record) := by
  have hsim : WalSim codec (l.append codec record) (WALWriter.append codec record ⟨s.wal, w⟩).2 :=
    h.sim.append fun _ _ => h.hasHeader
  have hadds : (WalCall.append record).Adds := trivial
  have hheader : (l.append codec record).hasHeader = true := hasHeader_exec h.hasHeader hadds
  have hold : ∀ record ∈ l.flushed ++ l.pending, ∀ key (v : Option (KvValue J)),
      record.effect json = some (key, v) → kv.Knows hashKey key :=
    fun record hr key v he => hknows key (h.knows record hr key v he)
  rw [onWal_some (s := { s with kvStore := some kv }) h.writer, h.writer]
  by_cases ha : record.Accepted codec
  · have hvalues : valuesAfter json (l.flushed ++ (l.pending ++ [record])) (fun _ => none) =
        Function.update g.logged key v := by
      rw [← List.append_assoc, valuesAfter_append, h.logged, valuesAfter_singleton heff]
    rw [KvDurability.write_accepted ha]
    refine ⟨_, rfl, hsim, hheader, h.noCheckpoint, ?_, ?_, ?_⟩
    · intro record' hr key' v' he
      rw [WalLog.append_records ha, ← List.append_assoc] at hr
      rcases List.mem_append.mp hr with hr | hr
      · exact hold record' hr key' v' he
      · rw [List.mem_singleton.mp hr] at he
        cases heff.symm.trans he
        exact hkey
    · rw [WalLog.append_flushed ha]
      by_cases hf : l.Fills codec record
      · rw [if_pos hf, if_pos (h.sim.fills_iff.mpr hf), hvalues]
      · rw [if_neg hf, if_neg (fun hw => hf (h.sim.fills_iff.mp hw)), h.durable]
    · rw [WalLog.append_records ha, hvalues]
  · rw [WalLog.append_of_rejected ha] at hsim hheader ⊢
    rw [KvDurability.write_rejected ha]
    exact ⟨_, rfl, hsim, hheader, h.noCheckpoint, hold, h.durable, h.logged⟩

/-- A write while there is no log file. -/
theorem CheckpointCovers.write {kv : KvStore J} (h : CheckpointCovers json hashKey sha s g)
    (hroom : KvCall.HasRoom codec s record) :
    CheckpointCovers json hashKey sha
      (KvSession.onWal (fun _ => WALWriter.append codec record) { s with kvStore := some kv }).2
      (g.write codec s.writer key v record) := by
  have hkept : ∀ {wal : Option Bytes} {writer : Option WALWriter} {g' : KvDurability J}, wal = none →
      g'.durable = g.durable →
        CheckpointCovers json hashKey sha ⟨wal, s.checkpoint, writer, some kv⟩ g' :=
    fun hwal hdurable => ⟨hwal, by simp, fun hc => hdurable ▸ h.empty hc,
      fun file hc clock => hdurable ▸ h.parsed file hc clock⟩
  rcases Option.eq_none_or_eq_some s.writer with hw | ⟨w, hw⟩
  · rw [onWal_none (s := { s with kvStore := some kv }) hw, hw]
    exact hkept h.noLog rfl
  · rw [onWal_some (s := { s with kvStore := some kv }) hw, hw]
    by_cases ha : record.Accepted codec
    · have hf : ¬ w.Fills codec record := fun hf => hroom w hw ha hf h.noLog
      refine hkept ?_ ?_
      · rw [WALWriter.append_accepted ha, if_neg (by exact hf)]
        exact h.noLog
      · rw [KvDurability.write_accepted ha, if_neg hf]
    · refine hkept ?_ ?_
      · rw [WALWriter.append_rejected ha]
        exact h.noLog
      · rw [KvDurability.write_rejected ha]

/-- The state after a write. -/
theorem KvInv.write (h : KvInv json hashKey sha codec s g) (entry : KvEntry J)
    (ha : s.store.Alone hashKey entry.key) (hroom : KvCall.HasRoom codec s record)
    (heff : s.writer ≠ none → record.effect json = some (entry.key, entry.value.present)) :
    KvInv json hashKey sha codec
      (KvSession.onWal (fun _ => WALWriter.append codec record)
        { s with kvStore := some (s.store.push hashKey entry) }).2
      (g.write codec s.writer entry.key entry.value.present record) := by
  have hstore : (KvSession.onWal (fun _ => WALWriter.append codec record)
      { s with kvStore := some (s.store.push hashKey entry) }).2.store =
        s.store.push hashKey entry := by
    rw [KvSession.store, onWal_kvStore]
    rfl
  refine ⟨?_, ?_, ?_⟩
  · rw [hstore]
    exact h.tidy.push ha
  · rw [hstore, KvStore.valueOf_push ha, h.current, KvDurability.write_current]
  · rcases h.files with ⟨w, l, hlog⟩ | hcheckpoint
    · have hwriter : s.writer ≠ none := by
        rw [hlog.writer]
        simp
      obtain ⟨w', hlog'⟩ := hlog.write
        (fun key hk => KvStore.knows_push.mpr (.inl hk)) (KvStore.knows_push.mpr (.inr rfl))
        (heff hwriter)
      exact .inl ⟨w', _, hlog'⟩
    · exact .inr (hcheckpoint.write hroom)

theorem onWal_ok {call : WALWriter → WalM Unit} (h : ∀ w file, (call w ⟨file, w⟩).1 = .ok ()) :
    KvSession.onWal call s = (.ok (), (KvSession.onWal call s).2) := by
  rcases Option.eq_none_or_eq_some s.writer with hw | ⟨w, hw⟩
  · rw [onWal_none hw]
  · rw [onWal_some hw, h]

theorem onWal_writer {call : WALWriter → WalM Unit} :
    (KvSession.onWal call s).2.writer = none ↔ s.writer = none := by
  rcases Option.eq_none_or_eq_some s.writer with hw | ⟨w, hw⟩
  · rw [onWal_none hw]
  · rw [onWal_some hw, hw]
    simp

theorem onWal_wal {call : WALWriter → WalM Unit} (h : s.writer = none) :
    (KvSession.onWal call s).2.wal = s.wal := by rw [onWal_none h]

theorem onWal_truncate (h : s.writer ≠ none) :
    (KvSession.onWal (fun _ => WALWriter.truncate) s).2.wal = none := by
  obtain ⟨w, hw⟩ := Option.ne_none_iff_exists'.mp h
  rw [onWal_some hw]
  rfl

section Flush
variable {choices : Nat → Nat} {now timestamp : UInt64} {fields : CheckpointFields}

/-- A flush leaves no log file, and the store in the checkpoint file if there is one. -/
theorem flushToDisk_spec (hcodec : codec.Lawful) (hs : s.writer = none → s.wal = none) :
    let t := (KvSession.flushToDisk json sha codec choices now timestamp fields s).2
    t.wal = none ∧ t.kvStore = s.kvStore ∧
      t.checkpoint = match s.kvStore with
        | some kv => some (writeKvCheckpoint json sha choices now kv)
        | none => s.checkpoint := by
  have happend : ∀ w file, (WALWriter.append codec
      (KvSession.checkpointRecord fields timestamp w) ⟨file, w⟩).1 = .ok () := fun w file => by
    rw [WALWriter.append_accepted (hcodec.checkpoint fields timestamp w)]
  have hflush : ∀ w file, (WALWriter.flush ⟨file, w⟩).1 = .ok () := fun w file => by
    rw [WALWriter.flush_ok]
  intro t
  have ht : t = (KvSession.onWal (fun _ => WALWriter.truncate) (KvSession.onWal
      (fun _ => WALWriter.flush) (KvSession.onWal (fun w => WALWriter.append codec
        (KvSession.checkpointRecord fields timestamp w))
          (s.writeCheckpoint json sha choices now)).2).2).2 := by
    simp only [t, KvSession.flushToDisk]
    rw [StoreM.modify_bind_run, StoreM.bind_ok _ (onWal_ok happend),
      StoreM.bind_ok _ (onWal_ok hflush)]
  refine ⟨?_, ?_, ?_⟩
  · by_cases hw : (s.writeCheckpoint json sha choices now).writer = none
    · rw [ht, onWal_wal (onWal_writer.mpr (onWal_writer.mpr hw)), onWal_wal (onWal_writer.mpr hw),
        onWal_wal hw]
      exact hs hw
    · rw [ht]
      exact onWal_truncate fun hnone => hw (onWal_writer.mp (onWal_writer.mp hnone))
  · rw [ht, onWal_kvStore, onWal_kvStore, onWal_kvStore]
    rfl
  · rw [ht, onWal_checkpoint, onWal_checkpoint, onWal_checkpoint]
    rfl

/-- After a flush, the checkpoint file covers everything. -/
theorem KvInv.flush (h : KvInv json hashKey sha codec s g) (hcodec : codec.Lawful)
    (hsaved : ∀ kv, s.kvStore = some kv → kv.Checkpointable json choices now) :
    KvInv json hashKey sha codec
      (KvSession.flushToDisk json sha codec choices now timestamp fields s).2
      ⟨g.current, g.current, g.current⟩ := by
  have hfiles : (s.writer = none → s.wal = none) ∧ (s.kvStore = none → s.checkpoint = none) := by
    rcases h.files with ⟨w, l, hlog⟩ | hcheckpoint
    · exact ⟨fun hw => by simp [hlog.writer] at hw, fun _ => hlog.noCheckpoint⟩
    · exact ⟨fun _ => hcheckpoint.noLog, hcheckpoint.unused⟩
  let t := (KvSession.flushToDisk json sha codec choices now timestamp fields s).2
  have hspec : t.wal = none ∧ t.kvStore = s.kvStore ∧ t.checkpoint = match s.kvStore with
      | some kv => some (writeKvCheckpoint json sha choices now kv)
      | none => s.checkpoint := flushToDisk_spec hcodec hfiles.1
  obtain ⟨hwal, hkv, hcheckpoint⟩ := hspec
  have hstore : t.store = s.store := by
    rw [KvSession.store, hkv]
    rfl
  have hempty : s.kvStore = none → g.current = fun _ => none := by
    intro hnone
    rw [← h.current, KvSession.store, hnone]
    rfl
  refine ⟨hstore ▸ h.tidy, hstore ▸ h.current, .inr ⟨hwal, fun hnone => ?_, fun hnone => ?_, ?_⟩⟩
  · rw [hkv] at hnone
    rw [hcheckpoint, hnone]
    exact hfiles.2 hnone
  · cases hs : s.kvStore with
    | none => exact hempty hs
    | some kv =>
      rw [hcheckpoint, hs] at hnone
      cases hnone
  · intro file hfile clock
    cases hs : s.kvStore with
    | none =>
      rw [hcheckpoint, hs, hfiles.2 hs] at hfile
      cases hfile
    | some kv =>
      rw [hcheckpoint, hs] at hfile
      cases hfile
      have hkvs : s.store = kv := by
        rw [KvSession.store, hs]
        rfl
      obtain ⟨kv', hparse, htidy, hvalues⟩ :=
        checkpoint_restores sha clock (hkvs ▸ h.tidy) (hsaved kv hs)
      exact ⟨kv', hparse, htidy, by rw [hvalues, ← hkvs, h.current]⟩

end Flush

/-- The header of a log file is read by a new writer. -/
theorem WalFile.newWriter {records : List V3WALRecord} {file : Bytes} (h : WalFile codec records file) :
    ∃ currentLsn committedLsn,
      WALWriter.new (some file) lsnBegin = .ok ⟨currentLsn, committedLsn, [], walFlushThreshold⟩ := by
  obtain ⟨header, hm, hr, hv, rfl⟩ := h
  refine ⟨header.currentLsn, header.committedLsn, ?_⟩
  simp [WALWriter.new, V3WALHeader.read_append hm hr hv, Bind.bind, Except.bind]

theorem KvStore.Tidy.key_eq {kv : KvStore J} {key key' : Bytes} (h : kv.Tidy hashKey)
    (hk : kv.Knows hashKey key) (hk' : kv.Knows hashKey key') (hhash : hashKey key = hashKey key') :
    key = key' := by
  obtain ⟨e, he, rfl⟩ := hk
  obtain ⟨e', he', rfl⟩ := hk'
  exact h.alone _ e (hhash ▸ he) e' he'

/-- Opening the files of a log replays what has been flushed. -/
theorem LogCovers.openFiles {l : WalLog} (h : LogCovers json hashKey codec s g w l)
    (htidy : s.store.Tidy hashKey) (hcodec : codec.RoundTrips) (clock : Nat → UInt64) :
    ∃ s', s.openFiles json hashKey sha codec clock = .ok s' ∧
      KvInv json hashKey sha codec s' ⟨g.durable, g.durable, g.durable⟩ := by
  obtain ⟨file, hfile, hwal⟩ := h.sim.present h.hasHeader
  replace hfile : s.wal = some file := hfile
  have haccepted : ∀ record ∈ l.flushed, record.Accepted codec :=
    fun record hr => h.sim.accepted record (List.mem_append_left _ hr)
  obtain ⟨currentLsn, committedLsn, hwriter⟩ := hwal.newWriter
  let t := l.flushed.foldl (applyKvRecord json hashKey clock) (KvStore.new, 0)
  have hreplay : replayKv json hashKey clock codec .new file = .ok t :=
    hwal.replayKv hcodec haccepted
  have hknows : ∀ record ∈ l.flushed, ∀ key (v : Option (KvValue J)),
      record.effect json = some (key, v) → s.store.Knows hashKey key :=
    fun record hr => h.knows record (List.mem_append_left _ hr)
  obtain ⟨htidy', hvalues, -, hknows'⟩ := replay_spec clock (s := (KvStore.new, 0))
    (fun _ _ => htidy.key_eq) hknows KvStore.tidy_new (fun _ hk => by simp [KvStore.Knows] at hk)
  have hdurable : t.1.valueOf hashKey = g.durable := hvalues.trans h.durable
  -- a log that says nothing about keys leaves the empty store
  let w' : WALWriter := ⟨currentLsn, committedLsn, [], walFlushThreshold⟩
  have hopen : ∃ s' : KvSession J, s.openFiles json hashKey sha codec clock = .ok s' ∧
      s'.store = t.1 ∧ s'.writer = some w' ∧ s'.wal = some file ∧ s'.checkpoint = none := by
    by_cases hcount : 0 < t.2
    · refine ⟨⟨some file, none, some w', some t.1⟩, ?_, rfl, rfl, rfl, rfl⟩
      simp [KvSession.openFiles, hfile, hwriter, recoverKv, hreplay, hcount, h.noCheckpoint,
        Bind.bind, Except.bind, w']
    · have hnew : t = (KvStore.new, 0) := replay_count.2 (by simpa using hcount)
      refine ⟨⟨some file, none, some w', none⟩, ?_, by rw [hnew]; rfl, rfl, rfl, rfl⟩
      simp [KvSession.openFiles, hfile, hwriter, recoverKv, hreplay, hcount, h.noCheckpoint,
        readKvCheckpoint, Bind.bind, Except.bind, w']
  obtain ⟨s', hopen, hstore, hwriter', hwal', hcheckpoint'⟩ := hopen
  have hsim : WalSim codec ⟨true, l.flushed, [], currentLsn, committedLsn⟩ ⟨s'.wal, w'⟩ :=
    ⟨by simpa using haccepted, rfl, rfl, rfl, rfl, by simp, fun _ => ⟨file, hwal', hwal⟩⟩
  refine ⟨s', hopen, by rwa [hstore], by rwa [hstore],
    .inl ⟨w', _, hwriter', hsim, rfl, hcheckpoint', ?_, h.durable, ?_⟩⟩
  · intro record hr key v he
    rw [List.append_nil] at hr
    rw [hstore]
    exact hknows' record hr key v he
  · rw [List.append_nil]
    exact h.durable

/-- Opening without a log file reads the checkpoint file. -/
theorem CheckpointCovers.openFiles (h : CheckpointCovers json hashKey sha s g) (clock : Nat → UInt64) :
    ∃ s', s.openFiles json hashKey sha codec clock = .ok s' ∧
      KvInv json hashKey sha codec s' ⟨g.durable, g.durable, g.durable⟩ := by
  cases hc : s.checkpoint with
  | none =>
    refine ⟨⟨none, none, none, none⟩, ?_, ?_⟩
    · simp [KvSession.openFiles, h.noLog, hc, readKvCheckpoint, Bind.bind, Except.bind]
    · refine ⟨KvStore.tidy_new, (h.empty hc).symm, .inr ⟨rfl, fun _ => rfl, fun _ => h.empty hc, ?_⟩⟩
      simp
  | some file =>
    obtain ⟨kv, hparse, htidy, hvalues⟩ := h.parsed file hc clock
    refine ⟨⟨none, some file, none, some kv⟩, ?_, ?_⟩
    · simp [KvSession.openFiles, h.noLog, hc, readKvCheckpoint, hparse, Bind.bind, Except.bind]
    · refine ⟨htidy, hvalues, .inr ⟨rfl, by simp, by simp, ?_⟩⟩
      intro file' hfile' clock'
      cases hfile'
      exact h.parsed file hc clock'

theorem KvInv.openFiles (h : KvInv json hashKey sha codec s g) (hcodec : codec.Lawful)
    (clock : Nat → UInt64) :
    ∃ s', s.openFiles json hashKey sha codec clock = .ok s' ∧
      KvInv json hashKey sha codec s' ⟨g.durable, g.durable, g.durable⟩ := by
  rcases h.files with ⟨w, l, hlog⟩ | hcheckpoint
  · exact hlog.openFiles h.tidy hcodec.roundTrips clock
  · exact hcheckpoint.openFiles clock

/-- A call that is allowed keeps a session with its durable map. -/
theorem KvInv.exec {call : KvCall J} (h : KvInv json hashKey sha codec s g) (hcodec : codec.Lawful)
    (hallows : call.Allows json hashKey codec s) :
    ∃ s', call.exec json hashKey sha codec s = some s' ∧
      KvInv json hashKey sha codec s' (g.exec json codec s call) := by
  cases call with
  | set now timestamp key value ttlSeconds =>
    obtain ⟨ha, hread, hroom⟩ := hallows
    refine ⟨_, rfl, h.write ⟨key, value, _⟩ ha hroom fun hw => ?_⟩
    simp [KvSession.kvSetRecord, V3WALRecord.effect, hread hw]
  | delete now timestamp key =>
    obtain ⟨ha, hroom⟩ := hallows
    exact ⟨_, rfl, h.write ⟨key, .null, _⟩ ha hroom fun _ => rfl⟩
  | flush choices now timestamp fields => exact ⟨_, rfl, h.flush hcodec hallows⟩
  | crash clock =>
    obtain ⟨s', hopen, hinv⟩ := h.openFiles hcodec clock
    exact ⟨s', by rw [KvCall.exec, hopen]; rfl, hinv⟩

theorem KvInv.run {calls : List (KvCall J)} (h : KvInv json hashKey sha codec s g)
    (hcodec : codec.Lawful) (hallows : KvCall.AllowsAll json hashKey sha codec s calls) :
    ∃ s' g', KvCall.run json hashKey sha codec calls (s, g) = some (s', g') ∧
      KvInv json hashKey sha codec s' g' := by
  induction calls generalizing s g with
  | nil => exact ⟨s, g, rfl, h⟩
  | cons call calls ih =>
    obtain ⟨s₁, hexec, hinv⟩ := h.exec hcodec hallows.1
    obtain ⟨s', g', hrun, hinv'⟩ := ih hinv (hallows.2 s₁ hexec)
    exact ⟨s', g', by rw [KvCall.run, hexec]; exact hrun, hinv'⟩

/-- A backend that has just been made. -/
theorem KvInv.created {now : UInt64} (h : KvSession.createWithWal now = .ok s) :
    KvInv json hashKey sha codec s .new := by
  cases h
  refine ⟨KvStore.tidy_new, rfl, .inl ⟨_, ⟨true, [], [], lsnBegin, lsnInvalid⟩, rfl, ?_, rfl, rfl,
    by simp, rfl, rfl⟩⟩
  exact WalSim.fresh.writeHeader rfl (by decide)

end Proofs

/-- The files can be opened again, and bring back what is durable. -/
def KvSession.Restores {J : Type} (json : JsonCodec J) (hashKey : Bytes → UInt64) (sha : Sha256)
    (codec : Bincode) (s : KvSession J) (g : KvDurability J) : Prop :=
  ∀ clock, ∃ s', s.openFiles json hashKey sha codec clock = .ok s' ∧
    ∀ key, s'.store.valueOf hashKey key = g.durable key

/-- A crash at the end of a run whose calls are all allowed loses nothing durable, and brings back
nothing else. -/
theorem kv_crash_recovery {J : Type} {json : JsonCodec J} {hashKey : Bytes → UInt64} {sha : Sha256}
    {codec : Bincode} {now : UInt64} {s : KvSession J} {calls : List (KvCall J)}
    (hcodec : codec.Lawful) (hs : KvSession.createWithWal now = .ok s)
    (hcalls : KvCall.AllowsAll json hashKey sha codec s calls) :
    ∃ s' g', KvCall.run json hashKey sha codec calls (s, .new) = some (s', g') ∧
      s'.Restores json hashKey sha codec g' := by
  obtain ⟨s', g', hrun, hinv⟩ := (KvInv.created hs).run hcodec hcalls
  refine ⟨s', g', hrun, fun clock => ?_⟩
  obtain ⟨t, hopen, hinv'⟩ := hinv.openFiles hcodec clock
  exact ⟨t, hopen, fun key => congrFun hinv'.current key⟩

theorem bincode_lawful : bincode.Lawful := by
  refine ⟨bincode_roundTrips, fun fields timestamp w => ?_⟩
  have hsized : (KvSession.checkpointRecord fields timestamp w).Sized := by
    change fields.headerSnapshot.length < 2 ^ 64
    rw [fields.length_headerSnapshot]
    decide
  refine ⟨_, if_pos hsized, ?_⟩
  simp [KvSession.checkpointRecord, V3WALRecord.write, Format.pair, Format.bytes, Format.u64,
    Format.u32, Format.map, Format.word, fields.length_headerSnapshot, v3HeaderSize, maxRecordSize]

/-- A checkpoint record of a database without pages. -/
def noPages : CheckpointFields := ⟨0, 0, 0, 0, List.replicate 112 0, by decide⟩

def zeroSha : Sha256 := ⟨fun _ => List.replicate 32 0, fun _ => by simp⟩

def createdSession : KvSession Empty :=
  ⟨some (WALWriter.header ⟨1, 0, [], walFlushThreshold⟩ 0).toBytes, none,
    some ⟨1, 0, [], walFlushThreshold⟩, none⟩

/-- After a flush the log is gone, and the writer is still there. -/
def flushedSession : KvSession Empty := ⟨none, none, some ⟨2, 0, [], walFlushThreshold⟩, none⟩

theorem exec_flush_created :
    (KvCall.flush (fun _ => 0) 0 0 noPages).exec noJson byteHash zeroSha bincode createdSession =
      some flushedSession := by
  let t := (KvSession.flushToDisk noJson zeroSha bincode (fun _ => 0) 0 0 noPages createdSession).2
  have hspec : t.wal = none ∧ t.kvStore = none ∧ t.checkpoint = none :=
    flushToDisk_spec bincode_lawful (by simp [createdSession])
  have hwriter : t.writer = some ⟨2, 0, [], walFlushThreshold⟩ := by decide +kernel
  obtain ⟨hwal, hkv, hcheckpoint⟩ := hspec
  exact congrArg some (KvSession.ext hwal hcheckpoint hwriter hkv)

theorem kv_crash_recovery_flushed :
    let calls := [KvCall.flush (fun _ => 0) 0 0 noPages, .set 0 0 [1] (.integer 7) none,
      .crash fun _ => 0]
    ∃ s' g', KvCall.run noJson byteHash zeroSha bincode calls (createdSession, .new) = some (s', g') ∧
      s'.Restores noJson byteHash zeroSha bincode g' := by
  have hcreated : KvSession.createWithWal 0 = .ok createdSession := rfl
  refine kv_crash_recovery bincode_lawful hcreated ⟨by simp [KvCall.Allows, createdSession], ?_⟩
  intro s hs
  obtain rfl : flushedSession = s := Option.some.inj (exec_flush_created.symm.trans hs)
  refine ⟨⟨?_, fun _ => rfl, ?_⟩, fun _ _ => ⟨trivial, fun _ _ => trivial⟩⟩
  · intro e he
    simp [flushedSession, KvSession.store] at he
  · intro w hw _ hf
    obtain rfl : _ = w := Option.some.inj hw
    revert hf
    decide +kernel

/-- A log file that is opened with begins with the magic bytes. -/
theorem openFiles_magic {J : Type} {json : JsonCodec J} {hashKey : Bytes → UInt64} {sha : Sha256}
    {codec : Bincode} {clock : Nat → UInt64} {s t : KvSession J} {file : Bytes}
    (hopen : s.openFiles json hashKey sha codec clock = .ok t) (hwal : s.wal = some file) :
    file.take 8 = v3WalMagic := by
  cases hread : V3WALHeader.read "Failed to read WAL header" file with
  | ok header => exact V3WALHeader.read_magic hread
  | error e =>
    simp [KvSession.openFiles, hwal, WALWriter.new, hread, Bind.bind, Except.bind] at hopen

def bytesRecord (b : Bytes) : V3WALRecord := .kvSet 0 [1] b 5 none 0

theorem length_bytesRecord {b : Bytes} : (bytesRecord b).write.length = 39 + b.length := by
  simp [bytesRecord, V3WALRecord.write, Format.pair, Format.bytes, Format.u64, Format.u8,
    Format.option, Format.map, Format.word]
  omega

theorem payload_bytesRecord {b : Bytes} (hb : b.length ≤ maxRecordSize - 39) :
    (bytesRecord b).Accepted bincode ∧ (bytesRecord b).payload bincode = (bytesRecord b).write := by
  have hle : b.length < 2 ^ 64 := lt_of_le_of_lt hb (by decide)
  have hsized : (bytesRecord b).Sized := ⟨by decide, hle⟩
  have hserialize : bincode.serialize (bytesRecord b) = some (bytesRecord b).write := if_pos hsized
  refine ⟨⟨_, hserialize, ?_⟩, by simp [V3WALRecord.payload, hserialize]⟩
  rw [length_bytesRecord]
  have : maxRecordSize - 39 + 39 = maxRecordSize := by decide
  omega

/-- A value that fills the buffer after a flush makes a file out of its record alone. -/
theorem wal_of_bytes {b : Bytes} (hb : b.length ≤ maxRecordSize - 39)
    (hfull : walFlushThreshold ≤ 43 + b.length) :
    (KvSession.kvSet noJson byteHash bincode 0 0 [1] (.bytes b) none flushedSession).2.wal =
      some (frame (bytesRecord b).write) := by
  obtain ⟨haccepted, hpayload⟩ := payload_bytesRecord hb
  change (KvSession.onWal (fun _ => WALWriter.append bincode (bytesRecord b)) _).2.wal = _
  rw [onWal_some (w := ⟨2, 0, [], walFlushThreshold⟩) rfl, WALWriter.append_accepted haccepted,
    hpayload, if_pos, WALWriter.flush_buffer]
  · rfl
  · simp [WalState.push, frame, leBytes]
  · simp only [WalState.push, List.nil_append, length_frame, length_bytesRecord]
    omega

/-- A value that fills the buffer after a flush makes a log file without a header, which cannot be
opened. -/
theorem not_kv_crash_recovery :
    ¬ ∀ (now : UInt64) (s : KvSession Empty) (calls : List (KvCall Empty)),
      KvSession.createWithWal now = .ok s →
      ∃ s' g', KvCall.run noJson byteHash zeroSha bincode calls (s, .new) = some (s', g') ∧
        s'.Restores noJson byteHash zeroSha bincode g' := by
  intro h
  have hlen : (List.replicate 65536 (0 : UInt8)).length = 65536 := List.length_replicate
  obtain ⟨s', g', hrun, hrestores⟩ := h 0 createdSession [.flush (fun _ => 0) 0 0 noPages,
    .set 0 0 [1] (.bytes (List.replicate 65536 0)) none] rfl
  rw [KvCall.run, exec_flush_created] at hrun
  obtain ⟨rfl, -⟩ := Prod.mk.inj (Option.some.inj hrun)
  obtain ⟨t, hopen, -⟩ := hrestores fun _ => 0
  have hmagic := openFiles_magic hopen
    (wal_of_bytes (by rw [hlen]; decide) (by rw [hlen]; decide))
  have hhead := congrArg List.head? hmagic
  rw [frame, length_bytesRecord, hlen] at hhead
  generalize (bytesRecord (List.replicate 65536 0)).write = record at hhead
  simp [leBytes, v3WalMagic] at hhead

end SqliteGraph.V3
