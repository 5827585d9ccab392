import SqliteGraph.V3.KvHistory

/-! Prefix scans against point reads. -/
namespace SqliteGraph.V3
open Lib
variable {J : Type} {hashKey : Bytes → UInt64} {history : List (KvWrite J)} {w : KvWrite J}
  {key pre : Bytes} {snapshot now h : UInt64} {versions : List (KvEntry J)} {v : KvValue J}
  {choices : Nat → Nat} {s : KvStore J}

namespace KvStore

/-- Every entry is filed under the hash of its key. -/
def Filed (hashKey : Bytes → UInt64) (s : KvStore J) : Prop :=
  ∀ h, ∀ e ∈ s.chain h, hashKey e.key = h

theorem scanChain_eq_some :
    scanChain now pre snapshot versions = some (key, v) ↔
      ∃ e, versions.getLast? = some e ∧ e.key = key ∧ e.value = v ∧ pre <+: key ∧
        e.metadata.version ≤ snapshot ∧ e.metadata.isExpiredAt now = false ∧ v.isNull = false := by
  unfold scanChain
  cases versions.getLast? with
  | none => simp
  | some e =>
    simp only [Option.some.injEq, exists_eq_left', Bool.not_eq_true]
    constructor
    · intro hscan
      split at hscan
      · rename_i hcond
        cases hscan
        exact ⟨rfl, rfl, hcond⟩
      · cases hscan
    · rintro ⟨rfl, rfl, hcond⟩
      rw [if_pos hcond]

theorem mem_prefixScan (hs : s.Filed hashKey) :
    (key, v) ∈ s.prefixScan choices now pre snapshot ↔
      scanChain now pre snapshot (s.chain (hashKey key)) = some (key, v) := by
  simp only [prefixScan, List.mem_mergeSort, List.mem_filterMap, (drain_perm _ _).mem_iff]
  constructor
  · rintro ⟨⟨h, versions⟩, hmem, hscan⟩
    have hchain : s.chain h = versions := by rw [chain, AList.mem_lookup_iff.mpr hmem, Option.getD_some]
    obtain ⟨e, he, hkey, -⟩ := scanChain_eq_some.mp hscan
    have hhash := hs h e (hchain ▸ List.mem_of_getLast? he)
    rw [hkey] at hhash
    rwa [hhash, hchain]
  · intro hscan
    cases hl : s.entries.lookup (hashKey key) with
    | none => simp [chain, hl, scanChain] at hscan
    | some versions =>
      rw [chain, hl, Option.getD_some] at hscan
      exact ⟨⟨hashKey key, versions⟩, AList.mem_lookup_iff.mp hl, hscan⟩

/-- No two chains have entries of one key, so that the sorted keys increase. -/
theorem prefixScan_sorted (hs : s.Filed hashKey) :
    ((s.prefixScan choices now pre snapshot).map Prod.fst).Pairwise (· < ·) := by
  have hhash : ∀ x ∈ s.entries.entries, ∀ r, scanChain now pre snapshot x.2 = some r →
      hashKey r.1 = x.1 := by
    rintro ⟨h, versions⟩ hmem ⟨key, v⟩ hscan
    obtain ⟨e, he, rfl, -⟩ := scanChain_eq_some.mp hscan
    refine hs h e ?_
    rw [chain, AList.mem_lookup_iff.mpr hmem, Option.getD_some]
    exact List.mem_of_getLast? he
  have hkeys : (drain choices s.entries.entries).Pairwise fun x y => x.1 ≠ y.1 :=
    ((drain_perm _ _).pairwise_iff fun h => h.symm).mpr (List.pairwise_map.mp s.entries.nodupKeys)
  have hdistinct : ((drain choices s.entries.entries).filterMap fun e =>
      scanChain now pre snapshot e.2).Pairwise fun x y => x.1 ≠ y.1 := by
    rw [List.pairwise_filterMap]
    refine hkeys.imp_of_mem fun {x y} hx hy hne r hr r' hr' heq => hne ?_
    rw [← hhash x ((drain_perm _ _).mem_iff.mp hx) r hr, heq,
      hhash y ((drain_perm _ _).mem_iff.mp hy) r' hr']
  have hle : (s.prefixScan choices now pre snapshot).Pairwise fun x y => decide (x.1 ≤ y.1) = true := by
    refine List.pairwise_mergeSort (fun a b c hab hbc => ?_) (fun a b => ?_) _
    · rw [decide_eq_true_eq] at hab hbc ⊢
      exact List.le_trans hab hbc
    · rw [Bool.or_eq_true, decide_eq_true_eq, decide_eq_true_eq]
      exact List.le_total _ _
  have hne : (s.prefixScan choices now pre snapshot).Pairwise fun x y => x.1 ≠ y.1 :=
    ((List.mergeSort_perm _ _).pairwise_iff fun h => h.symm).mpr hdistinct
  rw [List.pairwise_map]
  refine (hle.and hne).imp fun {x y} hxy => ?_
  exact Std.lt_of_le_of_ne (of_decide_eq_true hxy.1) hxy.2

end KvStore

namespace KvWrite

theorem filed_run : (run hashKey history).Filed hashKey := by
  intro h e he
  have hmem : e.core ∈ (filed hashKey history h).map entry := by
    rw [← chain_run]
    exact List.mem_map_of_mem he
  obtain ⟨w, hw, heq⟩ := List.mem_map.mp hmem
  have hkey : w.key = e.key := by
    rw [← entry_key, heq]
    rfl
  rw [← hkey]
  exact of_decide_eq_true (List.mem_filter.mp hw).2

/-- A scan has the keys whose newest write is the newest filed under their hash, is within the
snapshot and sets a value that is still there. -/
theorem mem_prefixScan_run :
    (key, v) ∈ (run hashKey history).prefixScan choices now pre snapshot ↔
      ∃ w, (filed hashKey history (hashKey key)).getLast? = some w ∧ w.key = key ∧
        w.entry.value = v ∧ pre <+: key ∧ w.version ≤ snapshot ∧ w.isExpiredAt now = false ∧
          v.isNull = false := by
  have hcore : KvStore.scanChain now pre snapshot ((run hashKey history).chain (hashKey key)) =
      KvStore.scanChain now pre snapshot ((filed hashKey history (hashKey key)).map entry) := by
    rw [← chain_run, KvStore.scanChain, KvStore.scanChain, List.getLast?_map]
    cases ((run hashKey history).chain (hashKey key)).getLast? <;> rfl
  rw [KvStore.mem_prefixScan filed_run, hcore, KvStore.scanChain_eq_some, List.getLast?_map]
  simp [isExpiredAt_entry]

/-- The write is one of a value that a point read at the snapshot shows. -/
def Readable (snapshot now : UInt64) (w : KvWrite J) : Prop :=
  w.isExpiredAt now = false ∧ (snapshot = 0 ∨ w.entry.value.isNull = false)

theorem shown_eq_some :
    w.entry.shown now snapshot = some v ↔ w.Readable snapshot now ∧ w.entry.value = v := by
  rw [KvEntry.shown, isExpiredAt_entry, Readable]
  by_cases hs : snapshot = 0
  · simp [hs]
  · simp [hs, and_assoc]

/-- The newest write filed under a hash is the newest visible one if it is itself visible. -/
theorem newest_filed_of_last (hw : (filed hashKey history h).getLast? = some w)
    (hv : w.version ≤ snapshot) :
    newest history snapshot (fun w => decide (hashKey w.key = h)) = some w := by
  obtain ⟨ws, hws⟩ := List.getLast?_eq_some_iff.mp hw
  have hfilter : history.filter (fun w => decide (hashKey w.key = h) &&
      decide (snapshot = 0 ∨ w.version ≤ snapshot)) =
      (filed hashKey history h).filter fun w => decide (snapshot = 0 ∨ w.version ≤ snapshot) := by
    rw [filed, List.filter_filter]
    exact List.filter_congr fun w _ => Bool.and_comm ..
  rw [newest, hfilter, hws, List.filter_append]
  simp [hv]

/-- Where a point read at the snapshot shows something for a key with the prefix, the newest write of
all under its hash is one to that key, within the snapshot, of a value that is not `Null`. -/
def Scannable (hashKey : Bytes → UInt64) (history : List (KvWrite J)) (pre : Bytes)
    (snapshot now : UInt64) : Prop :=
  ∀ key, pre <+: key →
    (∃ w, newest history snapshot (fun w => decide (hashKey w.key = hashKey key)) = some w ∧
      w.Readable snapshot now) →
    ∃ w, (filed hashKey history (hashKey key)).getLast? = some w ∧ w.key = key ∧
      w.version ≤ snapshot ∧ w.entry.value.isNull = false

end KvWrite

/-- The pairs are those of the point reads, in the order of their keys. -/
structure ScanAgrees (hashKey : Bytes → UInt64) (s : KvStore J) (pre : Bytes) (snapshot now : UInt64)
    (scan : List (Bytes × KvValue J)) : Prop where
  sorted : (scan.map Prod.fst).Pairwise (· < ·)
  mem : ∀ key v, (key, v) ∈ scan ↔
    pre <+: key ∧ s.getAtSnapshot hashKey now key snapshot = some v

/-- For histories whose versions do not decrease: when a scan agrees with the point reads. -/
theorem prefix_scan_iff (hashKey : Bytes → UInt64) {history : List (KvWrite J)}
    (hmono : history.Pairwise fun a b => a.version ≤ b.version) (choices : Nat → Nat) (pre : Bytes)
    (snapshot now : UInt64) :
    ScanAgrees hashKey (KvWrite.run hashKey history) pre snapshot now
        ((KvWrite.run hashKey history).prefixScan choices now pre snapshot) ↔
      KvWrite.Scannable hashKey history pre snapshot now := by
  have hread : ∀ key v, (KvWrite.run hashKey history).getAtSnapshot hashKey now key snapshot = some v ↔
      ∃ w, KvWrite.newest history snapshot (fun w => decide (hashKey w.key = hashKey key)) = some w ∧
        w.Readable snapshot now ∧ w.entry.value = v := by
    intro key v
    rw [KvWrite.getAtSnapshot_run hmono, Option.bind_eq_some_iff]
    simp only [KvWrite.shown_eq_some]
  constructor
  · rintro ⟨-, hmem⟩ key hpre ⟨w, hw, hreadable⟩
    have hscan := (hmem key w.entry.value).mpr ⟨hpre, (hread _ _).mpr ⟨w, hw, hreadable, rfl⟩⟩
    obtain ⟨w', hlast, hkey, hvalue, -, hversion, -, hnull⟩ := KvWrite.mem_prefixScan_run.mp hscan
    exact ⟨w', hlast, hkey, hversion, hvalue ▸ hnull⟩
  · intro hscannable
    refine ⟨KvStore.prefixScan_sorted KvWrite.filed_run, fun key v => ?_⟩
    rw [KvWrite.mem_prefixScan_run, hread]
    constructor
    · rintro ⟨w, hlast, -, hvalue, hpre, hversion, hexpired, hnull⟩
      exact ⟨hpre, w, KvWrite.newest_filed_of_last hlast hversion, ⟨hexpired, .inr (hvalue ▸ hnull)⟩,
        hvalue⟩
    · rintro ⟨hpre, w, hw, hreadable, hvalue⟩
      obtain ⟨w', hlast, hkey, hversion, hnull⟩ := hscannable key hpre ⟨w, hw, hreadable⟩
      obtain rfl : w = w' := Option.some.inj (hw.symm.trans (KvWrite.newest_filed_of_last hlast hversion))
      exact ⟨w, hlast, hkey, hvalue, hpre, hversion, hreadable.1, hvalue ▸ hnull⟩

/-- One key with two versions. -/
def twoVersions : List (KvWrite Unit) :=
  [⟨0, [1], 1, .set (.integer 7) none⟩, ⟨0, [1], 3, .set (.integer 8) none⟩]

theorem prefix_scan_iff_twoVersions :
    ScanAgrees (fun _ => 0) (KvWrite.run (fun _ => 0) twoVersions) [1] 3 5
        ((KvWrite.run (fun _ => 0) twoVersions).prefixScan (fun _ => 0) 5 [1] 3) ↔
      KvWrite.Scannable (fun _ => 0) twoVersions [1] 3 5 :=
  prefix_scan_iff (fun _ => 0) (by decide) (fun _ => 0) [1] 3 5

/-- At the older snapshot, and at snapshot 0, the scan finds nothing where the point read does. -/
theorem not_prefix_scan :
    let s := KvWrite.run (fun _ => 0) twoVersions
    (s.prefixScan (fun _ => 0) 5 [1] 2 = [] ∧ s.getAtSnapshot (fun _ => 0) 5 [1] 2 = some (.integer 7)) ∧
      s.prefixScan (fun _ => 0) 5 [1] 0 = [] ∧ s.getAtSnapshot (fun _ => 0) 5 [1] 0 = some (.integer 8) := by
  decide +kernel

end SqliteGraph.V3
