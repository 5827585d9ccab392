import SqliteGraph.Lib.Enumeration
import SqliteGraph.Sqlite.KvValue

/-! The key-value table in SQLite: point reads, writes and prefix scans, and when they agree. -/
namespace SqliteGraph.Sqlite
open Lib V3

structure KvRow where
  key : String
  valueJson : String
  ttlSeconds : Option Nat
  createdAt : Nat
  updatedAt : Nat
  version : Nat

/-- The rows of `kv_store`, in the order in which they were inserted. -/
abbrev KvTable : Type := List KvRow

/-- An `u64` becomes an integer of SQLite. -/
def fitsInteger (n : Nat) : Bool := n < 2 ^ 63

def KvRow.isExpired (row : KvRow) (now : Nat) : Bool :=
  match row.ttlSeconds with
  | some ttl => ttl < now - row.createdAt
  | none => false

/-- A row that is updated keeps the second of its creation. -/
def KvRow.updated (row : KvRow) (valueJson : String) (ttlSeconds : Option Nat) (now : Nat) : KvRow :=
  { row with valueJson, ttlSeconds, updatedAt := now, version := row.version + 1 }

namespace KvTable
variable (serde : SerdeJson)

/-- `now` is the second that the system clock tells. -/
def kvGet (t : KvTable) (now : Nat) (key : Bytes) : Except SqliteGraphError (Option KvEntryValue) :=
  match t.find? (·.key = bytesToString key) with
  | some row => if row.isExpired now then .ok none else (decodeStored serde row.valueJson).map some
  | none => .ok none

def kvSet (t : KvTable) (now : Nat) (key : Bytes) (value : KvEntryValue) (ttlSeconds : Option Nat) :
    Except SqliteGraphError KvTable :=
  let keyStr := bytesToString key
  let valueJson := encodeStored serde value
  let convertible := ttlSeconds.all fitsInteger && fitsInteger now
  if t.any (·.key = keyStr) then
    if convertible then
      .ok (t.map fun row => if row.key = keyStr then row.updated valueJson ttlSeconds now else row)
    else .error (.queryError
      "Failed to update KV entry: out of range integral type conversion attempted")
  else
    if convertible then .ok (t ++ [⟨keyStr, valueJson, ttlSeconds, now, now, 1⟩])
    else .error (.queryError
      "Failed to insert KV entry: out of range integral type conversion attempted")

def kvDelete (t : KvTable) (key : Bytes) : KvTable := t.filter (·.key ≠ bytesToString key)

/-- `LIKE` does not tell the cases of ASCII letters apart. -/
def sameLetter (a b : Char) : Bool := a.toLower = b.toLower

/-- `text LIKE pattern ESCAPE '\'`. -/
def like : Text → Text → Bool
  | [], text => text.isEmpty
  | '\\' :: c :: pattern, text =>
    match text with
    | x :: text => sameLetter c x && like pattern text
    | [] => false
  | '\\' :: [], _ => false
  | '%' :: pattern, text => text.tails.any (like pattern)
  | '_' :: pattern, text =>
    match text with
    | _ :: text => like pattern text
    | [] => false
  | c :: pattern, text =>
    match text with
    | x :: text => sameLetter c x && like pattern text
    | [] => false

/-- The bytes of the prefix are taken for text, where `%` and `_` are escaped. -/
def scanPattern (pre : Bytes) : Text :=
  (fromUtf8Lossy pre).toList.flatMap (fun c => if c = '%' ∨ c = '_' then ['\\', c] else [c]) ++ ['%']

/-- A row as the scan gives it out: the text of its key, as bytes. -/
def scanRow (row : KvRow) : Except SqliteGraphError (Bytes × KvEntryValue) :=
  match serde.fromStr row.valueJson with
  | .ok json => (jsonToKvValue json).map (utf8Bytes row.key, ·)
  | .error e => .error (.queryError s!"Failed to parse JSON: {e}")

def kvPrefixScan (t : KvTable) (pre : Bytes) : Except SqliteGraphError (List (Bytes × KvEntryValue)) := do
  let results ← (t.filter fun row => like (scanPattern pre) row.key.toList).mapM (scanRow serde)
  .ok (results.mergeSort fun a b => decide (a.1 ≤ b.1))

section Spec

/-- The scan gives out the pairs of a key with the prefix and the value that is got for it. -/
def ScanAgrees (t : KvTable) (now : Nat) (pre : Bytes) : Prop :=
  ∃ pairs, kvPrefixScan serde t pre = .ok pairs ∧
    ∀ key value, (key, value) ∈ pairs ↔ pre <+: key ∧ kvGet serde t now key = .ok (some value)

/-- No key but the empty one is in the table, and its value is got. -/
def OnlyEmptyKey (t : KvTable) (now : Nat) : Prop :=
  ∀ row ∈ t, row.key = "" ∧ ∃ value, kvGet serde t now [] = .ok (some value)

end Spec

section Keys
variable {key : Bytes} {b : UInt8}

/-- The text of one byte, as bytes. -/
def decimalBytes (b : UInt8) : Bytes := (decimal b).flatMap String.utf8EncodeChar

theorem utf8Bytes_bytesToString (key : Bytes) :
    utf8Bytes (bytesToString key) = [44].intercalate (key.map decimalBytes) := by
  rw [bytesToString, utf8Bytes_eq, String.toList_ofList]
  induction key with
  | nil => rfl
  | cons b key ih =>
    cases key with
    | nil => simp [List.intercalate, decimalBytes]
    | cons c key =>
      have hcomma : String.utf8EncodeChar ',' = [44] := by decide
      simp only [List.map_cons, List.intercalate_cons_cons, List.flatMap_append] at ih ⊢
      rw [ih]
      simp [decimalBytes, hcomma]

/-- Two digits at least, from ten on, all of them bytes from ten on. -/
theorem decimalBytes_spec (b : UInt8) : 1 ≤ (decimalBytes b).length ∧
    (10 ≤ b.toNat → 2 ≤ (decimalBytes b).length) ∧ ∀ x ∈ decimalBytes b, 10 ≤ x.toNat := by
  have hall : ∀ n < 256, 1 ≤ (decimalBytes (UInt8.ofNat n)).length ∧
      (10 ≤ n → 2 ≤ (decimalBytes (UInt8.ofNat n)).length) ∧
        (decimalBytes (UInt8.ofNat n)).all (fun x => decide (10 ≤ x.toNat)) = true := by
    decide +kernel
  obtain ⟨hone, htwo, hdigits⟩ := hall b.toNat b.toNat_lt
  rw [UInt8.ofNat_toNat] at hone htwo hdigits
  refine ⟨hone, htwo, fun x hx => ?_⟩
  exact of_decide_eq_true (List.all_eq_true.mp hdigits x hx)

/-- The bytes of the text are a key that is not shorter, and longer if all its bytes are from ten on. -/
theorem length_keyText (hkey : key ≠ []) : key.length ≤ (utf8Bytes (bytesToString key)).length ∧
    ((∀ b ∈ key, 10 ≤ b.toNat) → key.length < (utf8Bytes (bytesToString key)).length) ∧
      ∀ x ∈ utf8Bytes (bytesToString key), 10 ≤ x.toNat := by
  rw [utf8Bytes_bytesToString]
  induction key with
  | nil => exact absurd rfl hkey
  | cons b key ih =>
    obtain ⟨hone, htwo, hdigits⟩ := decimalBytes_spec b
    cases key with
    | nil =>
      simp only [List.map_cons, List.map_nil, List.intercalate_singleton, List.length_singleton]
      exact ⟨hone, fun h => htwo (h b List.mem_cons_self), hdigits⟩
    | cons c key =>
      obtain ⟨hlen, hlong, hrest⟩ := ih (by simp)
      simp only [List.map_cons, List.intercalate_cons_cons, List.length_append, List.length_cons,
        List.length_nil] at hlen hlong hrest ⊢
      refine ⟨by omega, fun h => ?_, fun x hx => ?_⟩
      · have htail := hlong fun b hb => h b (List.mem_cons_of_mem _ hb)
        omega
      · rcases List.mem_append.mp hx with hx | hx
        · rcases List.mem_append.mp hx with hx | hx
          · exact hdigits x hx
          · rw [List.mem_singleton.mp hx]
            decide
        · exact hrest x hx

theorem bytesToString_eq_empty : bytesToString key = "" ↔ key = [] := by
  constructor
  · intro h
    by_contra hkey
    have hlen := (length_keyText hkey).1
    have hpositive := List.length_pos_of_ne_nil hkey
    rw [h] at hlen
    have hempty : (utf8Bytes "").length = 0 := by decide +kernel
    omega
  · rintro rfl
    rfl

theorem bytesToString_inj {key' : Bytes} (h : bytesToString key = bytesToString key') : key = key' := by
  by_cases hkey : key = []
  · subst hkey
    exact (bytesToString_eq_empty.mp h.symm).symm
  · have hkey' : key' ≠ [] := by
      rintro rfl
      exact hkey (bytesToString_eq_empty.mp h)
    have hback := stringToBytes_bytesToString hkey
    rw [h, stringToBytes_bytesToString hkey'] at hback
    exact (Except.ok.inj hback).symm

end Keys

section Scan
variable {serde : SerdeJson} {t : KvTable} {now : Nat} {key pre : Bytes} {row : KvRow} {value : KvEntryValue}
  {pairs : List (Bytes × KvEntryValue)}

/-- The keys are texts of bytes, and each has one row. -/
structure Keyed (t : KvTable) : Prop where
  nodup : (t.map KvRow.key).Nodup
  texts : ∀ row ∈ t, ∃ key, row.key = bytesToString key

theorem find_of_mem (h : Keyed t) (hrow : row ∈ t) {text : String} (hkey : row.key = text) :
    t.find? (·.key = text) = some row := by
  cases hfind : t.find? (·.key = text) with
  | none =>
    have hnone := List.find?_eq_none.mp hfind row hrow
    exact absurd hkey (by simpa using hnone)
  | some other =>
    have hother := List.find?_some hfind
    have hsame := List.inj_on_of_nodup_map h.nodup (List.mem_of_find?_eq_some hfind) hrow
      ((of_decide_eq_true hother).trans hkey.symm)
    rw [hsame]

theorem kvGet_of_mem (h : Keyed t) (hrow : row ∈ t) (hkey : row.key = bytesToString key) :
    kvGet serde t now key =
      if row.isExpired now then .ok none else (decodeStored serde row.valueJson).map some := by
  rw [kvGet, find_of_mem h hrow hkey]

theorem mem_of_kvGet (h : kvGet serde t now key = .ok (some value)) : ∃ row ∈ t, row.key = bytesToString key := by
  rw [kvGet] at h
  split at h
  · rename_i row hfind
    exact ⟨row, List.mem_of_find?_eq_some hfind, by simpa using List.find?_some hfind⟩
  · cases h

theorem scanRow_key {pair : Bytes × KvEntryValue} (h : scanRow serde row = .ok pair) :
    pair.1 = utf8Bytes row.key := by
  rw [scanRow] at h
  split at h
  · rename_i json _
    cases hvalue : jsonToKvValue json with
    | error e =>
      rw [hvalue] at h
      cases h
    | ok value =>
      rw [hvalue] at h
      cases h
      rfl
  · cases h

/-- What a scan gives out: every row that matches, decoded. -/
theorem kvPrefixScan_ok (h : kvPrefixScan serde t pre = .ok pairs) :
    (∀ row ∈ t, like (scanPattern pre) row.key.toList = true →
      ∃ value, (utf8Bytes row.key, value) ∈ pairs) ∧
    ∀ pair ∈ pairs, ∃ row ∈ t, like (scanPattern pre) row.key.toList = true ∧ scanRow serde row = .ok pair := by
  obtain ⟨results, hresults, hsorted⟩ := except_bind_eq_ok h
  cases hsorted
  obtain ⟨hrows, hpairs⟩ := mem_of_mapM hresults
  constructor
  · intro row hrow hlike
    obtain ⟨pair, hpair, hscan⟩ := hrows row (List.mem_filter.mpr ⟨hrow, hlike⟩)
    refine ⟨pair.2, List.mem_mergeSort.mpr ?_⟩
    rw [← scanRow_key hscan]
    exact hpair
  · intro pair hpair
    obtain ⟨row, hrow, hscan⟩ := hpairs pair (List.mem_mergeSort.mp hpair)
    obtain ⟨hrow, hlike⟩ := List.mem_filter.mp hrow
    exact ⟨row, hrow, hlike, hscan⟩

theorem like_all (text : Text) : like (scanPattern []) text = true := by
  change text.tails.any (like []) = true
  rw [List.any_eq_true]
  exact ⟨[], by simp, rfl⟩

/-- A prefix that is not empty is the text of no key at all. -/
theorem like_nil (hpre : pre ≠ []) : like (scanPattern pre) [] = false := by
  obtain ⟨c, cs, htext⟩ : ∃ c cs, (fromUtf8Lossy pre).toList = c :: cs := by
    obtain ⟨b, pre, rfl⟩ := List.exists_cons_of_ne_nil hpre
    rw [fromUtf8Lossy, String.toList_ofList, List.length_cons, lossyChars, if_neg (by simp)]
    split
    · exact ⟨_, _, rfl⟩
    · exact ⟨_, _, rfl⟩
  rw [scanPattern, htext, List.flatMap_cons, List.append_assoc]
  by_cases hwild : c = '%' ∨ c = '_'
  · rw [if_pos hwild]
    rfl
  · rw [if_neg hwild]
    obtain ⟨d, rest, hrest⟩ := List.exists_cons_of_ne_nil (l := cs.flatMap (fun c =>
      if c = '%' ∨ c = '_' then ['\\', c] else [c]) ++ ['%']) (by simp)
    rw [hrest, List.singleton_append, like.eq_def]
    split <;> simp_all

/-- With the key of a row, a scan that agrees finds a row whose key is the text of that one. -/
theorem ScanAgrees.next (hagrees : ScanAgrees serde t now []) (hrow : row ∈ t)
    (hkey : row.key = bytesToString key) :
    ∃ row' ∈ t, row'.key = bytesToString (utf8Bytes (bytesToString key)) := by
  obtain ⟨pairs, hscan, hpairs⟩ := hagrees
  obtain ⟨value, hvalue⟩ := (kvPrefixScan_ok hscan).1 row hrow (like_all _)
  rw [hkey] at hvalue
  exact mem_of_kvGet ((hpairs _ _).mp hvalue).2

/-- So there would be longer and longer keys. -/
theorem ScanAgrees.longer (hagrees : ScanAgrees serde t now []) (hrow : row ∈ t)
    (hkey : row.key = bytesToString key) (hne : key ≠ []) (n : Nat) :
    ∃ row' ∈ t, ∃ key', row'.key = bytesToString key' ∧ key' ≠ [] ∧ (∀ b ∈ key', 10 ≤ b.toNat) ∧
      n ≤ key'.length := by
  have hnonempty : ∀ {key : Bytes}, key ≠ [] → utf8Bytes (bytesToString key) ≠ [] := by
    intro key hkey
    apply List.ne_nil_of_length_pos
    have hpositive := List.length_pos_of_ne_nil hkey
    have hlen := (length_keyText hkey).1
    omega
  induction n with
  | zero =>
    obtain ⟨row', hrow', hkey'⟩ := hagrees.next hrow hkey
    exact ⟨row', hrow', _, hkey', hnonempty hne, (length_keyText hne).2.2, Nat.zero_le _⟩
  | succ n ih =>
    obtain ⟨last, hlast, key', hkey', hne', hbytes, hlen⟩ := ih
    obtain ⟨row', hrow', hnext⟩ := hagrees.next hlast hkey'
    obtain ⟨-, hlonger, hdigits⟩ := length_keyText hne'
    exact ⟨row', hrow', _, hnext, hnonempty hne', hdigits, Nat.lt_of_le_of_lt hlen (hlonger hbytes)⟩

theorem scanRow_of_kvGet (h : Keyed t) (hrow : row ∈ t) (hkey : row.key = bytesToString key)
    (hget : kvGet serde t now key = .ok (some value)) : scanRow serde row = .ok (utf8Bytes row.key, value) := by
  rw [kvGet_of_mem h hrow hkey] at hget
  split at hget
  · cases hget
  cases hjson : serde.fromStr row.valueJson with
  | error e =>
    rw [decodeStored, hjson] at hget
    cases hget
  | ok json =>
    rw [decodeStored, hjson] at hget
    have hscan : scanRow serde row = (jsonToKvValue json).map (utf8Bytes row.key, ·) := by
      rw [scanRow, hjson]
    rw [hscan]
    cases hvalue : jsonToKvValue json with
    | error e =>
      simp only [hvalue] at hget
      cases hget
    | ok value' =>
      simp only [hvalue] at hget
      cases hget
      rfl

theorem kvPrefixScan_eq {rows : List KvRow} (hrows : t.filter (fun row => like (scanPattern pre) row.key.toList) = rows)
    (hpairs : rows.mapM (scanRow serde) = .ok pairs) :
    kvPrefixScan serde t pre = .ok (pairs.mergeSort fun a b => decide (a.1 ≤ b.1)) := by
  rw [kvPrefixScan, hrows, hpairs]
  rfl

/-- Scans with every prefix agree with the point reads only when there is at most the empty key. -/
theorem scanAgrees_iff (h : Keyed t) : (∀ pre, ScanAgrees serde t now pre) ↔ OnlyEmptyKey serde t now := by
  constructor
  · intro hagrees row hrow
    obtain ⟨key, hkey⟩ := h.texts row hrow
    have hempty : key = [] := by
      by_contra hne
      obtain ⟨last, hlast, key', hkey', hne', -, hlong⟩ := (hagrees []).longer hrow hkey hne
        ((t.map fun row => (utf8Bytes row.key).length).sum + 1)
      have hbound := List.le_sum_of_mem (List.mem_map_of_mem (f := fun row : KvRow =>
        (utf8Bytes row.key).length) hlast)
      have hlen := (length_keyText hne').1
      rw [hkey'] at hbound
      omega
    subst hempty
    obtain ⟨pairs, hscan, hpairs⟩ := hagrees []
    obtain ⟨value, hvalue⟩ := (kvPrefixScan_ok hscan).1 row hrow (like_all _)
    rw [hkey] at hvalue
    exact ⟨hkey, value, ((hpairs _ _).mp hvalue).2⟩
  · intro hempty pre
    cases t with
    | nil =>
      refine ⟨_, kvPrefixScan_eq rfl rfl, fun key value => iff_of_false (by simp) ?_⟩
      rintro ⟨-, hget⟩
      obtain ⟨row, hrow, -⟩ := mem_of_kvGet hget
      exact absurd hrow List.not_mem_nil
    | cons row rest =>
      have hrest : rest = [] := by
        refine List.eq_nil_iff_forall_not_mem.mpr fun other hother => ?_
        have hfirst := (List.nodup_cons.mp h.nodup).1
        rw [(hempty row List.mem_cons_self).1, ← (hempty other (List.mem_cons_of_mem _ hother)).1] at hfirst
        exact hfirst (List.mem_map_of_mem hother)
      subst hrest
      obtain ⟨hkey, value, hget⟩ := hempty row List.mem_cons_self
      have htext : row.key = bytesToString [] := hkey
      have hscan := scanRow_of_kvGet h List.mem_cons_self htext hget
      have honly : ∀ key v, kvGet serde [row] now key = .ok (some v) → key = [] := by
        intro key v hv
        obtain ⟨row', hrow', hkey'⟩ := mem_of_kvGet hv
        rw [List.mem_singleton.mp hrow', hkey] at hkey'
        exact bytesToString_eq_empty.mp hkey'.symm
      by_cases hpre : pre = []
      · subst hpre
        have hrows : [row].filter (fun row => like (scanPattern []) row.key.toList) = [row] := by
          simp [like_all]
        have hpairs : [row].mapM (scanRow serde) = .ok [([], value)] := by
          rw [List.mapM_cons, hscan, hkey]
          rfl
        refine ⟨_, kvPrefixScan_eq hrows hpairs, fun key v => ?_⟩
        · rw [List.mem_mergeSort, List.mem_singleton]
          constructor
          · intro hpair
            cases hpair
            exact ⟨List.prefix_rfl, hget⟩
          · rintro ⟨-, hv⟩
            obtain rfl := honly key v hv
            rw [hget] at hv
            cases hv
            rfl
      · have hnone : like (scanPattern pre) row.key.toList = false := by
          rw [hkey]
          exact like_nil hpre
        have hrows : [row].filter (fun row => like (scanPattern pre) row.key.toList) = [] := by
          simp [hnone]
        refine ⟨_, kvPrefixScan_eq hrows rfl, fun key v => iff_of_false (by simp) ?_⟩
        rintro ⟨hstarts, hv⟩
        rw [honly key v hv] at hstarts
        exact hpre (List.prefix_nil.mp hstarts)

end Scan

section Writes
variable {serde : SerdeJson} {t t' : KvTable} {now : Nat} {key : Bytes} {value : KvEntryValue}
  {ttlSeconds : Option Nat}

/-- A write that succeeds updates the row of its key, or adds one. -/
theorem kvSet_cases (h : kvSet serde t now key value ttlSeconds = .ok t') :
    ((∃ row ∈ t, row.key = bytesToString key) ∧ t' = t.map fun row =>
      if row.key = bytesToString key then row.updated (encodeStored serde value) ttlSeconds now else row) ∨
    ((∀ row ∈ t, row.key ≠ bytesToString key) ∧
      t' = t ++ [⟨bytesToString key, encodeStored serde value, ttlSeconds, now, now, 1⟩]) := by
  simp only [kvSet] at h
  split at h
  · rename_i hthere
    split at h
    · cases h
      left
      exact ⟨by simpa using hthere, rfl⟩
    · cases h
  · rename_i hnew
    split at h
    · cases h
      right
      exact ⟨by simpa using hnew, rfl⟩
    · cases h

theorem keyed_kvSet (h : Keyed t) (hset : kvSet serde t now key value ttlSeconds = .ok t') : Keyed t' := by
  rcases kvSet_cases hset with ⟨-, rfl⟩ | ⟨hnew, rfl⟩
  · have hkeys : ∀ row : KvRow, (if row.key = bytesToString key then
        row.updated (encodeStored serde value) ttlSeconds now else row).key = row.key := by
      intro row
      split
      · rfl
      · rfl
    refine ⟨?_, fun row hrow => ?_⟩
    · rw [List.map_map]
      exact (List.map_congr_left fun row _ => hkeys row) ▸ h.nodup
    · obtain ⟨old, hold, rfl⟩ := List.mem_map.mp hrow
      obtain ⟨k, hk⟩ := h.texts old hold
      exact ⟨k, (hkeys old).trans hk⟩
  · refine ⟨?_, fun row hrow => ?_⟩
    · rw [List.map_append, List.nodup_append]
      refine ⟨h.nodup, List.nodup_singleton _, fun k hk k' hk' he => ?_⟩
      obtain ⟨row, hrow, rfl⟩ := List.mem_map.mp hk
      exact hnew row hrow (he.trans (List.mem_singleton.mp hk'))
    · rcases List.mem_append.mp hrow with hold | hadded
      · exact h.texts row hold
      · exact ⟨key, by rw [List.mem_singleton.mp hadded]⟩

theorem keyed_kvDelete (h : Keyed t) (key : Bytes) : Keyed (kvDelete t key) :=
  ⟨h.nodup.sublist (List.filter_sublist.map _), fun row hrow => h.texts row (List.mem_filter.mp hrow).1⟩

end Writes

end KvTable

section Runs
open KvTable
variable (serde : SerdeJson)

inductive KvOp
  | set (key : Bytes) (value : KvEntryValue) (ttlSeconds : Option Nat)
  | delete (key : Bytes)
  | wait (seconds : Nat)

/-- The table and the clock, and what was last set for each key, and when. -/
structure KvRun where
  table : KvTable
  now : Nat
  lastSet : Bytes → Option (KvEntryValue × Option Nat × Nat)

namespace KvRun

def start (now : Nat) : KvRun := ⟨[], now, fun _ => none⟩

def apply (r : KvRun) : KvOp → KvRun
  | .set key value ttlSeconds =>
    match kvSet serde r.table r.now key value ttlSeconds with
    | .ok table => { r with table, lastSet := Function.update r.lastSet key (some (value, ttlSeconds, r.now)) }
    | .error _ => r
  | .delete key => { r with table := kvDelete r.table key, lastSet := Function.update r.lastSet key none }
  | .wait seconds => { r with now := r.now + seconds }

/-- What the last write of a key and its time to live from then say. -/
def expected (r : KvRun) (key : Bytes) : Except SqliteGraphError (Option KvEntryValue) :=
  match r.lastSet key with
  | some (value, ttlSeconds, time) =>
    if ttlSeconds.any (· < r.now - time) then .ok none
    else (decodeStored serde (encodeStored serde value)).map some
  | none => .ok none

/-- A write with a time to live does not meet a row that was made in another second. -/
def Restamps (r : KvRun) : KvOp → Prop
  | .set key _ (some _) => ∀ row ∈ r.table, row.key = bytesToString key → row.createdAt = r.now
  | _ => True

def AllRestamp : KvRun → List KvOp → Prop
  | _, [] => True
  | r, op :: ops => r.Restamps op ∧ AllRestamp (r.apply serde op) ops

/-- The row of a key holds what was last set for it. -/
def Traced (r : KvRun) : Prop := ∀ key,
  match r.lastSet key with
  | some (value, ttlSeconds, time) => ∃ row ∈ r.table, row.key = bytesToString key ∧
      row.valueJson = encodeStored serde value ∧ row.ttlSeconds = ttlSeconds ∧
        (ttlSeconds ≠ none → row.createdAt = time)
  | none => ∀ row ∈ r.table, row.key ≠ bytesToString key

variable {serde} {r : KvRun} {op : KvOp} {ops : List KvOp} {now : Nat}

theorem keyed_apply (h : Keyed r.table) (op : KvOp) : Keyed (r.apply serde op).table := by
  cases op with
  | set key value ttlSeconds =>
    rw [apply]
    split
    · rename_i table hset
      exact keyed_kvSet h hset
    · exact h
  | delete key => exact keyed_kvDelete h key
  | wait seconds => exact h

theorem keyed_run (h : Keyed r.table) (ops : List KvOp) : Keyed (ops.foldl (apply serde) r).table := by
  induction ops generalizing r with
  | nil => exact h
  | cons op ops ih => exact ih (keyed_apply h op)

theorem traced_set {key : Bytes} {value : KvEntryValue} {ttlSeconds : Option Nat} {table : KvTable}
    (h : r.Traced serde) (hop : r.Restamps (.set key value ttlSeconds))
    (hset : kvSet serde r.table r.now key value ttlSeconds = .ok table) :
    Traced serde { r with
      table
      lastSet := Function.update r.lastSet key (some (value, ttlSeconds, r.now)) } := by
  intro k
  dsimp only
  by_cases hk : k = key
  · subst hk
    rw [Function.update_self]
    rcases kvSet_cases hset with ⟨⟨row, hrow, hkey⟩, rfl⟩ | ⟨-, rfl⟩
    · refine ⟨row.updated (encodeStored serde value) ttlSeconds r.now, ?_, hkey, rfl, rfl, fun httl => ?_⟩
      · exact List.mem_map.mpr ⟨row, hrow, if_pos hkey⟩
      · obtain ⟨ttl, rfl⟩ := Option.ne_none_iff_exists'.mp httl
        exact hop row hrow hkey
    · exact ⟨_, List.mem_append_right _ (List.mem_singleton_self _), rfl, rfl, rfl, fun _ => rfl⟩
  · have hother : bytesToString k ≠ bytesToString key := fun he => hk (bytesToString_inj he)
    have hlast := h k
    rw [Function.update_of_ne hk]
    rcases kvSet_cases hset with ⟨-, rfl⟩ | ⟨-, rfl⟩
    · split at hlast
      · obtain ⟨row, hrow, hkey, hrest⟩ := hlast
        exact ⟨row, List.mem_map.mpr ⟨row, hrow, if_neg fun he => hother (hkey.symm.trans he)⟩, hkey, hrest⟩
      · intro row hrow
        obtain ⟨old, hold, rfl⟩ := List.mem_map.mp hrow
        split
        · exact hlast old hold
        · exact hlast old hold
    · split at hlast
      · obtain ⟨row, hrow, hrest⟩ := hlast
        exact ⟨row, List.mem_append_left _ hrow, hrest⟩
      · intro row hrow
        rcases List.mem_append.mp hrow with hold | hadded
        · exact hlast row hold
        · rw [List.mem_singleton.mp hadded]
          exact hother.symm

theorem traced_delete (h : r.Traced serde) (key : Bytes) :
    Traced serde { r with
      table := kvDelete r.table key
      lastSet := Function.update r.lastSet key none } := by
  intro k
  dsimp only
  by_cases hk : k = key
  · subst hk
    rw [Function.update_self]
    intro row hrow
    simpa using (List.mem_filter.mp hrow).2
  · have hother : bytesToString k ≠ bytesToString key := fun he => hk (bytesToString_inj he)
    have hlast := h k
    rw [Function.update_of_ne hk]
    split at hlast
    · obtain ⟨row, hrow, hkey, hrest⟩ := hlast
      refine ⟨row, List.mem_filter.mpr ⟨hrow, ?_⟩, hkey, hrest⟩
      rw [hkey]
      simpa using hother
    · intro row hrow
      exact hlast row (List.mem_filter.mp hrow).1

theorem traced_apply (h : r.Traced serde) (hop : r.Restamps op) : (r.apply serde op).Traced serde := by
  cases op with
  | set key value ttlSeconds =>
    rw [apply]
    split
    · rename_i table hset
      exact traced_set h hop hset
    · exact h
  | delete key => exact traced_delete h key
  | wait seconds => exact h

theorem traced_run (h : r.Traced serde) (hops : AllRestamp serde r ops) :
    (ops.foldl (apply serde) r).Traced serde := by
  induction ops generalizing r with
  | nil => exact h
  | cons op ops ih => exact ih (traced_apply h hops.1) hops.2

/-- Then every read says what is expected. -/
theorem Traced.kvGet_eq (h : r.Traced serde) (hkeyed : Keyed r.table) (key : Bytes) :
    kvGet serde r.table r.now key = r.expected serde key := by
  have hlast := h key
  rw [expected]
  split at hlast
  · rename_i value ttlSeconds time _
    obtain ⟨row, hrow, hkey, hvalue, httl, htime⟩ := hlast
    rw [kvGet_of_mem hkeyed hrow hkey, hvalue]
    have hexpired : row.isExpired r.now = ttlSeconds.any (· < r.now - time) := by
      rw [KvRow.isExpired, httl]
      cases ttlSeconds with
      | none => rfl
      | some ttl =>
        rw [htime (Option.some_ne_none ttl)]
        rfl
    rw [hexpired]
  · rw [kvGet]
    have hnone : r.table.find? (·.key = bytesToString key) = none :=
      List.find?_eq_none.mpr fun row hrow => by simpa using hlast row hrow
    rw [hnone]

theorem start_keyed : Keyed (start now).table := ⟨List.nodup_nil, fun _ h => absurd h List.not_mem_nil⟩

theorem start_traced : (start now).Traced serde := fun _ _ h => absurd h List.not_mem_nil

/-- In every state of every run: scans agree with point reads just when there is at most the empty
key, and a time to live counts from the last write if no write with one meets an older row. -/
theorem kvTable_run (serde : SerdeJson) (now : Nat) (ops : List KvOp) :
    ((∀ pre, ScanAgrees serde (ops.foldl (apply serde) (start now)).table
        (ops.foldl (apply serde) (start now)).now pre) ↔
      OnlyEmptyKey serde (ops.foldl (apply serde) (start now)).table
        (ops.foldl (apply serde) (start now)).now) ∧
    (AllRestamp serde (start now) ops → ∀ key,
      kvGet serde (ops.foldl (apply serde) (start now)).table (ops.foldl (apply serde) (start now)).now key =
        (ops.foldl (apply serde) (start now)).expected serde key) := by
  have hkeyed : Keyed (ops.foldl (apply serde) (start now)).table := keyed_run start_keyed ops
  exact ⟨scanAgrees_iff hkeyed, fun hops => (traced_run start_traced hops).kvGet_eq hkeyed⟩

/-- The scan for "u" does not find the key "u", and a second write does not make an entry live longer. -/
theorem not_kvTable_run :
    let value : KvEntryValue := .integer 42
    let serde : SerdeJson :=
      ⟨fun _ => "\x7b\"data\":42,\"type\":\"integer\"\x7d", fun _ => .ok (kvValueToJson value)⟩
    let once := [KvOp.set [117] value none].foldl (apply serde) (start 0)
    let twice := [KvOp.set [117] value (some 10), .wait 11, .set [117] value (some 10)].foldl (apply serde) (start 0)
    (kvGet serde once.table once.now [117] = .ok (some value) ∧ kvPrefixScan serde once.table [117] = .ok []) ∧
      kvGet serde twice.table twice.now [117] = .ok none ∧ twice.expected serde [117] = .ok (some value) := by
  refine ⟨⟨rfl, ?_⟩, rfl, rfl⟩
  have hnone : like (scanPattern [117]) ['1', '1', '7'] = false := by decide +kernel
  refine (kvPrefixScan_eq (List.filter_eq_nil_iff.mpr fun row hrow => ?_) rfl).trans
    (congrArg Except.ok (List.mergeSort_nil))
  rw [List.mem_singleton.mp hrow]
  exact Bool.eq_false_iff.mp hnone

end KvRun

end Runs

end SqliteGraph.Sqlite
