import SqliteGraph.Lib.Utf8
import SqliteGraph.V3.StringTable

/-! The table of strings as bytes, and what calls on the table that is read back return. -/
namespace SqliteGraph.V3
open Lib

namespace StringTable

/-- A length that does not fit 16 bits is cut, and the string with it. -/
def entryBytes (entry : String × Nat) : Bytes :=
  let len := min (utf8Bytes entry.1).length 65535
  beBytes 4 entry.2 ++ (beBytes 2 len ++ (utf8Bytes entry.1).take len)

def serialize (t : StringTable) : Bytes :=
  beBytes 4 t.strings.length ++ (t.strings.zip t.offsets).flatMap entryBytes

/-- `MAX_STRING_COUNT`. -/
def maxStringCount : Nat := 1000000

/-- What the loop does with an entry that it has read. -/
def addEntry (t : StringTable) (entry : String × Nat) : StringTable :=
  { t with
    strings := t.strings ++ [entry.1]
    offsets := t.offsets ++ [entry.2]
    stringToOffset := t.stringToOffset.insert entry.1 (entry.2 % 2 ^ 16) }

def readEntries (bytes : Bytes) : Nat → Nat → StringTable → Except NativeBackendError StringTable
  | 0, _, t => .ok t
  | n + 1, offset, t =>
    if bytes.length < offset + 6 then .error (.bufferTooSmall bytes.length (offset + 6))
    else
      let stringOffset := beNat (slice bytes offset 4)
      let stringLen := beNat (slice bytes (offset + 4) 2)
      if bytes.length < offset + 6 + stringLen then
        .error (.bufferTooSmall bytes.length (offset + 6 + stringLen))
      else
        let data := slice bytes (offset + 6) stringLen
        match fromUtf8 data with
        | none => .error (.corruptStringTable (utf8ErrorText data))
        | some string => readEntries bytes n (offset + 6 + stringLen) (t.addEntry (string, stringOffset))

def rebuildCommonTypeCache (t : StringTable) : StringTable :=
  { t with
    commonEdgeTypes := commonEdgeTypeNames.foldl (fun common edgeType =>
      match t.stringToOffset.lookup edgeType with
      | some offset => common.insert edgeType offset
      | none => common) ∅ }

def deserialize (bytes : Bytes) : Except NativeBackendError StringTable :=
  if bytes.length < 4 then .error (.bufferTooSmall bytes.length 4)
  else
    let stringCount := beNat (slice bytes 0 4)
    if maxStringCount < stringCount then
      .error (.corruptStringTable s!"String count {stringCount} exceeds maximum {maxStringCount}")
    else do
      let t ← readEntries bytes stringCount 4 ⟨[], [], ∅, ∅⟩
      .ok t.rebuildCommonTypeCache

/-- The table after calls on it, whether they fail or not. -/
def after (calls : List String) : StringTable := calls.foldl (fun t s => (getOrAddOffset s t).2) new

section Spec

/-- One of the calls has returned the offset. -/
def Returned (calls : List String) (offset : Nat) : Prop :=
  ∃ before s later, calls = before ++ s :: later ∧ (getOrAddOffset s (after before)).1 = .ok offset

/-- The table comes back, with the same answers for the offsets returned and the strings added. -/
def Persists (calls : List String) : Prop :=
  ∃ t, deserialize (after calls).serialize = .ok t ∧
    (∀ offset, Returned calls offset → t.getString offset = (after calls).getString offset) ∧
    ∀ s ∈ (after calls).strings, (getOrAddOffset s t).1 = (getOrAddOffset s (after calls)).1

/-- A call that fails leaves the table as it is, and fails again. -/
def FailsCleanly (t : StringTable) (s : String) : Prop :=
  ∀ e, (getOrAddOffset s t).1 = .error e →
    (getOrAddOffset s t).2 = t ∧ (getOrAddOffset s (getOrAddOffset s t).2).1 = .error e

/-- The string is there, or it has room and a length of 16 bits. -/
def HasRoom (t : StringTable) (s : String) : Prop :=
  s ∈ t.strings ∨ t.nextOffset ≤ 65535 ∧ s.utf8ByteSize ≤ 65535

end Spec

section Proofs
variable {t : StringTable} {ss calls : List String} {s : String} {bytes rest : Bytes}
  {entries : List (String × Nat)} {offset : Nat}

/-- A call for a string that neither map knows. -/
theorem getOrAddOffset_new (hcommon : t.commonEdgeTypes.lookup s = none)
    (hmap : t.stringToOffset.lookup s = none) : StringTable.getOrAddOffset s t =
    (if 65535 < t.nextOffset then .error (.recordTooLarge t.nextOffset 65535) else .ok t.nextOffset,
      t.addStringInternal s) := by
  simp only [StringTable.getOrAddOffset, StoreM.get_bind_run, hcommon, hmap, StoreM.modify_bind_run]
  split
  · rfl
  · rfl

/-- What a call does, by what the table holds. -/
theorem Holds.run (h : t.Holds ss) (s : String) : StringTable.getOrAddOffset s t =
    if s ∈ ss then (.ok (start ss (ss.idxOf s) % 2 ^ 16), t)
    else (if 65535 < start ss ss.length then .error (.recordTooLarge (start ss ss.length) 65535)
      else .ok (start ss ss.length), t.addStringInternal s) := by
  have hlookup := h.lookup s
  by_cases hmem : s ∈ ss
  · rw [if_pos hmem] at hlookup ⊢
    simp only [StringTable.getOrAddOffset, StoreM.get_bind_run]
    cases hc : t.commonEdgeTypes.lookup s with
    | some offset =>
      have hsame := (h.common s offset hc).symm.trans hlookup
      rw [← Option.some.inj hsame]
      rfl
    | none =>
      simp only [hlookup]
      rfl
  · rw [if_neg hmem] at hlookup ⊢
    have hcommon : t.commonEdgeTypes.lookup s = none := by
      rw [Option.eq_none_iff_forall_ne_some]
      intro offset hc
      rw [h.common s offset hc] at hlookup
      cases hlookup
    rw [getOrAddOffset_new hcommon hlookup, h.nextOffset]

theorem length_entryBytes (entry : String × Nat) :
    (entryBytes entry).length = 6 + min entry.1.utf8ByteSize 65535 := by
  simp only [entryBytes, List.length_append, length_beBytes, List.length_take, length_utf8Bytes]
  omega

/-- One round of the loop reads one entry, cut as it was written. -/
theorem readEntries_step {n o : Nat} (ho : o < 2 ^ 32)
    (hdrop : bytes.drop offset = entryBytes (s, o) ++ rest) :
    readEntries bytes (n + 1) offset t = match fromUtf8 ((utf8Bytes s).take (min s.utf8ByteSize 65535)) with
      | none => .error (.corruptStringTable (utf8ErrorText ((utf8Bytes s).take (min s.utf8ByteSize 65535))))
      | some x => readEntries bytes n (offset + (entryBytes (s, o)).length) (t.addEntry (x, o)) := by
  have hlen : (entryBytes (s, o)).length = 6 + min s.utf8ByteSize 65535 := length_entryBytes (s, o)
  have hroom := le_of_drop hdrop (List.ne_nil_of_length_pos (by omega))
  simp only [entryBytes, List.append_assoc, length_utf8Bytes] at hdrop
  have hlast := drop_of_drop (drop_of_drop hdrop length_beBytes) length_beBytes
  have hsize : (List.take (min s.utf8ByteSize 65535) (utf8Bytes s)).length = min s.utf8ByteSize 65535 := by
    rw [List.length_take, length_utf8Bytes]
    omega
  have hoffset : beNat (slice bytes offset 4) = o := by
    rw [slice_of_drop hdrop length_beBytes, beNat_beBytes ho]
  have hstring : beNat (slice bytes (offset + 4) 2) = min s.utf8ByteSize 65535 := by
    rw [slice_of_drop (drop_of_drop hdrop length_beBytes) length_beBytes, beNat_beBytes (by omega)]
  have hdata : slice bytes (offset + 6) (min s.utf8ByteSize 65535) =
      (utf8Bytes s).take (min s.utf8ByteSize 65535) := slice_of_drop hlast hsize
  rw [readEntries, if_neg (by omega)]
  simp only [hoffset, hstring, hdata]
  rw [if_neg (by omega), hlen, Nat.add_assoc]

/-- The entries of strings that fit are read as they are. -/
theorem readEntries_append {n : Nat} (hfit : ∀ entry ∈ entries, entry.1.utf8ByteSize ≤ 65535)
    (hoffsets : ∀ entry ∈ entries, entry.2 < 2 ^ 32)
    (hdrop : bytes.drop offset = entries.flatMap entryBytes ++ rest) :
    readEntries bytes (entries.length + n) offset t =
      readEntries bytes n (offset + (entries.flatMap entryBytes).length) (entries.foldl addEntry t) := by
  induction entries generalizing offset t with
  | nil => rw [List.length_nil, Nat.zero_add]; rfl
  | cons entry entries ih =>
    obtain ⟨hfit, hfits⟩ := List.forall_mem_cons.mp hfit
    obtain ⟨ho, hoffsets⟩ := List.forall_mem_cons.mp hoffsets
    rw [List.flatMap_cons, List.append_assoc] at hdrop
    have hwhole : (utf8Bytes entry.1).take (min entry.1.utf8ByteSize 65535) = utf8Bytes entry.1 := by
      rw [List.take_of_length_le]
      rw [length_utf8Bytes]
      omega
    rw [List.length_cons, Nat.add_right_comm, readEntries_step ho hdrop, hwhole, fromUtf8_utf8Bytes]
    change readEntries bytes (entries.length + n) _ (t.addEntry entry) = _
    rw [ih hfits hoffsets (drop_of_drop hdrop rfl), List.flatMap_cons, List.length_append, Nat.add_assoc,
      List.foldl_cons]

theorem holds_addEntry (hnd : ss.Nodup) : ((ss.zip (starts ss)).foldl addEntry ⟨[], [], ∅, ∅⟩).Holds ss := by
  induction ss using List.reverseRecOn with
  | nil => exact ⟨rfl, rfl, fun _ => by simp, fun _ _ h => by simp at h, List.nodup_nil⟩
  | append_singleton ss s ih =>
    obtain ⟨hold, -, hnew⟩ := List.nodup_append.mp hnd
    have hs : s ∉ ss := fun hmem => hnew s hmem s (List.mem_singleton_self s) rfl
    have hlen : ss.length = (starts ss).length := by simp [starts]
    rw [starts_snoc, List.zip_append hlen, List.foldl_append]
    have hadd := (ih hold).addStringInternal hs
    rw [StringTable.addStringInternal, (ih hold).nextOffset] at hadd
    exact hadd

/-- The cache of common types that is rebuilt agrees with the map. -/
theorem rebuild_lookup (t : StringTable) : ∀ s o,
    t.rebuildCommonTypeCache.commonEdgeTypes.lookup s = some o → t.stringToOffset.lookup s = some o := by
  have hfold : ∀ (names : List String) (common : AList fun _ : String => Nat),
      (∀ s o, common.lookup s = some o → t.stringToOffset.lookup s = some o) →
      ∀ s o, (names.foldl (fun common edgeType =>
        match t.stringToOffset.lookup edgeType with
        | some offset => common.insert edgeType offset
        | none => common) common).lookup s = some o → t.stringToOffset.lookup s = some o := by
    intro names
    induction names with
    | nil => exact fun _ h => h
    | cons name names ih =>
      intro common hcommon
      refine ih _ fun s o ho => ?_
      dsimp only at ho
      split at ho
      · rename_i offset hoffset
        by_cases he : s = name
        · subst he
          rw [AList.lookup_insert] at ho
          rw [hoffset, ← ho]
        · rw [AList.lookup_insert_ne he] at ho
          exact hcommon s o ho
      · exact hcommon s o ho
  exact hfold _ _ fun _ _ hnone => by simp at hnone

theorem Holds.rebuild (h : t.Holds ss) : t.rebuildCommonTypeCache.Holds ss :=
  ⟨h.strings, h.offsets, h.lookup, rebuild_lookup t, h.nodup⟩

/-- The bytes of all strings. -/
def total (ss : List String) : Nat := (ss.map String.utf8ByteSize).sum

/-- No string is too long, and each starts within 16 bits. -/
structure Small (ss : List String) : Prop where
  size : ∀ s ∈ ss, s.utf8ByteSize ≤ 65535
  start : ∀ i < ss.length, total (ss.take i) ≤ 65535

theorem total_snoc : total (ss ++ [s]) = total ss + s.utf8ByteSize := by simp [total]

theorem Small.total_le (h : Small ss) : total ss ≤ 131070 := by
  rcases List.eq_nil_or_concat ss with rfl | ⟨front, last, rfl⟩
  · exact Nat.zero_le _
  · rw [List.concat_eq_append] at h ⊢
    have hfront := h.start front.length (by simp)
    have hlast := h.size last (by simp)
    rw [List.take_left] at hfront
    rw [total_snoc]
    omega

theorem Small.snoc (h : Small ss) (hs : s.utf8ByteSize ≤ 65535) (htotal : total ss ≤ 65535) :
    Small (ss ++ [s]) := by
  refine ⟨fun s' hs' => ?_, fun i hi => ?_⟩
  · rcases List.mem_append.mp hs' with hold | hnew
    · exact h.size s' hold
    · rw [List.mem_singleton.mp hnew]
      exact hs
  · rw [List.length_append, List.length_singleton] at hi
    rw [List.take_append_of_le_length (by omega)]
    rcases Nat.lt_or_eq_of_le (Nat.le_of_lt_succ hi) with hlt | rfl
    · exact h.start i hlt
    · rwa [List.take_length]

theorem Small.start_length (h : Small ss) : StringTable.start ss ss.length = total ss := by
  have htotal := h.total_le
  rw [StringTable.start, List.take_length]
  exact Nat.mod_eq_of_lt (by rw [total] at htotal; omega)

/-- Only one string is empty. -/
theorem length_le_total (hnd : ss.Nodup) : ss.length ≤ total ss + 1 := by
  have hpositive : ∀ {l : List String}, "" ∉ l → l.length ≤ total l := by
    intro l hl
    induction l with
    | nil => exact Nat.le_refl 0
    | cons s l ih =>
      have hs : s.utf8ByteSize ≠ 0 := by
        intro hzero
        rw [String.utf8ByteSize_eq_zero_iff.mp hzero] at hl
        exact hl List.mem_cons_self
      have hrest := ih fun h => hl (List.mem_cons_of_mem _ h)
      rw [total, List.map_cons, List.sum_cons, ← total, List.length_cons]
      omega
  by_cases hempty : "" ∈ ss
  · have hrest := hpositive (l := ss.erase "") fun h => hnd.not_mem_erase h
    have hperm := List.perm_cons_erase hempty
    have hsum : total ss = total (ss.erase "") := by
      rw [total, (hperm.map _).sum_eq]
      simp [total]
    rw [hperm.length_eq, List.length_cons, hsum]
    omega
  · have hrest := hpositive hempty
    omega

/-- Calls with room keep the table small. -/
def Kept (t : StringTable) : Prop := ∃ ss, t.Holds ss ∧ Small ss

theorem kept_new : Kept new := by
  refine ⟨_, holds_new, ⟨by decide +kernel, ?_⟩⟩
  simp only [total]
  decide +kernel

theorem Holds.left (h : t.Holds ss) (s : String) : (StringTable.getOrAddOffset s t).2 =
    if s ∈ ss then t else t.addStringInternal s := by
  rw [h.run]
  split
  · rfl
  · rfl

theorem Kept.step (h : Kept t) (hroom : t.HasRoom s) : Kept (StringTable.getOrAddOffset s t).2 := by
  obtain ⟨ss, hholds, hsmall⟩ := h
  rw [hholds.left]
  split
  · exact ⟨ss, hholds, hsmall⟩
  · rename_i hnew
    rw [HasRoom, hholds.strings, hholds.nextOffset, hsmall.start_length] at hroom
    obtain ⟨htotal, hsize⟩ := hroom.resolve_left hnew
    exact ⟨_, hholds.addStringInternal hnew, hsmall.snoc hsize htotal⟩

theorem after_snoc (calls : List String) (s : String) :
    after (calls ++ [s]) = (getOrAddOffset s (after calls)).2 := by
  rw [after, List.foldl_append]
  rfl

theorem kept_after (h : ∀ before s, before ++ [s] <+: calls → (after before).HasRoom s) : Kept (after calls) := by
  induction calls using List.reverseRecOn with
  | nil => exact kept_new
  | append_singleton calls s ih =>
    rw [after_snoc]
    refine Kept.step (ih fun before s' hbefore => h before s' ?_) (h calls s List.prefix_rfl)
    exact hbefore.trans (List.prefix_append _ _)

theorem start_lt (ss : List String) : ∀ o ∈ starts ss, o < 2 ^ 32 := by
  intro o ho
  obtain ⟨i, -, rfl⟩ := List.mem_map.mp ho
  exact Nat.mod_lt _ (by decide)

/-- The count, the entries of the strings and then what is left. -/
theorem Holds.deserialize_eq (h : t.Holds ss) (hcount : ss.length ≤ maxStringCount) :
    deserialize t.serialize = (do
      let t' ← readEntries t.serialize ss.length 4 ⟨[], [], ∅, ∅⟩
      .ok t'.rebuildCommonTypeCache) := by
  have hslice : beNat (slice t.serialize 0 4) = ss.length := by
    have hlt : ss.length < 256 ^ 4 := by
      rw [maxStringCount] at hcount
      omega
    rw [serialize, slice_append_left length_beBytes, h.strings, beNat_beBytes hlt]
  rw [deserialize, if_neg]
  · simp only [hslice]
    rw [if_neg (Nat.not_lt.mpr hcount)]
  · rw [serialize, List.length_append, length_beBytes]
    omega

theorem Holds.drop_serialize (h : t.Holds ss) :
    t.serialize.drop 4 = (ss.zip (starts ss)).flatMap entryBytes := by
  rw [serialize, h.strings, h.offsets]
  exact List.drop_left' length_beBytes

/-- A small table is read back, holding the same strings. -/
theorem Holds.deserialize_serialize (h : t.Holds ss) (hsmall : Small ss) :
    ∃ t', deserialize t.serialize = .ok t' ∧ t'.Holds ss := by
  have hcount : ss.length ≤ maxStringCount := by
    have hle := length_le_total h.nodup
    have htotal := hsmall.total_le
    rw [maxStringCount]
    omega
  have hread : readEntries t.serialize ss.length 4 ⟨[], [], ∅, ∅⟩ =
      .ok ((ss.zip (starts ss)).foldl addEntry ⟨[], [], ∅, ∅⟩) := by
    have hlen : (ss.zip (starts ss)).length = ss.length := by simp [starts]
    have hentries := readEntries_append (t := ⟨[], [], ∅, ∅⟩) (n := 0)
      (fun entry he => hsmall.size _ (List.of_mem_zip he).1)
      (fun entry he => start_lt ss _ (List.of_mem_zip he).2)
      (h.drop_serialize.trans (List.append_nil _).symm)
    rw [hlen] at hentries
    exact hentries
  refine ⟨_, ?_, (holds_addEntry h.nodup).rebuild⟩
  rw [h.deserialize_eq hcount, hread]
  rfl

/-- Tables that hold the same strings give the same answers. -/
theorem Holds.getString_eq {t' : StringTable} (h : t.Holds ss) (h' : t'.Holds ss) (offset : Nat) :
    t'.getString offset = t.getString offset := by
  rw [StringTable.getString, StringTable.getString, h.strings, h'.strings, h.offsets, h'.offsets]

theorem persists_of_kept (h : Kept (after calls)) : Persists calls := by
  obtain ⟨ss, hholds, hsmall⟩ := h
  obtain ⟨t', hread, hback⟩ := hholds.deserialize_serialize hsmall
  refine ⟨t', hread, fun offset _ => hholds.getString_eq hback offset, fun s _ => ?_⟩
  rw [hback.run, hholds.run]
  split
  · rfl
  · rfl

/-- A call with room succeeds. -/
theorem Kept.failsCleanly (h : Kept t) (hroom : t.HasRoom s) : t.FailsCleanly s := by
  obtain ⟨ss, hholds, hsmall⟩ := h
  intro e he
  rw [hholds.run] at he
  split at he
  · cases he
  · rename_i hnew
    rw [HasRoom, hholds.strings, hholds.nextOffset] at hroom
    rw [if_neg (Nat.not_lt.mpr (hroom.resolve_left hnew).1)] at he
    cases he

/-- A call that fails has changed the table. -/
theorem Holds.not_failsCleanly (h : t.Holds ss) (hnew : s ∉ ss) (hfull : 65535 < t.nextOffset) :
    ¬ t.FailsCleanly s := by
  intro hclean
  rw [h.nextOffset] at hfull
  have hrun := h.run s
  rw [if_neg hnew, if_pos hfull] at hrun
  have hsame := (hclean _ (congrArg Prod.fst hrun)).1
  rw [congrArg Prod.snd hrun] at hsame
  have hlen := congrArg (fun t => t.strings.length) hsame
  simp [StringTable.addStringInternal] at hlen

/-- A long string that is added last does not come back. -/
theorem Kept.not_persists (h : Kept (after calls)) (hnew : s ∉ (after calls).strings)
    (hroom : (after calls).nextOffset ≤ 65535) (hlong : 65535 < s.utf8ByteSize) :
    ¬ Persists (calls ++ [s]) := by
  obtain ⟨ss, hholds, hsmall⟩ := h
  rw [hholds.strings] at hnew
  rw [hholds.nextOffset] at hroom
  have hadded : (after (calls ++ [s])).Holds (ss ++ [s]) := by
    rw [after_snoc, hholds.left, if_neg hnew]
    exact hholds.addStringInternal hnew
  rintro ⟨t', hread, -, hanswers⟩
  have hstart := hsmall.start_length
  have hanswer : (getOrAddOffset s t').1 = .ok (total ss) := by
    rw [hanswers s (by rw [hadded.strings]; simp), hadded.run, if_pos (by simp),
      List.idxOf_append_of_notMem hnew, List.idxOf_cons_self, Nat.add_zero,
      start_append (Nat.le_refl _), hstart, Nat.mod_eq_of_lt (by omega)]
  have hcount : (ss ++ [s]).length ≤ maxStringCount := by
    have hle := length_le_total hadded.nodup
    have hss := length_le_total hholds.nodup
    have htotal := hsmall.total_le
    rw [maxStringCount, List.length_append, List.length_singleton]
    omega
  have hentries : (after (calls ++ [s])).serialize.drop 4 =
      (ss.zip (starts ss)).flatMap entryBytes ++ (entryBytes (s, total ss) ++ []) := by
    have hlen : ss.length = (starts ss).length := by simp [starts]
    rw [hadded.drop_serialize, starts_snoc, List.zip_append hlen, List.flatMap_append, hstart]
    rfl
  have hzip : (ss.zip (starts ss)).length = ss.length := by simp [starts]
  have hloop := readEntries_append (t := ⟨[], [], ∅, ∅⟩) (n := 1)
    (fun entry he => hsmall.size _ (List.of_mem_zip he).1)
    (fun entry he => start_lt ss _ (List.of_mem_zip he).2) hentries
  have htotal : total ss < 2 ^ 32 := by
    have hle := hsmall.total_le
    omega
  rw [readEntries_step htotal (drop_of_drop hentries rfl), hzip, Nat.min_eq_right hlong.le] at hloop
  rw [hadded.deserialize_eq hcount, List.length_append, List.length_singleton, hloop] at hread
  cases hx : fromUtf8 ((utf8Bytes s).take 65535) with
  | none =>
    rw [hx] at hread
    cases hread
  | some x =>
    rw [hx] at hread
    cases hread
    have hback := holds_addEntry hholds.nodup
    set front := (ss.zip (starts ss)).foldl addEntry ⟨[], [], ∅, ∅⟩
    have hsize : x.utf8ByteSize = 65535 := by
      rw [← length_utf8Bytes, utf8Bytes_fromUtf8 hx, List.length_take, length_utf8Bytes]
      omega
    have hne : s ≠ x := by
      rintro rfl
      omega
    have hmap : (front.addEntry (x, total ss)).stringToOffset.lookup s = none := by
      rw [addEntry, AList.lookup_insert_ne hne, hback.lookup, if_neg hnew]
    have hcommon : (front.addEntry (x, total ss)).rebuildCommonTypeCache.commonEdgeTypes.lookup s = none := by
      rw [Option.eq_none_iff_forall_ne_some]
      intro o ho
      rw [rebuild_lookup _ s o ho] at hmap
      cases hmap
    have hnext : (front.addEntry (x, total ss)).rebuildCommonTypeCache.nextOffset = total ss + 65535 := by
      rw [nextOffset, rebuildCommonTypeCache, addEntry]
      simp only [List.getLast?_concat, Option.map_some, Option.getD_some, hsize]
      omega
    rw [getOrAddOffset_new hcommon hmap, hnext] at hanswer
    dsimp only at hanswer
    split at hanswer
    · cases hanswer
    · have hsame := Except.ok.inj hanswer
      omega

/-- In a run the tables all come back and the failing calls leave them as they are, just when every
call has room. -/
theorem persists_iff (calls : List String) :
    ((∀ before, before <+: calls → Persists before) ∧
      ∀ before s, before ++ [s] <+: calls → (after before).FailsCleanly s) ↔
    ∀ before s, before ++ [s] <+: calls → (after before).HasRoom s := by
  constructor
  · induction calls using List.reverseRecOn with
    | nil =>
      rintro - before s hbefore
      exact absurd (List.prefix_nil.mp hbefore) (by simp)
    | append_singleton calls last ih =>
      rintro ⟨hpersists, hclean⟩ before s hbefore
      have hrooms := ih ⟨fun b hb => hpersists b (hb.trans (List.prefix_append _ _)),
        fun b s hb => hclean b s (hb.trans (List.prefix_append _ _))⟩
      rcases List.prefix_concat_iff.mp hbefore with hlast | hbefore
      · obtain ⟨rfl, hs⟩ := List.append_inj' hlast rfl
        cases hs
        have hkept := kept_after hrooms
        obtain ⟨ss, hholds, -⟩ := id hkept
        by_contra hnone
        rw [HasRoom, not_or, not_and_or, Nat.not_le, Nat.not_le] at hnone
        obtain ⟨hnew, hfull | hlong⟩ := hnone
        · exact hholds.not_failsCleanly (hholds.strings ▸ hnew) hfull (hclean _ _ hbefore)
        · rcases Nat.lt_or_ge 65535 (after before).nextOffset with hfull | hroom
          · exact hholds.not_failsCleanly (hholds.strings ▸ hnew) hfull (hclean _ _ hbefore)
          · exact hkept.not_persists hnew hroom hlong (hpersists _ hbefore)
      · exact hrooms before s hbefore
  · intro hrooms
    have hkept : ∀ before, before <+: calls → Kept (after before) := fun before hbefore =>
      kept_after fun b s hb => hrooms b s (hb.trans hbefore)
    refine ⟨fun before hbefore => persists_of_kept (hkept before hbefore), fun before s hbefore => ?_⟩
    exact (hkept before ((List.prefix_append _ _).trans hbefore)).failsCleanly (hrooms before s hbefore)

theorem utf8ByteSize_letters (n : Nat) : (String.ofList (List.replicate n 'a')).utf8ByteSize = n := by
  have ha : 'a'.utf8Size = 1 := by decide
  rw [utf8ByteSize_ofList, charsSize, List.map_replicate, ha, List.sum_replicate_nat, Nat.mul_one]

theorem letters_new {n : Nat} (hn : 12 < n) : String.ofList (List.replicate n 'a') ∉ commonEdgeTypeNames := by
  intro hmem
  have hshort : ∀ s ∈ commonEdgeTypeNames, s.utf8ByteSize ≤ 12 := by decide +kernel
  have hsize := hshort _ hmem
  rw [utf8ByteSize_letters] at hsize
  omega

/-- A string that has filled the table, and the next one: refused, but added, and answered at the
second try; and a longer string that does not come back. -/
theorem not_persists_iff :
    (∃ long, ¬ (after [long]).FailsCleanly "x" ∧
      (getOrAddOffset "x" (after [long])).1 = .error (.recordTooLarge 65536 65535) ∧
      (getOrAddOffset "x" (after [long, "x"])).1 = .ok 0) ∧
    ∃ longer, (getOrAddOffset longer (after [])).1 = .ok 125 ∧ ¬ Persists [longer] := by
  have htotal : total commonEdgeTypeNames = 125 := by decide +kernel
  have hstart : start commonEdgeTypeNames commonEdgeTypeNames.length = 125 := by decide +kernel
  refine ⟨⟨String.ofList (List.replicate 65411 'a'), ?_⟩, String.ofList (List.replicate 65536 'a'), ?_, ?_⟩
  · have hlong := utf8ByteSize_letters 65411
    have hnew := letters_new (n := 65411) (by decide)
    generalize String.ofList (List.replicate 65411 'a') = long at hlong hnew ⊢
    have hfull : (after [long]).Holds (commonEdgeTypeNames ++ [long]) := by
      have hadd := holds_new.addStringInternal hnew
      rwa [show after [long] = new.addStringInternal long from by
        rw [← List.nil_append [long], after_snoc]
        exact (holds_new.left long).trans (if_neg hnew)]
    have hnext : start (commonEdgeTypeNames ++ [long]) (commonEdgeTypeNames ++ [long]).length = 65536 := by
      rw [start, List.take_length, ← total, total_snoc, htotal, hlong]
      rfl
    have hx : "x" ∉ commonEdgeTypeNames ++ [long] := by
      intro hmem
      rcases List.mem_append.mp hmem with hold | he
      · exact absurd hold (by decide)
      · rw [← List.mem_singleton.mp he] at hlong
        exact absurd hlong (by decide)
    have hmore : (after [long, "x"]).Holds (commonEdgeTypeNames ++ [long] ++ ["x"]) := by
      rw [← List.singleton_append, after_snoc, hfull.left, if_neg hx]
      exact hfull.addStringInternal hx
    refine ⟨hfull.not_failsCleanly hx ?_, ?_, ?_⟩
    · rw [hfull.nextOffset, hnext]
      decide
    · rw [hfull.run, if_neg hx, hnext]
      rfl
    · rw [hmore.run, if_pos (by simp), List.idxOf_append_of_notMem hx, List.idxOf_cons_self, Nat.add_zero,
        start_append (Nat.le_refl _), hnext]
      rfl
  · rw [show after [] = new from rfl, holds_new.run, if_neg (letters_new (by decide)), hstart]
    rfl
  · refine @Kept.not_persists [] _ kept_new ?_ ?_ ?_
    · rw [show after [] = new from rfl, holds_new.strings]
      exact letters_new (by decide)
    · rw [show after [] = new from rfl, holds_new.nextOffset, hstart]
      decide
    · rw [utf8ByteSize_letters]
      decide

end Proofs

end StringTable

end SqliteGraph.V3
