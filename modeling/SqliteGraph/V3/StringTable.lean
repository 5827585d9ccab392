import SqliteGraph.V3.Error
import SqliteGraph.Lib.StoreM

/-! The table of strings, each at the length of all strings before it. -/
namespace SqliteGraph.V3
open Lib

/-- `COMMON_EDGE_TYPES`. -/
def commonEdgeTypeNames : List String :=
  ["calls", "imports", "defines", "uses", "contains", "implements", "extends", "references",
    "declares", "exports", "inherits", "overrides", "depends_on", "relates_to", "includes", "aliases"]

structure StringTable where
  strings : List String
  offsets : List Nat
  stringToOffset : AList (fun _ : String => Nat)
  commonEdgeTypes : AList (fun _ : String => Nat)

namespace StringTable

/-- Where the next string goes: `u32` arithmetic, wrapping as in a release build. -/
def nextOffset (t : StringTable) : Nat :=
  match t.offsets.getLast? with
  | some last => (last + (t.strings.getLast?.map fun s => s.utf8ByteSize % 2 ^ 32).getD 0) % 2 ^ 32
  | none => 0

/-- The offset is cut to 16 bits in the map, whether it fits or not. -/
def addStringInternal (t : StringTable) (string : String) : StringTable :=
  { t with
    offsets := t.offsets ++ [t.nextOffset]
    stringToOffset := t.stringToOffset.insert string (t.nextOffset % 2 ^ 16)
    strings := t.strings ++ [string] }

def prepopulate (t : StringTable) (edgeType : String) : StringTable :=
  { t.addStringInternal edgeType with
    commonEdgeTypes := t.commonEdgeTypes.insert edgeType (t.nextOffset % 2 ^ 16) }

def prepopulateCommonTypes (t : StringTable) : StringTable := commonEdgeTypeNames.foldl prepopulate t

def new : StringTable := prepopulateCommonTypes ⟨[], [], ∅, ∅⟩

def getOrAddOffset (string : String) : StoreM StringTable NativeBackendError Nat := do
  let t ← StoreM.get
  match t.commonEdgeTypes.lookup string with
  | some offset => pure offset
  | none =>
    match t.stringToOffset.lookup string with
    | some offset => pure offset
    | none =>
      let offset := t.nextOffset
      StoreM.modify (·.addStringInternal string)
      if 65535 < offset then StoreM.throw (.recordTooLarge offset 65535) else pure offset

/-- The first string that is at the offset. -/
def getString (t : StringTable) (offset : Nat) : Except NativeBackendError String :=
  match t.offsets.findIdx? (· == offset) with
  | some i => index t.strings i
  | none => .error (.invalidStringOffset offset)

/-- A sequence of calls, up to the first that fails, with the offsets returned. -/
def getOrAddOffsets : List String → StoreM StringTable NativeBackendError (List (String × Nat))
  | [] => pure []
  | string :: strings => do
    let offset ← getOrAddOffset string
    let rest ← getOrAddOffsets strings
    pure ((string, offset) :: rest)

/-- Where the `i`th string starts. -/
def start (ss : List String) (i : Nat) : Nat := ((ss.take i).map String.utf8ByteSize).sum % 2 ^ 32

def starts (ss : List String) : List Nat := (List.range ss.length).map (start ss)

/-- The strings after the calls: each new one at the end. -/
def added (ss : List String) (calls : List String) : List String :=
  calls.foldl (fun ss s => if s ∈ ss then ss else ss ++ [s]) ss

/-- The table holds exactly these strings, and knows where each is. -/
structure Holds (t : StringTable) (ss : List String) : Prop where
  strings : t.strings = ss
  offsets : t.offsets = starts ss
  lookup : ∀ s, t.stringToOffset.lookup s =
    if s ∈ ss then some (start ss (ss.idxOf s) % 2 ^ 16) else none
  common : ∀ s o, t.commonEdgeTypes.lookup s = some o → t.stringToOffset.lookup s = some o
  nodup : ss.Nodup

variable {t : StringTable} {ss calls : List String} {s : String} {i : Nat}

theorem start_append (h : i ≤ ss.length) (xs : List String) : start (ss ++ xs) i = start ss i := by
  rw [start, start, List.take_append_of_le_length h]

theorem starts_snoc (ss : List String) (s : String) :
    starts (ss ++ [s]) = starts ss ++ [start ss ss.length] := by
  rw [starts, List.length_append, List.length_singleton, List.range_succ, List.map_append,
    List.map_singleton, start_append (Nat.le_refl _)]
  congr 1
  refine List.map_congr_left fun i hi => start_append ?_ _
  exact (List.mem_range.mp hi).le

theorem Holds.nextOffset (h : t.Holds ss) : t.nextOffset = start ss ss.length := by
  rw [StringTable.nextOffset, h.offsets, h.strings]
  rcases List.eq_nil_or_concat ss with rfl | ⟨ss, s, rfl⟩
  · rfl
  · rw [List.concat_eq_append, starts_snoc, List.getLast?_concat, List.getLast?_concat]
    have hlen : (ss ++ [s]).length = ss.length + 1 := by simp
    rw [start, start, hlen, List.take_length, List.take_of_length_le (by simp), List.map_append,
      List.sum_append, Option.map_some, Option.getD_some]
    change (_ % 2 ^ 32 + _ % 2 ^ 32) % 2 ^ 32 = _
    rw [← Nat.add_mod, List.map_singleton, List.sum_singleton]

theorem Holds.addStringInternal (h : t.Holds ss) (hs : s ∉ ss) :
    (t.addStringInternal s).Holds (ss ++ [s]) := by
  have hnext := h.nextOffset
  refine ⟨by simp [StringTable.addStringInternal, h.strings], ?_, ?_, ?_, ?_⟩
  · rw [starts_snoc, ← hnext, ← h.offsets]
    rfl
  · intro s'
    rw [StringTable.addStringInternal, hnext]
    by_cases he : s' = s
    · subst s'
      rw [AList.lookup_insert, if_pos (by simp), List.idxOf_append_of_notMem hs]
      simp [start_append]
    · rw [AList.lookup_insert_ne he, h.lookup]
      by_cases hmem : s' ∈ ss
      · have hidx : (ss ++ [s]).idxOf s' = ss.idxOf s' := List.idxOf_append_of_mem hmem
        rw [if_pos hmem, if_pos (List.mem_append_left _ hmem), hidx,
          start_append (List.idxOf_le_length)]
      · simp [hmem, he]
  · intro s' o ho
    have hold := h.common s' o ho
    have hne : s' ≠ s := by
      rintro rfl
      rw [h.lookup, if_neg hs] at hold
      cases hold
    rw [StringTable.addStringInternal, AList.lookup_insert_ne hne, hold]
  · rw [← List.concat_eq_append]
    exact h.nodup.concat hs

theorem Holds.prepopulate (h : t.Holds ss) (hs : s ∉ ss) : (t.prepopulate s).Holds (ss ++ [s]) := by
  have hadd := h.addStringInternal hs
  refine ⟨hadd.strings, hadd.offsets, hadd.lookup, fun s' o ho => ?_, hadd.nodup⟩
  by_cases he : s' = s
  · subst s'
    rw [StringTable.prepopulate, AList.lookup_insert] at ho
    rw [← ho]
    exact AList.lookup_insert _
  · rw [StringTable.prepopulate, AList.lookup_insert_ne he] at ho
    exact hadd.common s' o ho

theorem holds_foldl {names : List String} (h : t.Holds ss) (hn : (ss ++ names).Nodup) :
    (names.foldl StringTable.prepopulate t).Holds (ss ++ names) := by
  induction names generalizing t ss with
  | nil => simpa using h
  | cons name names ih =>
    have hfresh : name ∉ ss := fun hmem => List.disjoint_of_nodup_append hn hmem List.mem_cons_self
    rw [List.append_cons] at hn ⊢
    exact ih (h.prepopulate hfresh) hn

theorem holds_new : new.Holds commonEdgeTypeNames := by
  have hempty : (⟨[], [], ∅, ∅⟩ : StringTable).Holds [] :=
    ⟨rfl, rfl, fun _ => by simp, fun _ _ h => by simp at h, List.nodup_nil⟩
  exact holds_foldl hempty (by decide +kernel)

theorem added_append (ss calls : List String) : ∃ news, added ss calls = ss ++ news ∧
    ∀ s ∈ news, s ∈ calls := by
  induction calls generalizing ss with
  | nil => exact ⟨[], by simp [added], by simp⟩
  | cons call calls ih =>
    rw [added, List.foldl_cons, ← added]
    split
    · obtain ⟨news, he, hmem⟩ := ih ss
      exact ⟨news, he, fun s hs => List.mem_cons_of_mem _ (hmem s hs)⟩
    · obtain ⟨news, he, hmem⟩ := ih (ss ++ [call])
      refine ⟨call :: news, by rw [he, List.append_assoc]; rfl, fun s hs => ?_⟩
      rcases List.mem_cons.mp hs with rfl | hs
      · exact List.mem_cons_self
      · exact List.mem_cons_of_mem _ (hmem s hs)

theorem mem_added_self (ss : List String) (s : String) : s ∈ added ss [s] := by
  rw [show added ss [s] = if s ∈ ss then ss else ss ++ [s] from rfl]
  split
  · assumption
  · simp

theorem mem_added (ss : List String) {calls : List String} (h : s ∈ calls) : s ∈ added ss calls := by
  induction calls generalizing ss with
  | nil => cases h
  | cons call calls ih =>
    rw [show added ss (call :: calls) = added (added ss [call]) calls from rfl]
    rcases List.mem_cons.mp h with rfl | h
    · obtain ⟨news, hnews, -⟩ := added_append (added ss [s]) calls
      rw [hnews]
      exact List.mem_append_left _ (mem_added_self ss s)
    · exact ih _ h

/-- Every string starts within 16 bits. -/
def Low (ss : List String) : Prop := ∀ i < ss.length, start ss i < 2 ^ 16

/-- A call that succeeds returns where its string starts, then or already before. -/
theorem Holds.getOrAddOffset {t' : StringTable} {o : Nat} (h : t.Holds ss) (hlow : Low ss)
    (hrun : StringTable.getOrAddOffset s t = (.ok o, t')) :
    t'.Holds (added ss [s]) ∧ Low (added ss [s]) ∧
      o = start (added ss [s]) ((added ss [s]).idxOf s) := by
  have hadded : added ss [s] = if s ∈ ss then ss else ss ++ [s] := rfl
  rw [hadded]
  simp only [StringTable.getOrAddOffset, StoreM.get_bind_run] at hrun
  by_cases hmem : s ∈ ss
  · have hat : t.stringToOffset.lookup s = some (start ss (ss.idxOf s)) := by
      rw [h.lookup, if_pos hmem, Nat.mod_eq_of_lt (hlow _ (List.idxOf_lt_length_iff.mpr hmem))]
    rw [if_pos hmem]
    cases hc : t.commonEdgeTypes.lookup s with
    | some offset =>
      simp only [hc, StoreM.pure_run, Prod.mk.injEq, Except.ok.injEq] at hrun
      obtain ⟨rfl, rfl⟩ := hrun
      exact ⟨h, hlow, Option.some.inj ((h.common s offset hc).symm.trans hat)⟩
    | none =>
      simp only [hc, hat, StoreM.pure_run, Prod.mk.injEq, Except.ok.injEq] at hrun
      obtain ⟨rfl, rfl⟩ := hrun
      exact ⟨h, hlow, rfl⟩
  · have hnone : t.stringToOffset.lookup s = none := by rw [h.lookup, if_neg hmem]
    have hcommon : t.commonEdgeTypes.lookup s = none := by
      rw [Option.eq_none_iff_forall_ne_some]
      intro offset hc
      rw [h.common s offset hc] at hnone
      cases hnone
    rw [if_neg hmem]
    simp only [hcommon, hnone, StoreM.modify_bind_run] at hrun
    split at hrun
    · cases hrun
    · rename_i hsmall
      cases hrun
      rw [h.nextOffset] at hsmall ⊢
      refine ⟨h.addStringInternal hmem, fun i hi => ?_, ?_⟩
      · rw [List.length_append, List.length_singleton, Nat.lt_succ_iff] at hi
        rw [start_append hi]
        rcases Nat.lt_or_eq_of_le hi with hlt | rfl
        · exact hlow i hlt
        · omega
      · rw [List.idxOf_append_of_notMem hmem, List.idxOf_cons_self, Nat.add_zero,
          start_append (Nat.le_refl _)]

/-- A sequence of calls that succeeds returns where each string starts in the end. -/
theorem Holds.getOrAddOffsets {t' : StringTable} {pairs : List (String × Nat)} (h : t.Holds ss)
    (hlow : Low ss) (hrun : StringTable.getOrAddOffsets calls t = (.ok pairs, t')) :
    t'.Holds (added ss calls) ∧ pairs = calls.map fun s =>
      (s, start (added ss calls) ((added ss calls).idxOf s)) := by
  induction calls generalizing t ss pairs with
  | nil =>
    cases hrun
    exact ⟨h, rfl⟩
  | cons call calls ih =>
    obtain ⟨o, t₁, hcall, hrun⟩ := StoreM.bind_eq_ok hrun
    obtain ⟨rest, t₂, hrest, hrun⟩ := StoreM.bind_eq_ok hrun
    cases hrun
    obtain ⟨h₁, hlow₁, rfl⟩ := h.getOrAddOffset hlow hcall
    obtain ⟨h₂, rfl⟩ := ih h₁ hlow₁ hrest
    have hadded : added ss (call :: calls) = added (added ss [call]) calls := rfl
    obtain ⟨news, hnews, -⟩ := added_append (added ss [call]) calls
    rw [hadded]
    refine ⟨h₂, ?_⟩
    rw [List.map_cons, hnews, List.idxOf_append_of_mem (mem_added_self ss call),
      start_append List.idxOf_le_length]

/-- The first string at an offset is the string, if no other starts there. -/
theorem Holds.getString (h : t.Holds ss) (hnd : (starts ss).Nodup) (hs : s ∈ ss) :
    t.getString (start ss (ss.idxOf s)) = .ok s := by
  have hlt : ss.idxOf s < ss.length := List.idxOf_lt_length_iff.mpr hs
  have hfind : (starts ss).findIdx? (· == start ss (ss.idxOf s)) = some (ss.idxOf s) := by
    rw [List.findIdx?_eq_some_iff_getElem]
    refine ⟨by simpa [starts] using hlt, by simp [starts], fun j hj => ?_⟩
    have hj' : j < (starts ss).length := by
      rw [starts, List.length_map, List.length_range]
      omega
    intro he
    have hinj := List.nodup_iff_injective_getElem.mp hnd
    have hne := @hinj ⟨j, hj'⟩ ⟨ss.idxOf s, by simpa [starts] using hlt⟩
      (by simpa [starts] using he)
    have := congrArg Fin.val hne
    simp only at this
    omega
  rw [StringTable.getString, h.offsets, hfind, h.strings]
  exact index_of_getElem? (List.getElem?_idxOf hs)

/-- Nothing before the string found starts at the offset. -/
theorem Holds.of_getString {o : Nat} (h : t.Holds ss) (hget : t.getString o = .ok s) :
    ∃ k, ss[k]? = some s ∧ ∀ j < k, start ss j ≠ o := by
  rw [StringTable.getString, h.offsets, h.strings] at hget
  split at hget
  · rename_i k hk
    obtain ⟨hlt, -, hbefore⟩ := List.findIdx?_eq_some_iff_getElem.mp hk
    refine ⟨k, ?_, fun j hj he => ?_⟩
    · rw [index] at hget
      split at hget
      · cases hget
        assumption
      · cases hget
    · refine hbefore j hj ?_
      simp [starts, he]
  · cases hget

/-- After calls that all succeed, the strings are found at their offsets exactly when no two strings of
the table start at the same one. -/
theorem string_table {pairs : List (String × Nat)}
    (hrun : StringTable.getOrAddOffsets calls new = (.ok pairs, t)) :
    ((∀ p ∈ pairs, t.getString p.2 = .ok p.1) ∧
      ∀ p ∈ pairs, ∀ q ∈ pairs, p.1 ≠ q.1 → p.2 ≠ q.2) ↔
    (starts (added commonEdgeTypeNames calls)).Nodup := by
  have hlow : Low commonEdgeTypeNames := by
    rw [Low]
    decide +kernel
  obtain ⟨h, rfl⟩ := holds_new.getOrAddOffsets hlow hrun
  obtain ⟨news, hnews, hcalls⟩ := added_append commonEdgeTypeNames calls
  have hmem : ∀ s ∈ calls, s ∈ added commonEdgeTypeNames calls := fun s hs => mem_added _ hs
  generalize added commonEdgeTypeNames calls = ss at *
  constructor
  · rintro ⟨hget, -⟩
    rw [List.nodup_iff_injective_getElem]
    have hlen : (starts ss).length = ss.length := by simp [starts]
    have hne : ∀ i j, i < j → j < ss.length → start ss i ≠ start ss j := by
      intro i j hij hj he
      rcases Nat.lt_or_ge j commonEdgeTypeNames.length with hold | hnew
      · have hcommon : ∀ j < commonEdgeTypeNames.length, ∀ i < j,
            start commonEdgeTypeNames i ≠ start commonEdgeTypeNames j := by
          decide +kernel
        rw [hnews, start_append (by omega), start_append hold.le] at he
        exact hcommon j hold i hij he
      · have hcall : ss[j] ∈ calls := by
          have hj' : j - commonEdgeTypeNames.length < news.length := by
            rw [hnews, List.length_append] at hj
            omega
          have hat : ss[j] = news[j - commonEdgeTypeNames.length] := by
            simp only [hnews]
            exact List.getElem_append_right hnew
          rw [hat]
          exact hcalls _ (List.getElem_mem hj')
        have hfound := hget _ (List.mem_map_of_mem hcall)
        have hidx : ss.idxOf ss[j] = j := h.nodup.idxOf_getElem j hj
        simp only [hidx] at hfound
        obtain ⟨k, hk, hbefore⟩ := h.of_getString hfound
        obtain ⟨hklt, hkeq⟩ := List.getElem?_eq_some_iff.mp hk
        have hkj : k = j := (List.Nodup.getElem_inj_iff h.nodup).mp hkeq
        subst k
        exact hbefore i hij he
    intro a b hab
    obtain ⟨a, ha⟩ := a
    obtain ⟨b, hb⟩ := b
    have hstart : start ss a = start ss b := by simpa [starts] using hab
    rcases Nat.lt_trichotomy a b with hlt | rfl | hgt
    · exact absurd hstart (hne a b hlt (by omega))
    · rfl
    · exact absurd hstart.symm (hne b a hgt (by omega))
  · intro hnd
    have hget : ∀ s ∈ calls, t.getString (start ss (ss.idxOf s)) = .ok s :=
      fun s hs => h.getString hnd (hmem s hs)
    constructor
    · intro p hp
      obtain ⟨s, hs, rfl⟩ := List.mem_map.mp hp
      exact hget s hs
    · intro p hp q hq hne he
      obtain ⟨s, hs, rfl⟩ := List.mem_map.mp hp
      obtain ⟨s', hs', rfl⟩ := List.mem_map.mp hq
      have hs := hget s hs
      rw [show start ss (ss.idxOf s) = start ss (ss.idxOf s') from he, hget s' hs'] at hs
      exact hne (Except.ok.inj hs).symm

theorem string_table_depends : ∃ pairs t, getOrAddOffsets ["fn", "main"] new = (.ok pairs, t) ∧
    (((∀ p ∈ pairs, t.getString p.2 = .ok p.1) ∧
      ∀ p ∈ pairs, ∀ q ∈ pairs, p.1 ≠ q.1 → p.2 ≠ q.2) ↔
    (starts (added commonEdgeTypeNames ["fn", "main"])).Nodup) :=
  ⟨[("fn", 125), ("main", 127)], (getOrAddOffsets ["fn", "main"] new).2,
    Prod.ext (by decide +kernel) rfl, string_table (Prod.ext (by decide +kernel) rfl)⟩

/-- After the empty string the next one shares its offset, and is read as the empty one. -/
theorem not_string_table : ¬ ∀ (calls : List String) (pairs : List (String × Nat)) (t : StringTable),
    getOrAddOffsets calls new = (.ok pairs, t) → ∀ p ∈ pairs, t.getString p.2 = .ok p.1 := by
  intro h
  have hget := h ["", "main"] [("", 125), ("main", 125)] (getOrAddOffsets ["", "main"] new).2
    (Prod.ext (by decide +kernel) rfl) ("main", 125) (by decide)
  have hempty : (getOrAddOffsets ["", "main"] new).2.getString 125 = .ok "" := by decide +kernel
  rw [hempty] at hget
  exact absurd (Except.ok.inj hget) (by decide)

end StringTable
end SqliteGraph.V3
