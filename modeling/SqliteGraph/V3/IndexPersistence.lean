import SqliteGraph.Lib.HashOrder
import SqliteGraph.Lib.Reader
import SqliteGraph.Lib.Utf8

/-! The sidecar file of the kind and name indexes: what is written of them, and how it is read. -/
namespace SqliteGraph.V3
open Lib

inductive IndexPersistenceError
  | io (message : String)
  | invalidMagic (magic : Bytes)
  | unsupportedVersion (version : Nat)
  | corrupted (message : String)
  deriving DecidableEq, Repr

/-- The map in a `KindIndex`, or in a `NameIndex`: kinds, or names, with the ids inserted for each. -/
abbrev IdIndex : Type := AList fun _ : String => List Int64

namespace IndexPersistence

/-- `INDEX_MAGIC`, the text "V3XI". -/
def indexMagic : Bytes := [86, 51, 88, 73]
def indexVersion : Nat := 1

def entryBytes (entry : Sigma fun _ : String => List Int64) : Bytes :=
  beBytes 4 (utf8Bytes entry.1).length ++ (utf8Bytes entry.1 ++ (beBytes 4 entry.2.length ++
    entry.2.flatMap fun nodeId => beBytes 8 nodeId.toUInt64.toNat))

/-- One of the two indexes; its map gives its entries out in the order of `choices`. -/
def indexBytes (choices : Nat → Nat) (index : IdIndex) : Bytes :=
  beBytes 4 index.entries.length ++ (drain choices index.entries).flatMap entryBytes

/-- What `persist_indexes` writes. -/
def persistIndexes (kindChoices nameChoices : Nat → Nat) (kindIndex nameIndex : IdIndex)
    (dbNodeCount : UInt64) : Bytes :=
  indexMagic ++ (beBytes 4 indexVersion ++ (beBytes 8 dbNodeCount.toNat ++
    (indexBytes kindChoices kindIndex ++ indexBytes nameChoices nameIndex)))

abbrev Read : Type → Type := Reader IndexPersistenceError

/-- `read_exact` on the file. -/
def readExactly (n : Nat) (what : String) : Read Bytes :=
  Reader.take n fun _ => .corrupted s!"Failed to read {what}: failed to fill whole buffer"

/-- On the rest of the file, in memory. -/
def readBytes (count : Nat) : Read Bytes :=
  Reader.take count fun left => .corrupted s!"Unexpected EOF: needed {count} bytes, got {left}"

def readCount : Read Nat := do
  let bytes ← readBytes 4
  pure (beNat bytes)

def readNodeId : Read Int64 := do
  let bytes ← readBytes 8
  pure (UInt64.ofNat (beNat bytes)).toInt64

def readText (what : String) (bytes : Bytes) : Except IndexPersistenceError String :=
  match fromUtf8 bytes with
  | some text => .ok text
  | none => .error (.corrupted s!"Invalid UTF-8 in {what}")

/-- The loop over the entries of an index. -/
def readEntries (what : String) : Nat → IdIndex → Read IdIndex
  | 0, data => pure data
  | n + 1, data => do
    let len ← readCount
    let bytes ← readBytes len
    let text ← StoreM.ofExcept (readText what bytes)
    let nodeCount ← readCount
    let nodeIds ← readNodeId.times nodeCount
    readEntries what n (data.insert text nodeIds)

def readIndex (what : String) : Read IdIndex := do
  let count ← readCount
  readEntries what count ∅

def readIndexes (dbNodeCount : UInt64) : Read (IdIndex × IdIndex) := do
  let magic ← readExactly 4 "magic"
  if magic ≠ indexMagic then StoreM.throw (.invalidMagic magic) else
  let version ← readExactly 4 "version"
  if beNat version ≠ indexVersion then StoreM.throw (.unsupportedVersion (beNat version)) else
  let stored ← readExactly 8 "stored node count"
  if beNat stored ≠ dbNodeCount.toNat then
    StoreM.throw (.corrupted
      s!"Stale index: sidecar node_count {beNat stored} != DB node_count {dbNodeCount}") else
  let kinds ← readIndex "kind"
  let names ← readIndex "name"
  pure (kinds, names)

/-- `restore_indexes` on the contents of the file. -/
def restoreIndexes (bytes : Bytes) (dbNodeCount : UInt64) :
    Except IndexPersistenceError (IdIndex × IdIndex) := (readIndexes dbNodeCount bytes).1

/-- Every count and length of an index has room in four bytes. -/
structure Fits (index : IdIndex) : Prop where
  count : index.entries.length < 2 ^ 32
  text : ∀ entry ∈ index.entries, entry.1.utf8ByteSize < 2 ^ 32
  ids : ∀ entry ∈ index.entries, entry.2.length < 2 ^ 32

section Proofs
open Reader
variable {index data : IdIndex} {entry : Sigma fun _ : String => List Int64} {what : String}
  {entries : List (Sigma fun _ : String => List Int64)} {n : Nat}

theorem readCount_reads (h : n < 2 ^ 32) : Reader.Reads readCount (beBytes 4 n) n := by
  have hread : Reader.Reads readCount (beBytes 4 n) (beNat (beBytes 4 n)) := (Reader.Reads.take length_beBytes).map
  rwa [beNat_beBytes h] at hread

theorem readNodeId_reads (nodeId : Int64) :
    Reader.Reads readNodeId (beBytes 8 nodeId.toUInt64.toNat) nodeId := by
  have hread : Reader.Reads readNodeId (beBytes 8 nodeId.toUInt64.toNat)
      (UInt64.ofNat (beNat (beBytes 8 nodeId.toUInt64.toNat))).toInt64 :=
    (Reader.Reads.take length_beBytes).map
  rwa [beNat_beBytes nodeId.toUInt64.toNat_lt, UInt64.ofNat_toNat, Int64.toInt64_toUInt64] at hread

theorem readText_reads (text : String) : Reader.Reads (StoreM.ofExcept (readText what (utf8Bytes text))) [] text := by
  intro rest
  rw [readText, fromUtf8_utf8Bytes]
  rfl

/-- The entries of some list, put into a map one by one. -/
def insertAll (entries : List (Sigma fun _ : String => List Int64)) (data : IdIndex) : IdIndex :=
  entries.foldl (fun data entry => data.insert entry.1 entry.2) data

/-- The loop reads the entries that were written, and puts them into its map. -/
theorem readEntries_reads (htext : ∀ entry ∈ entries, entry.1.utf8ByteSize < 2 ^ 32)
    (hids : ∀ entry ∈ entries, entry.2.length < 2 ^ 32) :
    Reader.Reads (readEntries what entries.length data) (entries.flatMap entryBytes) (insertAll entries data) := by
  induction entries generalizing data with
  | nil => exact Reader.Reads.pure data
  | cons entry entries ih =>
    obtain ⟨htext, htexts⟩ := List.forall_mem_cons.mp htext
    obtain ⟨hids, hidss⟩ := List.forall_mem_cons.mp hids
    rw [← length_utf8Bytes] at htext
    have hrest := @ih (data.insert entry.1 entry.2) htexts hidss
    have hnodes : Reader.Reads (readNodeId.times entry.2.length)
        (entry.2.flatMap fun nodeId => beBytes 8 nodeId.toUInt64.toNat) entry.2 :=
      Reader.Reads.times fun nodeId _ => readNodeId_reads nodeId
    rw [List.flatMap_cons, entryBytes]
    simp only [List.append_assoc]
    refine (readCount_reads htext).bind ((Reader.Reads.take rfl).bind ?_)
    exact (readText_reads entry.1).bind_nil ((readCount_reads hids).bind (hnodes.bind hrest))

theorem lookup_insertAll (hkeys : entries.NodupKeys) (text : String) :
    (insertAll entries data).lookup text = (entries.dlookup text).or (data.lookup text) := by
  induction entries generalizing data with
  | nil => rfl
  | cons entry entries ih =>
    obtain ⟨hnew, hkeys⟩ := List.nodupKeys_cons.mp hkeys
    rw [insertAll, List.foldl_cons, ← insertAll, ih hkeys]
    by_cases he : text = entry.1
    · subst he
      rw [List.dlookup_eq_none.mpr hnew, AList.lookup_insert, List.dlookup_cons_eq]
      rfl
    · rw [AList.lookup_insert_ne he, List.dlookup_cons_ne _ _ he]

variable (what) in
/-- An index that fits is read back with the same ids for every text. -/
theorem readIndex_reads (choices : Nat → Nat) (h : Fits index) :
    ∃ index', Reader.Reads (readIndex what) (indexBytes choices index) index' ∧
      ∀ text, index'.lookup text = index.lookup text := by
  have hperm := drain_perm choices index.entries
  have hread : Reader.Reads (readIndex what) (indexBytes choices index)
      (insertAll (drain choices index.entries) ∅) := by
    refine (readCount_reads h.count).bind ?_
    rw [← hperm.length_eq]
    exact readEntries_reads (fun entry he => h.text entry (hperm.mem_iff.mp he))
      fun entry he => h.ids entry (hperm.mem_iff.mp he)
  refine ⟨_, hread, fun text => ?_⟩
  have hkeys := (List.perm_nodupKeys hperm).mpr index.nodupKeys
  rw [lookup_insertAll hkeys, AList.lookup_empty, Option.or_none]
  exact List.perm_dlookup text hkeys hperm

theorem readCount_local : Local readCount := Local.take.bind fun _ => Local.pure

theorem readEntries_local : Local (readEntries what n data) := by
  induction n generalizing data with
  | zero => exact Local.pure
  | succ n ih =>
    refine readCount_local.bind fun len => Local.take.bind fun bytes => Local.ofExcept.bind fun text => ?_
    exact readCount_local.bind fun count =>
      (Local.times (Local.take.bind fun _ => Local.pure)).bind fun nodeIds => ih

theorem readIndexes_local (dbNodeCount : UInt64) : Local (readIndexes dbNodeCount) := by
  have hindex : ∀ what, Local (readIndex what) := fun what => readCount_local.bind fun _ => readEntries_local
  refine Local.take.bind fun magic => ?_
  split
  · exact Local.throw
  refine Local.take.bind fun version => ?_
  split
  · exact Local.throw
  refine Local.take.bind fun stored => ?_
  split
  · exact Local.throw
  · exact (hindex _).bind fun kinds => (hindex _).bind fun names => Local.pure

variable {kindIndex nameIndex : IdIndex} {dbNodeCount other : UInt64} {kindChoices nameChoices : Nat → Nat}

theorem readExactly_reads {x : Bytes} (h : x.length = n) : Reader.Reads (readExactly n what) x x :=
  Reader.Reads.take h

/-- The node count is the one thing in the header that may differ. -/
theorem readIndexes_eq (rest : Bytes) :
    readIndexes other (indexMagic ++ (beBytes 4 indexVersion ++ (beBytes 8 dbNodeCount.toNat ++ rest))) =
      if dbNodeCount = other then
        (do
          let kinds ← readIndex "kind"
          let names ← readIndex "name"
          pure (kinds, names) : Read (IdIndex × IdIndex)) rest
      else (.error (.corrupted
        s!"Stale index: sidecar node_count {dbNodeCount.toNat} != DB node_count {other}"), rest) := by
  have hstored := beNat_beBytes (n := 8) dbNodeCount.toNat_lt
  rw [readIndexes, StoreM.bind_ok _ (readExactly_reads (by rfl) _), if_neg (by simp),
    StoreM.bind_ok _ (readExactly_reads length_beBytes _), if_neg (by decide),
    StoreM.bind_ok _ (readExactly_reads length_beBytes _), hstored]
  by_cases hsame : dbNodeCount = other
  · rw [if_pos hsame, if_neg (not_not_intro (congrArg UInt64.toNat hsame))]
  · rw [if_neg hsame, if_pos fun h => hsame (UInt64.toNat_inj.mp h)]
    rfl

/-- Indexes that fit are restored with the node count they were persisted with, and with no other;
a part of the file is an error. -/
theorem restoreIndexes_persistIndexes (hkinds : Fits kindIndex) (hnames : Fits nameIndex)
    (kindChoices nameChoices : Nat → Nat) (dbNodeCount : UInt64) :
    let bytes := persistIndexes kindChoices nameChoices kindIndex nameIndex dbNodeCount
    (∃ kinds names, restoreIndexes bytes dbNodeCount = .ok (kinds, names) ∧
      (∀ kind, kinds.lookup kind = kindIndex.lookup kind) ∧
        ∀ name, names.lookup name = nameIndex.lookup name) ∧
      (∀ other ≠ dbNodeCount, ∃ e, restoreIndexes bytes other = .error e) ∧
      ∀ cut other, cut <+: bytes → cut ≠ bytes → ∃ e, restoreIndexes cut other = .error e := by
  intro bytes
  obtain ⟨kinds, hreadKinds, hsameKinds⟩ := readIndex_reads "kind" kindChoices hkinds
  obtain ⟨names, hreadNames, hsameNames⟩ := readIndex_reads "name" nameChoices hnames
  have hwhole : readIndexes dbNodeCount bytes = (.ok (kinds, names), []) := by
    have hread := (hreadKinds.bind (f := fun kinds => do
      let names ← readIndex "name"
      pure (kinds, names)) hreadNames.map).run
    exact ((readIndexes_eq _).trans (if_pos rfl)).trans hread
  have hstale : ∀ other ≠ dbNodeCount, ∃ e, restoreIndexes bytes other = .error e := by
    intro other hother
    exact ⟨_, congrArg Prod.fst ((readIndexes_eq _).trans (if_neg hother.symm))⟩
  refine ⟨⟨kinds, names, congrArg Prod.fst hwhole, hsameKinds, hsameNames⟩, hstale, ?_⟩
  rintro cut other ⟨left, hleft⟩ hcut
  have hne : left ≠ [] := by
    rintro rfl
    exact hcut (by rw [← hleft, List.append_nil])
  by_cases hother : other = dbNodeCount
  · subst hother
    exact (readIndexes_local other).cut (hleft ▸ hwhole) hne
  · cases hpart : readIndexes other cut with
    | mk result rest =>
      cases result with
      | error e => exact ⟨e, by rw [restoreIndexes, hpart]⟩
      | ok indexes =>
        obtain ⟨e, herror⟩ := hstale other hother
        rw [restoreIndexes, ← hleft, readIndexes_local other cut indexes rest left hpart] at herror
        cases herror

/-- Two kinds, one of them without ids, and no names. -/
theorem restoreIndexes_persistIndexes_two :
    let kindIndex : IdIndex := ((∅ : IdIndex).insert "Function" [3, 1, -2]).insert "" []
    let bytes := persistIndexes (fun _ => 1) id kindIndex ∅ 5
    (∃ kinds names, restoreIndexes bytes 5 = .ok (kinds, names) ∧
      (∀ kind, kinds.lookup kind = kindIndex.lookup kind) ∧
        ∀ name, names.lookup name = (∅ : IdIndex).lookup name) ∧
      (∀ other ≠ 5, ∃ e, restoreIndexes bytes other = .error e) ∧
      ∀ cut other, cut <+: bytes → cut ≠ bytes → ∃ e, restoreIndexes cut other = .error e :=
  restoreIndexes_persistIndexes ⟨by decide, by decide, by decide⟩ ⟨by decide, by decide, by decide⟩
    (fun _ => 1) id 5

end Proofs

end IndexPersistence

end SqliteGraph.V3
