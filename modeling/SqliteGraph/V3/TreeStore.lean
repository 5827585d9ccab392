import SqliteGraph.Lib.ByteFile
import SqliteGraph.V3.Allocator
import SqliteGraph.V3.BTreeInvariant
import SqliteGraph.V3.IndexPageCodec

/-! The page store that the manager runs on: allocator, write-through page cache and file. -/
namespace SqliteGraph.V3
open Lib

/-- A hash map's iteration order is not fixed: `choices` says which key comes up first each time. -/
structure BTreePageCache where
  entries : AList (fun _ : Nat => IndexPage)
  capacity : Nat
  choices : Nat → Nat

/-- How many index pages a manager caches. -/
def defaultCacheCapacity : Nat := 64

namespace BTreePageCache

def new (capacity : Nat) (choices : Nat → Nat) : BTreePageCache := ⟨∅, capacity, choices⟩

def get (c : BTreePageCache) (pageId : Nat) : Option IndexPage := c.entries.lookup pageId

/-- Drop the first key of the map. -/
def evict (c : BTreePageCache) : BTreePageCache :=
  match c.entries.keys[c.choices 0 % c.entries.keys.length]? with
  | some oldest => ⟨c.entries.erase oldest, c.capacity, fun n => c.choices (n + 1)⟩
  | none => c

def insert (c : BTreePageCache) (pageId : Nat) (page : IndexPage) : BTreePageCache :=
  let c := if c.capacity ≤ c.entries.keys.length ∧ pageId ∉ c.entries then c.evict else c
  { c with entries := c.entries.insert pageId page }

variable {c : BTreePageCache} {p q : Nat} {page page' : IndexPage}

@[simp] theorem get_new {capacity : Nat} {choices : Nat → Nat} : (new capacity choices).get p = none :=
  rfl

theorem get_of_get_evict (h : c.evict.get p = some page) : c.get p = some page := by
  unfold evict at h
  split at h
  · rename_i oldest _
    by_cases he : p = oldest
    · subst he
      simp [get, AList.lookup_erase] at h
    · simpa [get, AList.lookup_erase_ne he] using h
  · exact h

theorem get_insert (h : (c.insert p page).get q = some page') :
    q = p ∧ page' = page ∨ q ≠ p ∧ c.get q = some page' := by
  by_cases he : q = p
  · subst he
    rw [get, insert, AList.lookup_insert] at h
    exact .inl ⟨rfl, (Option.some.inj h).symm⟩
  · rw [get, insert, AList.lookup_insert_ne he] at h
    split at h
    · exact .inr ⟨he, get_of_get_evict h⟩
    · exact .inr ⟨he, h⟩

end BTreePageCache

/-- What a manager shares: the allocator, its page cache and the database file. -/
structure TreeStore where
  file : ByteFile
  allocator : PageAllocator
  cache : BTreePageCache

namespace TreeStore

def allocate : StoreM TreeStore NativeBackendError Nat := fun s =>
  match s.allocator.allocate with
  | .ok (pageId, allocator) => (.ok pageId, { s with allocator })
  | .error e => (.error e, s)

def loadPage (pageId : Nat) : StoreM TreeStore NativeBackendError IndexPage := fun s =>
  match s.cache.get pageId with
  | some page => (.ok page, s)
  | none =>
    if pageId = 0 then
      (.error (.invalidHeader "page_id" "Cannot load page 0 (reserved for header)"), s)
    else match s.file.readExact (pageOffset defaultPageSize pageId) defaultPageSize with
      | none => (.error (.ioError s!"Failed to read page {pageId} from disk"), s)
      | some buffer =>
        match IndexPage.unpack buffer with
        | .ok page => (.ok page, { s with cache := s.cache.insert pageId page })
        | .error e => (.error e, s)

/-- `set_len` before the write leaves the file as the write alone does. -/
def writePage (page : IndexPage) : StoreM TreeStore NativeBackendError Unit := fun s =>
  match page.pack with
  | .error e => (.error e, s)
  | .ok bytes =>
    if page.pageId = 0 then
      (.error (.invalidHeader "page_id" "Cannot write page 0 (reserved for header)"), s)
    else (.ok (), { s with
      file := s.file.writeAt (pageOffset defaultPageSize page.pageId) bytes
      cache := s.cache.insert page.pageId page })

end TreeStore

def treeStore : IndexStore TreeStore := ⟨TreeStore.allocate, TreeStore.loadPage, TreeStore.writePage⟩

/-- The index page that the file holds at a page id. -/
def diskPage (file : ByteFile) (pageId : Nat) : Option IndexPage :=
  if pageId = 0 then none
  else (file.readExact (pageOffset defaultPageSize pageId) defaultPageSize).bind fun buffer =>
    (IndexPage.unpack buffer).toOption

theorem diskPage_writeAt_self {file : ByteFile} {page : IndexPage} (hf : page.Fits) :
    diskPage (file.writeAt (pageOffset defaultPageSize page.pageId) page.image) page.pageId =
      some page := by
  have hp : page.pageId ≠ 0 := by
    cases page <;> exact Nat.pos_iff_ne_zero.mp hf.1
  rw [diskPage, if_neg hp, ByteFile.readExact_writeAt_self (IndexPage.length_image hf) (by decide),
    Option.bind_some, IndexPage.unpack_image hf]
  rfl

/-- A write elsewhere in the file leaves an index page readable as it was. -/
theorem diskPage_writeAt_of_disjoint {file : ByteFile} {p off : Nat} {data : Bytes}
    {page : IndexPage} (h : diskPage file p = some page)
    (hd : 0 < p → pageOffset defaultPageSize p + defaultPageSize ≤ off ∨
      off + data.length ≤ pageOffset defaultPageSize p) :
    diskPage (file.writeAt off data) p = some page := by
  unfold diskPage at h ⊢
  split at h
  · cases h
  · rename_i hp
    obtain ⟨buffer, hb, hu⟩ := Option.bind_eq_some_iff.mp h
    rw [if_neg hp, ByteFile.readExact_writeAt_of_disjoint hb (hd (Nat.pos_of_ne_zero hp)),
      Option.bind_some, hu]

/-- Every cached page is the page on disk. -/
def TreeStore.Coherent (s : TreeStore) : Prop :=
  ∀ p page, s.cache.get p = some page → diskPage s.file p = some page

theorem TreeStore.loadPage_ok {s : TreeStore} {p : Nat} {page : IndexPage} (hc : s.Coherent)
    (hv : diskPage s.file p = some page) :
    ∃ cache, TreeStore.loadPage p s = (.ok page, { s with cache }) ∧
      TreeStore.Coherent { s with cache } := by
  unfold TreeStore.loadPage
  cases hg : s.cache.get p with
  | some page' =>
    cases (hc p page' hg).symm.trans hv
    exact ⟨s.cache, rfl, hc⟩
  | none =>
    refine ⟨s.cache.insert p page, ?_, ?_⟩
    · unfold diskPage at hv
      split at hv
      · cases hv
      · rename_i hp
        obtain ⟨buffer, hb, hu⟩ := Option.bind_eq_some_iff.mp hv
        cases hun : IndexPage.unpack buffer with
        | error e => rw [hun] at hu; cases hu
        | ok page' =>
          rw [hun] at hu
          cases hu
          simp only [if_neg hp, hb, hun]
    · intro q page' hq
      rcases BTreePageCache.get_insert hq with ⟨rfl, rfl⟩ | ⟨_, hq⟩
      · exact hv
      · exact hc q page' hq

theorem TreeStore.writePage_ok {s : TreeStore} {page : IndexPage} (hc : s.Coherent)
    (hf : page.Fits) :
    ∃ s', TreeStore.writePage page s = (.ok (), s') ∧ s'.Coherent ∧ s'.allocator = s.allocator ∧
      PageStore.Extends (Function.update (diskPage s.file) page.pageId (some page))
        (diskPage s'.file) := by
  have hp : 0 < page.pageId := by cases page <;> exact hf.1
  have hframe : ∀ q page', q ≠ page.pageId → diskPage s.file q = some page' →
      diskPage (s.file.writeAt (pageOffset defaultPageSize page.pageId) page.image) q =
        some page' := by
    intro q page' hne hq
    refine diskPage_writeAt_of_disjoint hq fun hq => ?_
    rw [IndexPage.length_image hf]
    exact pageOffset_disjoint _ hq hp hne
  refine ⟨{ s with
    file := s.file.writeAt (pageOffset defaultPageSize page.pageId) page.image
    cache := s.cache.insert page.pageId page }, ?_, ?_, rfl, ?_⟩
  · rw [TreeStore.writePage, IndexPage.pack_ok hf]
    exact if_neg hp.ne'
  · intro q page' hq
    rcases BTreePageCache.get_insert hq with ⟨rfl, rfl⟩ | ⟨hne, hq⟩
    · exact diskPage_writeAt_self hf
    · exact hframe q page' hne (hc q page' hq)
  · intro q page' hq
    by_cases he : q = page.pageId
    · subst he
      rw [Function.update_self] at hq
      cases hq
      exact diskPage_writeAt_self hf
    · rw [Function.update_of_ne he] at hq
      exact hframe q page' he hq

section Laws
variable {s : TreeStore} {p : Nat}

theorem free_validPage (hw : s.allocator.Wf) (hp : s.allocator.Free p) : ValidPage p := by
  have := PageAllocator.free_pos hw hp
  simp only [isizeMax] at this
  simp only [ValidPage, emptyTreeRoot]
  omega

theorem treeStore_allocate (hc : s.Coherent) (hw : s.allocator.Wf) :
    (∃ e, treeStore.allocate s = (.error e, s) ∧ e = .capacityOverflow) ∨
      ∃ p s', treeStore.allocate s = (.ok p, s') ∧ s.allocator.Free p ∧ (s'.Coherent ∧ s'.allocator.Wf) ∧
        diskPage s'.file = diskPage s.file ∧ ∀ q, s'.allocator.Free q ↔ s.allocator.Free q ∧ q ≠ p := by
  rcases PageAllocator.allocate_cases hw with he | ⟨p, a, ha, hp, hw, hf, -⟩
  · exact .inl ⟨_, by simp only [treeStore, TreeStore.allocate, he], rfl⟩
  · exact .inr ⟨p, { s with allocator := a }, by simp only [treeStore, TreeStore.allocate, ha],
      hp, ⟨hc, hw⟩, rfl, hf⟩

end Laws

/-- The store obeys the laws that the tree's proofs rest on. -/
def treeStoreLawful : IndexStore.Lawful treeStore where
  Inv s := s.Coherent ∧ s.allocator.Wf
  view s := diskPage s.file
  Free s := s.allocator.Free
  Exhausted e := e = .capacityOverflow
  free_valid h hp := free_validPage h.2 hp
  load_ok h hv := by
    obtain ⟨cache, hl, hc⟩ := TreeStore.loadPage_ok h.1 hv
    exact ⟨_, hl, ⟨hc, h.2⟩, rfl, rfl⟩
  write_ok h hf := by
    obtain ⟨s', hw, hc, ha, hv⟩ := TreeStore.writePage_ok h.1 hf
    exact ⟨s', hw, ⟨hc, ha ▸ h.2⟩, hv, by rw [ha]⟩
  allocate_cases h := treeStore_allocate h.1 h.2

end SqliteGraph.V3
