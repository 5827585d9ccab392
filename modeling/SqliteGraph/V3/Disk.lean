import SqliteGraph.V3.TreeStore

/-! What the components of a backend share, and what an index running on it leaves alone. -/
namespace SqliteGraph.V3
open Lib

/-- The database file, and the allocator over its pages. -/
structure Disk where
  file : ByteFile
  allocator : PageAllocator

/-- A `BTreeManager` less what it shares with others. -/
structure IndexHandle where
  rootPageId : Nat
  treeHeight : Nat
  pageCache : BTreePageCache

namespace IndexHandle

def manager (x : IndexHandle) (d : Disk) : BTreeManager TreeStore :=
  ⟨x.rootPageId, x.treeHeight, ⟨d.file, d.allocator, x.pageCache⟩⟩

def ofManager (t : BTreeManager TreeStore) : IndexHandle × Disk :=
  (⟨t.rootPageId, t.treeHeight, t.store.cache⟩, ⟨t.store.file, t.store.allocator⟩)

@[simp] theorem manager_ofManager (t : BTreeManager TreeStore) :
    (ofManager t).1.manager (ofManager t).2 = t := rfl

end IndexHandle

namespace TreeStore

/-- A byte outside the pages `W`. -/
def Outside (W : Nat → Prop) (i : Nat) : Prop :=
  ∀ q, 0 < q → W q → i < pageOffset defaultPageSize q ∨ pageOffset defaultPageSize q + defaultPageSize ≤ i

/-- From `s` to `s'` only the pages `W` were written and cached, and no page beyond what a `Vec` can
count was handed out. -/
structure Frame (W : Nat → Prop) (s s' : TreeStore) : Prop where
  len : s.file.len ≤ s'.file.len
  byte : ∀ i < s.file.len, Outside W i → s'.file.byte i = s.file.byte i
  cached : ∀ q page, s'.cache.get q = some page → (∃ page', s.cache.get q = some page') ∨ W q
  allocator : s.allocator.Wf → s.allocator.totalPages ≤ isizeMax →
    s'.allocator.Wf ∧ s'.allocator.totalPages ≤ isizeMax

variable {W : Nat → Prop} {s s' s'' : TreeStore} {p : Nat}

theorem Frame.refl : Frame W s s :=
  ⟨le_refl _, fun _ _ _ => rfl, fun _ page h => .inl ⟨page, h⟩, fun hw ht => ⟨hw, ht⟩⟩

theorem Frame.trans (h : Frame W s s') (h' : Frame W s' s'') : Frame W s s'' where
  len := h.len.trans h'.len
  byte i hi hout := (h'.byte i (lt_of_lt_of_le hi h.len) hout).trans (h.byte i hi hout)
  cached q page hq := by
    rcases h'.cached q page hq with ⟨page', hq'⟩ | hq'
    · exact h.cached q page' hq'
    · exact .inr hq'
  allocator hw ht := by
    obtain ⟨hw', ht'⟩ := h.allocator hw ht
    exact h'.allocator hw' ht'

theorem allocate_frame {r : Except NativeBackendError Nat} (h : TreeStore.allocate s = (r, s')) :
    Frame W s s' := by
  unfold TreeStore.allocate at h
  split at h
  · rename_i p a ha
    cases h
    refine ⟨le_refl _, fun _ _ _ => rfl, fun _ page h => .inl ⟨page, h⟩, ?_⟩
    intro hw ht
    rcases PageAllocator.allocate_cases hw with he | ⟨p', a', ha', -, hw', -, ht'⟩
    · cases ha.symm.trans he
    · cases ha.symm.trans ha'
      exact ⟨hw', ht' ht⟩
  · cases h
    exact .refl

theorem cached_insert {page page' : IndexPage} {c : BTreePageCache} {q : Nat} (hp : W p)
    (h : (c.insert p page).get q = some page') : (∃ page'', c.get q = some page'') ∨ W q := by
  rcases BTreePageCache.get_insert h with ⟨rfl, -⟩ | ⟨-, hq⟩
  · exact .inr hp
  · exact .inl ⟨page', hq⟩

theorem loadPage_frame {r : Except NativeBackendError IndexPage} (hp : W p)
    (h : TreeStore.loadPage p s = (r, s')) : Frame W s s' := by
  unfold TreeStore.loadPage at h
  split at h
  · cases h
    exact .refl
  · split at h
    · cases h
      exact .refl
    · split at h
      · cases h
        exact .refl
      · split at h
        · cases h
          exact ⟨le_refl _, fun _ _ _ => rfl, fun _ _ hq => cached_insert hp hq, fun hw ht => ⟨hw, ht⟩⟩
        · cases h
          exact .refl

theorem writePage_frame {page : IndexPage} {r : Except NativeBackendError Unit} (hf : page.Fits)
    (hp : W page.pageId) (h : TreeStore.writePage page s = (r, s')) : Frame W s s' := by
  unfold TreeStore.writePage at h
  rw [IndexPage.pack_ok hf] at h
  simp only at h
  split at h
  · cases h
    exact .refl
  · rename_i hp0
    cases h
    refine ⟨ByteFile.len_le_writeAt, ?_, fun _ _ hq => cached_insert hp hq, fun hw ht => ⟨hw, ht⟩⟩
    intro i hi hout
    have hout' := hout page.pageId (Nat.pos_of_ne_zero hp0) hp
    have hlen := IndexPage.length_image hf
    have hbyte : (s.file.writeAt (pageOffset defaultPageSize page.pageId) page.image).byte i =
        s.file.byte i := ByteFile.byte_writeAt_of_lt hi (by omega)
    exact hbyte

/-- A run of the tree keeps to its footprint. -/
theorem uses_frame (h : treeStore.Uses IndexPage.pageId IndexPage.Fits W s s') : Frame W s s' := by
  induction h with
  | refl => exact .refl
  | allocate _ ha _ ih => exact ih.trans (allocate_frame ha)
  | load _ hl hw ih => exact ih.trans (loadPage_frame hw hl)
  | write _ hf hr hw ih => exact ih.trans (writePage_frame hf hw hr)

end TreeStore

end SqliteGraph.V3
