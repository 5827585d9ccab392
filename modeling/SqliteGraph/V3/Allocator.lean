import SqliteGraph.V3.Header

/-! The page allocator: a stack of freed pages over a growing file. -/
namespace SqliteGraph.V3

/-- The stack of freed pages is kept with its top first. -/
structure PageAllocator where
  bitmap : List Bool
  freeList : List Nat
  totalPages : Nat
  deriving DecidableEq, Repr

inductive PageState
  | free
  | allocated
  | pinned
  deriving DecidableEq, Repr

def isizeMax : Nat := 2 ^ 63 - 1

namespace PageAllocator

/-- The stack starts out empty, whatever free list the header names. -/
def new (header : PersistentHeaderV3) : PageAllocator := ⟨[true, true], [], header.totalPages⟩

/-- `Vec::resize` with `false`. -/
def resize (bitmap : List Bool) (n : Nat) : List Bool :=
  bitmap.take n ++ List.replicate (n - bitmap.length) false

def allocate (a : PageAllocator) : Except NativeBackendError (Nat × PageAllocator) :=
  match a.freeList with
  | pageId :: rest => .ok (pageId, { a with bitmap := a.bitmap.set pageId true, freeList := rest })
  | [] =>
    let newPageId := if a.totalPages < 2 then 2 else a.totalPages
    if a.bitmap.length ≤ newPageId then
      if isizeMax < newPageId + 1024 then .error .capacityOverflow
      else .ok (newPageId, { a with
        bitmap := (resize a.bitmap (newPageId + 1024)).set newPageId true
        totalPages := newPageId + 1 })
    else .ok (newPageId, { a with
      bitmap := a.bitmap.set newPageId true
      totalPages := newPageId + 1 })

/-- The bitmap grows to the page before the check; a refused call leaves the longer one behind. -/
def deallocate (a : PageAllocator) (pageId : Nat) :
    Except NativeBackendError Unit × PageAllocator :=
  if pageId = 0 then
    (.error (.invalidHeader "page_id" "Cannot free header page (page 0)"), a)
  else if a.bitmap.length ≤ pageId ∧ isizeMax < pageId + 1 then (.error .capacityOverflow, a)
  else
    let bitmap := if a.bitmap.length ≤ pageId then resize a.bitmap (pageId + 1) else a.bitmap
    if bitmap[pageId]? = some true then
      (.ok (), { a with bitmap := bitmap.set pageId false, freeList := pageId :: a.freeList })
    else
      (.error (.corruptionDetected s!"Double-free detected for page {pageId}"),
        { a with bitmap := bitmap })

def getPageState (a : PageAllocator) (pageId : Nat) : Except NativeBackendError PageState :=
  if pageId = 0 then .ok .allocated
  else if a.totalPages ≤ pageId then
    .error (.invalidHeader "page_id" s!"Page {pageId} exceeds max pages {a.totalPages}")
  else if a.bitmap[pageId]? = some true then .ok .allocated
  else .ok .free

/-- The lowest id that has never been handed out. -/
def nextPage (a : PageAllocator) : Nat := max 2 a.totalPages

/-- Freed pages are distinct pages below the end of the file; the bitmap fits in memory. -/
structure Wf (a : PageAllocator) : Prop where
  nodup : a.freeList.Nodup
  freed : ∀ p ∈ a.freeList, 0 < p ∧ p < a.nextPage
  bitmap : a.bitmap.length ≤ isizeMax
  free_lt : ∀ p ∈ a.freeList, p < isizeMax

/-- What the allocator may still hand out. -/
def Free (a : PageAllocator) (p : Nat) : Prop :=
  p ∈ a.freeList ∨ a.nextPage ≤ p ∧ p < isizeMax

theorem wf_new (header : PersistentHeaderV3) : (new header).Wf :=
  ⟨List.nodup_nil, by simp [new], by simp [new, isizeMax], by simp [new]⟩

/-- An allocator made anew from a count of pages hands out nothing that the old one would not. -/
theorem free_of_new {a : PageAllocator} {header : PersistentHeaderV3} {p : Nat}
    (h : header.totalPages = a.totalPages) (hp : (new header).Free p) : a.Free p := by
  rcases hp with hp | hp
  · cases hp
  · exact .inr (by rwa [nextPage, ← h])

theorem length_resize {bitmap : List Bool} {n : Nat} : (resize bitmap n).length = n := by
  rw [resize, List.length_append, List.length_take, List.length_replicate]
  omega

theorem getElem?_resize {bitmap : List Bool} {n q : Nat} (hn : bitmap.length ≤ n) :
    (resize bitmap n)[q]? = some true ↔ bitmap[q]? = some true := by
  rw [resize, List.take_of_length_le hn]
  by_cases hq : q < bitmap.length
  · rw [List.getElem?_append_left hq]
  · rw [List.getElem?_append_right (by omega), List.getElem?_replicate,
      List.getElem?_eq_none (by omega : bitmap.length ≤ q)]
    split <;> simp

/-- A page is freed when its bit is set; a refused call sets and clears no bit. -/
theorem deallocate_cases (a : PageAllocator) (p : Nat) :
    (p ≠ 0 ∧ a.bitmap[p]? = some true ∧
      a.deallocate p = (.ok (), { a with
        bitmap := a.bitmap.set p false
        freeList := p :: a.freeList })) ∨
    ∃ e, ∃ bitmap : List Bool, a.deallocate p = (.error e, { a with bitmap := bitmap }) ∧
      a.bitmap.length ≤ bitmap.length ∧ ∀ q : Nat, bitmap[q]? = some true ↔ a.bitmap[q]? = some true := by
  unfold deallocate
  split
  · exact .inr ⟨_, a.bitmap, rfl, le_refl _, fun _ => Iff.rfl⟩
  · rename_i hp
    split
    · exact .inr ⟨_, a.bitmap, rfl, le_refl _, fun _ => Iff.rfl⟩
    · by_cases hlen : a.bitmap.length ≤ p
      · have hbit : ∀ q, (resize a.bitmap (p + 1))[q]? = some true ↔ a.bitmap[q]? = some true :=
          fun q => getElem?_resize (by omega)
        have hclear : ¬ (resize a.bitmap (p + 1))[p]? = some true := by
          rw [hbit, List.getElem?_eq_none hlen]
          simp
        simp only [if_pos hlen, if_neg hclear]
        exact .inr ⟨_, _, rfl, by rw [length_resize]; omega, hbit⟩
      · simp only [if_neg hlen]
        split
        · rename_i hset
          exact .inl ⟨hp, hset, rfl⟩
        · exact .inr ⟨_, a.bitmap, rfl, le_refl _, fun _ => Iff.rfl⟩

theorem free_pos {a : PageAllocator} {p : Nat} (h : a.Wf) (hp : a.Free p) :
    0 < p ∧ p < isizeMax := by
  rcases hp with hp | ⟨hp, hlt⟩
  · exact ⟨(h.freed p hp).1, h.free_lt p hp⟩
  · rw [nextPage] at hp
    omega

theorem newPageId_eq {a : PageAllocator} :
    (if a.totalPages < 2 then 2 else a.totalPages) = a.nextPage := by
  unfold nextPage
  split <;> omega

/-- Only a bitmap that cannot grow makes an allocation fail. -/
theorem allocate_error {a : PageAllocator} {e : NativeBackendError} (h : a.allocate = .error e) :
    e = .capacityOverflow := by
  cases hfl : a.freeList with
  | cons p rest => simp [allocate, hfl] at h
  | nil =>
    simp only [allocate, hfl, newPageId_eq] at h
    split at h
    · split at h
      · cases h
        rfl
      · cases h
    · cases h

/-- Without freed pages an allocation takes the next page at the end of the file, unless the bitmap
cannot grow that far. -/
theorem allocate_append {a : PageAllocator} (h : a.Wf) (hfl : a.freeList = []) :
    a.allocate = .error .capacityOverflow ∧ isizeMax < a.nextPage + 1024 ∨
      ∃ bitmap, a.allocate = .ok (a.nextPage, ⟨bitmap, [], a.nextPage + 1⟩) ∧
        bitmap.length ≤ isizeMax ∧ a.nextPage < isizeMax := by
  have hlen := h.bitmap
  simp only [allocate, hfl, newPageId_eq]
  split
  · split
    · rename_i hbig
      exact .inl ⟨rfl, hbig⟩
    · refine .inr ⟨_, rfl, ?_, by omega⟩
      rw [List.length_set, length_resize]
      omega
  · refine .inr ⟨_, rfl, ?_, by omega⟩
    rwa [List.length_set]

/-- An allocation hands out one free page and takes it out of the free ones. -/
theorem allocate_cases {a : PageAllocator} (h : a.Wf) :
    a.allocate = .error .capacityOverflow ∨
      ∃ p a', a.allocate = .ok (p, a') ∧ a.Free p ∧ a'.Wf ∧
        (∀ q, a'.Free q ↔ a.Free q ∧ q ≠ p) ∧
        (a.totalPages ≤ isizeMax → a'.totalPages ≤ isizeMax) := by
  cases hfl : a.freeList with
  | cons p rest =>
    right
    have hnd := hfl ▸ h.nodup
    rw [List.nodup_cons] at hnd
    refine ⟨p, { a with bitmap := a.bitmap.set p true, freeList := rest }, by rw [allocate, hfl],
      .inl (by simp [hfl]), ⟨hnd.2, ?_, ?_, ?_⟩, ?_, id⟩
    · exact fun q hq => h.freed q (by simp [hfl, hq])
    · simpa using h.bitmap
    · exact fun q hq => h.free_lt q (by simp [hfl, hq])
    · intro q
      have hp := h.freed p (by simp [hfl])
      simp only [Free, hfl, List.mem_cons, nextPage] at hp ⊢
      constructor
      · rintro (hq | hq)
        · exact ⟨.inl (.inr hq), fun he => hnd.1 (he ▸ hq)⟩
        · exact ⟨.inr hq, by omega⟩
      · rintro ⟨(rfl | hq) | hq, hne⟩
        · exact (hne rfl).elim
        · exact .inl hq
        · exact .inr hq
  | nil =>
    rcases allocate_append h hfl with ⟨he, -⟩ | ⟨bitmap, ha, hlen, hlt⟩
    · exact .inl he
    · have hnext : nextPage ⟨bitmap, [], a.nextPage + 1⟩ = a.nextPage + 1 := by
        simp only [nextPage]
        omega
      refine .inr ⟨_, _, ha, .inr ⟨le_refl _, hlt⟩, ⟨List.nodup_nil, by simp, hlen, by simp⟩, ?_,
        fun _ => hlt⟩
      intro q
      simp only [Free, hnext, hfl, List.not_mem_nil, false_or]
      omega

end PageAllocator

end SqliteGraph.V3
