import SqliteGraph.V3.Allocator

/-! Runs of the page allocator: no page is handed out twice without being freed in between. -/
namespace SqliteGraph.V3

/-- What one call to the allocator has done. -/
inductive AllocatorEvent
  | allocated (pageId : Nat)
  | deallocated (pageId : Nat)
  | refused (pageId : Nat)
  deriving DecidableEq, Repr

namespace PageAllocator

/-- The allocators that calls can reach from a header, with what the calls did, latest first. A call
that panics ends the run. -/
inductive Reaches (header : PersistentHeaderV3) : PageAllocator → List AllocatorEvent → Prop
  | new : Reaches header (.new header) []
  | allocate {a a' log p} : Reaches header a log → a.allocate = .ok (p, a') →
      Reaches header a' (.allocated p :: log)
  | deallocate {a a' log p} : Reaches header a log → a.deallocate p = (.ok (), a') →
      Reaches header a' (.deallocated p :: log)
  | refuse {a a' log p e} : Reaches header a log → a.deallocate p = (.error e, a') →
      e ≠ .capacityOverflow → Reaches header a' (.refused p :: log)

/-- The page was handed out and has not been freed since. -/
def held (p : Nat) : List AllocatorEvent → Bool
  | [] => false
  | .allocated q :: log => q = p || held p log
  | .deallocated q :: log => q ≠ p && held p log
  | .refused _ :: log => held p log

/-- What a run keeps: freed pages are clear in the bitmap and held ones are set; both lie below the
end of the file. -/
structure Safe (header : PersistentHeaderV3) (a : PageAllocator) (log : List AllocatorEvent) :
    Prop where
  nodup : a.freeList.Nodup
  range : ∀ p ∈ a.freeList, 0 < p ∧ p < a.nextPage
  clear : ∀ p ∈ a.freeList, a.bitmap[p]? = some false
  freed : ∀ p ∈ a.freeList, .deallocated p ∈ log
  set : ∀ p, held p log → a.bitmap[p]? = some true
  below : ∀ p : Nat, a.bitmap[p]? = some true → p < a.nextPage
  total : header.totalPages ≤ a.nextPage

section Run
variable {header : PersistentHeaderV3} {a a' : PageAllocator} {log : List AllocatorEvent} {p : Nat}

theorem getElem?_set_true {bitmap : List Bool} {q : Nat} (hp : p < bitmap.length) :
    (bitmap.set p true)[q]? = some true ↔ q = p ∨ bitmap[q]? = some true := by
  by_cases hq : p = q
  · subst q
    simp [List.getElem?_set_self hp]
  · rw [List.getElem?_set_ne hq]
    exact ⟨.inr, fun h => h.resolve_left (Ne.symm hq)⟩

/-- A call reuses the freed page on top of the stack, or takes the next page of the file. -/
theorem allocate_inv (h : a.allocate = .ok (p, a')) :
    (∃ rest, a.freeList = p :: rest ∧
      a' = { a with bitmap := a.bitmap.set p true, freeList := rest }) ∨
    (a.freeList = [] ∧ p = a.nextPage ∧ ∃ bitmap : List Bool,
      a' = ⟨bitmap, [], a.nextPage + 1⟩ ∧
      ∀ q : Nat, bitmap[q]? = some true ↔ q = p ∨ a.bitmap[q]? = some true) := by
  cases hfl : a.freeList with
  | cons q rest =>
    rw [allocate, hfl] at h
    cases h
    exact .inl ⟨rest, rfl, rfl⟩
  | nil =>
    simp only [allocate, hfl, newPageId_eq] at h
    split at h
    · split at h
      · cases h
      · cases h
        refine .inr ⟨rfl, rfl, _, rfl, ?_⟩
        intro q
        rw [getElem?_set_true (by rw [length_resize]; omega), getElem?_resize (by omega)]
    · cases h
      exact .inr ⟨rfl, rfl, _, rfl, fun q => getElem?_set_true (by omega)⟩

theorem safe_new : Safe header (new header) [] := by
  refine ⟨List.nodup_nil, by simp [new], by simp [new], by simp [new], by simp [held], ?_, ?_⟩
  · intro p hp
    have hlt : p < 2 := (List.getElem?_eq_some_iff.mp hp).1
    rw [nextPage]
    omega
  · exact Nat.le_max_right ..

theorem held_allocated {q : Nat} : held q (.allocated p :: log) ↔ p = q ∨ held q log := by
  simp [held]

theorem held_deallocated {q : Nat} : held q (.deallocated p :: log) ↔ p ≠ q ∧ held q log := by
  simp [held]

theorem Safe.reuse (h : Safe header a log) {rest : List Nat} (hfl : a.freeList = p :: rest) :
    Safe header { a with bitmap := a.bitmap.set p true, freeList := rest }
      (.allocated p :: log) := by
  have hmem : ∀ q ∈ rest, q ∈ a.freeList := by
    intro q hq
    rw [hfl]
    exact List.mem_cons_of_mem _ hq
  have hp : p ∈ a.freeList := by simp [hfl]
  have hnd := hfl ▸ h.nodup
  rw [List.nodup_cons] at hnd
  have hlen : p < a.bitmap.length := (List.getElem?_eq_some_iff.mp (h.clear p hp)).1
  refine ⟨hnd.2, fun q hq => h.range q (hmem q hq), ?_, ?_, ?_, ?_, h.total⟩
  · intro q hq
    have hne : p ≠ q := by
      rintro rfl
      exact hnd.1 hq
    rw [List.getElem?_set_ne hne]
    exact h.clear q (hmem q hq)
  · exact fun q hq => List.mem_cons_of_mem _ (h.freed q (hmem q hq))
  · intro q hq
    rcases held_allocated.mp hq with rfl | hq
    · exact List.getElem?_set_self hlen
    · exact (getElem?_set_true hlen).mpr (.inr (h.set q hq))
  · intro q hq
    rcases (getElem?_set_true hlen).mp hq with rfl | hq
    · exact (h.range q hp).2
    · exact h.below q hq

theorem Safe.append (h : Safe header a log) {bitmap : List Bool}
    (hkeep : ∀ q : Nat, bitmap[q]? = some true ↔ q = a.nextPage ∨ a.bitmap[q]? = some true) :
    Safe header ⟨bitmap, [], a.nextPage + 1⟩ (.allocated a.nextPage :: log) := by
  have hnext : nextPage ⟨bitmap, [], a.nextPage + 1⟩ = a.nextPage + 1 := by
    simp only [nextPage]
    omega
  have htotal := h.total
  refine ⟨List.nodup_nil, by simp, by simp, by simp, ?_, ?_, by omega⟩
  · intro q hq
    rcases held_allocated.mp hq with rfl | hq
    · exact (hkeep a.nextPage).mpr (.inl rfl)
    · exact (hkeep q).mpr (.inr (h.set q hq))
  · intro q hq
    rcases (hkeep q).mp hq with rfl | hq
    · omega
    · have := h.below q hq
      omega

theorem Safe.allocate (h : Safe header a log) (ha : a.allocate = .ok (p, a')) :
    Safe header a' (.allocated p :: log) := by
  rcases allocate_inv ha with ⟨rest, hfl, rfl⟩ | ⟨-, rfl, bitmap, rfl, hkeep⟩
  · exact h.reuse hfl
  · exact h.append hkeep

theorem Safe.free (h : Safe header a log) (hp : p ≠ 0) (hset : a.bitmap[p]? = some true) :
    Safe header { a with bitmap := a.bitmap.set p false, freeList := p :: a.freeList }
      (.deallocated p :: log) := by
  have hlen : p < a.bitmap.length := (List.getElem?_eq_some_iff.mp hset).1
  have hfresh : p ∉ a.freeList := by
    intro hmem
    rw [h.clear p hmem] at hset
    cases hset
  refine ⟨List.nodup_cons.mpr ⟨hfresh, h.nodup⟩, ?_, ?_, ?_, ?_, ?_, h.total⟩
  · exact List.forall_mem_cons.mpr ⟨⟨Nat.pos_of_ne_zero hp, h.below p hset⟩, h.range⟩
  · refine List.forall_mem_cons.mpr ⟨List.getElem?_set_self hlen, ?_⟩
    intro q hq
    rw [List.getElem?_set_ne (by rintro rfl; exact hfresh hq)]
    exact h.clear q hq
  · refine List.forall_mem_cons.mpr ⟨List.mem_cons_self, ?_⟩
    exact fun q hq => List.mem_cons_of_mem _ (h.freed q hq)
  · intro q hq
    obtain ⟨hne, hq⟩ := held_deallocated.mp hq
    rw [List.getElem?_set_ne hne]
    exact h.set q hq
  · intro q hq
    by_cases hne : p = q
    · subst q
      rw [List.getElem?_set_self hlen] at hq
      cases hq
    · rw [List.getElem?_set_ne hne] at hq
      exact h.below q hq

theorem Safe.refuse (h : Safe header a log) {bitmap : List Bool}
    (hlen : a.bitmap.length ≤ bitmap.length)
    (hbit : ∀ q : Nat, bitmap[q]? = some true ↔ a.bitmap[q]? = some true) :
    Safe header { a with bitmap := bitmap } (.refused p :: log) := by
  refine ⟨h.nodup, h.range, ?_, ?_, fun q hq => (hbit q).mpr (h.set q hq), ?_, h.total⟩
  · intro q hq
    have hclear := h.clear q hq
    have hlt : q < bitmap.length := by
      have := (List.getElem?_eq_some_iff.mp hclear).1
      omega
    have hne := (hbit q).not.mpr (by rw [hclear]; simp)
    rw [List.getElem?_eq_getElem hlt] at hne ⊢
    simpa using hne
  · exact fun q hq => List.mem_cons_of_mem _ (h.freed q hq)
  · exact fun q hq => h.below q ((hbit q).mp hq)

theorem Safe.deallocate {result : Except NativeBackendError Unit} (h : Safe header a log)
    (hd : a.deallocate p = (result, a')) :
    Safe header a' ((if result = .ok () then .deallocated p else .refused p) :: log) := by
  rcases deallocate_cases a p with ⟨hp, hset, he⟩ | ⟨e, bitmap, he, hlen, hbit⟩
  · rw [he] at hd
    cases hd
    exact h.free hp hset
  · rw [he] at hd
    cases hd
    exact h.refuse hlen hbit

theorem reaches_safe (h : Reaches header a log) : Safe header a log := by
  induction h with
  | new => exact safe_new
  | allocate _ ha ih => exact ih.allocate ha
  | deallocate _ hd ih => exact ih.deallocate hd
  | refuse _ hd _ ih => exact ih.deallocate hd

theorem Safe.allocate_fresh (h : Safe header a log) (ha : a.allocate = .ok (p, a')) :
    p ≠ 0 ∧ (p < header.totalPages → .deallocated p ∈ log) ∧ ¬ held p log := by
  rcases allocate_inv ha with ⟨rest, hfl, -⟩ | ⟨-, rfl, -⟩
  · have hp : p ∈ a.freeList := by simp [hfl]
    refine ⟨(h.range p hp).1.ne', fun _ => h.freed p hp, ?_⟩
    intro hheld
    have hset := h.set p hheld
    rw [h.clear p hp] at hset
    cases hset
  · have htotal := h.total
    refine ⟨by rw [nextPage]; omega, by omega, ?_⟩
    intro hheld
    exact (h.below _ (h.set _ hheld)).false

theorem deallocate_error {e : NativeBackendError} (hd : a.deallocate p = (.error e, a')) :
    a'.freeList = a.freeList ∧ (∀ q : Nat, a'.bitmap[q]? = some true ↔ a.bitmap[q]? = some true) ∧
      ∀ q, a'.getPageState q = a.getPageState q := by
  rcases deallocate_cases a p with ⟨-, -, he⟩ | ⟨e', bitmap, he, -, hbit⟩
  · rw [he] at hd
    cases hd
  · rw [he] at hd
    cases hd
    exact ⟨rfl, hbit, fun q => by simp only [getPageState, hbit]⟩

/-- Over every run, an allocation returns a page other than 0 that no earlier call still holds, and
one below the header's bound only after it was freed; no page is twice in the free list; and a
refused deallocation changes neither the free list nor the allocated pages. -/
theorem allocator_safe (h : Reaches header a log) :
    a.freeList.Nodup ∧
    (∀ p a', a.allocate = .ok (p, a') →
      p ≠ 0 ∧ (p < header.totalPages → .deallocated p ∈ log) ∧ ¬ held p log) ∧
    (∀ p e a', a.deallocate p = (.error e, a') → e ≠ .capacityOverflow →
      a'.freeList = a.freeList ∧
      (∀ q : Nat, a'.bitmap[q]? = some true ↔ a.bitmap[q]? = some true) ∧
      ∀ q, a'.getPageState q = a.getPageState q) := by
  have hs := reaches_safe h
  exact ⟨hs.nodup, fun p a' ha => hs.allocate_fresh ha, fun p e a' hd _ => deallocate_error hd⟩

theorem allocator_safe_freedTwice :
    (PageAllocator.mk ([true, true] ++ List.replicate 1024 false) [2] 3).freeList.Nodup :=
  let a : PageAllocator := ⟨([true, true] ++ List.replicate 1024 false).set 2 true, [], 3⟩
  have hone : Reaches .newV3 a [.allocated 2] := .allocate .new (by decide +kernel)
  have htwo : Reaches .newV3 ⟨[true, true] ++ List.replicate 1024 false, [2], 3⟩
      [.deallocated 2, .allocated 2] := .deallocate hone (by decide +kernel)
  (allocator_safe (.refuse htwo (by decide +kernel : deallocate _ 2 = (.error
    (.corruptionDetected "Double-free detected for page 2"), _)) (by decide))).1

end Run

end PageAllocator

end SqliteGraph.V3
