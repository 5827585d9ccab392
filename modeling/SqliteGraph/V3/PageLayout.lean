import SqliteGraph.V3.EdgePage
import SqliteGraph.V3.TreeStore

/-! Where the components that share one allocator put their pages, and when they agree. -/
namespace SqliteGraph.V3
open Lib

/-- `NodeStore::page_offset`. -/
def NodeStore.pageOffset (pageId : Nat) : Nat :=
  if pageId = 0 then 0 else v3HeaderSize + (pageId - 1) * defaultPageSize

/-- The allocators reached from a header, with the pages handed out on the way. -/
inductive PageAllocator.HandsOut (header : PersistentHeaderV3) : PageAllocator → List Nat → Prop
  | new : HandsOut header (.new header) []
  | allocate {a a' ps p} : HandsOut header a ps → a.allocate = .ok (p, a') →
      HandsOut header a' (p :: ps)
  | deallocate {a a' ps p result} : HandsOut header a ps → a.deallocate p = (result, a') →
      HandsOut header a' ps

/-- The bytes of the file that one write covers. -/
structure ByteRange where
  start : Nat
  length : Nat

def ByteRange.Disjoint (r s : ByteRange) : Prop :=
  r.start + r.length ≤ s.start ∨ s.start + s.length ≤ r.start

/-- A node page is written as the 4096 bytes that `NodePage::pack` returns. -/
def nodePageRange (pageId : Nat) : ByteRange := ⟨NodeStore.pageOffset pageId, defaultPageSize⟩

def treePageRange (pageId : Nat) : ByteRange := ⟨pageOffset defaultPageSize pageId, defaultPageSize⟩

def EdgePageIO.range (io : EdgePageIO) (pageId : Nat) (data : Bytes) : ByteRange :=
  ⟨io.writeOffset pageId, (io.pageData data).length⟩

/-- All components place a page at one offset; the edge store's reader is one of them. -/
def SamePlace (io : EdgePageIO) (p : Nat) : Prop :=
  (nodePageRange p).start = (treePageRange p).start ∧ io.writeOffset p = (treePageRange p).start ∧
    io.pageOffset p = (treePageRange p).start

/-- The layout agrees for a cluster's image: over every run of the shared allocator, pages have one
place, and the node store or the tree writing one page stays clear of the cluster on another. -/
def LayoutAgrees (io : EdgePageIO) (data : Bytes) : Prop :=
  ∀ header a ps, PageAllocator.HandsOut header a ps →
    (∀ p ∈ ps, SamePlace io p) ∧
    ∀ p ∈ ps, ∀ q ∈ ps, p ≠ q → (nodePageRange p).Disjoint (io.range q data) ∧
      (treePageRange p).Disjoint (io.range q data)

namespace PageAllocator
variable {header : PersistentHeaderV3} {a a' : PageAllocator} {p : Nat} {ps : List Nat}

/-- An allocation hands out a freed page or one past page 1, and frees nothing. -/
theorem allocate_pos (hfree : ∀ q ∈ a.freeList, 0 < q) (h : a.allocate = .ok (p, a')) :
    0 < p ∧ ∀ q ∈ a'.freeList, 0 < q := by
  cases hfl : a.freeList with
  | cons q rest =>
    rw [hfl, List.forall_mem_cons] at hfree
    rw [allocate, hfl] at h
    cases h
    exact hfree
  | nil =>
    have hnext : 0 < a.nextPage := by
      rw [nextPage]
      omega
    simp only [allocate, hfl, newPageId_eq] at h
    split at h
    · split at h
      · cases h
      · cases h
        exact ⟨hnext, by simp⟩
    · cases h
      exact ⟨hnext, by simp⟩

theorem deallocate_pos {result : Except NativeBackendError Unit} (hfree : ∀ q ∈ a.freeList, 0 < q)
    (h : a.deallocate p = (result, a')) : ∀ q ∈ a'.freeList, 0 < q := by
  rcases deallocate_cases a p with ⟨hp, -, hd⟩ | ⟨e, bitmap, hd, -⟩
  · rw [hd] at h
    cases h
    exact List.forall_mem_cons.mpr ⟨Nat.pos_of_ne_zero hp, hfree⟩
  · rw [hd] at h
    cases h
    exact hfree

/-- Page 0 is never handed out. -/
theorem handsOut_pos (h : HandsOut header a ps) :
    (∀ p ∈ ps, 0 < p) ∧ ∀ q ∈ a.freeList, 0 < q := by
  induction h with
  | new => exact ⟨by simp, by simp [PageAllocator.new]⟩
  | allocate _ ha ih =>
    obtain ⟨hp, hfree⟩ := allocate_pos ih.2 ha
    exact ⟨List.forall_mem_cons.mpr ⟨hp, ih.1⟩, hfree⟩
  | deallocate _ hd ih => exact ⟨ih.1, deallocate_pos ih.2 hd⟩

/-- A new database hands out the pages from 2 on, one after the other. -/
theorem handsOut_below (n : Nat) (hn : n + 1024 ≤ isizeMax) :
    ∃ a ps, HandsOut .newV3 a ps ∧ a.Wf ∧ a.freeList = [] ∧ a.nextPage = max 2 n ∧
      ∀ p, 2 ≤ p → p < n → p ∈ ps := by
  induction n with
  | zero => exact ⟨_, [], .new, wf_new _, rfl, rfl, by omega⟩
  | succ n ih =>
    obtain ⟨a, ps, hout, hw, hfl, hnext, hps⟩ := ih (by omega)
    by_cases hsmall : n < 2
    · exact ⟨a, ps, hout, hw, hfl, by omega, by omega⟩
    · rcases allocate_append hw hfl with ⟨-, hbig⟩ | ⟨bitmap, ha, hlen, -⟩
      · omega
      · refine ⟨_, _, .allocate hout ha, ⟨List.nodup_nil, by simp, hlen, by simp⟩, rfl, ?_, ?_⟩
        · simp only [nextPage] at hnext ⊢
          omega
        · intro p h2 hp
          rcases Nat.lt_succ_iff_lt_or_eq.mp hp with hlt | rfl
          · exact List.mem_cons_of_mem _ (hps p h2 hlt)
          · exact List.mem_cons.mpr (.inl (by omega))

end PageAllocator

section Layout
variable {io : EdgePageIO} {data : Bytes} {p : Nat}

theorem samePlace_iff (hp : 0 < p) : SamePlace io p ↔ io.pageSize = defaultPageSize ∨ p = 1 := by
  have hnode : (nodePageRange p).start = (treePageRange p).start := if_neg hp.ne'
  have hread : io.pageOffset p = pageOffset io.pageSize p := if_neg hp.ne'
  have hcoord : FileCoordinator.pageOffset p = pageOffset defaultPageSize p := if_neg hp.ne'
  have heq : pageOffset io.pageSize p = pageOffset defaultPageSize p ↔
      io.pageSize = defaultPageSize ∨ p = 1 := by
    simp only [pageOffset, Nat.add_left_cancel_iff, mul_eq_mul_left_iff]
    omega
  unfold SamePlace
  rw [ EdgePageIO.writeOffset, hcoord, hread]
  simp only [treePageRange, nodePageRange] at hnode ⊢
  constructor
  · exact fun h => heq.mp h.2.2
  · intro h
    refine ⟨hnode, ?_, heq.mpr h⟩
    split
    · rfl
    · exact heq.mpr h

/-- The components agree on where pages are and stay clear of each other exactly when the page size
is the default one and the cluster fits into such a page. -/
theorem layoutAgrees_iff (io : EdgePageIO) (src : Int64) (dir : Direction) (pageId : Nat)
    (edges : List (Int64 × Option String)) :
    LayoutAgrees io (V3EdgeCluster.accumulate src dir pageId edges).serialize ↔
      io.pageSize = defaultPageSize ∧ V3EdgeCluster.imageSize edges ≤ defaultPageSize := by
  have hlen : (V3EdgeCluster.accumulate src dir pageId edges).serialize.length =
      V3EdgeCluster.imageSize edges := V3EdgeCluster.length_serialize_accumulate
  generalize (V3EdgeCluster.accumulate src dir pageId edges).serialize = data at hlen ⊢
  constructor
  · intro h
    obtain ⟨a, ps, hout, -, -, -, hps⟩ := PageAllocator.handsOut_below 4 (by decide)
    obtain ⟨hplace, hclear⟩ := h _ a ps hout
    have hmem := hps 2 (le_refl _) (by decide)
    have hsize := (samePlace_iff (by decide)).mp (hplace 2 hmem)
    have hrange := (hclear 3 (hps 3 (by decide) (by decide)) 2 hmem (by decide)).2
    have hstart : io.writeOffset 2 = pageOffset defaultPageSize 2 := (hplace 2 hmem).2.1
    have hdata : data.length ≤ (io.pageData data).length := by
      rw [ EdgePageIO.length_pageData]
      split <;> omega
    simp only [ByteRange.Disjoint, treePageRange, EdgePageIO.range, hstart, pageOffset, v3HeaderSize,
      defaultPageSize] at hrange hsize ⊢
    omega
  · rintro ⟨hsize, hfits⟩ header a ps hout
    have hpos := (PageAllocator.handsOut_pos hout).1
    refine ⟨fun p hp => (samePlace_iff (hpos p hp)).mpr (.inl hsize), ?_⟩
    intro p hp q hq hne
    have hplace : ∀ r ∈ ps, SamePlace io r := fun r hr => (samePlace_iff (hpos r hr)).mpr (.inl hsize)
    have hstart := (hplace q hq).2.1
    have hnode := (hplace p hp).1
    have hdata : (io.pageData data).length ≤ defaultPageSize := by
      rw [ EdgePageIO.length_pageData, hsize, hlen]
      split <;> omega
    have htree : (treePageRange p).Disjoint (io.range q data) := by
      have := pageOffset_disjoint defaultPageSize (hpos p hp) (hpos q hq) hne
      simp only [treePageRange] at hstart
      simp only [ByteRange.Disjoint, treePageRange, EdgePageIO.range, hstart]
      omega
    refine ⟨?_, htree⟩
    rwa [ByteRange.Disjoint, hnode]

/-- At 16 KB pages, edge page 2 is written over node page 5. -/
theorem not_layoutAgrees_large :
    ¬LayoutAgrees ⟨16384, false⟩ (V3EdgeCluster.accumulate 1 .outgoing 2 [(2, none)]).serialize := by
  intro h
  obtain ⟨a, ps, hout, -, -, -, hps⟩ := PageAllocator.handsOut_below 6 (by decide)
  have hrange := ((h _ a ps hout).2 5 (hps 5 (by decide) (by decide)) 2
    (hps 2 (le_refl _) (by decide)) (by decide)).1
  revert hrange
  unfold ByteRange.Disjoint
  decide

end Layout

end SqliteGraph.V3
