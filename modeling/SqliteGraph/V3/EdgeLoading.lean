import SqliteGraph.V3.EdgeTable
import SqliteGraph.V3.Traversal
import SqliteGraph.Lib.Settles

/-! Loading edges into an empty native backend, whose index stays empty until a flush. -/
namespace SqliteGraph.V3
open Lib

/-- The list of a pair takes a destination once. -/
def addNeighbor (dsts : EdgeKey → List Int64) (k : EdgeKey) (dst : Int64) : EdgeKey → List Int64 :=
  Function.update dsts k (EdgeTable.appendNew (dsts k) dst)

/-- The index is empty, and the cached lists are those of `dsts`. -/
structure Loading (s : EdgeState) (dsts : EdgeKey → List Int64) : Prop where
  index : s.manager.isEmpty = true
  cache : ∀ k, s.store.cache.lookup k = if dsts k = [] then none else some (dsts k)

namespace Loading
variable {s : EdgeState} {dsts : EdgeKey → List Int64} {src dst : Int64} {dir : Direction}

/-- An empty index is not read. -/
theorem lookupPage (h : Loading s dsts) (src : Int64) (dir : Direction) (fuel : Nat) :
    V3EdgeStore.lookupPage fuel src dir s = (.ok (.ok none), s) := by
  have hrun : BTreeManager.lookup treeStore fuel (edgeKey src dir) s.manager = (.ok none, s.manager) := by
    simp only [BTreeManager.lookup, StoreM.get_bind_run, h.index, if_true]
    rfl
  simp only [V3EdgeStore.lookupPage, V3EdgeStore.attemptIndex, V3EdgeStore.onIndex, hrun]
  rfl

theorem loadNeighborsFromDisk (h : Loading s dsts) (src : Int64) (dir : Direction) (fuel : Nat) :
    V3EdgeStore.loadNeighborsFromDisk fuel src dir s = (.ok [], s) := by
  rw [V3EdgeStore.loadNeighborsFromDisk, StoreM.bind_ok _ (h.lookupPage src dir fuel)]
  rfl

/-- A query answers from the cache and changes nothing. -/
theorem neighbors (h : Loading s dsts) (fuel : Nat) :
    V3EdgeStore.neighbors fuel src dir s = (.ok (dsts (src, dir)), s) := by
  simp only [V3EdgeStore.neighbors, StoreM.get_bind_run, h.cache]
  by_cases hd : dsts (src, dir) = []
  · rw [if_pos hd, hd]
    exact (StoreM.bind_ok _ (h.loadNeighborsFromDisk src dir fuel)).trans rfl
  · rw [if_neg hd]
    rfl

/-- The cached list takes the destination. -/
theorem cacheEdge (h : Loading s dsts) (src dst : Int64) (dir : Direction) :
    ∃ s', V3EdgeStore.cacheEdge src dst dir s = (.ok (), s') ∧
      Loading s' (addNeighbor dsts (src, dir) dst) := by
  unfold addNeighbor
  have hinsert : ∀ ns, ns ≠ [] → Loading
      { s with store := { s.store with cache := s.store.cache.insert (src, dir) ns } }
      (Function.update dsts (src, dir) ns) := by
    intro ns hns
    refine ⟨h.index, fun k => ?_⟩
    by_cases hk : k = (src, dir)
    · subst hk
      rw [Function.update_self, if_neg hns]
      exact AList.lookup_insert _
    · rw [Function.update_of_ne hk, ← h.cache]
      exact AList.lookup_insert_ne hk
  simp only [V3EdgeStore.cacheEdge, StoreM.get_bind_run, h.cache]
  by_cases hd : dsts (src, dir) = []
  · rw [if_pos hd, hd]
    exact ⟨_, rfl, hinsert [dst] (by simp)⟩
  · rw [if_neg hd]
    by_cases hm : dst ∈ dsts (src, dir)
    · refine ⟨s, by simp [hm], ?_⟩
      rwa [EdgeTable.appendNew, if_pos hm, Function.update_eq_self]
    · simp only [hm, if_false, EdgeTable.appendNew]
      exact ⟨_, rfl, hinsert _ (by simp)⟩

/-- Nothing but the allocator can fail, and it only by running out of page ids. -/
theorem clusterEdge (h : Loading s dsts) (edgeType : Option String) :
    StoreM.Settles (· = .capacityOverflow)
      (fun fuel => V3EdgeStore.clusterEdge fuel src dst dir edgeType) s fun _ s' => Loading s' dsts := by
  refine StoreM.Settles.get_bind ?_
  cases s.store.dirtyClusters.lookup (src, dir) with
  | some cluster => exact .of_run (a := ()) rfl ⟨h.index, h.cache⟩
  | none =>
    have hpage : StoreM.Settles (· = .capacityOverflow)
        (fun fuel => V3EdgeStore.findOrAllocatePage fuel src dir) s fun _ s' => Loading s' dsts := by
      have hlookup : StoreM.Settles (· = .capacityOverflow)
          (fun fuel => V3EdgeStore.lookupPage fuel src dir) s fun r s' => r = .ok none ∧ s' = s :=
        .of_stable (fun fuel (_ : 0 ≤ fuel) => h.lookupPage src dir fuel) ⟨rfl, rfl⟩
      refine hlookup.bind ?_
      rintro _ s ⟨rfl, rfl⟩
      cases ha : s.disk.allocator.allocate with
      | ok r =>
        have hrun : V3EdgeStore.attemptAllocate s =
            (.ok (.ok r.1), { s with disk := { s.disk with allocator := r.2 } }) := by
          simp only [V3EdgeStore.attemptAllocate, ha]
        exact .of_run (StoreM.bind_ok _ hrun) ⟨h.index, h.cache⟩
      | error e =>
        obtain rfl := PageAllocator.allocate_error ha
        have hrun : V3EdgeStore.attemptAllocate s = (.error .capacityOverflow, s) := by
          simp only [V3EdgeStore.attemptAllocate, ha]
          rfl
        exact .of_error (StoreM.bind_error _ hrun) rfl
    refine hpage.bind ?_
    rintro p s' h'
    exact .of_run (a := ()) rfl ⟨h'.index, h'.cache⟩

theorem insertEdge (h : Loading s dsts) (edgeType : Option String) :
    StoreM.Settles (· = .capacityOverflow)
      (fun fuel => V3EdgeStore.insertEdge fuel src dst dir edgeType) s fun _ s' =>
        Loading s' (addNeighbor dsts (src, dir) dst) := by
  obtain ⟨s', hrun, h'⟩ := h.cacheEdge src dst dir
  have hcache : StoreM.Settles (· = .capacityOverflow)
      (fun _ => V3EdgeStore.cacheEdge src dst dir) s fun _ s' =>
        Loading s' (addNeighbor dsts (src, dir) dst) :=
    .of_run hrun h'
  exact hcache.bind fun _ _ h => h.clusterEdge edgeType

end Loading

/-- The lists after a load: each edge is put down at both ends. -/
def loadEdge (dsts : EdgeKey → List Int64) (edge : EdgeSpec) : EdgeKey → List Int64 :=
  addNeighbor (addNeighbor dsts (edge.fromId, .outgoing) edge.toId) (edge.toId, .incoming) edge.fromId

theorem mem_appendNew {ns : List Int64} {v w : Int64} :
    v ∈ EdgeTable.appendNew ns w ↔ v ∈ ns ∨ v = w := by
  unfold EdgeTable.appendNew
  split
  · rename_i hw
    constructor
    · exact .inl
    · rintro (hv | rfl)
      · exact hv
      · exact hw
  · simp

/-- The key of a node's neighbors. -/
def directionOf : BackendDirection → Direction
  | .outgoing => .outgoing
  | .incoming => .incoming

variable {dsts : EdgeKey → List Int64} {edges : List EdgeSpec} {edge : EdgeSpec}
  {direction : BackendDirection} {u v : Int64}

theorem mem_addNeighbor {k k' : EdgeKey} {w : Int64} :
    v ∈ addNeighbor dsts k w k' ↔ v ∈ dsts k' ∨ k' = k ∧ v = w := by
  unfold addNeighbor
  by_cases hk : k' = k
  · subst hk
    simp [mem_appendNew]
  · simp [hk]

theorem mem_loadEdge :
    v ∈ loadEdge dsts edge (u, directionOf direction) ↔
      v ∈ dsts (u, directionOf direction) ∨ edge.Joins direction u v := by
  cases direction with
  | outgoing => simp [loadEdge, directionOf, EdgeSpec.Joins, mem_addNeighbor, eq_comm]
  | incoming => simp [loadEdge, directionOf, EdgeSpec.Joins, mem_addNeighbor, eq_comm]

theorem mem_foldl_loadEdge :
    v ∈ edges.foldl loadEdge dsts (u, directionOf direction) ↔
      v ∈ dsts (u, directionOf direction) ∨ ∃ edge ∈ edges, edge.Joins direction u v := by
  induction edges generalizing dsts with
  | nil => simp
  | cons edge edges ih => rw [List.foldl_cons, ih, mem_loadEdge, List.exists_mem_cons_iff, or_assoc]

end SqliteGraph.V3
