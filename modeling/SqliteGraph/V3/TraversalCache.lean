import SqliteGraph.Lib.Enumeration
import SqliteGraph.V3.Error

/-! The node store's cache of pages: a map, and the order in which its pages were used. -/
namespace SqliteGraph.V3
open Lib

def minCacheCapacity : Nat := 1
def maxCacheCapacity : Nat := 256

/-- `Page` is what the cache shares out, an `Arc<NodePage>` in the node store. -/
structure TraversalCache (Page : Type) where
  cache : AList fun _ : Nat => Page
  accessOrder : List Nat
  capacity : Nat
  hits : Nat
  misses : Nat

namespace TraversalCache
variable {Page : Type}

def new (capacity : Nat) : Except NativeBackendError (TraversalCache Page) :=
  if minCacheCapacity ≤ capacity ∧ capacity ≤ maxCacheCapacity then .ok ⟨∅, [], capacity, 0, 0⟩
  else .error (.panic
    "assertion failed: (MIN_CACHE_CAPACITY..=MAX_CACHE_CAPACITY).contains(&capacity)")

def len (s : TraversalCache Page) : Nat := s.cache.entries.length

/-- The page becomes the one used last. -/
def get (s : TraversalCache Page) (pageId : Nat) : Option Page × TraversalCache Page :=
  match s.cache.lookup pageId with
  | some page => (some page, { s with
      cache := (s.cache.erase pageId).insert pageId page
      accessOrder := s.accessOrder.filter (· ≠ pageId) ++ [pageId]
      hits := s.hits + 1 })
  | none => (none, { s with misses := s.misses + 1 })

/-- While the cache is full, the page that was used first goes. -/
def evict (capacity : Nat) : List Nat → AList (fun _ : Nat => Page) →
    List Nat × AList fun _ : Nat => Page
  | [], cache => ([], cache)
  | oldest :: rest, cache =>
    if capacity ≤ cache.entries.length then evict capacity rest (cache.erase oldest)
    else (oldest :: rest, cache)

def insert (s : TraversalCache Page) (pageId : Nat) (page : Page) : TraversalCache Page :=
  let order := if pageId ∈ s.cache then s.accessOrder.filter (· ≠ pageId) else s.accessOrder
  let (order, cache) := evict s.capacity order s.cache
  { s with accessOrder := order ++ [pageId], cache := cache.insert pageId page }

def invalidate (s : TraversalCache Page) (pageId : Nat) : Bool × TraversalCache Page :=
  ((s.cache.lookup pageId).isSome, { s with
    cache := s.cache.erase pageId
    accessOrder := s.accessOrder.filter (· ≠ pageId) })

def clear (s : TraversalCache Page) : TraversalCache Page := { s with cache := ∅, accessOrder := [] }

inductive Op (Page : Type)
  | get (pageId : Nat)
  | insert (pageId : Nat) (page : Page)
  | invalidate (pageId : Nat)
  | clear

def apply (s : TraversalCache Page) : Op Page → TraversalCache Page
  | .get pageId => (s.get pageId).2
  | .insert pageId page => s.insert pageId page
  | .invalidate pageId => (s.invalidate pageId).2
  | .clear => s.clear

section Spec

/-- The pages that have to go before a page is inserted: the ones used first. -/
def evictedIds (s : TraversalCache Page) (pageId : Nat) : List Nat :=
  (s.accessOrder.filter (· ≠ pageId)).take (s.len + 1 - s.capacity)

/-- The value last inserted for each page and not since evicted or invalidated. -/
def heldAfter (s : TraversalCache Page) (held : Nat → Option Page) : Op Page → Nat → Option Page
  | .get _, p => held p
  | .insert pageId page, p =>
    if p = pageId then some page else if p ∈ s.evictedIds pageId then none else held p
  | .invalidate pageId, p => if p = pageId then none else held p
  | .clear, _ => none

/-- The same after a run. -/
def held : TraversalCache Page → (Nat → Option Page) → List (Op Page) → Nat → Option Page
  | _, known, [] => known
  | s, known, op :: ops => held (s.apply op) (s.heldAfter known op) ops

end Spec

section Proofs
variable {s : TraversalCache Page} {capacity p pageId : Nat} {page : Page} {order : List Nat}
  {cache : AList fun _ : Nat => Page}

/-- The order lists each cached page once, and there are not too many. -/
structure InStep (s : TraversalCache Page) : Prop where
  distinct : s.accessOrder.Nodup
  listed : ∀ p, p ∈ s.accessOrder ↔ p ∈ s.cache
  bounded : s.len ≤ s.capacity
  positive : 1 ≤ s.capacity

theorem mem_filter_ne {p q : Nat} : p ∈ order.filter (· ≠ q) ↔ p ∈ order ∧ p ≠ q := by
  rw [List.mem_filter, decide_eq_true_eq]

variable (capacity) in
/-- The first pages go, as many as are too many. -/
theorem evict_spec (hdistinct : order.Nodup) (hcached : ∀ p ∈ order, p ∈ cache) :
    (evict capacity order cache).1 = order.drop (cache.entries.length + 1 - capacity) ∧
      ∀ p, (evict capacity order cache).2.lookup p =
        if p ∈ order.take (cache.entries.length + 1 - capacity) then none else cache.lookup p := by
  induction order generalizing cache with
  | nil => simp [evict]
  | cons oldest rest ih =>
    obtain ⟨hnew, hdistinct⟩ := List.nodup_cons.mp hdistinct
    obtain ⟨hold, hcached⟩ := List.forall_mem_cons.mp hcached
    rw [evict]
    split
    · rename_i hfull
      obtain ⟨_, hheld⟩ := Option.isSome_iff_exists.mp (AList.lookup_isSome.mpr hold)
      have hlen := length_erase hheld
      have hrest : ∀ p ∈ rest, p ∈ cache.erase oldest := by
        intro p hp
        rw [AList.mem_erase]
        exact ⟨fun he => hnew (he ▸ hp), hcached p hp⟩
      have hcount : cache.entries.length + 1 - capacity =
          (cache.erase oldest).entries.length + 1 - capacity + 1 := by omega
      obtain ⟨horder, hlookup⟩ := ih hdistinct hrest
      rw [hcount, List.drop_succ_cons, List.take_succ_cons]
      refine ⟨horder, fun p => ?_⟩
      rw [hlookup]
      by_cases hp : p = oldest
      · rw [hp, AList.lookup_erase]
        simp
      · rw [AList.lookup_erase_ne hp]
        simp [hp]
    · rename_i hroom
      have hzero : cache.entries.length + 1 - capacity = 0 := by omega
      rw [hzero]
      exact ⟨rfl, by simp⟩

/-- What the cache looks up is what it should hold. -/
def Serves (s : TraversalCache Page) (known : Nat → Option Page) : Prop := ∀ p, s.cache.lookup p = known p

theorem new_inStep (h : new capacity = .ok s) : InStep s ∧ Serves s (fun _ => none) ∧ s.capacity = capacity := by
  unfold new at h
  split at h
  · rename_i hrange
    cases h
    exact ⟨⟨List.nodup_nil, by simp, Nat.zero_le _, hrange.1⟩, fun p => rfl, rfl⟩
  · cases h

theorem nodup_snoc (hdistinct : order.Nodup) (hnew : p ∉ order) : (order ++ [p]).Nodup := by
  rw [List.nodup_append]
  refine ⟨hdistinct, List.nodup_singleton p, fun q hq r hr he => ?_⟩
  rw [List.mem_singleton.mp hr] at he
  exact hnew (he ▸ hq)

theorem nodup_remove (hdistinct : order.Nodup) (q : Nat) : (order.filter (· ≠ q)).Nodup := hdistinct.filter _

theorem get_inStep (hs : InStep s) (pageId : Nat) : InStep (s.get pageId).2 := by
  unfold get
  cases hlookup : s.cache.lookup pageId with
  | none => exact ⟨hs.distinct, hs.listed, hs.bounded, hs.positive⟩
  | some page =>
    have hcached : pageId ∈ s.cache := AList.lookup_isSome.mp (by rw [hlookup]; rfl)
    refine ⟨nodup_snoc (nodup_remove hs.distinct pageId) (fun h => (mem_filter_ne.mp h).2 rfl), fun p => ?_, ?_,
      hs.positive⟩
    · dsimp only
      rw [List.mem_append, mem_filter_ne, List.mem_singleton, hs.listed, AList.mem_insert, AList.mem_erase]
      by_cases hp : p = pageId
      · simp [hp]
      · simp [hp]
    · have hlen := length_erase hlookup
      have hadd := length_insert (b := page) (AList.lookup_erase pageId s.cache)
      have hbound : s.cache.entries.length ≤ s.capacity := hs.bounded
      change ((s.cache.erase pageId).insert pageId page).entries.length ≤ s.capacity
      omega

theorem get_lookup (s : TraversalCache Page) (pageId p : Nat) :
    (s.get pageId).2.cache.lookup p = s.cache.lookup p := by
  unfold get
  cases hlookup : s.cache.lookup pageId with
  | none => rfl
  | some page =>
    by_cases hp : p = pageId
    · rw [hp, hlookup]
      exact AList.lookup_insert _
    · exact (AList.lookup_insert_ne hp).trans (AList.lookup_erase_ne hp)

theorem invalidate_inStep (hs : InStep s) (pageId : Nat) : InStep (s.invalidate pageId).2 := by
  refine ⟨nodup_remove hs.distinct pageId, fun p => ?_, ?_, hs.positive⟩
  · unfold invalidate
    rw [mem_filter_ne, hs.listed, AList.mem_erase]
    exact and_comm
  · exact Nat.le_trans (length_erase_le s.cache pageId) hs.bounded

theorem clear_inStep (hs : InStep s) : InStep s.clear :=
  ⟨List.nodup_nil, by simp [clear], Nat.zero_le _, hs.positive⟩

/-- An uncached page is not in the order, so nothing is removed from it. -/
theorem order_filter (hs : InStep s) (pageId : Nat) :
    (if pageId ∈ s.cache then s.accessOrder.filter (· ≠ pageId) else s.accessOrder) =
      s.accessOrder.filter (· ≠ pageId) := by
  split
  · rfl
  · rename_i hnew
    refine (List.filter_eq_self.mpr fun p hp => ?_).symm
    rw [decide_eq_true_eq]
    intro he
    exact hnew ((hs.listed pageId).mp (he ▸ hp))

theorem insert_eq (hs : InStep s) (pageId : Nat) (page : Page) :
    s.insert pageId page = { s with
      accessOrder := (evict s.capacity (s.accessOrder.filter (· ≠ pageId)) s.cache).1 ++ [pageId]
      cache := (evict s.capacity (s.accessOrder.filter (· ≠ pageId)) s.cache).2.insert pageId page } := by
  unfold insert
  rw [order_filter hs]

theorem filter_cached (hs : InStep s) (pageId : Nat) : ∀ p ∈ s.accessOrder.filter (· ≠ pageId), p ∈ s.cache := by
  intro p hp
  exact (hs.listed p).mp (mem_filter_ne.mp hp).1

theorem insert_lookup (hs : InStep s) (pageId : Nat) (page : Page) (p : Nat) :
    (s.insert pageId page).cache.lookup p =
      if p = pageId then some page else if p ∈ s.evictedIds pageId then none else s.cache.lookup p := by
  obtain ⟨-, hlookup⟩ := evict_spec s.capacity (nodup_remove hs.distinct pageId)
    (filter_cached hs pageId)
  rw [insert_eq hs]
  by_cases hp : p = pageId
  · rw [if_pos hp, hp]
    exact AList.lookup_insert _
  · rw [if_neg hp]
    exact (AList.lookup_insert_ne hp).trans (hlookup p)

theorem mem_drop_iff (hdistinct : order.Nodup) (n : Nat) :
    p ∈ order.drop n ↔ p ∈ order ∧ p ∉ order.take n := by
  have happend : (order.take n ++ order.drop n).Nodup := by rwa [List.take_append_drop]
  have hsplit : p ∈ order ↔ p ∈ order.take n ∨ p ∈ order.drop n := by
    rw [← List.mem_append, List.take_append_drop]
  have hapart : p ∈ order.take n → p ∉ order.drop n := fun h hd =>
    (List.nodup_append.mp happend).2.2 p h p hd rfl
  tauto

theorem len_eq (hdistinct : s.accessOrder.Nodup) (hlisted : ∀ p, p ∈ s.accessOrder ↔ p ∈ s.cache) :
    s.len = s.accessOrder.length := by
  unfold len
  rw [← keys_length]
  exact ((List.perm_ext_iff_of_nodup s.cache.keys_nodup hdistinct).mpr fun p => (hlisted p).symm).length_eq

theorem insert_inStep (hs : InStep s) (pageId : Nat) (page : Page) : InStep (s.insert pageId page) := by
  obtain ⟨horder, -⟩ := evict_spec s.capacity (nodup_remove hs.distinct pageId)
    (filter_cached hs pageId)
  have hdistinct : (s.insert pageId page).accessOrder.Nodup := by
    rw [insert_eq hs]
    dsimp only
    rw [horder]
    refine nodup_snoc ((nodup_remove hs.distinct pageId).sublist (List.drop_sublist _ _)) fun h => ?_
    exact (mem_filter_ne.mp (List.mem_of_mem_drop h)).2 rfl
  have hlisted : ∀ p, p ∈ (s.insert pageId page).accessOrder ↔ p ∈ (s.insert pageId page).cache := by
    intro p
    rw [← AList.lookup_isSome, insert_lookup hs, insert_eq hs]
    dsimp only
    rw [horder, List.mem_append, List.mem_singleton, mem_drop_iff (nodup_remove hs.distinct pageId),
      mem_filter_ne, hs.listed, ← AList.lookup_isSome]
    by_cases hp : p = pageId
    · simp [hp]
    · rw [if_neg hp]
      unfold evictedIds len
      split <;> simp_all
  refine ⟨hdistinct, hlisted, ?_, hs.positive⟩
  have hlen := len_eq hs.distinct hs.listed
  have hfilter := List.length_filter_le (· ≠ pageId) s.accessOrder
  have hbound := hs.bounded
  have hpositive := hs.positive
  rw [len_eq hdistinct hlisted, insert_eq hs]
  dsimp only
  rw [horder, List.length_append, List.length_drop, List.length_singleton]
  change s.cache.entries.length = _ at hlen
  omega

theorem apply_inStep (hs : InStep s) (op : Op Page) : InStep (s.apply op) := by
  cases op with
  | get pageId => exact get_inStep hs pageId
  | insert pageId page => exact insert_inStep hs pageId page
  | invalidate pageId => exact invalidate_inStep hs pageId
  | clear => exact clear_inStep hs

theorem apply_serves {known : Nat → Option Page} (hs : InStep s) (hknown : Serves s known) (op : Op Page) :
    Serves (s.apply op) (s.heldAfter known op) := by
  intro p
  cases op with
  | get pageId => exact (get_lookup s pageId p).trans (hknown p)
  | insert pageId page => rw [apply, insert_lookup hs, heldAfter, hknown]
  | invalidate pageId =>
    rw [apply, heldAfter]
    by_cases hp : p = pageId
    · rw [if_pos hp, hp]
      exact AList.lookup_erase _ _
    · rw [if_neg hp, ← hknown]
      exact AList.lookup_erase_ne hp
  | clear => rfl

theorem apply_capacity (s : TraversalCache Page) (op : Op Page) : (s.apply op).capacity = s.capacity := by
  cases op with
  | get pageId =>
    rw [apply, get]
    split
    · rfl
    · rfl
  | insert pageId page => rfl
  | invalidate pageId => rfl
  | clear => rfl

theorem run_inStep {known : Nat → Option Page} (hs : InStep s) (hknown : Serves s known) (ops : List (Op Page)) :
    InStep (ops.foldl apply s) ∧ Serves (ops.foldl apply s) (held s known ops) ∧
      (ops.foldl apply s).capacity = s.capacity := by
  induction ops generalizing s known with
  | nil => exact ⟨hs, hknown, rfl⟩
  | cons op ops ih =>
    have hrest := ih (apply_inStep hs op) (apply_serves hs hknown op)
    rw [apply_capacity] at hrest
    exact hrest

theorem get_value (s : TraversalCache Page) (pageId : Nat) : (s.get pageId).1 = s.cache.lookup pageId := by
  rw [get]
  split
  · rename_i hlookup
    exact hlookup.symm
  · rename_i hlookup
    exact hlookup.symm

/-- After every run on a new cache its map and its order are in step, and a page that is got is
the one last inserted. -/
theorem traversalCache_inStep {capacity : Nat} {s : TraversalCache Page} (hnew : new capacity = .ok s)
    (ops : List (Op Page)) :
    (ops.foldl apply s).accessOrder.Nodup ∧
      (∀ p, p ∈ (ops.foldl apply s).accessOrder ↔ p ∈ (ops.foldl apply s).cache) ∧
      (ops.foldl apply s).len ≤ capacity ∧
      ∀ p, ((ops.foldl apply s).get p).1 = held s (fun _ => none) ops p := by
  obtain ⟨hs, hknown, hcapacity⟩ := new_inStep hnew
  obtain ⟨hrun, hserves, hcap⟩ := run_inStep hs hknown ops
  refine ⟨hrun.distinct, hrun.listed, ?_, fun p => ?_⟩
  · have hbounded := hrun.bounded
    rwa [hcap, hcapacity] at hbounded
  · rw [get_value]
    exact hserves p

/-- A full cache of two pages gives up the one used first. -/
theorem traversalCache_inStep_two :
    let s : TraversalCache Nat := ⟨∅, [], 2, 0, 0⟩
    let s' := [Op.insert 1 10, .insert 2 20, .get 1, .insert 3 30].foldl apply s
    s'.accessOrder.Nodup ∧ (∀ p, p ∈ s'.accessOrder ↔ p ∈ s'.cache) ∧ s'.len ≤ 2 ∧
      ∀ p, (s'.get p).1 = held s (fun _ => none) [.insert 1 10, .insert 2 20, .get 1, .insert 3 30] p :=
  traversalCache_inStep (rfl : new 2 = .ok ⟨∅, [], 2, 0, 0⟩) [.insert 1 10, .insert 2 20, .get 1, .insert 3 30]

end Proofs

end TraversalCache

end SqliteGraph.V3
