import SqliteGraph.Sqlite.CacheCoherence
import SqliteGraph.Sqlite.MultiHopSpec
import SqliteGraph.V3.BfsAgreement

/-! Every search over the tables ends within its rounds. -/
namespace SqliteGraph.Sqlite
open Lib

/-- Each node but the start has one parent, which was met before it. -/
inductive ParentTree (start : Int64) : List (Int64 × Int64) → Prop
  | nil : ParentTree start []
  | cons {parents node next} : ParentTree start parents →
      node = start ∨ node ∈ parents.map Prod.fst → next ∉ parents.map Prod.fst →
      ParentTree start ((next, node) :: parents)

namespace ParentTree
variable {start current next node : Int64} {parents : List (Int64 × Int64)} {path : List Int64}
  {fuel : Nat}

theorem nodup (h : ParentTree start parents) : (parents.map Prod.fst).Nodup := by
  induction h with
  | nil => exact List.nodup_nil
  | cons _ _ hnew ih => exact List.nodup_cons.mpr ⟨hnew, ih⟩

theorem lookup (h : ParentTree start parents) (hc : current ∈ parents.map Prod.fst) :
    ∃ parent, parents.lookup current = some parent ∧
      (parent = start ∨ parent ∈ parents.map Prod.fst) := by
  induction h with
  | nil => cases hc
  | @cons parents node next _ hnode _ ih =>
    by_cases he : current = next
    · subst he
      exact ⟨node, by simp, hnode.imp_right (List.mem_cons_of_mem _)⟩
    · obtain ⟨parent, hl, hp⟩ := ih ((List.mem_cons.mp hc).resolve_left he)
      refine ⟨parent, ?_, hp.imp_right (List.mem_cons_of_mem _)⟩
      rwa [List.lookup_cons, beq_false_of_ne he]

/-- A walk through older parents does not see the newest. -/
theorem tracePath_cons (h : ParentTree start parents) (hnew : next ∉ parents.map Prod.fst)
    (hc : current ∈ parents.map Prod.fst) :
    tracePath start ((next, node) :: parents) fuel current path =
      tracePath start parents fuel current path := by
  induction fuel generalizing current path with
  | zero => rfl
  | succ fuel ih =>
    obtain ⟨parent, hl, hp⟩ := h.lookup hc
    have hne : current ≠ next := fun he => hnew (he ▸ hc)
    rw [tracePath, tracePath, List.lookup_cons, beq_false_of_ne hne, hl]
    dsimp only
    split
    · rfl
    · rename_i hstart
      exact ih (hp.resolve_left hstart)

theorem tracePath_ends (h : ParentTree start parents) (hc : current ∈ parents.map Prod.fst)
    (hfuel : parents.length ≤ fuel) : ∃ path', tracePath start parents fuel current path = .ok path' := by
  induction h generalizing current path fuel with
  | nil => cases hc
  | @cons parents node next htree hnode hnew ih =>
    obtain ⟨fuel, rfl⟩ := Nat.exists_eq_add_one_of_ne_zero (n := fuel) (by simp at hfuel; omega)
    by_cases he : current = next
    · subst he
      rw [tracePath, List.lookup_cons_self]
      dsimp only
      split
      · exact ⟨_, rfl⟩
      · rename_i hstart
        rw [tracePath_cons htree hnew (hnode.resolve_left hstart)]
        exact ih (hnode.resolve_left hstart) (by simpa using hfuel)
    · have hc := (List.mem_cons.mp hc).resolve_left he
      rw [tracePath_cons htree hnew hc]
      exact ih hc (by simp at hfuel; omega)

end ParentTree

section PathSearch
variable {start finish node : Int64} {search : PathSearch}

/-- The search has met the start and the nodes that have a parent, and queues none but these. -/
structure PathSearch.Inv (start : Int64) (search : PathSearch) : Prop where
  tree : ParentTree start search.parents
  seen : ∀ v, v ∈ search.seen ↔ v = start ∨ v ∈ search.parents.map Prod.fst
  queue : ∀ v ∈ search.queue, v ∈ search.seen

/-- Without the end of the path a scan queues the new neighbors; with it, the end has a parent. -/
theorem scanNeighbors_inv (ns : List Int64) (h : search.Inv start) (hnode : node ∈ search.seen) :
    let r := scanNeighbors node finish ns search
    ParentTree start r.2.parents ∧ (r.1 = true → finish ∈ r.2.parents.map Prod.fst) ∧
      (r.1 = false → r.2.Inv start ∧ r.2.seen = search.seen ∪ (discover search.seen ns).toFinset ∧
        r.2.queue = search.queue ++ discover search.seen ns) := by
  induction ns generalizing search with
  | nil => exact ⟨h.tree, by simp [scanNeighbors], by simp [scanNeighbors, discover, h]⟩
  | cons next rest ih =>
    rw [scanNeighbors, discover]
    by_cases hseen : next ∈ search.seen
    · simp only [hseen, if_true]
      exact ih h hnode
    · simp only [hseen, if_false]
      have hnew := fun hin => hseen ((h.seen next).mpr (.inr hin))
      have htree := ParentTree.cons h.tree ((h.seen node).mp hnode) hnew
      split
      · rename_i he
        exact ⟨htree, fun _ => by simp [he], fun hf => by cases hf⟩
      · have hinv : PathSearch.Inv start ⟨insert next search.seen, (next, node) :: search.parents,
            search.queue ++ [next]⟩ := by
          refine ⟨htree, ?_, ?_⟩
          · intro v
            rw [Finset.mem_insert, h.seen, List.map_cons, List.mem_cons]
            tauto
          · intro v hv
            rcases List.mem_append.mp hv with hv | hv
            · exact Finset.mem_insert_of_mem (h.queue v hv)
            · rw [List.mem_singleton.mp hv]
              exact Finset.mem_insert_self ..
        obtain ⟨htree', hfound, hrest⟩ := ih hinv (Finset.mem_insert_of_mem hnode)
        refine ⟨htree', hfound, fun hf => ?_⟩
        obtain ⟨hinv', hs, hq⟩ := hrest hf
        refine ⟨hinv', ?_, by simpa using hq⟩
        rw [hs, List.toFinset_cons]
        simp

theorem pathFound_ends (h : ParentTree start search.parents)
    (hf : finish ∈ search.parents.map Prod.fst) :
    pathFound searchFuel start finish search.parents ≠ .error .outOfFuel := by
  have hlen := V3.length_le_of_nodup h.nodup
  rw [List.length_map] at hlen
  obtain ⟨path, hpath⟩ : ∃ path, tracePath start search.parents searchFuel finish [finish] = .ok path :=
    h.tracePath_ends hf (hlen.trans (Nat.le_succ _))
  rw [pathFound, hpath]
  intro he
  cases he

/-- A search that finds no path leaves the nodes that a plain search leaves. -/
theorem pathLoop_ends {t : Tables} {fuel : Nat} {queue l : List (Int64 × Nat)} (h : search.Inv start)
    (hq : queue.map Prod.fst = search.queue)
    (hl : Lib.search (fetchOutgoing t) (fun _ => True) fuel search.seen queue = some l) :
    pathLoop t start finish fuel search ≠ .error .outOfFuel := by
  induction fuel generalizing search queue l with
  | zero =>
    obtain ⟨seen, parents, nodes⟩ := search
    cases queue with
    | nil =>
      obtain rfl : [] = nodes := hq
      simp [pathLoop]
    | cons x queue => cases hl
  | succ fuel ih =>
    obtain ⟨seen, parents, nodes⟩ := search
    cases queue with
    | nil =>
      obtain rfl : [] = nodes := hq
      simp [pathLoop]
    | cons x queue =>
      obtain ⟨node, d⟩ := x
      obtain rfl : node :: queue.map Prod.fst = nodes := hq
      obtain ⟨l, rfl, hl'⟩ := search_expand hl trivial
      have hnode : node ∈ seen := h.queue node (by simp)
      have hpop : PathSearch.Inv start ⟨seen, parents, queue.map Prod.fst⟩ :=
        ⟨h.tree, h.seen, fun v hv => h.queue v (List.mem_cons_of_mem _ hv)⟩
      have hscan := @scanNeighbors_inv start finish node _ (fetchOutgoing t node) hpop hnode
      obtain ⟨htree, hfound, hrest⟩ := hscan
      simp only [pathLoop]
      cases hr : (scanNeighbors node finish (fetchOutgoing t node)
          ⟨seen, parents, queue.map Prod.fst⟩).1 with
      | true =>
        rw [if_pos rfl]
        exact pathFound_ends htree (hfound hr)
      | false =>
        rw [if_neg (by simp)]
        obtain ⟨hinv, hseen, hqueue⟩ := hrest hr
        refine ih hinv ?_ (by rw [hseen]; exact hl')
        rw [hqueue, List.map_append, List.map_map]
        simp [Function.comp_def]

end PathSearch

section Ends
variable (t : Tables)

theorem search_total (next : Int64 → List Int64) (expands : Nat → Prop) [DecidablePred expands]
    (start : Int64) : ∃ l, search next expands searchFuel {start} [(start, 0)] = some l := by
  obtain ⟨l, hl, -⟩ : ∃ l, search next expands searchFuel {start} [(start, 0)] = some l ∧ _ ∧ _ :=
    search_found start (fun _ => V3.length_le_of_nodup) (Nat.lt_succ_self (2 ^ 64))
  exact ⟨l, hl⟩

theorem bfsNeighbors_ends (start : Int64) (depth : Nat) :
    bfsNeighbors t searchFuel start depth ≠ .error .outOfFuel := by
  rw [bfsNeighbors]
  split
  · simp
  · obtain ⟨l, hl⟩ := search_total (fetchOutgoing t) (· < depth) start
    rw [bfsLoop_search hl]
    simp

theorem kHopInternal_ends (start : Int64) (depth : Nat) (direction : BackendDirection)
    (allowed : Option (List String)) :
    kHopInternal t searchFuel start depth direction allowed ≠ .error .outOfFuel := by
  rw [kHopInternal]
  split
  · simp
  · obtain ⟨l, hl⟩ := search_total (fun node => typedAdjacency t node direction allowed) (· < depth) start
    have hfirst : (start, 0) :: ([] : List (Nat × Int64)).map Prod.swap = [] ++ [(start, 0)] := rfl
    obtain ⟨ordered, hrun, -⟩ := kHopLoop_search hl (by simp) hfirst
    rw [hrun]
    intro he
    cases he

theorem shortestPath_ends (start finish : Int64) :
    shortestPath t searchFuel start finish ≠ .error .outOfFuel := by
  rw [shortestPath]
  split
  · simp
  · split
    · simp
    · split
      · simp
      · obtain ⟨l, hl⟩ := search_total (fetchOutgoing t) (fun _ => True) start
        exact pathLoop_ends ⟨.nil, by simp, by simp⟩ rfl hl

end Ends

theorem Session.answer_ends (db : Database) (r : Session.Read) :
    Session.answer db r ≠ .error .outOfFuel := by
  have hmap : ∀ {α : Type} {f : α → Session.Answer} {x : Except SqliteGraphError α},
      x ≠ .error .outOfFuel → x.map f ≠ .error .outOfFuel := by
    intro α f x hx he
    cases x with
    | ok a => cases he
    | error e =>
      cases he
      exact hx rfl
  cases r with
  | neighbors node direction edgeType => simp [answer]
  | bfs start depth => exact hmap (bfsNeighbors_ends _ _ _)
  | shortestPath start finish => exact hmap (shortestPath_ends _ _ _)
  | kHop start depth direction => exact hmap (kHopInternal_ends _ _ _ _ _)
  | kHopFiltered start depth direction allowedEdgeTypes =>
    apply hmap
    rw [Sqlite.kHopFiltered]
    split
    · simp
    · exact kHopInternal_ends _ _ _ _ _
  | other fetched => simp [answer]

end SqliteGraph.Sqlite
