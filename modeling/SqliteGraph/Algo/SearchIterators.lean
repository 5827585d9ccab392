import SqliteGraph.Algo.Iterators

/-! The lazy searches give what the searches return, in the same order. -/
namespace SqliteGraph.Algo
open Lib
variable {b : GraphBackend} {out : Int64 → List Int64} {nodes visited : Finset Int64} {start : Int64}
  {result stack : List Int64} {queue : List (Int64 × Nat)} {n fuel depth count : Nat}

/-- A node with edges to two others. -/
def branches : GraphBackend where
  allEntityIds := .ok [1, 2, 3]
  fetchOutgoing u := .ok (if u = 1 then [2, 3] else [])
  fetchIncoming v := .ok (if v = 2 ∨ v = 3 then [1] else [])

/-- Both searches see the same neighbors, and all of them among the nodes. -/
structure Sees (b : GraphBackend) (out : Int64 → List Int64) (nodes : Finset Int64) : Prop where
  fetch : ∀ u, b.fetchOutgoing u = .ok (out u)
  mem : ∀ u, ∀ w ∈ out u, w ∈ nodes

section Bfs

theorem foldl_visit_levels (visited : Finset Int64) (queue : List (Int64 × Nat)) (l : List Int64) :
    l.foldl (visit fun queue w => queue ++ [(w, depth + 1)]) (visited, queue) =
      (visited ∪ (discover visited l).toFinset,
        queue ++ (discover visited l).map (·, depth + 1)) := by
  rw [foldl_visit]
  exact congrArg (Prod.mk _) (foldl_snoc (·, depth + 1) _ _)

/-- The queue and the visited nodes are the same after each round of both loops. -/
theorem bfs_agrees (h : Sees b out nodes) (hsub : visited ⊆ nodes) (hqueue : ∀ x ∈ queue, x.2 ≤ depth)
    (hn : unexplored nodes visited queue.length ≤ n) (hfuel : n ≤ fuel) :
    ∃ found, b.bfsLoop depth n visited queue result = .ok (result ++ found) ∧
      ∀ fuel', n ≤ fuel' → ∀ count, ∃ it', Yields (BfsIter.next b fuel)
        (BfsIter.next b fuel' ⟨queue, visited, depth, start, count⟩)
        ((found.filter (· ≠ start)).map .ok) it' := by
  induction n generalizing visited queue result with
  | zero =>
    obtain rfl : queue = [] := List.eq_nil_of_length_eq_zero (by simp only [unexplored] at hn; omega)
    refine ⟨[], by simp [GraphBackend.bfsLoop], ?_⟩
    intro fuel' _ count
    exact ⟨_, .of_none BfsIter.next_nil⟩
  | succ n ih =>
    rcases queue with _ | ⟨⟨node, d⟩, queue⟩
    · refine ⟨[], by simp [GraphBackend.bfsLoop], ?_⟩
      intro fuel' _ count
      exact ⟨_, .of_none BfsIter.next_nil⟩
    have hrest : ∀ x ∈ queue, x.2 ≤ depth := fun x hx => hqueue x (.tail _ hx)
    by_cases hd : d = depth
    · subst d
      have hless : unexplored nodes visited queue.length ≤ n := by
        simp only [unexplored, List.length_cons] at hn ⊢
        omega
      obtain ⟨found, hrun, hyields⟩ := @ih _ (result ++ [node]) _ hsub hrest hless (by omega)
      refine ⟨node :: found, by simp [GraphBackend.bfsLoop, hrun], ?_⟩
      intro fuel' hfuel' count
      obtain ⟨fuel', rfl⟩ : ∃ k, fuel' = k + 1 := ⟨fuel' - 1, by omega⟩
      by_cases hs : node = start
      · obtain ⟨it', hit'⟩ := hyields fuel' (by omega) count
        refine ⟨it', ?_⟩
        rw [BfsIter.next_boundary, if_neg (not_not.mpr hs), List.filter_cons_of_neg (by simpa using hs)]
        exact hit'
      · obtain ⟨it', hit'⟩ := hyields fuel (by omega) (count + 1)
        refine ⟨it', ?_⟩
        rw [BfsIter.next_boundary, if_pos hs, List.filter_cons_of_pos (by simpa using hs)]
        exact .item hit'
    · have hlt : d < depth := lt_of_le_of_ne (hqueue _ (.head _)) hd
      have hless := unexplored_expand hsub (h.mem node) queue.length
      have hsub' := (card_discover hsub (h.mem node)).1
      have hqueue' : ∀ x ∈ queue ++ (discover visited (out node)).map (·, d + 1), x.2 ≤ depth := by
        intro x hx
        rcases List.mem_append.mp hx with hx | hx
        · exact hrest x hx
        · obtain ⟨w, -, rfl⟩ := List.mem_map.mp hx
          exact hlt
      obtain ⟨found, hrun, hyields⟩ := @ih _ result _ hsub' hqueue' (by
        simp only [List.length_append, List.length_map, List.length_cons] at hn ⊢
        omega) (by omega)
      refine ⟨found, ?_, ?_⟩
      · simp only [GraphBackend.bfsLoop, if_neg hd, if_pos hlt, h.fetch, bind, Except.bind,
          foldl_visit_levels]
        exact hrun
      · intro fuel' hfuel' count
        obtain ⟨fuel', rfl⟩ : ∃ k, fuel' = k + 1 := ⟨fuel' - 1, by omega⟩
        obtain ⟨it', hit'⟩ := hyields fuel' (by omega) count
        refine ⟨it', ?_⟩
        rw [BfsIter.next_interior hd (h.fetch node)]
        exact hit'

/-- The nodes that leave the queue at the last level, in that order. -/
theorem bfsLoop_levels {ids : List Int64} {done : List (Int64 × Nat)} (hs : Sees b out nodes)
    (h : SearchInv out (· < depth) start done queue)
    (hvisited : ∀ v, v ∈ visited ↔ v ∈ (done ++ queue).map Prod.fst)
    (hqueue : ∀ x ∈ queue, x.2 ≤ depth) (hrun : b.bfsLoop depth n visited queue result = .ok ids) :
    ∃ l, SearchInv out (· < depth) start (done ++ l) [] ∧
      ids = result ++ (l.filter (·.2 = depth)).map Prod.fst := by
  induction n generalizing visited queue result done with
  | zero =>
    rcases queue with _ | ⟨x, queue⟩
    · rw [GraphBackend.bfsLoop] at hrun
      cases hrun
      exact ⟨[], by simpa using h, by simp⟩
    · cases hrun
  | succ n ih =>
    rcases queue with _ | ⟨⟨node, d⟩, queue⟩
    · rw [GraphBackend.bfsLoop] at hrun
      cases hrun
      exact ⟨[], by simpa using h, by simp⟩
    have hrest : ∀ x ∈ queue, x.2 ≤ depth := fun x hx => hqueue x (.tail _ hx)
    obtain ⟨hnext, hvisited'⟩ := h.leave hvisited rfl
    by_cases hd : d = depth
    · subst d
      simp only [lt_irrefl, if_false, List.map_nil, List.append_nil, List.toFinset_nil,
        Finset.union_empty] at hnext hvisited'
      simp only [GraphBackend.bfsLoop, if_true] at hrun
      obtain ⟨l, hinv, hids⟩ := ih hnext hvisited' hrest hrun
      refine ⟨(node, depth) :: l, by simpa using hinv, ?_⟩
      rw [hids]
      simp
    · have hlt : d < depth := lt_of_le_of_ne (hqueue _ (.head _)) hd
      simp only [if_pos hlt] at hnext hvisited'
      simp only [GraphBackend.bfsLoop, if_neg hd, if_pos hlt, hs.fetch, bind, Except.bind,
        foldl_visit_levels] at hrun
      obtain ⟨l, hinv, hids⟩ := ih hnext hvisited' (by
        intro x hx
        rcases List.mem_append.mp hx with hx | hx
        · exact hrest x hx
        · obtain ⟨w, -, rfl⟩ := List.mem_map.mp hx
          exact hlt) hrun
      refine ⟨(node, d) :: l, by simpa using hinv, ?_⟩
      rw [hids]
      simp [hd]

/-- The search for a depth gives the other nodes at exactly that distance, each once, and the iterator
gives them in the same order. -/
theorem bfsIter_bfs (h : Sees b out nodes) (start : Int64) (depth : Nat)
    (hfuel : (insert start nodes).card < fuel) :
    ∃ ids it', b.bfs fuel start depth = .ok ids ∧ ids.Nodup ∧
      (∀ v, v ∈ ids ↔ v ≠ start ∧ Walk out start depth v ∧ ∀ n, Walk out start n v → depth ≤ n) ∧
      Yields (BfsIter.next b fuel) (BfsIter.next b fuel (.new start depth)) (ids.map .ok) it' := by
  have hsees : Sees b out (insert start nodes) :=
    ⟨h.fetch, fun u w hw => Finset.mem_insert_of_mem (h.mem u w hw)⟩
  have hn : unexplored (insert start nodes) {start} 1 ≤ fuel := by
    have hless := Finset.card_le_card (Finset.sdiff_subset : insert start nodes \ {start} ⊆ insert start nodes)
    simp only [unexplored]
    omega
  obtain ⟨found, hrun, hyields⟩ := @bfs_agrees b out (insert start nodes) {start} start [] [(start, 0)]
    fuel fuel depth hsees (by simp) (by simp) hn le_rfl
  rw [List.nil_append] at hrun
  obtain ⟨it', hit'⟩ := hyields fuel le_rfl 0
  obtain ⟨l, hinv, hfound⟩ := bfsLoop_levels hsees SearchInv.init (by simp) (by simp) hrun
  rw [List.nil_append] at hinv hfound
  have hlevels : ∀ v, v ∈ found ↔ Found out (· < depth) start v depth := by
    intro v
    rw [hfound, ← hinv.found]
    simp
  refine ⟨found.filter (· ≠ start), it', ?_, ?_, fun v => ?_, hit'⟩
  · simp only [GraphBackend.bfs, hrun, bind, Except.bind]
    rfl
  · refine List.Nodup.filter _ ?_
    have hnd : (l.map Prod.fst).Nodup := by simpa using hinv.nodup
    rw [hfound]
    exact hnd.sublist (List.filter_sublist.map _)
  · rw [List.mem_filter, hlevels, decide_eq_true_iff, and_comm]
    refine and_congr_right fun _ => ⟨fun hf => ⟨hf.walk, hf.least⟩, fun hf => ⟨hf.1, ?_, hf.2⟩⟩
    exact fun m hm => hm

theorem sees_branches : Sees branches (fun u => if u = 1 then [2, 3] else []) {2, 3} := by
  refine ⟨fun u => rfl, fun u w hw => ?_⟩
  by_cases hu : u = 1
  · simpa [hu] using hw
  · simp [hu] at hw

theorem bfsIter_bfs_branches : ∃ ids it', branches.bfs 4 1 1 = .ok ids ∧ ids.Nodup ∧
    (∀ v, v ∈ ids ↔ v ≠ 1 ∧ Walk (fun u => if u = 1 then [2, 3] else []) 1 1 v ∧
      ∀ n, Walk (fun u => if u = 1 then [2, 3] else []) 1 n v → 1 ≤ n) ∧
    Yields (BfsIter.next branches 4) (BfsIter.next branches 4 (.new 1 1)) (ids.map .ok) it' :=
  bfsIter_bfs sees_branches 1 1 (by decide)

end Bfs

section Dfs

theorem foldl_visit_stack (visited : Finset Int64) (result stack l : List Int64) :
    l.foldl (visit fun s w => (s.1 ++ [w], w :: s.2)) (visited, result, stack) =
      (visited ∪ (discover visited l).toFinset, result ++ discover visited l,
        (discover visited l).reverse ++ stack) := by
  rw [foldl_visit]
  generalize discover visited l = new
  congr 1
  induction new generalizing result stack with
  | nil => simp
  | cons w new ih => simp [ih]

/-- What is pending is given first. -/
theorem yields_pending {items : List (Except SqliteGraphError Int64)} (pending : List Int64)
    (h : ∀ count, ∃ it', Yields (DfsIter.next b fuel) (DfsIter.next b fuel ⟨stack, visited, [], count⟩)
      items it') :
    ∃ it', Yields (DfsIter.next b fuel) (DfsIter.next b fuel ⟨stack, visited, pending, count⟩)
      (pending.map .ok ++ items) it' := by
  induction pending generalizing count with
  | nil => exact h count
  | cons w pending ih =>
    obtain ⟨it', hit'⟩ := @ih (count + 1)
    exact ⟨it', .item hit'⟩

theorem dfs_agrees (h : Sees b out nodes) (hsub : visited ⊆ nodes)
    (hn : unexplored nodes visited stack.length ≤ n) (hfuel : n ≤ fuel) :
    ∃ found, b.dfsLoop n visited stack result = .ok (result ++ found) ∧ found.Nodup ∧
      (∀ v ∈ found, v ∉ visited) ∧
      ∀ fuel', n ≤ fuel' → ∀ count, ∃ it', Yields (DfsIter.next b fuel)
        (DfsIter.expand b fuel' ⟨stack, visited, [], count⟩) (found.map .ok) it' := by
  induction n generalizing visited stack result with
  | zero =>
    obtain rfl : stack = [] := List.eq_nil_of_length_eq_zero (by simp only [unexplored] at hn; omega)
    refine ⟨[], by simp [GraphBackend.dfsLoop], List.nodup_nil, by simp, ?_⟩
    intro fuel' _ count
    exact ⟨_, .of_none DfsIter.expand_nil⟩
  | succ n ih =>
    rcases stack with _ | ⟨node, stack⟩
    · refine ⟨[], by simp [GraphBackend.dfsLoop], List.nodup_nil, by simp, ?_⟩
      intro fuel' _ count
      exact ⟨_, .of_none DfsIter.expand_nil⟩
    have hless := unexplored_expand hsub (h.mem node) stack.length
    have hsub' := (card_discover hsub (h.mem node)).1
    have hnew : ∀ v ∈ discover visited (out node), v ∉ visited := fun v hv => (mem_discover.mp hv).2
    obtain ⟨found, hrun, hnd, hout, hyields⟩ := @ih _ (result ++ discover visited (out node))
      ((discover visited (out node)).reverse ++ stack) hsub' (by
        simp only [List.length_append, List.length_reverse, List.length_cons] at hn ⊢
        rw [Nat.add_comm]
        omega) (by omega)
    refine ⟨discover visited (out node) ++ found, ?_, ?_, ?_, ?_⟩
    · simp only [GraphBackend.dfsLoop, h.fetch, bind, Except.bind, foldl_visit_stack]
      rw [hrun, List.append_assoc]
    · refine List.nodup_append.mpr ⟨nodup_discover, hnd, ?_⟩
      rintro v hv _ hw rfl
      exact hout v hw (Finset.mem_union_right _ (List.mem_toFinset.mpr hv))
    · intro v hv
      rcases List.mem_append.mp hv with hv | hv
      · exact hnew v hv
      · exact fun hold => hout v hv (Finset.mem_union_left _ hold)
    · intro fuel' hfuel' count
      obtain ⟨fuel', rfl⟩ : ∃ k, fuel' = k + 1 := ⟨fuel' - 1, by omega⟩
      cases hd : discover visited (out node) with
      | nil =>
        rw [DfsIter.expand_known (h.fetch node) hd]
        simpa [hd] using hyields fuel' (by omega) count
      | cons w new =>
        rw [hd] at hyields
        obtain ⟨it', hit'⟩ := @yields_pending b _ _ fuel (count + 1) _ new fun count =>
          hyields fuel (by omega) count
        rw [DfsIter.expand_new (h.fetch node) hd, List.map_append, List.map_cons]
        exact ⟨it', .item hit'⟩

/-- What has been visited at the end is what the start reaches. -/
theorem dfsLoop_reaches {ids : List Int64} (hs : Sees b out nodes)
    (h : Exploring (Arc out) {start} visited stack) (hrun : b.dfsLoop n visited stack result = .ok ids) :
    ∃ found, ids = result ++ found ∧
      ∀ v, v ∈ visited ∨ v ∈ found ↔ Relation.ReflTransGen (Arc out) start v := by
  induction n generalizing visited stack result with
  | zero =>
    rcases stack with _ | ⟨node, stack⟩
    · rw [GraphBackend.dfsLoop] at hrun
      cases hrun
      exact ⟨[], by simp, fun v => by simp [h.ends]⟩
    · cases hrun
  | succ n ih =>
    rcases stack with _ | ⟨node, stack⟩
    · rw [GraphBackend.dfsLoop] at hrun
      cases hrun
      exact ⟨[], by simp, fun v => by simp [h.ends]⟩
    simp only [GraphBackend.dfsLoop, hs.fetch, bind, Except.bind, foldl_visit_stack] at hrun
    have hnext : Exploring (Arc out) {start} (visited ∪ (discover visited (out node)).toFinset)
        ((discover visited (out node)).reverse ++ stack) := by
      refine h.expand (fun v => ?_) fun v => ?_
      · rw [Finset.mem_union, List.mem_toFinset, mem_discover, Arc]
        tauto
      · rw [List.mem_append, List.mem_reverse, mem_discover, Arc]
        tauto
    obtain ⟨found, hids, hmem⟩ := ih hnext hrun
    refine ⟨discover visited (out node) ++ found, by rw [hids, List.append_assoc], fun v => ?_⟩
    rw [← hmem v, Finset.mem_union, List.mem_toFinset, List.mem_append, or_assoc]

/-- The traversal gives each other node that the start reaches once, and the iterator gives them in
the same order. -/
theorem dfsIter_dfsTraversal (h : Sees b out nodes) (start : Int64)
    (hfuel : (insert start nodes).card < fuel) :
    ∃ ids it', b.dfsTraversal fuel start = .ok ids ∧ ids.Nodup ∧
      (∀ v, v ∈ ids ↔ v ≠ start ∧ Relation.ReflTransGen (Arc out) start v) ∧
      Yields (DfsIter.next b fuel) (DfsIter.next b fuel (.new start)) (ids.map .ok) it' := by
  have hsees : Sees b out (insert start nodes) :=
    ⟨h.fetch, fun u w hw => Finset.mem_insert_of_mem (h.mem u w hw)⟩
  have hn : unexplored (insert start nodes) {start} 1 ≤ fuel := by
    have hless := Finset.card_le_card (Finset.sdiff_subset : insert start nodes \ {start} ⊆ insert start nodes)
    simp only [unexplored]
    omega
  obtain ⟨ids, hrun, hnd, hnew, hyields⟩ := @dfs_agrees b out (insert start nodes) {start} [] [start]
    fuel fuel hsees (by simp) hn le_rfl
  rw [List.nil_append] at hrun
  obtain ⟨it', hit'⟩ := hyields fuel le_rfl 0
  obtain ⟨found, hids, hmem⟩ := dfsLoop_reaches hsees (.single start) hrun
  rw [List.nil_append] at hids
  subst hids
  refine ⟨ids, it', hrun, hnd, fun v => ?_, hit'⟩
  rw [← hmem v, Finset.mem_singleton]
  constructor
  · intro hv
    exact ⟨fun he => hnew v hv (Finset.mem_singleton.mpr he), .inr hv⟩
  · rintro ⟨hne, he | hv⟩
    · exact absurd he hne
    · exact hv

theorem dfsIter_dfsTraversal_branches : ∃ ids it', branches.dfsTraversal 4 1 = .ok ids ∧ ids.Nodup ∧
    (∀ v, v ∈ ids ↔ v ≠ 1 ∧ Relation.ReflTransGen (Arc fun u => if u = 1 then [2, 3] else []) 1 v) ∧
    Yields (DfsIter.next branches 4) (DfsIter.next branches 4 (.new 1)) (ids.map .ok) it' :=
  dfsIter_dfsTraversal sees_branches 1 (by decide)

end Dfs

end SqliteGraph.Algo
