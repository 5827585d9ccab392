import SqliteGraph.V3.ParallelBfs

/-! Both searches meet the nodes that can be reached, each once, at their distances. -/
namespace SqliteGraph.V3
open Lib
variable {ε : Type} {neighbors : Int64 → Except ε (List Int64)} {visited : Finset Int64}
  {done queue : List (Int64 × Nat)} {result : BfsResult} {fuel bound distance : Nat}
  {start : Int64}

/-- The neighbors that a search sees. -/
def adjacent (neighbors : Int64 → Except ε (List Int64)) (node : Int64) : List Int64 :=
  match neighbors node with
  | .ok ns => ns
  | .error _ => []

theorem foldl_enqueue (new : List Int64) :
    new.foldl (enqueue distance) (queue, result) =
      (queue ++ new.map (·, distance), new.foldl (fun r v => r.addVisit v distance) result) := by
  induction new generalizing queue result with
  | nil => simp
  | cons v new ih => simp [enqueue, ih]

/-- Both searches stop at no level. -/
abbrev anyLevel : Nat → Prop := fun _ => True

/-- The queue loop lists the nodes in the order in which a search meets them. -/
theorem sequentialLoop_search {l : List (Int64 × Nat)}
    (hl : search (adjacent neighbors) anyLevel fuel visited queue = some l)
    (hvisited : ∀ v, v ∈ visited ↔ v ∈ (done ++ queue).map Prod.fst)
    (hr : result.Lists (done ++ queue)) :
    ∃ r, sequentialLoop neighbors fuel visited queue result = some r ∧ r.Lists (done ++ l) := by
  induction fuel generalizing visited done queue result l with
  | zero =>
    cases queue with
    | nil =>
      cases hl
      exact ⟨result, rfl, hr⟩
    | cons x queue => cases hl
  | succ fuel ih =>
    cases queue with
    | nil =>
      cases hl
      exact ⟨result, rfl, hr⟩
    | cons x queue =>
      obtain ⟨node, d⟩ := x
      simp only [search, if_true, Option.map_eq_some_iff] at hl
      obtain ⟨l', hl', rfl⟩ := hl
      let new := discover visited (adjacent neighbors node)
      have hfresh : ∀ v ∈ new, v ∉ (done ++ (node, d) :: queue).map Prod.fst := by
        intro v hv
        rw [← hvisited]
        exact (mem_discover.mp hv).2
      have hr' := hr.addAll (d := d + 1) nodup_discover hfresh
      rw [show done ++ (node, d) :: queue ++ new.map (·, d + 1) =
        done ++ [(node, d)] ++ (queue ++ new.map (·, d + 1)) by simp] at hr'
      have hvisited' : ∀ v, v ∈ visited ∪ new.toFinset ↔
          v ∈ (done ++ [(node, d)] ++ (queue ++ new.map (·, d + 1))).map Prod.fst := by
        intro v
        rw [Finset.mem_union, hvisited]
        simp [or_assoc]
      obtain ⟨r, hrun, hlists⟩ := ih hl' hvisited' hr'
      refine ⟨r, ?_, by simpa using hlists⟩
      rw [sequentialLoop, ← hrun]
      cases hn : neighbors node with
      | ok ns =>
        have hadj : adjacent neighbors node = ns := by rw [adjacent, hn]
        simp only [foldl_visit, foldl_enqueue, hadj]
      | error e =>
        have hadj : adjacent neighbors node = [] := by rw [adjacent, hn]
        simp only [hadj, discover, List.toFinset_nil, Finset.union_empty, List.map_nil,
          List.append_nil, List.foldl_nil]

section Chunk
variable {s : Finset Int64 × ChunkResult} {w : Int64} {d : Nat}

/-- A chunk's hash map has the nodes it has met, all at one distance. -/
def ChunkHolds (distance : Nat) (s : Finset Int64 × ChunkResult) : Prop :=
  ∀ w d, s.2.distances.lookup w = some d ↔ w ∈ s.1 ∧ d = distance

theorem visitInChunk_spec (visited : Finset Int64) (v : Int64) (h : ChunkHolds distance s) :
    ChunkHolds distance (visitInChunk visited distance s v) ∧
      ∀ w, w ∈ (visitInChunk visited distance s v).1 ↔ w ∈ s.1 ∨ w = v ∧ w ∉ visited := by
  unfold visitInChunk visit
  by_cases hv : v ∈ visited
  · simp only [hv, if_true]
    refine ⟨h, fun w => ⟨.inl, ?_⟩⟩
    rintro (hw | ⟨rfl, hw⟩)
    · exact hw
    · exact (hw hv).elim
  · by_cases hm : v ∈ s.1
    · simp only [hv, hm, if_true, if_false]
      refine ⟨h, fun w => ⟨.inl, ?_⟩⟩
      rintro (hw | ⟨rfl, -⟩)
      · exact hw
      · exact hm
    · simp only [hv, hm, if_false]
      constructor
      · intro w d
        by_cases hw : w = v
        · subst hw
          simp [ChunkResult.addNode, eq_comm]
        · simp [ChunkResult.addNode, AList.lookup_insert_ne hw, hw, h w d]
      · intro w
        by_cases hw : w = v
        · subst hw
          simp [hv]
        · simp [hw]

theorem foldl_visitInChunk_spec (ns : List Int64) (h : ChunkHolds distance s) :
    ChunkHolds distance (ns.foldl (visitInChunk visited distance) s) ∧
      ∀ w, w ∈ (ns.foldl (visitInChunk visited distance) s).1 ↔ w ∈ s.1 ∨ w ∈ ns ∧ w ∉ visited := by
  induction ns generalizing s with
  | nil => exact ⟨h, by simp⟩
  | cons v ns ih =>
    obtain ⟨hstep, hmem⟩ := visitInChunk_spec visited v h
    obtain ⟨hrest, hmem'⟩ := ih hstep
    refine ⟨hrest, fun w => ?_⟩
    rw [List.foldl_cons, hmem', hmem, List.mem_cons]
    tauto

theorem processNode_spec (neighbors : Int64 → Except ε (List Int64))
    (visited : Finset Int64) (node : Int64) (h : ChunkHolds distance s) :
    ChunkHolds distance (processNode neighbors visited distance s node) ∧
      ∀ w, w ∈ (processNode neighbors visited distance s node).1 ↔
        w ∈ s.1 ∨ w ∈ adjacent neighbors node ∧ w ∉ visited := by
  unfold processNode adjacent
  cases neighbors node with
  | ok ns => exact foldl_visitInChunk_spec ns h
  | error e => exact ⟨h, by simp⟩

theorem foldl_processNode_spec (neighbors : Int64 → Except ε (List Int64))
    (visited : Finset Int64) (chunk : List Int64) (h : ChunkHolds distance s) :
    ChunkHolds distance (chunk.foldl (processNode neighbors visited distance) s) ∧
      ∀ w, w ∈ (chunk.foldl (processNode neighbors visited distance) s).1 ↔
        w ∈ s.1 ∨ (∃ u ∈ chunk, w ∈ adjacent neighbors u) ∧ w ∉ visited := by
  induction chunk generalizing s with
  | nil => exact ⟨h, by simp⟩
  | cons u chunk ih =>
    obtain ⟨hstep, hmem⟩ := processNode_spec neighbors visited u h
    obtain ⟨hrest, hmem'⟩ := ih hstep
    refine ⟨hrest, fun w => ?_⟩
    rw [List.foldl_cons, hmem', hmem, List.exists_mem_cons_iff]
    tauto

/-- A chunk's result: the unvisited neighbors of its nodes, at the level's distance. -/
theorem mem_processChunk (chunk : List Int64) :
    ⟨w, d⟩ ∈ (processChunk neighbors visited distance chunk).distances.entries ↔
      ((∃ u ∈ chunk, w ∈ adjacent neighbors u) ∧ w ∉ visited) ∧ d = distance := by
  have hempty : ChunkHolds distance ((∅, .new) : Finset Int64 × ChunkResult) := by
    simp [ChunkHolds, ChunkResult.new]
  obtain ⟨hholds, hmem⟩ := foldl_processNode_spec neighbors visited chunk hempty
  rw [processChunk, AList.mem_lookup_iff.symm, Option.mem_def, hholds, hmem]
  simp

end Chunk

section Merge
variable {nextLevel : List Int64}

/-- The entries of all chunks in the order in which they are merged. -/
def mergeOrder (schedule : BfsSchedule) (distance : Nat) (chunks : List ChunkResult) :
    List (Sigma fun _ : Int64 => Nat) :=
  (((drain (schedule.chunkChoices distance) chunks).zipIdx).map fun chunk =>
    drain (schedule.entryChoices distance chunk.2) chunk.1.distances.entries).flatten

theorem mem_mergeOrder {schedule : BfsSchedule} {chunks : List ChunkResult}
    {entry : Sigma fun _ : Int64 => Nat} :
    entry ∈ mergeOrder schedule distance chunks ↔ ∃ chunk ∈ chunks, entry ∈ chunk.distances.entries := by
  simp only [mergeOrder, List.mem_flatten, List.mem_map]
  constructor
  · rintro ⟨_, ⟨⟨chunk, i⟩, hc, rfl⟩, he⟩
    have hmem : chunk ∈ drain (schedule.chunkChoices distance) chunks :=
      List.fst_mem_of_mem_zipIdx hc
    exact ⟨chunk, (drain_perm _ _).mem_iff.mp hmem, (drain_perm _ _).mem_iff.mp he⟩
  · rintro ⟨chunk, hc, he⟩
    obtain ⟨i, hi, rfl⟩ := List.getElem_of_mem ((drain_perm (schedule.chunkChoices distance) _).mem_iff.mpr hc)
    exact ⟨_, ⟨⟨_, i⟩, List.mem_zipIdx_iff_getElem?.mpr (List.getElem?_eq_getElem hi), rfl⟩,
      (drain_perm _ _).mem_iff.mpr he⟩

/-- What a level's chunks bring to the merge, whatever the split. -/
theorem mem_levelEntries {schedule : BfsSchedule} {level : List Int64}
    {entry : Sigma fun _ : Int64 => Nat} :
    entry ∈ mergeOrder schedule distance
        ((schedule.split distance level).map (processChunk neighbors visited distance)) ↔
      ((∃ u ∈ level, entry.1 ∈ adjacent neighbors u) ∧ entry.1 ∉ visited) ∧ entry.2 = distance := by
  obtain ⟨w, d⟩ := entry
  have hcover : ∀ u, u ∈ level ↔ ∃ chunk ∈ schedule.split distance level, u ∈ chunk := by
    intro u
    rw [← (schedule.covers distance level).mem_iff, List.mem_flatten]
  rw [mem_mergeOrder]
  constructor
  · rintro ⟨_, hc, he⟩
    obtain ⟨chunk, hchunk, rfl⟩ := List.mem_map.mp hc
    obtain ⟨⟨⟨u, hu, hw⟩, hnew⟩, hd⟩ := mem_processChunk chunk |>.mp he
    exact ⟨⟨⟨u, (hcover u).mpr ⟨chunk, hchunk, hu⟩, hw⟩, hnew⟩, hd⟩
  · rintro ⟨⟨⟨u, hu, hw⟩, hnew⟩, hd⟩
    obtain ⟨chunk, hchunk, hu⟩ := (hcover u).mp hu
    exact ⟨_, List.mem_map_of_mem hchunk, (mem_processChunk chunk).mpr ⟨⟨⟨u, hu, hw⟩, hnew⟩, hd⟩⟩

theorem mergeChunks_eq {schedule : BfsSchedule} {chunks : List ChunkResult}
    (visited : Finset Int64) (result : BfsResult) (nextLevel : List Int64)
    (h : ∀ entry ∈ mergeOrder schedule distance chunks, entry.2 = distance) :
    let new := discover visited ((mergeOrder schedule distance chunks).map Sigma.fst)
    mergeChunks schedule distance chunks (visited, result, nextLevel) =
      (visited ∪ new.toFinset, new.foldl (fun r v => r.addVisit v distance) result, nextLevel ++ new) := by
  let record : BfsResult × List Int64 → Int64 → BfsResult × List Int64 :=
    fun r node => (r.1.addVisit node distance, r.2 ++ [node])
  have hflat : mergeChunks schedule distance chunks (visited, result, nextLevel) =
      (mergeOrder schedule distance chunks).foldl mergeNode (visited, result, nextLevel) := by
    rw [mergeOrder, List.foldl_flatten, List.foldl_map]
    rfl
  have hnode : (mergeOrder schedule distance chunks).foldl mergeNode (visited, result, nextLevel) =
      ((mergeOrder schedule distance chunks).map Sigma.fst).foldl (visit record)
        (visited, result, nextLevel) := by
    rw [List.foldl_map]
    refine List.foldl_ext _ _ _ fun s entry hentry => ?_
    rw [mergeNode, h entry hentry]
  have hrecord : ∀ (new : List Int64) r level, new.foldl record (r, level) =
      (new.foldl (fun r v => r.addVisit v distance) r, level ++ new) := by
    intro new
    induction new with
    | nil => simp
    | cons v new ih => simp [record, ih]
  rw [hflat, hnode, foldl_visit, hrecord]

end Merge

/-- The level loop, too, lists the nodes that a search meets. -/
theorem parallelLoop_run {schedule : BfsSchedule} {level : List Int64}
    (h : SearchInv (adjacent neighbors) anyLevel start done (level.map (·, distance)))
    (hvisited : ∀ v, v ∈ visited ↔ v ∈ (done ++ level.map (·, distance)).map Prod.fst)
    (hr : result.Lists (done ++ level.map (·, distance)))
    (hbound : ∀ l : List Int64, l.Nodup → l.length ≤ bound) (hfuel : bound < fuel + done.length) :
    ∃ r l, parallelLoop neighbors schedule fuel visited level distance result = some r ∧
      SearchInv (adjacent neighbors) anyLevel start l [] ∧ r.Lists l := by
  induction fuel generalizing visited done level distance result with
  | zero =>
    have hlen := hbound _ h.nodup
    rw [List.length_map, List.length_append] at hlen
    omega
  | succ fuel ih =>
    cases level with
    | nil => exact ⟨result, done, rfl, h, by simpa using hr⟩
    | cons node level =>
      let chunks := (schedule.split (distance + 1) (node :: level)).map
        (processChunk neighbors visited (distance + 1))
      let new := discover visited ((mergeOrder schedule (distance + 1) chunks).map Sigma.fst)
      have hmem : ∀ w, w ∈ new ↔ (anyLevel distance ∧
          ∃ y ∈ (node, distance) :: level.map (·, distance), w ∈ adjacent neighbors y.1) ∧
            w ∉ (done ++ ((node, distance) :: level.map (·, distance) ++ [])).map Prod.fst := by
        intro w
        rw [List.append_nil, ← List.map_cons (f := (·, distance)), ← hvisited]
        simp only [new, mem_discover, List.mem_map, chunks, mem_levelEntries]
        constructor
        · rintro ⟨⟨_, ⟨⟨⟨u, hu, hadj⟩, -⟩, -⟩, rfl⟩, hw⟩
          exact ⟨⟨trivial, (u, distance), ⟨u, hu, rfl⟩, hadj⟩, hw⟩
        · rintro ⟨⟨-, _, ⟨u, hu, rfl⟩, hadj⟩, hw⟩
          exact ⟨⟨⟨w, distance + 1⟩, ⟨⟨⟨u, hu, hadj⟩, hw⟩, rfl⟩, rfl⟩, hw⟩
      have hlevel : SearchInv (adjacent neighbors) anyLevel start done
          ((node, distance) :: level.map (·, distance) ++ []) := by simpa using h
      have hnext := hlevel.expand (by simp) nodup_discover hmem
      rw [List.nil_append] at hnext
      have hfresh : ∀ v ∈ new, v ∉ (done ++ (node :: level).map (·, distance)).map Prod.fst := by
        intro v hv
        rw [← hvisited]
        exact (mem_discover.mp hv).2
      have hr' := hr.addAll (d := distance + 1) nodup_discover hfresh
      have hvisited' : ∀ v, v ∈ visited ∪ new.toFinset ↔
          v ∈ (done ++ (node, distance) :: level.map (·, distance) ++
            new.map (·, distance + 1)).map Prod.fst := by
        intro v
        rw [Finset.mem_union, hvisited]
        simp [or_assoc]
      obtain ⟨r, l, hrun, hinv, hlists⟩ := ih hnext hvisited' hr' (by simp; omega)
      refine ⟨r, l, ?_, hinv, hlists⟩
      rw [parallelLoop, ← hrun]
      have hdist : ∀ entry ∈ mergeOrder schedule (distance + 1) chunks, entry.2 = distance + 1 :=
        fun entry he => (mem_levelEntries.mp he).2
      have hmerge := mergeChunks_eq visited result [] hdist
      simp only [chunks] at hmerge
      simp only [hmerge, List.nil_append, new, chunks]

/-- There are no more than 2^64 node ids. -/
theorem length_le_of_nodup {l : List Int64} (h : l.Nodup) : l.length ≤ 2 ^ 64 := by
  have hinj : Function.Injective fun v : Int64 => v.toBitVec.toFin := by
    intro v w hvw
    exact Int64.toBitVec_inj.mp (BitVec.toFin_inj.mp hvw)
  have hlen := (h.map hinj).length_le_card
  rwa [List.length_map, Fintype.card_fin] at hlen

theorem lists_start (start : Int64) :
    (BfsResult.new.addVisit start 0).Lists ([] ++ [(start, 0)]) :=
  BfsResult.lists_new.addVisit (by simp)

/-- A result that lists a search that has ended. -/
structure Complete (neighbors : Int64 → Except ε (List Int64)) (start : Int64) (r : BfsResult) :
    Prop where
  distances : ∀ v d, r.distances.lookup v = some d ↔ Found (adjacent neighbors) anyLevel start v d
  order : ∀ v, v ∈ r.visitedOrder ↔ ∃ d, r.distances.lookup v = some d
  once : r.visitedOrder.Nodup
  total : r.totalVisited = r.visitedOrder.length

theorem BfsResult.Lists.complete {r : BfsResult} {l : List (Int64 × Nat)} (hr : r.Lists l)
    (hl : SearchInv (adjacent neighbors) anyLevel start l []) : Complete neighbors start r where
  distances v d := (hr.distances v d).trans hl.found
  order v := by simp [hr.order, hr.distances]
  once := by simpa [hr.order] using hl.nodup
  total := by simp [hr.total, hr.order]

theorem sequentialBfs_complete (neighbors : Int64 → Except ε (List Int64)) (start : Int64)
    (hfuel : 2 ^ 64 < fuel) :
    ∃ r, sequentialBfs neighbors fuel start = some r ∧ Complete neighbors start r := by
  have hvisited : ∀ v, v ∈ ({start} : Finset Int64) ↔ v ∈ ([] ++ [(start, 0)]).map Prod.fst := by
    simp
  have hinit : SearchInv (adjacent neighbors) anyLevel start [] [(start, 0)] := .init
  obtain ⟨l, hl, hinv⟩ := search_run hinit hvisited (fun _ => length_le_of_nodup)
    (by simpa using hfuel)
  obtain ⟨r, hr, hlists⟩ := sequentialLoop_search hl hvisited (lists_start start)
  exact ⟨r, hr, hlists.complete hinv⟩

theorem parallelBfsImpl_complete (neighbors : Int64 → Except ε (List Int64)) (start : Int64)
    (schedule : BfsSchedule) (hfuel : 2 ^ 64 < fuel) :
    ∃ r, parallelBfsImpl neighbors schedule fuel start = some r ∧ Complete neighbors start r := by
  have hvisited : ∀ v, v ∈ ({start} : Finset Int64) ↔ v ∈ ([] ++ [start].map (·, 0)).map Prod.fst := by
    simp
  have hinit : SearchInv (adjacent neighbors) anyLevel start [] ([start].map (·, 0)) := .init
  obtain ⟨r, l, hr, hinv, hlists⟩ := parallelLoop_run hinit hvisited (lists_start start)
    (fun _ => length_le_of_nodup) (by simpa using hfuel)
  exact ⟨r, hr, hlists.complete hinv⟩

/-- However the levels are split and merged, the search in chunks ends as the one with a queue does:
with the same nodes, each once, at the same distances. -/
theorem parallelBfsImpl_eq_sequential (neighbors : Int64 → Except ε (List Int64)) (start : Int64)
    (schedule : BfsSchedule) :
    ∃ bound, ∀ fuel, bound ≤ fuel → ∃ p s,
      parallelBfsImpl neighbors schedule fuel start = some p ∧
      sequentialBfs neighbors fuel start = some s ∧
      p.visitedOrder.Nodup ∧ s.visitedOrder.Nodup ∧
      (∀ v, v ∈ p.visitedOrder ↔ v ∈ s.visitedOrder) ∧
      (∀ v, p.distances.lookup v = s.distances.lookup v) ∧
      p.totalVisited = s.totalVisited := by
  refine ⟨2 ^ 64 + 1, fun fuel hfuel => ?_⟩
  obtain ⟨p, hp, hpc⟩ := parallelBfsImpl_complete neighbors start schedule hfuel
  obtain ⟨s, hs, hsc⟩ := sequentialBfs_complete neighbors start hfuel
  have hdist : ∀ v, p.distances.lookup v = s.distances.lookup v := by
    intro v
    refine Option.ext fun d => ?_
    rw [hpc.distances, hsc.distances]
  have hmem : ∀ v, v ∈ p.visitedOrder ↔ v ∈ s.visitedOrder := by
    intro v
    rw [hpc.order, hsc.order, hdist]
  refine ⟨p, s, hp, hs, hpc.once, hsc.once, hmem, hdist, ?_⟩
  rw [hpc.total, hsc.total]
  exact ((List.perm_ext_iff_of_nodup hpc.once hsc.once).mpr hmem).length_eq

end SqliteGraph.V3
