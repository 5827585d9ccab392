import SqliteGraph.Algo.Reachability
import SqliteGraph.Lib.KeyedSearch

/-! Partitioning by a breadth-first search from several seeds at once: every node goes to a nearest seed. -/
namespace SqliteGraph.Algo
open Lib Sqlite

/-- `node_to_partition` is only ever asked for a node. -/
structure PartitionResult where
  partitions : List (Finset Int64)
  cutEdges : List (Int64 × Int64)
  nodeToPartition : Int64 → Option Nat

/-- The edges whose ends are in different partitions. -/
def computeCutEdges (t : Tables) (nodeToPartition : Int64 → Option Nat) : List (Int64 × Int64) :=
  t.entities.flatMap fun fromNode =>
    ((fetchOutgoing t fromNode).filter fun toNode =>
      match nodeToPartition fromNode, nodeToPartition toNode with
      | some fromPartition, some toPartition => decide (fromPartition ≠ toPartition)
      | _, _ => false).map fun toNode => (fromNode, toNode)

/-- What the search writes; the level in the queue is always 0. -/
structure Assignment where
  partitions : List (Finset Int64)
  nodeToPartition : Int64 → Option Nat
  queue : List (Int64 × Nat × Nat)

def Assignment.assign (seedIdx : Nat) (a : Assignment) (node : Int64) : Assignment :=
  ⟨a.partitions.modify seedIdx (insert node), Function.update a.nodeToPartition node (some seedIdx),
    a.queue ++ [(node, 0, seedIdx)]⟩

/-- A seed is assigned whether it has been visited or not. -/
def startSeed (allNodes : List Int64) (s : Finset Int64 × Assignment) (x : Int64 × Nat) :
    Finset Int64 × Assignment :=
  if x.1 ∈ allNodes then (insert x.1 s.1, s.2.assign x.2 x.1) else s

def assignLoop (t : Tables) : Nat → Finset Int64 → Assignment → Except SqliteGraphError Assignment
  | 0, _, a => if a.queue.isEmpty then .ok a else .error .outOfFuel
  | fuel + 1, visited, a =>
    match a.queue with
    | [] => .ok a
    | (node, _, seedIdx) :: queue =>
      let (visited, a) := (fetchOutgoing t node).foldl (visit (Assignment.assign seedIdx))
        (visited, { a with queue })
      assignLoop t fuel visited a

/-- The first nodes by id stand in for missing seeds; more than `k` are not used. -/
def effectiveSeeds (t : Tables) (seeds : List Int64) (k : Nat) : List Int64 :=
  let seeds := if seeds.isEmpty then (t.entities.dedup.mergeSort fun u v => decide (u ≤ v)).take k else seeds
  seeds.take (min k seeds.length)

def partitionBfsLevel (fuel : Nat) (t : Tables) (seeds : List Int64) (k : Nat) :
    Except SqliteGraphError PartitionResult :=
  if k < 2 then .ok ⟨[∅], [], fun _ => none⟩
  else if t.entities.isEmpty then .ok ⟨List.replicate k ∅, [], fun _ => none⟩
  else do
    let seeds := effectiveSeeds t seeds k
    let numPartitions := max k seeds.length
    let (visited, a) := seeds.zipIdx.foldl (startSeed t.entities)
      (∅, ⟨List.replicate numPartitions ∅, fun _ => none, []⟩)
    let a ← assignLoop t fuel visited a
    let partitions := a.partitions ++ List.replicate (k - a.partitions.length) ∅
    pure ⟨partitions, computeCutEdges t a.nodeToPartition, a.nodeToPartition⟩

/-- Partition `i` is that of the nodes to which the `i`-th seed is nearest, the first of those as near. -/
def Cell (t : Tables) (seeds : List Int64) (i : Nat) (v : Int64) : Prop :=
  ∃ s d, seeds[i]? = some s ∧ s ∈ t.entities ∧ Walk (fetchOutgoing t) s d v ∧
    ∀ j s' d', seeds[j]? = some s' → s' ∈ t.entities → Walk (fetchOutgoing t) s' d' v →
      d < d' ∨ d = d' ∧ i ≤ j

/-- A distance and the index of a seed, the distance counting first. -/
abbrev CellKey : Type := ℕ ×ₗ ℕ

def CellKey.further (k : CellKey) : CellKey := toLex ((ofLex k).1 + 1, (ofLex k).2)

theorem CellKey.le_iff {d i e j : Nat} :
    (toLex (d, i) : CellKey) ≤ toLex (e, j) ↔ d < e ∨ d = e ∧ i ≤ j := Prod.Lex.le_iff

theorem CellKey.further_mono : Monotone CellKey.further := by
  intro k k' h
  obtain ⟨d, i⟩ := k
  obtain ⟨e, j⟩ := k'
  have h : d < e ∨ d = e ∧ i ≤ j := CellKey.le_iff.mp h
  refine CellKey.le_iff.mpr ?_
  change d + 1 < e + 1 ∨ d + 1 = e + 1 ∧ i ≤ j
  omega

theorem CellKey.le_further (k : CellKey) : k ≤ k.further := by
  obtain ⟨d, i⟩ := k
  exact CellKey.le_iff.mpr (.inl (Nat.lt_succ_self d))

/-- `k` sets, and the map that says in which of them a node is. -/
structure Parted (k : Nat) (parts : List (Finset Int64)) (m : Int64 → Option Nat) : Prop where
  length : parts.length = k
  mapped : ∀ i v, (∃ p, parts[i]? = some p ∧ v ∈ p) ↔ m v = some i

section Parts
variable {m : Int64 → Option Nat} {parts : List (Finset Int64)} {node : Int64} {p pidx k : Nat}

theorem Parted.lt (h : Parted k parts m) (hm : m node = some p) : p < k := by
  obtain ⟨part, hpart, -⟩ := (h.mapped p node).mpr hm
  obtain ⟨hp, -⟩ := List.getElem?_eq_some_iff.mp hpart
  rw [← h.length]
  exact hp

/-- A node that is in no part is put into one. -/
theorem Parted.place (h : Parted k parts m) (hk : pidx < k) (hnone : m node = none) :
    Parted k (parts.modify pidx (insert node)) (Function.update m node (some pidx)) := by
  refine ⟨by rw [List.length_modify, h.length], ?_⟩
  intro i v
  have hold := h.mapped i v
  rw [List.getElem?_modify, Function.update_apply]
  cases hget : parts[i]? with
  | none =>
    have hlen : k ≤ i := h.length ▸ List.getElem?_eq_none_iff.mp hget
    have hno : ¬ m v = some i := by
      intro hv
      have hi := h.lt hv
      omega
    have hne : pidx ≠ i := by omega
    by_cases hv : v = node <;> simp [hv, hne, hno]
  | some part =>
    rw [hget] at hold
    have hpart : v ∈ part ↔ m v = some i := by simpa using hold
    by_cases hv : v = node
    · subst hv
      have hnot : v ∉ part := by
        intro hin
        rw [hpart.mp hin] at hnone
        cases hnone
      by_cases hi : pidx = i <;> simp [hi, hnot]
    · by_cases hi : pidx = i <;> simp [hi, hv, hpart]

end Parts

section Cells
variable {t : Tables} {seeds : List Int64} {k seedIdx i d : Nat} {v node : Int64} {visited : Finset Int64}
  {a : Assignment} {all done queue : List (Int64 × CellKey)} {new : List Int64}

/-- The seeds that exist, each with its own index at distance 0. -/
def sourcesOf (t : Tables) (seeds : List Int64) : List (Int64 × CellKey) :=
  (seeds.zipIdx.filter fun x => decide (x.1 ∈ t.entities)).map fun x => (x.1, toLex (0, x.2))

theorem mem_sourcesOf {key : CellKey} : (v, key) ∈ sourcesOf t seeds ↔
    ∃ i, seeds[i]? = some v ∧ v ∈ t.entities ∧ key = toLex (0, i) := by
  simp only [sourcesOf, List.mem_map, List.mem_filter, decide_eq_true_eq]
  constructor
  · rintro ⟨⟨s, i⟩, ⟨hs, hin⟩, he⟩
    cases he
    exact ⟨i, List.mk_mem_zipIdx_iff_getElem?.mp hs, hin, rfl⟩
  · rintro ⟨i, hi, hin, rfl⟩
    exact ⟨(v, i), ⟨List.mk_mem_zipIdx_iff_getElem?.mpr hi, hin⟩, rfl⟩

/-- What a walk brings is how long it is and where it began. -/
theorem brings_iff {key : CellKey} : Brings (fetchOutgoing t) CellKey.further (sourcesOf t seeds) v key ↔
    ∃ i s d, seeds[i]? = some s ∧ s ∈ t.entities ∧ Walk (fetchOutgoing t) s d v ∧ key = toLex (d, i) := by
  constructor
  · intro h
    induction h with
    | source hs =>
      obtain ⟨i, hi, hin, rfl⟩ := mem_sourcesOf.mp hs
      exact ⟨i, _, 0, hi, hin, .nil, rfl⟩
    | step _ hv ih =>
      obtain ⟨i, s, d, hi, hin, hw, rfl⟩ := ih
      exact ⟨i, s, d + 1, hi, hin, hw.step hv, rfl⟩
  · rintro ⟨i, s, d, hi, hin, hw, rfl⟩
    induction hw with
    | nil => exact .source (mem_sourcesOf.mpr ⟨i, hi, hin, rfl⟩)
    | step _ hv ih => exact ih.step hv

theorem cell_iff : Cell t seeds i v ↔
    ∃ d, IsLeast {key | Brings (fetchOutgoing t) CellKey.further (sourcesOf t seeds) v key} (toLex (d, i)) := by
  constructor
  · rintro ⟨s, d, hi, hin, hw, hbest⟩
    refine ⟨d, brings_iff.mpr ⟨i, s, d, hi, hin, hw, rfl⟩, ?_⟩
    intro key hkey
    obtain ⟨j, s', d', hj, hin', hw', rfl⟩ := brings_iff.mp hkey
    exact CellKey.le_iff.mpr (hbest j s' d' hj hin' hw')
  · rintro ⟨d, hbrought, hleast⟩
    obtain ⟨i', s, d', hi, hin, hw, he⟩ := brings_iff.mp hbrought
    obtain ⟨rfl, rfl⟩ : d = d' ∧ i = i' := Prod.mk.inj he
    refine ⟨s, d, hi, hin, hw, fun j s' d' hj hin' hw' => ?_⟩
    exact CellKey.le_iff.mp (hleast (brings_iff.mpr ⟨j, s', d', hj, hin', hw', rfl⟩))

theorem sourcesOf_nodup (hd : seeds.Nodup) : ((sourcesOf t seeds).map Prod.fst).Nodup := by
  have heq : (sourcesOf t seeds).map Prod.fst =
      (seeds.zipIdx.filter fun x => decide (x.1 ∈ t.entities)).map Prod.fst := by
    simp [sourcesOf, Function.comp_def]
  rw [heq]
  have hsub := (List.filter_sublist (p := fun x => decide (x.1 ∈ t.entities)) (l := seeds.zipIdx)).map Prod.fst
  rw [List.zipIdx_map_fst] at hsub
  exact hsub.nodup hd

theorem sourcesOf_sorted : (sourcesOf t seeds).Pairwise fun x y => x.2 ≤ y.2 := by
  have hidx : seeds.zipIdx.Pairwise fun x y => x.2 < y.2 := by
    rw [← List.pairwise_map, List.zipIdx_map_snd]
    exact List.pairwise_lt_range'
  rw [sourcesOf, List.pairwise_map]
  refine (hidx.sublist List.filter_sublist).imp ?_
  intro x y hlt
  exact CellKey.le_iff.mpr (.inr ⟨rfl, hlt.le⟩)

theorem keyed_init (hd : seeds.Nodup) :
    KeyedInv (fetchOutgoing t) CellKey.further (sourcesOf t seeds) [] (sourcesOf t seeds) := by
  refine .init (sourcesOf_nodup hd) sourcesOf_sorted ?_
  rintro ⟨u, x⟩ hx ⟨v, y⟩ hy
  obtain ⟨i, -, -, rfl⟩ := mem_sourcesOf.mp hx
  obtain ⟨j, -, -, rfl⟩ := mem_sourcesOf.mp hy
  exact CellKey.le_iff.mpr (.inl Nat.zero_lt_one)

/-- The assignment is that of the nodes met so far, each to the partition that its key names. -/
structure Shows (a : Assignment) (visited : Finset Int64) (k : Nat) (all : List (Int64 × CellKey)) : Prop where
  visited : ∀ v, v ∈ visited ↔ v ∈ all.map Prod.fst
  length : a.partitions.length = k
  index : ∀ x ∈ all, (ofLex x.2).2 < k
  parts : ∀ i v, (∃ p, a.partitions[i]? = some p ∧ v ∈ p) ↔ ∃ d, (v, toLex (d, i)) ∈ all
  mapped : ∀ i v, a.nodeToPartition v = some i ↔ ∃ d, (v, toLex (d, i)) ∈ all

theorem Shows.parted (h : Shows a visited k all) : Parted k a.partitions a.nodeToPartition :=
  ⟨h.length, fun i v => (h.parts i v).trans (h.mapped i v).symm⟩

theorem Shows.assign (h : Shows a visited k all) (hnew : node ∉ visited) (hk : seedIdx < k) (d : Nat) :
    Shows (a.assign seedIdx node) (insert node visited) k (all ++ [(node, toLex (d, seedIdx))]) := by
  have hnot : ∀ key, (node, key) ∉ all := by
    intro key hin
    exact hnew ((h.visited node).mpr (List.mem_map_of_mem hin))
  have hall : ∀ i v, (∃ d', (v, (toLex (d', i) : CellKey)) ∈ all ++ [(node, toLex (d, seedIdx))]) ↔
      (∃ d', (v, toLex (d', i)) ∈ all) ∨ v = node ∧ i = seedIdx := by
    intro i v
    constructor
    · rintro ⟨d', hin⟩
      rcases List.mem_append.mp hin with hin | hin
      · exact .inl ⟨d', hin⟩
      · cases List.mem_singleton.mp hin
        exact .inr ⟨rfl, rfl⟩
    · rintro (⟨d', hin⟩ | ⟨rfl, rfl⟩)
      · exact ⟨d', List.mem_append_left _ hin⟩
      · exact ⟨d, List.mem_append_right _ (List.mem_singleton.mpr rfl)⟩
  have hnone : a.nodeToPartition node = none := by
    cases hm : a.nodeToPartition node with
    | none => rfl
    | some i =>
      obtain ⟨d', hin⟩ := (h.mapped i node).mp hm
      exact (hnot _ hin).elim
  have hplaced := h.parted.place hk hnone
  have hmapped : ∀ i v, (a.assign seedIdx node).nodeToPartition v = some i ↔
      ∃ d', (v, toLex (d', i)) ∈ all ++ [(node, toLex (d, seedIdx))] := by
    intro i v
    rw [hall i v, ← h.mapped i v]
    change Function.update a.nodeToPartition node (some seedIdx) v = some i ↔ _
    rw [Function.update_apply]
    by_cases hv : v = node
    · subst hv
      simp [hnone, eq_comm]
    · simp [hv]
  refine ⟨?_, hplaced.length, ?_, fun i v => (hplaced.mapped i v).trans (hmapped i v), hmapped⟩
  · intro v
    rw [Finset.mem_insert, h.visited v, List.map_append, List.mem_append, List.map_singleton,
      List.mem_singleton]
    exact or_comm
  · intro x hx
    rcases List.mem_append.mp hx with hx | hx
    · exact h.index x hx
    · rw [List.mem_singleton.mp hx]
      exact hk

/-- The new neighbors of a node are assigned one by one. -/
theorem Shows.assignAll (h : Shows a visited k all) (hnew : new.Nodup) (hdisj : ∀ v ∈ new, v ∉ visited)
    (hk : seedIdx < k) (d : Nat) :
    Shows (new.foldl (Assignment.assign seedIdx) a) (visited ∪ new.toFinset) k
      (all ++ new.map fun v => (v, toLex (d, seedIdx))) := by
  induction new generalizing a visited all with
  | nil => simpa using h
  | cons node new ih =>
    obtain ⟨hnode, hnew⟩ := List.nodup_cons.mp hnew
    have h₁ := h.assign (hdisj node List.mem_cons_self) hk d
    have h₂ := ih h₁ hnew (by
      intro v hv hin
      rcases Finset.mem_insert.mp hin with rfl | hin
      · exact hnode hv
      · exact hdisj v (List.mem_cons_of_mem _ hv) hin)
    have hset : insert node visited ∪ new.toFinset = visited ∪ (node :: new).toFinset := by
      simp [Finset.union_insert]
    rw [List.foldl_cons, List.map_cons, List.append_cons, ← hset]
    exact h₂

theorem queue_assignAll : (new.foldl (Assignment.assign seedIdx) a).queue =
    a.queue ++ new.map fun v => (v, 0, seedIdx) := by
  induction new generalizing a with
  | nil => simp
  | cons node new ih =>
    rw [List.foldl_cons, ih, List.map_cons, List.append_cons]
    rfl

/-- The queue without the distances, which the program does not keep. -/
def queued (queue : List (Int64 × CellKey)) : List (Int64 × Nat × Nat) :=
  queue.map fun x => (x.1, 0, (ofLex x.2).2)

/-- The search runs to its end, where every key is the least. -/
theorem assignLoop_run {fuel : Nat}
    (h : KeyedInv (fetchOutgoing t) CellKey.further (sourcesOf t seeds) done queue)
    (hs : Shows a visited k (done ++ queue)) (hq : a.queue = queued queue)
    (hfuel : remaining visited (queue.map Prod.fst) ≤ fuel) :
    ∃ a' visited' all, assignLoop t fuel visited a = .ok a' ∧ Shows a' visited' k all ∧
      KeyedInv (fetchOutgoing t) CellKey.further (sourcesOf t seeds) all [] := by
  induction fuel generalizing visited a done queue with
  | zero =>
    rcases queue with _ | ⟨x, queue⟩
    · refine ⟨a, visited, done, ?_, by simpa using hs, h⟩
      simp [assignLoop, hq, queued]
    · simp [remaining] at hfuel
  | succ fuel ih =>
    rcases queue with _ | ⟨⟨node, key⟩, queue⟩
    · refine ⟨a, visited, done, ?_, by simpa using hs, h⟩
      simp [assignLoop, hq, queued]
    · obtain ⟨⟨d, seedIdx⟩, rfl⟩ : ∃ x : ℕ × ℕ, key = toLex x := ⟨ofLex key, rfl⟩
      set new := discover visited (fetchOutgoing t node) with hnew
      have hmem : ∀ w, w ∈ new ↔ w ∈ fetchOutgoing t node ∧
          w ∉ (done ++ (node, toLex (d, seedIdx)) :: queue).map Prod.fst := by
        intro w
        rw [hnew, mem_discover, hs.visited w]
      have hnodup : new.Nodup := nodup_discover
      have hinv := h.expand CellKey.further_mono CellKey.le_further hnodup hmem
      have hk : seedIdx < k := hs.index (node, toLex (d, seedIdx)) (by simp)
      have hshows : Shows { a with queue := queued queue } visited k
          (done ++ (node, toLex (d, seedIdx)) :: queue) := ⟨hs.visited, hs.length, hs.index, hs.parts, hs.mapped⟩
      have hnext := hshows.assignAll hnodup (fun v hv => (mem_discover.mp hv).2) hk (d + 1)
      have hless := remaining_discover visited node (queue.map Prod.fst) (fetchOutgoing t node)
      rw [← hnew] at hless
      have hrun : assignLoop t (fuel + 1) visited a = assignLoop t fuel (visited ∪ new.toFinset)
          (new.foldl (Assignment.assign seedIdx) { a with queue := queued queue }) := by
        rw [assignLoop, hq]
        simp only [queued, List.map_cons, foldl_visit]
        rfl
      rw [hrun]
      refine ih hinv ?_ ?_ ?_
      · simpa [CellKey.further] using hnext
      · rw [queue_assignAll]
        simp [queued, CellKey.further]
      · have hmap : (queue ++ new.map fun w => (w, CellKey.further (toLex (d, seedIdx)))).map Prod.fst =
            queue.map Prod.fst ++ new := by simp [Function.comp_def]
        rw [hmap]
        change remaining visited (node :: queue.map Prod.fst) ≤ fuel + 1 at hfuel
        omega

/-- The seeds that exist are assigned before the search begins. -/
theorem Shows.start {l : List (Int64 × Nat)} (h : Shows a visited k all) (hd : (l.map Prod.fst).Nodup)
    (hdisj : ∀ x ∈ l, x.1 ∉ visited) (hk : ∀ x ∈ l, x.2 < k) (hq : a.queue = queued all) :
    ∃ visited' a', l.foldl (startSeed t.entities) (visited, a) = (visited', a') ∧
      Shows a' visited' k
        (all ++ (l.filter fun x => decide (x.1 ∈ t.entities)).map fun x => (x.1, toLex (0, x.2))) ∧
      a'.queue =
        queued (all ++ (l.filter fun x => decide (x.1 ∈ t.entities)).map fun x => (x.1, toLex (0, x.2))) := by
  induction l generalizing a visited all with
  | nil => exact ⟨visited, a, rfl, by simpa using h, by simpa using hq⟩
  | cons x l ih =>
    obtain ⟨s, i⟩ := x
    obtain ⟨hs, hd⟩ := List.nodup_cons.mp hd
    have hrest : ∀ x ∈ l, x.2 < k := fun x hx => hk x (List.mem_cons_of_mem _ hx)
    by_cases hin : s ∈ t.entities
    · have h₁ := h.assign (hdisj (s, i) List.mem_cons_self) (hk (s, i) List.mem_cons_self) 0
      have hq₁ : (a.assign i s).queue = queued (all ++ [(s, toLex (0, i))]) := by
        simp [Assignment.assign, hq, queued]
      obtain ⟨visited', a', hrun, h', hq'⟩ := ih h₁ hd (by
        intro x hx hmem
        rcases Finset.mem_insert.mp hmem with he | hmem
        · exact hs (he ▸ List.mem_map_of_mem hx)
        · exact hdisj x (List.mem_cons_of_mem _ hx) hmem) hrest hq₁
      refine ⟨visited', a', ?_, ?_, ?_⟩
      · rw [List.foldl_cons, startSeed, if_pos hin]
        exact hrun
      · simpa [hin] using h'
      · simpa [hin] using hq'
    · obtain ⟨visited', a', hrun, h', hq'⟩ := ih h hd
        (fun x hx => hdisj x (List.mem_cons_of_mem _ hx)) hrest hq
      refine ⟨visited', a', ?_, ?_, ?_⟩
      · rw [List.foldl_cons, startSeed, if_neg hin]
        exact hrun
      · simpa [hin] using h'
      · simpa [hin] using hq'

theorem shows_empty (k : Nat) : Shows ⟨List.replicate k ∅, fun _ => none, []⟩ ∅ k [] where
  visited v := by simp
  length := List.length_replicate
  index x hx := by cases hx
  parts i v := by
    constructor
    · rintro ⟨p, hp, hv⟩
      rw [List.getElem?_replicate] at hp
      split at hp
      · cases hp
        simp at hv
      · cases hp
    · rintro ⟨d, hd⟩
      cases hd
  mapped i v := by simp

theorem effectiveSeeds_nodup (hd : seeds.Nodup) : (effectiveSeeds t seeds k).Nodup := by
  have hsorted : (t.entities.dedup.mergeSort fun u v => decide (u ≤ v)).Nodup :=
    (List.mergeSort_perm _ _).nodup_iff.mpr (List.nodup_dedup _)
  unfold effectiveSeeds
  refine List.Nodup.sublist (List.take_sublist _ _) ?_
  split
  · exact hsorted.sublist (List.take_sublist _ _)
  · exact hd

theorem length_effectiveSeeds : (effectiveSeeds t seeds k).length ≤ k :=
  (List.length_take_le _ _).trans (Nat.min_le_left _ _)

end Cells

/-- What a partitioning is to be: every node with the seed nearest to it, and all edges between parts. -/
structure PartitionResult.IsVoronoi (r : PartitionResult) (t : Tables) (seeds : List Int64) (k : Nat) :
    Prop where
  length : r.partitions.length = k
  parts : ∀ i v, (∃ p, r.partitions[i]? = some p ∧ v ∈ p) ↔ Cell t seeds i v
  mapped : ∀ i v, r.nodeToPartition v = some i ↔ Cell t seeds i v
  cut : ∀ u v, (u, v) ∈ r.cutEdges ↔ u ∈ t.entities ∧ Joined t u v ∧
    ∃ i j, i ≠ j ∧ Cell t seeds i u ∧ Cell t seeds j v

section Result
variable {t : Tables} {seeds : List Int64} {k : Nat} {m : Int64 → Option Nat} {u v : Int64}

theorem mem_computeCutEdges : (u, v) ∈ computeCutEdges t m ↔ u ∈ t.entities ∧ Joined t u v ∧
    ∃ i j, i ≠ j ∧ m u = some i ∧ m v = some j := by
  simp only [computeCutEdges, List.mem_flatMap, List.mem_map, List.mem_filter, mem_fetchOutgoing]
  constructor
  · rintro ⟨u', hu, v', ⟨hjoined, hcut⟩, he⟩
    cases he
    refine ⟨hu, hjoined, ?_⟩
    split at hcut
    · rename_i i j hi hj
      exact ⟨i, j, of_decide_eq_true hcut, hi, hj⟩
    · cases hcut
  · rintro ⟨hu, hjoined, i, j, hne, hi, hj⟩
    refine ⟨u, hu, v, ⟨hjoined, ?_⟩, rfl⟩
    simp [hi, hj, hne]

theorem Shows.voronoi {a : Assignment} {visited : Finset Int64} {all : List (Int64 × CellKey)}
    (h : Shows a visited k all)
    (hinv : KeyedInv (fetchOutgoing t) CellKey.further (sourcesOf t seeds) all []) :
    PartitionResult.IsVoronoi ⟨a.partitions, computeCutEdges t a.nodeToPartition, a.nodeToPartition⟩ t seeds
      k := by
  have hcell : ∀ i v, (∃ d, (v, toLex (d, i)) ∈ all) ↔ Cell t seeds i v := by
    intro i v
    rw [cell_iff]
    exact exists_congr fun d => hinv.least CellKey.further_mono
  refine ⟨h.length, fun i v => (h.parts i v).trans (hcell i v), fun i v => (h.mapped i v).trans (hcell i v),
    fun u v => mem_computeCutEdges.trans ?_⟩
  simp only [h.mapped, hcell]

theorem isVoronoi_empty (hempty : t.entities = []) :
    PartitionResult.IsVoronoi ⟨List.replicate k ∅, [], fun _ => none⟩ t seeds k := by
  have hnone : ∀ i v, ¬ Cell t seeds i v := by
    rintro i v ⟨s, d, -, hin, -⟩
    rw [hempty] at hin
    cases hin
  refine ⟨List.length_replicate, ?_, ?_, ?_⟩
  · intro i v
    rw [(shows_empty k).parts i v]
    simp [hnone i v]
  · intro i v
    simp [hnone i v]
  · simp [hempty]

theorem partitionBfsLevel_empty {fuel : Nat} (hk : 2 ≤ k) (hempty : t.entities = []) :
    partitionBfsLevel fuel t seeds k = .ok ⟨List.replicate k ∅, [], fun _ => none⟩ := by
  have hlt : ¬ k < 2 := Nat.not_lt.mpr hk
  simp [partitionBfsLevel, hlt, hempty]

/-- With the seeds assigned, the search ends with all the nodes that they reach. -/
theorem partitionBfsLevel_run (hk : 2 ≤ k) (hd : seeds.Nodup) (hempty : t.entities ≠ []) :
    ∃ bound, ∀ fuel, bound ≤ fuel → ∃ r, partitionBfsLevel fuel t seeds k = .ok r ∧
      r.IsVoronoi t (effectiveSeeds t seeds k) k := by
  have hlt : ¬ k < 2 := Nat.not_lt.mpr hk
  have hlen : (effectiveSeeds t seeds k).length ≤ k := length_effectiveSeeds
  have hmax : max k (effectiveSeeds t seeds k).length = k := max_eq_left hlen
  have hnodup := effectiveSeeds_nodup (t := t) (k := k) hd
  obtain ⟨visited, a, hrun, hshows, hqueue⟩ := (shows_empty k).start (t := t)
    (l := (effectiveSeeds t seeds k).zipIdx) (by rw [List.zipIdx_map_fst]; exact hnodup) (by simp) (by
      rintro ⟨s, i⟩ hx
      obtain ⟨hi, -⟩ := List.getElem?_eq_some_iff.mp (List.mk_mem_zipIdx_iff_getElem?.mp hx)
      exact lt_of_lt_of_le hi hlen) rfl
  refine ⟨remaining visited ((sourcesOf t (effectiveSeeds t seeds k)).map Prod.fst), fun fuel hf => ?_⟩
  obtain ⟨a', visited', all, hloop, hs', hinv⟩ :=
    assignLoop_run (keyed_init (t := t) hnodup) hshows hqueue hf
  refine ⟨_, ?_, hs'.voronoi hinv⟩
  have hnotEmpty : ¬ t.entities.isEmpty = true := fun h => hempty (List.isEmpty_iff.mp h)
  unfold partitionBfsLevel
  rw [if_neg hlt, if_neg hnotEmpty]
  dsimp only
  rw [hmax, hrun]
  dsimp only
  rw [hloop]
  change Except.ok _ = _
  rw [hs'.length, Nat.sub_self, List.replicate_zero, List.append_nil]

/-- Partitioning by breadth-first levels gives every node to a seed nearest to it, the first of them in a
tie, and nothing to no seed; the cut edges are exactly the edges between different parts. -/
theorem partitionBfsLevel_voronoi (t : Tables) (hk : 2 ≤ k) (hd : seeds.Nodup) :
    ∃ bound, ∀ fuel, bound ≤ fuel → ∃ r, partitionBfsLevel fuel t seeds k = .ok r ∧
      r.IsVoronoi t (effectiveSeeds t seeds k) k := by
  by_cases hempty : t.entities = []
  · exact ⟨0, fun fuel _ => ⟨_, partitionBfsLevel_empty hk hempty, isVoronoi_empty hempty⟩⟩
  · exact partitionBfsLevel_run hk hd hempty

/-- A path between two seeds, and a node that neither reaches. -/
def fivePath : Tables :=
  ⟨[1, 2, 3, 4, 5],
    [⟨⟨1, 2, "next"⟩, 1⟩, ⟨⟨2, 3, "next"⟩, 2⟩, ⟨⟨4, 3, "next"⟩, 3⟩, ⟨⟨2, 4, "next"⟩, 4⟩]⟩

theorem partitionBfsLevel_voronoi_fivePath :
    ∃ bound, ∀ fuel, bound ≤ fuel → ∃ r, partitionBfsLevel fuel fivePath [1, 4] 2 = .ok r ∧
      r.IsVoronoi fivePath (effectiveSeeds fivePath [1, 4] 2) 2 :=
  partitionBfsLevel_voronoi fivePath (le_refl 2) (by decide)

end Result

end SqliteGraph.Algo
