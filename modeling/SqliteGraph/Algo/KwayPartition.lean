import SqliteGraph.Algo.GreedyPartition
import SqliteGraph.Algo.ProgramSlicing

/-! Partitioning into `k` sets that grow from seeds, with a size at which a set stops growing. -/
namespace SqliteGraph.Algo
open Lib Sqlite

/-- The float `max_imbalance` is left to the size that it gives. -/
structure PartitionConfig where
  k : Nat
  maxSize : Nat
  seeds : Option (List Int64)

/-- `balanced` is the target size made larger by `max_imbalance`, rounded down. -/
def PartitionConfig.maxAllowed (config : PartitionConfig) (balanced : Nat → Nat) (nodes effectiveK : Nat) : Nat :=
  if config.maxSize = 2 ^ 64 - 1 then balanced (max (nodes / effectiveK) 1) else min config.maxSize nodes

/-- The nodes with the most outgoing edges; the sort is stable. -/
def selectSeedsByDegree (t : Tables) (k : Nat) (nodes : List Int64) : List Int64 :=
  (((nodes.map fun node => (node, (fetchOutgoing t node).length)).mergeSort
    fun x y => decide (y.2 ≤ x.2)).take k).map Prod.fst

def PartitionConfig.chosenSeeds (config : PartitionConfig) (t : Tables) (effectiveK : Nat) (nodes : List Int64) :
    List Int64 :=
  match config.seeds with
  | some seeds => seeds
  | none => selectSeedsByDegree t effectiveK nodes

def padSeed (k : Nat) (seeds : List Int64) (node : Int64) : List Int64 :=
  if node ∈ seeds ∨ k ≤ seeds.length then seeds else seeds ++ [node]

/-- After a pass that leaves too few seeds the same pass would be made for ever. -/
def padSeeds (nodes : List Int64) (k : Nat) (seeds : List Int64) : Except SqliteGraphError (List Int64) :=
  let padded := nodes.foldl (padSeed k) seeds
  if padded.length < k then .error .outOfFuel else .ok padded

/-- The search returns at the first neighbor that is a target; `none` where no target is reached. -/
def distanceLoop (t : Tables) (targets : Finset Int64) :
    Nat → Finset Int64 → List (Int64 × Nat) → Except SqliteGraphError (Option Nat)
  | _, _, [] => .ok none
  | 0, _, _ :: _ => .error .outOfFuel
  | fuel + 1, visited, (node, dist) :: queue =>
    if (fetchOutgoing t node).any fun neighbor => decide (neighbor ∈ targets) then .ok (some (dist + 1))
    else
      let fresh := discover visited (fetchOutgoing t node)
      distanceLoop t targets fuel (visited ∪ fresh.toFinset) (queue ++ fresh.map fun v => (v, dist + 1))

def shortestDistanceToTargets (fuel : Nat) (t : Tables) (start : Int64) (targets : Finset Int64) :
    Except SqliteGraphError (Option Nat) :=
  if start ∈ targets then .ok (some 0) else distanceLoop t targets fuel {start} [(start, 0)]

/-- What the growth writes. -/
structure Growth where
  partitions : List (Finset Int64)
  nodeToPartition : Int64 → Option Nat
  unassigned : List Int64
  queue : List (Int64 × Nat)

def Growth.assign (g : Growth) (pidx : Nat) (node : Int64) : Growth :=
  { g with
    partitions := g.partitions.modify pidx (insert node)
    nodeToPartition := Function.update g.nodeToPartition node (some pidx) }

def Growth.enqueue (g : Growth) (pidx : Nat) (node : Int64) : Growth :=
  { g.assign pidx node with queue := g.queue ++ [(node, pidx)] }

/-- A seed that is no node is left out. -/
def Growth.placeSeed (nodes : List Int64) (g : Growth) (x : Int64 × Nat) : Growth :=
  if x.1 ∈ nodes then g.enqueue x.2 x.1 else g

def Growth.takeNeighbor (pidx : Nat) (g : Growth) (neighbor : Int64) : Growth :=
  if neighbor ∈ g.unassigned then
    { g with unassigned := g.unassigned.erase neighbor }.enqueue pidx neighbor
  else g

/-- The size is looked at before all the neighbors of a node are taken, not before each of them. -/
def growLoop (t : Tables) (maxAllowed : Nat) : Nat → Growth → Except SqliteGraphError Growth
  | 0, g => if g.queue.isEmpty then .ok g else .error .outOfFuel
  | fuel + 1, g =>
    match g.queue with
    | [] => .ok g
    | (node, pidx) :: queue =>
      if maxAllowed ≤ (g.partitions.getD pidx ∅).card then growLoop t maxAllowed fuel { g with queue }
      else growLoop t maxAllowed fuel ((fetchOutgoing t node).foldl (Growth.takeNeighbor pidx) { g with queue })

/-- The first of the nearest partitions so far, with its distance. -/
def nearer (fuel : Nat) (t : Tables) (node : Int64) (best : Nat × Option Nat) (x : Finset Int64 × Nat) :
    Except SqliteGraphError (Nat × Option Nat) :=
  if x.1 = ∅ then .ok best
  else do
    let distance ← shortestDistanceToTargets fuel t node x.1
    match distance, best.2 with
    | none, _ => pure best
    | some distance, none => pure (x.2, some distance)
    | some distance, some bestDistance =>
      pure (if distance < bestDistance then (x.2, some distance) else best)

/-- A node that reaches no partition goes to the first. -/
def assignNearest (fuel : Nat) (t : Tables) (g : Growth) (node : Int64) : Except SqliteGraphError Growth := do
  let best ← g.partitions.zipIdx.foldlM (nearer fuel t node) (0, none)
  pure (g.assign best.1 node)

/-- `choices` and `rest` give the orders of the set of all nodes and of the set of those not reached. -/
def partitionKway (fuel : Nat) (balanced choices rest : Nat → Nat) (t : Tables) (config : PartitionConfig) :
    Except SqliteGraphError PartitionResult :=
  if config.k < 2 then .error (.invalidInput "k must be at least 2 for partitioning")
  else if t.entities.isEmpty then .ok ⟨List.replicate config.k ∅, [], fun _ => none⟩
  else do
    let nodes := drain choices t.entities.dedup
    let effectiveK := min config.k nodes.length
    let seeds ← padSeeds nodes effectiveK ((config.chosenSeeds t effectiveK nodes).take effectiveK)
    let g := seeds.zipIdx.foldl (Growth.placeSeed nodes)
      ⟨List.replicate effectiveK ∅, fun _ => none, [], []⟩
    let unassigned := nodes.filter fun node => (g.nodeToPartition node).isNone
    let g ← growLoop t (config.maxAllowed balanced nodes.length effectiveK) fuel { g with unassigned }
    let g ← (drain rest g.unassigned).foldlM (assignNearest fuel t) g
    let partitions := g.partitions ++ List.replicate (config.k - g.partitions.length) ∅
    pure ⟨partitions, computeCutEdges t g.nodeToPartition, g.nodeToPartition⟩

section Seeds
variable {t : Tables} {nodes seeds : List Int64} {k : Nat}

theorem padSeeds_step (node : Int64) (hd : seeds.Nodup) (hk : seeds.length ≤ k) :
    (padSeed k seeds node).Nodup ∧ (padSeed k seeds node).length ≤ k ∧ seeds <+: padSeed k seeds node ∧
      (node ∈ padSeed k seeds node ∨ k ≤ (padSeed k seeds node).length) := by
  unfold padSeed
  split
  · rename_i h
    exact ⟨hd, hk, List.prefix_refl seeds, h⟩
  · rename_i h
    obtain ⟨hnode, hlt⟩ := not_or.mp h
    refine ⟨?_, ?_, List.prefix_append seeds [node], .inl (by simp)⟩
    · exact List.nodup_append.mpr ⟨hd, List.nodup_singleton node, by
        rintro v hv w hw rfl
        exact hnode (List.mem_singleton.mp hw ▸ hv)⟩
    · rw [List.length_append, List.length_singleton]
      omega

theorem padSeeds_pass (nodes : List Int64) (hd : seeds.Nodup) (hk : seeds.length ≤ k) :
    (nodes.foldl (padSeed k) seeds).Nodup ∧ (nodes.foldl (padSeed k) seeds).length ≤ k ∧
      seeds <+: nodes.foldl (padSeed k) seeds ∧
        ∀ node ∈ nodes, node ∈ nodes.foldl (padSeed k) seeds ∨ k ≤ (nodes.foldl (padSeed k) seeds).length := by
  induction nodes generalizing seeds with
  | nil =>
    refine ⟨hd, hk, List.prefix_refl seeds, ?_⟩
    intro node hnode
    cases hnode
  | cons node nodes ih =>
    obtain ⟨hd₁, hk₁, hpre, hin⟩ := padSeeds_step node hd hk
    obtain ⟨hd₂, hk₂, hpre₂, hall⟩ := ih hd₁ hk₁
    rw [List.foldl_cons]
    refine ⟨hd₂, hk₂, hpre.trans hpre₂, ?_⟩
    intro v hv
    rcases List.mem_cons.mp hv with rfl | hv
    · rcases hin with hin | hin
      · exact .inl (hpre₂.subset hin)
      · exact .inr (hin.trans hpre₂.length_le)
    · exact hall v hv

/-- There are nodes enough to fill up the seeds, which stay what they are. -/
theorem padSeeds_run (hd : seeds.Nodup) (hk : seeds.length ≤ k) (hnodes : nodes.Nodup)
    (hle : k ≤ nodes.length) :
    ∃ padded, padSeeds nodes k seeds = .ok padded ∧ padded.Nodup ∧ padded.length = k ∧ seeds <+: padded := by
  obtain ⟨hd', hk', hpre, hall⟩ := padSeeds_pass nodes hd hk
  have hfull : k ≤ (nodes.foldl (padSeed k) seeds).length := by
    by_contra hlt
    have hsub : nodes ⊆ nodes.foldl (padSeed k) seeds := fun v hv => (hall v hv).resolve_right hlt
    exact hlt (hle.trans (List.subperm_of_subset hnodes hsub).length_le)
  refine ⟨nodes.foldl (padSeed k) seeds, ?_, hd', le_antisymm hk' hfull, hpre⟩
  unfold padSeeds
  dsimp only
  rw [if_neg (Nat.not_lt.mpr hfull)]

theorem selectSeedsByDegree_nodup (hnodes : nodes.Nodup) : (selectSeedsByDegree t k nodes).Nodup := by
  have hpairs : ((nodes.map fun node => (node, (fetchOutgoing t node).length)).map Prod.fst).Nodup := by
    rw [List.map_map]
    simpa [Function.comp_def] using hnodes
  have hsorted := ((List.mergeSort_perm (nodes.map fun node => (node, (fetchOutgoing t node).length))
    fun x y => decide (y.2 ≤ x.2)).map Prod.fst).nodup_iff.mpr hpairs
  exact hsorted.sublist ((List.take_sublist _ _).map _)

theorem PartitionConfig.chosenSeeds_nodup {config : PartitionConfig}
    (hseeds : ∀ seeds, config.seeds = some seeds → seeds.Nodup) (hnodes : nodes.Nodup) :
    (config.chosenSeeds t k nodes).Nodup := by
  unfold PartitionConfig.chosenSeeds
  split
  · rename_i seeds hsome
    exact hseeds seeds hsome
  · exact selectSeedsByDegree_nodup hnodes

/-- The given seeds keep their places when they are padded. -/
theorem PartitionConfig.getElem?_padded {config : PartitionConfig} {padded : List Int64} {s : Int64} {i : Nat}
    (hleading : (config.chosenSeeds t k nodes).take k <+: padded) (hsome : config.seeds = some seeds)
    (hs : seeds[i]? = some s) (hi : i < k) : padded[i]? = some s := by
  have hchosen : config.chosenSeeds t k nodes = seeds := by rw [PartitionConfig.chosenSeeds, hsome]
  have htake : ((config.chosenSeeds t k nodes).take k)[i]? = some s := by
    rw [hchosen, List.getElem?_take_of_lt hi]
    exact hs
  obtain ⟨hlen, -⟩ := List.getElem?_eq_some_iff.mp htake
  obtain ⟨more, rfl⟩ := hleading
  rw [List.getElem?_append_left hlen]
  exact htake

end Seeds

section Distance
variable {t : Tables} {targets visited : Finset Int64} {queue : List (Int64 × Nat)} {fuel : Nat}

theorem distanceLoop_ok (hfuel : remaining visited (queue.map Prod.fst) ≤ fuel) :
    ∃ d, distanceLoop t targets fuel visited queue = .ok d := by
  induction fuel generalizing visited queue with
  | zero =>
    rcases queue with _ | ⟨x, queue⟩
    · exact ⟨none, by rw [distanceLoop]⟩
    · simp [remaining] at hfuel
  | succ fuel ih =>
    rcases queue with _ | ⟨⟨node, dist⟩, queue⟩
    · exact ⟨none, by rw [distanceLoop]⟩
    · rw [distanceLoop]
      split
      · exact ⟨_, rfl⟩
      · apply ih
        have hless := remaining_discover visited node (queue.map Prod.fst) (fetchOutgoing t node)
        have hmap : (queue ++ (discover visited (fetchOutgoing t node)).map fun v => (v, dist + 1)).map Prod.fst =
            queue.map Prod.fst ++ discover visited (fetchOutgoing t node) := by simp [Function.comp_def]
        rw [hmap]
        change remaining visited (node :: queue.map Prod.fst) ≤ fuel + 1 at hfuel
        omega

theorem shortestDistanceToTargets_ok (start : Int64) (targets : Finset Int64)
    (hfuel : remaining {start} [start] ≤ fuel) :
    ∃ d, shortestDistanceToTargets fuel t start targets = .ok d := by
  unfold shortestDistanceToTargets
  split
  · exact ⟨some 0, rfl⟩
  · exact distanceLoop_ok hfuel

end Distance

section Growing
variable {t : Tables} {nodes : List Int64} {k pidx fuel : Nat} {g : Growth} {node v : Int64}
  {m m₀ : Int64 → Option Nat} {parts : List (Finset Int64)}

/-- Putting a node that is in no part into one leaves the others where they are. -/
theorem update_kept {i : Nat} (hnone : m node = none) (hv : m v = some i) :
    Function.update m node (some pidx) v = some i := by
  have hne : v ≠ node := by
    rintro rfl
    rw [hnone] at hv
    cases hv
  rw [Function.update_of_ne hne]
  exact hv

/-- Every node of the graph has a part or is still to get one. -/
structure Growing (t : Tables) (k : Nat) (m₀ : Int64 → Option Nat) (g : Growth) : Prop where
  parted : Parted k g.partitions g.nodeToPartition
  nodup : g.unassigned.Nodup
  free : ∀ v ∈ g.unassigned, g.nodeToPartition v = none
  known : ∀ v, v ∈ t.entities ↔ v ∈ g.unassigned ∨ (g.nodeToPartition v).isSome
  queued : ∀ x ∈ g.queue, x.2 < k
  kept : ∀ v i, m₀ v = some i → g.nodeToPartition v = some i

theorem Growing.assign (h : Growing t k m₀ g) (hin : v ∈ g.unassigned) (hk : pidx < k) :
    Growing t k m₀ { g.assign pidx v with unassigned := g.unassigned.erase v } := by
  have hnone := h.free v hin
  refine ⟨h.parted.place hk hnone, h.nodup.erase v, ?_, ?_, h.queued,
    fun w i hw => update_kept hnone (h.kept w i hw)⟩
  · intro w hw
    obtain ⟨hne, hw⟩ := h.nodup.mem_erase_iff.mp hw
    change Function.update g.nodeToPartition v (some pidx) w = none
    rw [Function.update_of_ne hne]
    exact h.free w hw
  · intro w
    change w ∈ t.entities ↔ w ∈ g.unassigned.erase v ∨
      (Function.update g.nodeToPartition v (some pidx) w).isSome
    rw [h.known w, h.nodup.mem_erase_iff, Function.update_apply]
    by_cases hw : w = v
    · simp [hw, hin]
    · simp [hw]

/-- A neighbor moves from the nodes still to be assigned to the queue. -/
theorem Growing.takeNeighbor (h : Growing t k m₀ g) (hk : pidx < k) (v : Int64) :
    Growing t k m₀ (g.takeNeighbor pidx v) ∧
      (g.takeNeighbor pidx v).unassigned.length + (g.takeNeighbor pidx v).queue.length =
        g.unassigned.length + g.queue.length := by
  unfold Growth.takeNeighbor
  split
  · rename_i hin
    have hassign := h.assign hin hk
    constructor
    · refine ⟨hassign.parted, hassign.nodup, hassign.free, hassign.known, ?_, hassign.kept⟩
      intro x hx
      rcases List.mem_append.mp hx with hx | hx
      · exact h.queued x hx
      · rw [List.mem_singleton.mp hx]
        exact hk
    · change (g.unassigned.erase v).length + (g.queue ++ [(v, pidx)]).length = _
      have hpos := List.length_pos_of_mem hin
      rw [List.length_erase_of_mem hin, List.length_append, List.length_singleton]
      omega
  · exact ⟨h, rfl⟩

theorem Growing.takeNeighbors (h : Growing t k m₀ g) (hk : pidx < k) (l : List Int64) :
    Growing t k m₀ (l.foldl (Growth.takeNeighbor pidx) g) ∧
      (l.foldl (Growth.takeNeighbor pidx) g).unassigned.length +
        (l.foldl (Growth.takeNeighbor pidx) g).queue.length = g.unassigned.length + g.queue.length := by
  induction l generalizing g with
  | nil => exact ⟨h, rfl⟩
  | cons v l ih =>
    obtain ⟨h₁, hless₁⟩ := h.takeNeighbor hk v
    obtain ⟨h₂, hless₂⟩ := ih h₁
    rw [List.foldl_cons]
    exact ⟨h₂, hless₂.trans hless₁⟩

/-- Each turn takes a node from the queue, and none comes back. -/
theorem Growing.grow (h : Growing t k m₀ g) (maxAllowed : Nat)
    (hfuel : g.unassigned.length + g.queue.length ≤ fuel) :
    ∃ g', growLoop t maxAllowed fuel g = .ok g' ∧ Growing t k m₀ g' := by
  induction fuel generalizing g with
  | zero =>
    have hempty : g.queue = [] := List.eq_nil_of_length_eq_zero (by omega)
    refine ⟨g, ?_, h⟩
    simp [growLoop, hempty]
  | succ fuel ih =>
    rw [growLoop]
    cases hq : g.queue with
    | nil => exact ⟨g, rfl, h⟩
    | cons x queue =>
      obtain ⟨node, pidx⟩ := x
      rw [hq, List.length_cons] at hfuel
      have hk : pidx < k := h.queued (node, pidx) (by rw [hq]; exact List.mem_cons_self)
      have hrest : Growing t k m₀ { g with queue } :=
        ⟨h.parted, h.nodup, h.free, h.known,
          fun x hx => h.queued x (by rw [hq]; exact List.mem_cons_of_mem _ hx), h.kept⟩
      dsimp only
      split
      · exact ih hrest (by simp only; omega)
      · obtain ⟨hnext, hless⟩ := hrest.takeNeighbors hk (fetchOutgoing t node)
        exact ih hnext (by rw [hless]; simp only; omega)

theorem nearer_run (hfuel : remaining {node} [node] ≤ fuel) (l : List (Finset Int64 × Nat))
    (hl : ∀ x ∈ l, x.2 < k) {best : Nat × Option Nat} (hbest : best.1 < k) :
    ∃ best', l.foldlM (nearer fuel t node) best = .ok best' ∧ best'.1 < k := by
  induction l generalizing best with
  | nil => exact ⟨best, rfl, hbest⟩
  | cons x l ih =>
    have hx := hl x List.mem_cons_self
    have hrest : ∀ x ∈ l, x.2 < k := fun x hx => hl x (List.mem_cons_of_mem _ hx)
    have hstep : ∃ b, nearer fuel t node best x = .ok b ∧ b.1 < k := by
      unfold nearer
      split
      · exact ⟨best, rfl, hbest⟩
      · obtain ⟨d, hd⟩ := shortestDistanceToTargets_ok (t := t) node x.1 hfuel
        rw [hd]
        change ∃ b, (match d, best.2 with
          | none, _ => pure best
          | some distance, none => pure (x.2, some distance)
          | some distance, some bestDistance =>
            pure (if distance < bestDistance then (x.2, some distance) else best)) = Except.ok b ∧ b.1 < k
        split
        · exact ⟨best, rfl, hbest⟩
        · exact ⟨_, rfl, hx⟩
        · refine ⟨_, rfl, ?_⟩
          split
          · exact hx
          · exact hbest
    obtain ⟨b, hb, hlt⟩ := hstep
    rw [List.foldlM_cons, hb]
    exact ih hrest hlt

/-- The nodes that the growth has not reached get their parts one by one. -/
theorem Growing.assignRest {l : List Int64} (h : Growing t k m₀ { g with unassigned := l }) (hk : 0 < k)
    (hfuel : ∀ node, remaining {node} [node] ≤ fuel) :
    ∃ g', l.foldlM (assignNearest fuel t) g = .ok g' ∧ Growing t k m₀ { g' with unassigned := [] } := by
  induction l generalizing g with
  | nil => exact ⟨g, rfl, h⟩
  | cons v l ih =>
    have hindex : ∀ x ∈ g.partitions.zipIdx, x.2 < k := by
      intro x hx
      have hlt := List.snd_lt_of_mem_zipIdx hx
      have hlen : g.partitions.length = k := h.parted.length
      omega
    obtain ⟨best, hbest, hlt⟩ := nearer_run (t := t) (hfuel v) g.partitions.zipIdx hindex
      (show ((0, none) : Nat × Option Nat).1 < k from hk)
    have hassign := h.assign (v := v) List.mem_cons_self hlt
    simp only [List.erase_cons_head] at hassign
    have hstep : assignNearest fuel t g v = .ok (g.assign best.1 v) := by
      rw [assignNearest, hbest]
      rfl
    rw [List.foldlM_cons, hstep]
    exact ih hassign

/-- Only nodes of the graph have been given parts. -/
structure Seeded (nodes : List Int64) (k : Nat) (g : Growth) : Prop where
  parted : Parted k g.partitions g.nodeToPartition
  known : ∀ v i, g.nodeToPartition v = some i → v ∈ nodes
  queued : ∀ x ∈ g.queue, x.2 < k

theorem Seeded.enqueue (h : Seeded nodes k g) (hin : v ∈ nodes) (hk : pidx < k)
    (hnone : g.nodeToPartition v = none) : Seeded nodes k (g.enqueue pidx v) := by
  refine ⟨h.parted.place hk hnone, ?_, ?_⟩
  · intro w i hw
    change Function.update g.nodeToPartition v (some pidx) w = some i at hw
    by_cases hv : w = v
    · rw [hv]
      exact hin
    · rw [Function.update_of_ne hv] at hw
      exact h.known w i hw
  · intro x hx
    rcases List.mem_append.mp hx with hx | hx
    · exact h.queued x hx
    · rw [List.mem_singleton.mp hx]
      exact hk

/-- Different seeds stay where they are put. -/
theorem Seeded.placeSeeds {l : List (Int64 × Nat)} (h : Seeded nodes k g) (hd : (l.map Prod.fst).Nodup)
    (hk : ∀ x ∈ l, x.2 < k) (hfree : ∀ x ∈ l, g.nodeToPartition x.1 = none) :
    Seeded nodes k (l.foldl (Growth.placeSeed nodes) g) ∧
      (∀ v i, g.nodeToPartition v = some i →
        (l.foldl (Growth.placeSeed nodes) g).nodeToPartition v = some i) ∧
      ∀ x ∈ l, x.1 ∈ nodes → (l.foldl (Growth.placeSeed nodes) g).nodeToPartition x.1 = some x.2 := by
  induction l generalizing g with
  | nil =>
    refine ⟨h, fun v i hv => hv, ?_⟩
    intro x hx
    cases hx
  | cons x l ih =>
    obtain ⟨s, i⟩ := x
    obtain ⟨hs, hd⟩ := List.nodup_cons.mp hd
    have hk' : ∀ x ∈ l, x.2 < k := fun x hx => hk x (List.mem_cons_of_mem _ hx)
    rw [List.foldl_cons]
    by_cases hin : s ∈ nodes
    · have hnone : g.nodeToPartition s = none := hfree (s, i) List.mem_cons_self
      have hfree' : ∀ x ∈ l, (g.enqueue i s).nodeToPartition x.1 = none := by
        intro x hx
        have hmem : x.1 ∈ l.map Prod.fst := List.mem_map_of_mem hx
        have hne : x.1 ≠ s := by
          intro he
          rw [he] at hmem
          exact hs hmem
        change Function.update g.nodeToPartition s (some i) x.1 = none
        rw [Function.update_of_ne hne]
        exact hfree x (List.mem_cons_of_mem _ hx)
      have hstep : g.placeSeed nodes (s, i) = g.enqueue i s := by rw [Growth.placeSeed, if_pos hin]
      obtain ⟨h', hkept, hplaced⟩ := ih (h.enqueue hin (hk (s, i) List.mem_cons_self) hnone) hd hk' hfree'
      rw [hstep]
      have hself : (g.enqueue i s).nodeToPartition s = some i := by
        change Function.update g.nodeToPartition s (some i) s = some i
        rw [Function.update_self]
      have hseed := hkept s i hself
      refine ⟨h', fun v j hv => hkept v j (update_kept hnone hv), ?_⟩
      intro x hx hxin
      rcases List.mem_cons.mp hx with rfl | hx
      · exact hseed
      · exact hplaced x hx hxin
    · have hstep : g.placeSeed nodes (s, i) = g := by rw [Growth.placeSeed, if_neg hin]
      obtain ⟨h', hkept, hplaced⟩ := ih h hd hk' fun x hx => hfree x (List.mem_cons_of_mem _ hx)
      rw [hstep]
      refine ⟨h', hkept, ?_⟩
      intro x hx hxin
      rcases List.mem_cons.mp hx with rfl | hx
      · exact (hin hxin).elim
      · exact hplaced x hx hxin

/-- The growth begins with the nodes that are no seeds. -/
theorem Seeded.growing (h : Seeded nodes k g) (hd : nodes.Nodup) (hnodes : ∀ v, v ∈ nodes ↔ v ∈ t.entities) :
    Growing t k g.nodeToPartition
      { g with unassigned := nodes.filter fun node => (g.nodeToPartition node).isNone } := by
  refine ⟨h.parted, hd.filter _, ?_, ?_, h.queued, fun v i hv => hv⟩
  · intro v hv
    exact Option.isNone_iff_eq_none.mp (List.mem_filter.mp hv).2
  · intro v
    rw [← hnodes v, List.mem_filter]
    cases hv : g.nodeToPartition v with
    | none => simp
    | some i =>
      have hin := h.known v i hv
      simp [hin]

theorem parted_empty (k : Nat) : Parted k (List.replicate k ∅) fun _ => none := (shows_empty k).parted

theorem seeded_empty (nodes : List Int64) (k : Nat) :
    Seeded nodes k ⟨List.replicate k ∅, fun _ => none, [], []⟩ where
  parted := parted_empty k
  known v i hv := by cases hv
  queued x hx := by cases hx

/-- Empty sets fill up the list. -/
theorem Parted.pad {n : Nat} (h : Parted n parts m) (hle : n ≤ k) :
    Parted k (parts ++ List.replicate (k - parts.length) ∅) m := by
  have hlen := h.length
  refine ⟨by rw [List.length_append, List.length_replicate]; omega, ?_⟩
  intro i v
  rw [← h.mapped i v]
  by_cases hi : i < parts.length
  · rw [List.getElem?_append_left hi]
  · have hnone : parts[i]? = none := List.getElem?_eq_none (Nat.not_lt.mp hi)
    rw [List.getElem?_append_right (Nat.not_lt.mp hi), hnone, List.getElem?_replicate]
    split <;> simp

/-- The growth places every node of the graph, and leaves the seeds in their own parts. -/
theorem Seeded.grown {nodes : List Int64} (h : Seeded nodes k g) (hd : nodes.Nodup)
    (hnodes : ∀ v, v ∈ nodes ↔ v ∈ t.entities) (hk : 0 < k) (maxAllowed : Nat) (rest : Nat → Nat) :
    ∃ bound, ∀ fuel, bound ≤ fuel → ∃ g₁ g₂, growLoop t maxAllowed fuel
        { g with unassigned := nodes.filter fun node => (g.nodeToPartition node).isNone } = .ok g₁ ∧
      (drain rest g₁.unassigned).foldlM (assignNearest fuel t) g₁ = .ok g₂ ∧
        Growing t k g.nodeToPartition { g₂ with unassigned := [] } := by
  refine ⟨max (nodes.length + g.queue.length) (Set.finite_univ (α := Int64)).toFinset.card, ?_⟩
  intro fuel hfuel
  obtain ⟨hgrow, hsearch⟩ := max_le_iff.mp hfuel
  have hlen := List.length_filter_le (fun node => (g.nodeToPartition node).isNone) nodes
  have hless : (nodes.filter fun node => (g.nodeToPartition node).isNone).length + g.queue.length ≤ fuel := by
    omega
  obtain ⟨g₁, hrun, h₁⟩ := (h.growing hd hnodes).grow maxAllowed hless
  have hperm := drain_perm rest g₁.unassigned
  have hrest : Growing t k g.nodeToPartition { g₁ with unassigned := drain rest g₁.unassigned } :=
    ⟨h₁.parted, hperm.nodup_iff.mpr h₁.nodup, fun v hv => h₁.free v (hperm.mem_iff.mp hv),
      fun v => (h₁.known v).trans (or_congr_left hperm.mem_iff.symm), h₁.queued, h₁.kept⟩
  obtain ⟨g₂, hassign, h₂⟩ := hrest.assignRest hk fun node => (remaining_single node).trans hsearch
  exact ⟨g₁, g₂, hrun, hassign, h₂⟩

end Growing

/-- What a partitioning into `k` is to be: sets that share no node of the graph and leave none out. -/
structure PartitionResult.IsPartition (r : PartitionResult) (t : Tables) (k : Nat) : Prop where
  parts : Parted k r.partitions r.nodeToPartition
  total : ∀ v, v ∈ t.entities ↔ (r.nodeToPartition v).isSome
  cut : ∀ u v, (u, v) ∈ r.cutEdges ↔ u ∈ t.entities ∧ Joined t u v ∧
    ∃ i j, i ≠ j ∧ r.nodeToPartition u = some i ∧ r.nodeToPartition v = some j

/-- Whatever the orders of the hash sets and the size at which growth stops, partitioning from different
seeds puts every node of the graph into exactly one of `k` sets, and every seed that is a node and is not
cut off for lack of sets into its own; the cut edges are exactly the edges between different sets. -/
theorem partitionKway_partitions (t : Tables) (config : PartitionConfig) (balanced choices rest : Nat → Nat)
    (hk : 2 ≤ config.k) (hseeds : ∀ seeds, config.seeds = some seeds → seeds.Nodup) :
    ∃ bound, ∀ fuel, bound ≤ fuel → ∃ r, partitionKway fuel balanced choices rest t config = .ok r ∧
      r.IsPartition t config.k ∧
        ∀ seeds, config.seeds = some seeds → ∀ i s, seeds[i]? = some s → i < config.k →
          i < t.entities.toFinset.card → s ∈ t.entities → r.nodeToPartition s = some i := by
  have hlt : ¬ config.k < 2 := Nat.not_lt.mpr hk
  by_cases hempty : t.entities = []
  · refine ⟨0, fun fuel _ => ⟨⟨List.replicate config.k ∅, [], fun _ => none⟩, ?_, ⟨?_, ?_, ?_⟩, ?_⟩⟩
    · simp [partitionKway, hlt, hempty]
    · exact parted_empty config.k
    · simp [hempty]
    · simp [hempty]
    · intro seeds _ i s _ _ _ hs
      rw [hempty] at hs
      cases hs
  · have hperm := drain_perm choices t.entities.dedup
    set nodes := drain choices t.entities.dedup with hnodes
    have hd : nodes.Nodup := hperm.nodup_iff.mpr (List.nodup_dedup _)
    have hmem : ∀ v, v ∈ nodes ↔ v ∈ t.entities := fun v => hperm.mem_iff.trans List.mem_dedup
    have hcard : t.entities.toFinset.card = nodes.length := by rw [List.card_toFinset, hperm.length_eq]
    set effectiveK := min config.k nodes.length with heff
    have hpos : 0 < effectiveK := by
      obtain ⟨v, hv⟩ := List.exists_mem_of_ne_nil _ hempty
      have hlen := List.length_pos_of_mem ((hmem v).mpr hv)
      omega
    have hchosen := PartitionConfig.chosenSeeds_nodup (t := t) (k := effectiveK) hseeds hd
    obtain ⟨padded, hpad, hpd, hplen, hleading⟩ := padSeeds_run (hchosen.sublist (List.take_sublist effectiveK _))
      (List.length_take_le effectiveK _) hd (min_le_right config.k nodes.length)
    obtain ⟨hseeded, -, hplaced⟩ := (seeded_empty nodes effectiveK).placeSeeds (l := padded.zipIdx)
      (by rw [List.zipIdx_map_fst]; exact hpd) (fun x hx => by
        have hx := List.snd_lt_of_mem_zipIdx hx
        omega) fun x _ => rfl
    obtain ⟨bound, hgrown⟩ := hseeded.grown (t := t) hd hmem hpos
      (config.maxAllowed balanced nodes.length effectiveK) rest
    refine ⟨bound, fun fuel hfuel => ?_⟩
    obtain ⟨g₁, g₂, hrun, hassign, h₂⟩ := hgrown fuel hfuel
    have hnotEmpty : ¬ t.entities.isEmpty = true := fun h => hempty (List.isEmpty_iff.mp h)
    refine ⟨⟨g₂.partitions ++ List.replicate (config.k - g₂.partitions.length) ∅,
      computeCutEdges t g₂.nodeToPartition, g₂.nodeToPartition⟩, ?_, ⟨?_, ?_, ?_⟩, ?_⟩
    · rw [partitionKway, if_neg hlt, if_neg hnotEmpty]
      dsimp only [bind, Except.bind]
      rw [← hnodes, ← heff, hpad]
      dsimp only
      rw [hrun]
      dsimp only
      rw [hassign]
      rfl
    · exact h₂.parted.pad (min_le_left config.k nodes.length)
    · intro v
      exact (h₂.known v).trans (by simp)
    · exact fun u v => mem_computeCutEdges
    · intro seeds hsome i s hs hik hin hent
      have hpadded := PartitionConfig.getElem?_padded hleading hsome hs (by omega)
      apply h₂.kept
      exact hplaced (s, i) (List.mk_mem_zipIdx_iff_getElem?.mpr hpadded) ((hmem s).mpr hent)

theorem partitionKway_partitions_fivePath : ∃ bound, ∀ fuel, bound ≤ fuel →
    ∃ r, partitionKway fuel id id id fivePath ⟨2, 3, some [1, 4]⟩ = .ok r ∧
      r.IsPartition fivePath 2 ∧
        ∀ seeds, some [1, 4] = some seeds → ∀ i s, seeds[i]? = some s → i < 2 →
          i < fivePath.entities.toFinset.card → s ∈ fivePath.entities → r.nodeToPartition s = some i := by
  apply partitionKway_partitions fivePath ⟨2, 3, some [1, 4]⟩ id id id (le_refl 2)
  intro seeds hseeds
  cases hseeds
  decide

end SqliteGraph.Algo
