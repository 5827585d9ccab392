import SqliteGraph.Algo.BfsPartition
import SqliteGraph.Lib.HashOrder

/-! Refining a partition into two by moving one node at a time; the partition returned is the best one met. -/
namespace SqliteGraph.Algo
open Lib Sqlite

/-- The subtraction from 1 overflows for any partition but the first two. -/
def otherPartition (partition : Nat) : Option Nat := if partition ≤ 1 then some (1 - partition) else none

/-- Only the edges that leave the node are counted. -/
def moveGain (t : Tables) (m : Int64 → Option Nat) (node : Int64) (fromPartition toPartition : Nat) : Int :=
  let edgesToOther := (fetchOutgoing t node).countP fun neighbor => decide (m neighbor = some toPartition)
  let edgesWithin := (fetchOutgoing t node).countP fun neighbor =>
    decide (m neighbor = some fromPartition ∧ neighbor ≠ node)
  (edgesToOther : Int) - edgesWithin

/-- The move of a node replaces the best move if it gains more; `none` is a panic. -/
def betterMove (t : Tables) (m : Int64 → Option Nat) (best : Option (Int64 × Nat) × Int) (node : Int64) :
    Option (Option (Int64 × Nat) × Int) :=
  match m node with
  | none => some best
  | some fromPartition =>
    (otherPartition fromPartition).map fun toPartition =>
      let gain := moveGain t m node fromPartition toPartition
      if best.2 < gain then (some (node, fromPartition), gain) else best

/-- The two parts as they are refined, and the best ones met. -/
structure Refinement where
  partitions : List (Finset Int64)
  nodeToPartition : Int64 → Option Nat
  bestPartitions : List (Finset Int64)
  bestMapping : Int64 → Option Nat
  bestCutSize : Nat

def Refinement.applyMove (t : Tables) (s : Refinement) (node : Int64) (fromPartition toPartition : Nat) :
    Refinement :=
  let partitions := (s.partitions.modify fromPartition fun p => p.erase node).modify toPartition (insert node)
  let nodeToPartition := Function.update s.nodeToPartition node (some toPartition)
  let currentCutSize := (computeCutEdges t nodeToPartition).length
  if currentCutSize < s.bestCutSize then
    ⟨partitions, nodeToPartition, partitions, nodeToPartition, currentCutSize⟩
  else { s with partitions, nodeToPartition }

/-- At most `max_iterations` moves, none that gains nothing. -/
def refineLoop (t : Tables) (nodes : List Int64) : Nat → Refinement → Option Refinement
  | 0, s => some s
  | iterations + 1, s =>
    match nodes.foldlM (betterMove t s.nodeToPartition) (none, 0) with
    | none => none
    | some (none, _) => some s
    | some (some (node, fromPartition), _) =>
      match otherPartition fromPartition with
      | none => none
      | some toPartition => refineLoop t nodes iterations (s.applyMove t node fromPartition toPartition)

/-- A node in several of the given sets is mapped to the last of them. -/
def givenMapping (init : List (Finset Int64)) (node : Int64) : Option Nat :=
  (init.zipIdx.reverse.find? fun x => decide (node ∈ x.1)).map Prod.snd

/-- Fewer than two sets do not count as a partition. -/
def initialPartition (fuel : Nat) (t : Tables) (initial : Option (List (Finset Int64))) :
    Except SqliteGraphError (List (Finset Int64) × (Int64 → Option Nat)) :=
  match initial with
  | some init =>
    if init.length < 2 then (partitionBfsLevel fuel t [] 2).map fun r => (r.partitions, r.nodeToPartition)
    else .ok (init, givenMapping init)
  | none => (partitionBfsLevel fuel t [] 2).map fun r => (r.partitions, r.nodeToPartition)

/-- `choices` gives the order in which the set of all nodes is met; the result is `none` after a panic. -/
def partitionGreedy (fuel : Nat) (choices : Nat → Nat) (t : Tables) (initial : Option (List (Finset Int64)))
    (maxIterations : Nat) : Except SqliteGraphError (Option PartitionResult) :=
  if t.entities.isEmpty then .ok (some ⟨[∅, ∅], [], fun _ => none⟩)
  else do
    let (partitions, m) ← initialPartition fuel t initial
    let partitions := (partitions ++ List.replicate (2 - partitions.length) ∅).take 2
    let s := refineLoop t (drain choices t.entities.dedup) maxIterations
      ⟨partitions, m, partitions, m, (computeCutEdges t m).length⟩
    pure (s.map fun s => ⟨s.bestPartitions, computeCutEdges t s.bestMapping, s.bestMapping⟩)

section Parts
variable {t : Tables} {m m₀ : Int64 → Option Nat} {parts : List (Finset Int64)} {s : Refinement}
  {node : Int64} {p q k : Nat} {seeds : List Int64}

theorem otherPartition_lt (hp : p < 2) : ∃ q, otherPartition p = some q ∧ q < 2 ∧ q ≠ p := by
  refine ⟨1 - p, ?_, ?_, ?_⟩
  · rw [otherPartition, if_pos (Nat.le_of_lt_succ hp)]
  · omega
  · omega

/-- A node taken out of its part and put into the other. -/
theorem Parted.applyMove (h : Parted 2 parts m) (hm : m node = some p) (hq : q < 2) (hne : q ≠ p) :
    Parted 2 ((parts.modify p fun part => part.erase node).modify q (insert node))
      (Function.update m node (some q)) := by
  refine ⟨by rw [List.length_modify, List.length_modify, h.length], ?_⟩
  intro i v
  have hold := h.mapped i v
  rw [List.getElem?_modify, List.getElem?_modify, Function.update_apply]
  cases hget : parts[i]? with
  | none =>
    have hlen : 2 ≤ i := h.length ▸ List.getElem?_eq_none_iff.mp hget
    have hno : ¬ m v = some i := by
      intro hv
      have hi := h.lt hv
      omega
    have hqi : q ≠ i := by omega
    by_cases hv : v = node <;> simp [hv, hqi, hno]
  | some part =>
    rw [hget] at hold
    have hpart : v ∈ part ↔ m v = some i := by simpa using hold
    by_cases hv : v = node
    · subst hv
      by_cases hi : q = i
      · subst hi
        simp
      · by_cases hpi : p = i
        · subst hpi
          simp [hne]
        · have hnot : v ∉ part := by
            intro hin
            exact hpi (Option.some.inj (hm.symm.trans (hpart.mp hin)))
          simp [hi, hpi, hnot]
    · by_cases hi : q = i <;> by_cases hpi : p = i <;> simp [hi, hpi, hv, hpart]

/-- The search for the best move does not panic, and the move found is that of a node in a part. -/
theorem foldlM_betterMove (h : Parted 2 parts m) (nodes : List Int64) {best : Option (Int64 × Nat) × Int}
    (hbest : ∀ node p, best.1 = some (node, p) → m node = some p) :
    ∃ best', nodes.foldlM (betterMove t m) best = some best' ∧
      ∀ node p, best'.1 = some (node, p) → m node = some p := by
  induction nodes generalizing best with
  | nil => exact ⟨best, rfl, hbest⟩
  | cons v nodes ih =>
    rw [List.foldlM_cons]
    cases hv : m v with
    | none =>
      have hstep : betterMove t m best v = some best := by rw [betterMove, hv]
      rw [hstep]
      exact ih hbest
    | some p =>
      obtain ⟨q, hq, -⟩ := otherPartition_lt (h.lt hv)
      have hstep : betterMove t m best v =
          some (if best.2 < moveGain t m v p q then (some (v, p), moveGain t m v p q) else best) := by
        simp only [betterMove, hv, hq, Option.map_some]
      rw [hstep]
      apply ih
      intro node p' hsome
      split at hsome
      · cases hsome
        exact hv
      · exact hbest node p' hsome

/-- The best partition is one of those met, and the edges cut are no more than at the start. -/
structure Refines (t : Tables) (m₀ : Int64 → Option Nat) (s : Refinement) : Prop where
  current : Parted 2 s.partitions s.nodeToPartition
  best : Parted 2 s.bestPartitions s.bestMapping
  kept : ∀ v, (s.nodeToPartition v).isSome = (m₀ v).isSome
  bestKept : ∀ v, (s.bestMapping v).isSome = (m₀ v).isSome
  size : s.bestCutSize = (computeCutEdges t s.bestMapping).length
  fewer : s.bestCutSize ≤ (computeCutEdges t m₀).length

theorem Parted.start (h : Parted 2 parts m) :
    Refines t m ⟨parts, m, parts, m, (computeCutEdges t m).length⟩ :=
  ⟨h, h, fun _ => rfl, fun _ => rfl, rfl, le_refl _⟩

theorem Refines.applyMove (h : Refines t m₀ s) (hm : s.nodeToPartition node = some p) (hq : q < 2)
    (hne : q ≠ p) : Refines t m₀ (s.applyMove t node p q) := by
  have hmoved := h.current.applyMove hm hq hne
  have hkept : ∀ v, (Function.update s.nodeToPartition node (some q) v).isSome = (m₀ v).isSome := by
    intro v
    rw [← h.kept v, Function.update_apply]
    by_cases hv : v = node
    · rw [if_pos hv, hv, hm]
      rfl
    · rw [if_neg hv]
  unfold Refinement.applyMove
  dsimp only
  split
  · rename_i hless
    exact ⟨hmoved, hmoved, hkept, hkept, rfl, hless.le.trans h.fewer⟩
  · exact ⟨hmoved, h.best, hkept, h.bestKept, h.size, h.fewer⟩

theorem Refines.loop (h : Refines t m₀ s) (nodes : List Int64) (iterations : Nat) :
    ∃ s', refineLoop t nodes iterations s = some s' ∧ Refines t m₀ s' := by
  induction iterations generalizing s with
  | zero => exact ⟨s, rfl, h⟩
  | succ iterations ih =>
    have hnone : ∀ node p, ((none, 0) : Option (Int64 × Nat) × Int).1 = some (node, p) →
        s.nodeToPartition node = some p := by
      intro node p hsome
      cases hsome
    obtain ⟨⟨move, gain⟩, hbest, hmove⟩ := foldlM_betterMove (t := t) h.current nodes hnone
    rw [refineLoop, hbest]
    cases move with
    | none => exact ⟨s, rfl, h⟩
    | some x =>
      obtain ⟨node, p⟩ := x
      have hm := hmove node p rfl
      obtain ⟨q, hq, hlt, hne⟩ := otherPartition_lt (h.current.lt hm)
      dsimp only
      rw [hq]
      exact ih (h.applyMove hm hlt hne)

/-- Two disjoint sets are mapped as they are given. -/
theorem parted_given {a b : Finset Int64} (hd : Disjoint a b) : Parted 2 [a, b] (givenMapping [a, b]) := by
  refine ⟨rfl, ?_⟩
  intro i v
  have hnot : v ∈ a → v ∉ b := fun ha hb => Finset.disjoint_left.mp hd ha hb
  have hmap : givenMapping [a, b] v = if v ∈ b then some 1 else if v ∈ a then some 0 else none := by
    by_cases hb : v ∈ b <;> by_cases ha : v ∈ a <;> simp [givenMapping, List.zipIdx_cons, List.find?, ha, hb]
  rw [hmap]
  rcases i with _ | _ | i
  · by_cases ha : v ∈ a
    · simp [ha, hnot ha]
    · simp [ha]
  · by_cases hb : v ∈ b
    · simp [hb]
    · simp [hb]
  · by_cases hb : v ∈ b <;> by_cases ha : v ∈ a <;> simp [ha, hb]

theorem PartitionResult.IsVoronoi.parted {r : PartitionResult} (h : r.IsVoronoi t seeds 2) :
    Parted 2 r.partitions r.nodeToPartition :=
  ⟨h.length, fun i v => (h.parts i v).trans (h.mapped i v).symm⟩

theorem partitionBfsLevel_parted (t : Tables) : ∃ bound, ∀ fuel, bound ≤ fuel →
    ∃ r, partitionBfsLevel fuel t [] 2 = .ok r ∧ Parted 2 r.partitions r.nodeToPartition := by
  by_cases hempty : t.entities = []
  · refine ⟨0, fun fuel _ => ⟨_, partitionBfsLevel_empty (le_refl 2) hempty, ?_⟩⟩
    exact (isVoronoi_empty hempty : PartitionResult.IsVoronoi _ t [] 2).parted
  · obtain ⟨bound, hlevels⟩ := partitionBfsLevel_run (le_refl 2) List.nodup_nil hempty
    refine ⟨bound, fun fuel hfuel => ?_⟩
    obtain ⟨r, hr, hvoronoi⟩ := hlevels fuel hfuel
    exact ⟨r, hr, hvoronoi.parted⟩

/-- The levels are taken where no partition is given. -/
theorem initialPartition_parted (t : Tables) {initial : Option (List (Finset Int64))}
    (hinit : ∀ init, initial = some init → init.length < 2 ∨ ∃ a b, init = [a, b] ∧ Disjoint a b) :
    ∃ bound, ∀ fuel, bound ≤ fuel → ∃ parts m, initialPartition fuel t initial = .ok (parts, m) ∧
      Parted 2 parts m := by
  obtain ⟨bound, hlevels⟩ := partitionBfsLevel_parted t
  refine ⟨bound, fun fuel hfuel => ?_⟩
  obtain ⟨r, hr, htwo⟩ := hlevels fuel hfuel
  have hbfs : (partitionBfsLevel fuel t [] 2).map (fun r => (r.partitions, r.nodeToPartition)) =
      .ok (r.partitions, r.nodeToPartition) := by
    rw [hr]
    rfl
  cases initial with
  | none => exact ⟨r.partitions, r.nodeToPartition, hbfs, htwo⟩
  | some init =>
    rcases hinit init rfl with hshort | ⟨a, b, rfl, hd⟩
    · refine ⟨r.partitions, r.nodeToPartition, ?_, htwo⟩
      rw [initialPartition, if_pos hshort]
      exact hbfs
    · exact ⟨[a, b], givenMapping [a, b], rfl, parted_given hd⟩

/-- What a refinement is to be: two parts of the same nodes, and no more edges cut than at the start. -/
structure PartitionResult.IsRefinement (r : PartitionResult) (t : Tables) (m : Int64 → Option Nat) : Prop where
  parts : Parted 2 r.partitions r.nodeToPartition
  kept : ∀ v ∈ t.entities, (r.nodeToPartition v).isSome = (m v).isSome
  cut : ∀ u v, (u, v) ∈ r.cutEdges ↔ u ∈ t.entities ∧ Joined t u v ∧
    ∃ i j, i ≠ j ∧ r.nodeToPartition u = some i ∧ r.nodeToPartition v = some j
  fewer : r.cutEdges.length ≤ (computeCutEdges t m).length

theorem Refines.result (h : Refines t m s) :
    PartitionResult.IsRefinement ⟨s.bestPartitions, computeCutEdges t s.bestMapping, s.bestMapping⟩ t m where
  parts := h.best
  kept v _ := h.bestKept v
  cut _ _ := mem_computeCutEdges
  fewer := h.size ▸ h.fewer

/-- Whatever the order of the nodes and the number of moves, the greedy refinement does not panic and
returns two disjoint sets of the same nodes that cut no more edges than the partition it started from. -/
theorem partitionGreedy_refines (t : Tables) (choices : Nat → Nat) (initial : Option (List (Finset Int64)))
    (maxIterations : Nat)
    (hinit : ∀ init, initial = some init → init.length < 2 ∨ ∃ a b, init = [a, b] ∧ Disjoint a b) :
    ∃ bound, ∀ fuel, bound ≤ fuel → ∃ parts m r, initialPartition fuel t initial = .ok (parts, m) ∧
      partitionGreedy fuel choices t initial maxIterations = .ok (some r) ∧ r.IsRefinement t m := by
  obtain ⟨bound, hstart⟩ := initialPartition_parted t hinit
  refine ⟨bound, fun fuel hfuel => ?_⟩
  obtain ⟨parts, m, hrun, htwo⟩ := hstart fuel hfuel
  by_cases hempty : t.entities = []
  · refine ⟨parts, m, ⟨[∅, ∅], [], fun _ => none⟩, hrun, ?_, ?_⟩
    · simp [partitionGreedy, hempty]
    · refine ⟨⟨rfl, ?_⟩, ?_, ?_, ?_⟩
      · intro i v
        rcases i with _ | _ | i <;> simp
      · simp [hempty]
      · simp [hempty]
      · exact Nat.zero_le _
  · obtain ⟨s, hloop, hs⟩ := htwo.start.loop (t := t) (drain choices t.entities.dedup) maxIterations
    refine ⟨parts, m, _, hrun, ?_, hs.result⟩
    have hnotEmpty : ¬ t.entities.isEmpty = true := fun h => hempty (List.isEmpty_iff.mp h)
    have hresize : (parts ++ List.replicate (2 - parts.length) ∅).take 2 = parts := by
      rw [htwo.length, Nat.sub_self, List.replicate_zero, List.append_nil]
      exact List.take_of_length_le htwo.length.le
    rw [partitionGreedy, if_neg hnotEmpty, hrun]
    dsimp only [bind, Except.bind]
    rw [hresize, hloop]
    rfl

theorem partitionGreedy_refines_fivePath : ∃ bound, ∀ fuel, bound ≤ fuel → ∃ parts m r,
    initialPartition fuel fivePath (some [{1, 3}, {2, 4, 5}]) = .ok (parts, m) ∧
      partitionGreedy fuel id fivePath (some [{1, 3}, {2, 4, 5}]) 10 = .ok (some r) ∧
        r.IsRefinement fivePath m := by
  apply partitionGreedy_refines fivePath id (some [{1, 3}, {2, 4, 5}]) 10
  intro init hinit
  cases hinit
  exact .inr ⟨{1, 3}, {2, 4, 5}, rfl, by decide⟩

end Parts

end SqliteGraph.Algo
