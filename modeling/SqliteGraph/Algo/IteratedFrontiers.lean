import SqliteGraph.Algo.DominanceFrontiers
import SqliteGraph.Lib.Search

/-! Iterated dominance frontiers: the rounds against the least fixed point. -/
namespace SqliteGraph.Algo
open Lib Sqlite

structure IteratedDominanceFrontierResult where
  phiNodes : List Int64
  iterations : Nat

def frontierNodes (frontiers : NodeSets) (node : Int64) : List Int64 := (frontiers node).getD []

/-- The frontiers of some nodes, without the nodes that are known. -/
def newNodes (frontiers : NodeSets) (phiNodes current : List Int64) : List Int64 :=
  ((current.flatMap (frontierNodes frontiers)).filter (· ∉ phiNodes)).dedup

def frontierIterations : Nat := 100

/-- The rounds that are left, the nodes so far, those of the last round, and the rounds so far. -/
def iterateFrontiers (frontiers : NodeSets) :
    Nat → List Int64 → List Int64 → Nat → Except SqliteGraphError IteratedDominanceFrontierResult
  | 0, _, _, _ => .error (.queryError
      s!"Iterated dominance frontier failed to converge after {frontierIterations} iterations")
  | rounds + 1, phiNodes, current, iterations =>
    let fresh := newNodes frontiers phiNodes current
    if fresh.isEmpty then .ok ⟨phiNodes, iterations⟩
    else iterateFrontiers frontiers rounds (phiNodes ++ fresh) fresh (iterations + 1)

/-- What is done with the frontiers once they are there. -/
def placePhiNodes (frontiers : NodeSets) (definitionNodes : List Int64) :
    Except SqliteGraphError IteratedDominanceFrontierResult :=
  if definitionNodes.isEmpty then .ok ⟨[], 0⟩
  else iterateFrontiers frontiers frontierIterations definitionNodes definitionNodes 0

def iteratedDominanceFrontiers (fuel : Nat) (t : Tables) (result : DominatorResult)
    (definitionNodes : List Int64) : Except SqliteGraphError IteratedDominanceFrontierResult := do
  let frontiers ← dominanceFrontiers fuel t result
  placePhiNodes frontiers definitionNodes

section Rounds
variable {frontiers : NodeSets} {definitions phiNodes current : List Int64} {m : Int64}
  {i j k iterations : Nat} {result : IteratedDominanceFrontierResult}

/-- Frontiers lead from a definition to the node in at most some steps. -/
def Within (frontiers : NodeSets) (definitions : List Int64) (j : Nat) (m : Int64) : Prop :=
  ∃ s ∈ definitions, ∃ k ≤ j, Walk (frontierNodes frontiers) s k m

theorem Within.mono (h : Within frontiers definitions i m) (hij : i ≤ j) :
    Within frontiers definitions j m := by
  obtain ⟨s, hs, k, hk, hw⟩ := h
  exact ⟨s, hs, k, hk.trans hij, hw⟩

theorem within_zero : Within frontiers definitions 0 m ↔ m ∈ definitions := by
  constructor
  · rintro ⟨s, hs, k, hk, hw⟩
    obtain rfl := Nat.le_zero.mp hk
    cases hw
    exact hs
  · exact fun hm => ⟨m, hm, 0, le_rfl, .nil⟩

theorem within_succ : Within frontiers definitions (j + 1) m ↔ m ∈ definitions ∨
    ∃ c, Within frontiers definitions j c ∧ m ∈ frontierNodes frontiers c := by
  constructor
  · rintro ⟨s, hs, k, hk, hw⟩
    cases hw with
    | nil => exact .inl hs
    | @step k u _ hw hm => exact .inr ⟨u, ⟨s, hs, k, by omega, hw⟩, hm⟩
  · rintro (hm | ⟨c, ⟨s, hs, k, hk, hw⟩, hm⟩)
    · exact ⟨m, hm, 0, Nat.zero_le _, .nil⟩
    · exact ⟨s, hs, k + 1, by omega, hw.step hm⟩

/-- No node is farther away. -/
def ClosedAt (frontiers : NodeSets) (definitions : List Int64) (j : Nat) : Prop :=
  ∀ m, Within frontiers definitions (j + 1) m → Within frontiers definitions j m

theorem ClosedAt.within (h : ClosedAt frontiers definitions j)
    (hm : Within frontiers definitions i m) : Within frontiers definitions j m := by
  induction i generalizing m with
  | zero => exact hm.mono (Nat.zero_le _)
  | succ i ih =>
    rcases within_succ.mp hm with hm | ⟨c, hc, hm⟩
    · exact (within_zero.mpr hm).mono (Nat.zero_le _)
    · exact h m (within_succ.mpr (.inr ⟨c, ih hc, hm⟩))

/-- After some rounds: all nodes so far, and those of the last round. -/
structure RoundInv (frontiers : NodeSets) (definitions : List Int64) (j : Nat)
    (phiNodes current : List Int64) : Prop where
  known : ∀ m, m ∈ phiNodes ↔ Within frontiers definitions j m
  last : ∀ m, m ∈ current ↔ Within frontiers definitions j m ∧
    ∀ i < j, ¬ Within frontiers definitions i m

theorem RoundInv.start : RoundInv frontiers definitions 0 definitions definitions :=
  ⟨fun _ => within_zero.symm, fun m => by simp [within_zero]⟩

theorem RoundInv.mem_newNodes (h : RoundInv frontiers definitions j phiNodes current) :
    m ∈ newNodes frontiers phiNodes current ↔ Within frontiers definitions (j + 1) m ∧
      ¬ Within frontiers definitions j m := by
  rw [newNodes, List.mem_dedup, List.mem_filter, List.mem_flatMap, decide_eq_true_eq, h.known]
  refine and_congr_left fun hnot => ?_
  constructor
  · rintro ⟨c, hc, hm⟩
    exact within_succ.mpr (.inr ⟨c, ((h.last c).mp hc).1, hm⟩)
  · intro hm
    rcases within_succ.mp hm with hm | ⟨c, hc, hm⟩
    · exact absurd ((within_zero.mpr hm).mono (Nat.zero_le _)) hnot
    · refine ⟨c, (h.last c).mpr ⟨hc, fun i hi hci => hnot ?_⟩, hm⟩
      exact (within_succ.mpr (.inr ⟨c, hci, hm⟩)).mono hi

theorem RoundInv.newNodes_nil (h : RoundInv frontiers definitions j phiNodes current) :
    (newNodes frontiers phiNodes current).isEmpty = true ↔ ClosedAt frontiers definitions j := by
  rw [List.isEmpty_iff, List.eq_nil_iff_forall_not_mem]
  simp only [h.mem_newNodes, not_and, not_not]
  rfl

theorem RoundInv.next (h : RoundInv frontiers definitions j phiNodes current) :
    RoundInv frontiers definitions (j + 1) (phiNodes ++ newNodes frontiers phiNodes current)
      (newNodes frontiers phiNodes current) := by
  constructor
  · intro m
    rw [List.mem_append, h.known, h.mem_newNodes]
    constructor
    · rintro (hm | hm)
      · exact hm.mono (Nat.le_succ j)
      · exact hm.1
    · intro hm
      by_cases hold : Within frontiers definitions j m
      · exact .inl hold
      · exact .inr ⟨hm, hold⟩
  · intro m
    rw [h.mem_newNodes]
    refine and_congr_right fun _ => ⟨fun hnot i hi hm => hnot (hm.mono (Nat.le_of_lt_succ hi)), ?_⟩
    exact fun hnot => hnot j (Nat.lt_succ_self j)

/-- The rounds end within their number exactly if some round before has found all nodes. -/
theorem RoundInv.run (h : RoundInv frontiers definitions j phiNodes current)
    (hclosed : ∃ i, j ≤ i ∧ i < j + k ∧ ClosedAt frontiers definitions i) :
    ∃ result, iterateFrontiers frontiers k phiNodes current iterations = .ok result ∧
      ∀ m, m ∈ result.phiNodes ↔ ∃ i, Within frontiers definitions i m := by
  induction k generalizing j phiNodes current iterations with
  | zero =>
    obtain ⟨i, hji, hij, -⟩ := hclosed
    omega
  | succ k ih =>
    rw [iterateFrontiers]
    split
    · rename_i hempty
      have hall := h.newNodes_nil.mp hempty
      refine ⟨_, rfl, fun m => ?_⟩
      rw [h.known]
      exact ⟨fun hm => ⟨j, hm⟩, fun ⟨i, hm⟩ => hall.within hm⟩
    · rename_i hmore
      obtain ⟨i, hji, hij, hall⟩ := hclosed
      refine ih h.next ⟨i, ?_, by omega, hall⟩
      refine Nat.succ_le_of_lt (lt_of_le_of_ne hji ?_)
      rintro rfl
      exact hmore (h.newNodes_nil.mpr hall)

theorem RoundInv.closed (h : RoundInv frontiers definitions j phiNodes current)
    (hrun : iterateFrontiers frontiers k phiNodes current iterations = .ok result) :
    ∃ i, j ≤ i ∧ i < j + k ∧ ClosedAt frontiers definitions i := by
  induction k generalizing j phiNodes current iterations with
  | zero => cases hrun
  | succ k ih =>
    rw [iterateFrontiers] at hrun
    split at hrun
    · rename_i hempty
      exact ⟨j, le_rfl, by omega, h.newNodes_nil.mp hempty⟩
    · obtain ⟨i, hji, hij, hall⟩ := ih h.next hrun
      exact ⟨i, by omega, by omega, hall⟩

end Rounds

end SqliteGraph.Algo
