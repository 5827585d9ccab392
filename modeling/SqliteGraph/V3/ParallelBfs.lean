import SqliteGraph.Lib.HashOrder
import SqliteGraph.Lib.Search

/-! Breadth-first search by a queue, and level by level in chunks. -/
namespace SqliteGraph.V3
open Lib

structure BfsResult where
  visitedOrder : List Int64
  distances : AList (fun _ : Int64 => Nat)
  totalVisited : Nat

namespace BfsResult

def new : BfsResult := ⟨[], ∅, 0⟩

def addVisit (r : BfsResult) (node : Int64) (distance : Nat) : BfsResult where
  visitedOrder := r.visitedOrder ++ [node]
  distances := r.distances.insert node distance
  totalVisited := r.totalVisited + 1

/-- The result of a search that has met `seen`, in this order. -/
structure Lists (r : BfsResult) (seen : List (Int64 × Nat)) : Prop where
  order : r.visitedOrder = seen.map Prod.fst
  distances : ∀ v d, r.distances.lookup v = some d ↔ (v, d) ∈ seen
  total : r.totalVisited = seen.length

theorem lists_new : new.Lists [] := ⟨rfl, by simp [new], rfl⟩

variable {r : BfsResult} {seen : List (Int64 × Nat)} {v : Int64} {d : Nat}

theorem Lists.addVisit (h : r.Lists seen) (hv : v ∉ seen.map Prod.fst) :
    (r.addVisit v d).Lists (seen ++ [(v, d)]) where
  order := by simp [BfsResult.addVisit, h.order]
  distances w e := by
    by_cases hw : w = v
    · subst hw
      have hnot : ∀ e, (w, e) ∉ seen := fun e he => hv (List.mem_map_of_mem he)
      simp [BfsResult.addVisit, hnot, eq_comm]
    · simp [BfsResult.addVisit, AList.lookup_insert_ne hw, h.distances, hw]
  total := by simp [BfsResult.addVisit, h.total]

theorem Lists.addAll {new : List Int64} (h : r.Lists seen) (hnew : new.Nodup)
    (hv : ∀ v ∈ new, v ∉ seen.map Prod.fst) :
    (new.foldl (fun r v => r.addVisit v d) r).Lists (seen ++ new.map (·, d)) := by
  induction new generalizing r seen with
  | nil => simpa using h
  | cons v new ih =>
    rw [List.nodup_cons] at hnew
    have hstep := ih (h.addVisit (d := d) (hv v (by simp))) hnew.2 fun w hw => by
      have hne : w ≠ v := fun he => hnew.1 (he ▸ hw)
      simpa [hne] using hv w (by simp [hw])
    simpa using hstep

end BfsResult

section Sequential
variable {ε : Type}

/-- The new neighbor is queued and recorded. -/
def enqueue (distance : Nat) (s : List (Int64 × Nat) × BfsResult) (neighbor : Int64) :
    List (Int64 × Nat) × BfsResult :=
  (s.1 ++ [(neighbor, distance)], s.2.addVisit neighbor distance)

/-- The loop of `sequential_bfs`; `none` is a loop that goes on. -/
def sequentialLoop (neighbors : Int64 → Except ε (List Int64)) :
    Nat → Finset Int64 → List (Int64 × Nat) → BfsResult → Option BfsResult
  | _, _, [], result => some result
  | 0, _, _ :: _, _ => none
  | fuel + 1, visited, (node, distance) :: queue, result =>
    match neighbors node with
    | .ok ns =>
      let (visited, queue, result) :=
        ns.foldl (visit (enqueue (distance + 1))) (visited, queue, result)
      sequentialLoop neighbors fuel visited queue result
    | .error _ => sequentialLoop neighbors fuel visited queue result

/-- Neighbors that cannot be read are passed over. -/
def sequentialBfs (neighbors : Int64 → Except ε (List Int64)) (fuel : Nat) (start : Int64) :
    Option BfsResult :=
  sequentialLoop neighbors fuel {start} [(start, 0)] (BfsResult.new.addVisit start 0)

end Sequential

structure ChunkResult where
  newNodes : List Int64
  distances : AList (fun _ : Int64 => Nat)

namespace ChunkResult

def new : ChunkResult := ⟨[], ∅⟩

def addNode (r : ChunkResult) (node : Int64) (distance : Nat) : ChunkResult :=
  ⟨r.newNodes ++ [node], r.distances.insert node distance⟩

end ChunkResult

/-- The chunks of a level, from its front; `fuel` counts the nodes left. -/
def chunkLoop (chunkSize : Nat) : Nat → List Int64 → List (List Int64)
  | 0, _ => []
  | _, [] => []
  | fuel + 1, nodes => nodes.take chunkSize :: chunkLoop chunkSize fuel (nodes.drop chunkSize)

def partitionNodes (nodes : List Int64) (numChunks : Nat) : List (List Int64) :=
  if numChunks = 0 ∨ nodes.isEmpty ∨ nodes.length ≤ numChunks then [nodes]
  else chunkLoop ((nodes.length + numChunks - 1) / numChunks) nodes.length nodes

theorem flatten_chunkLoop {chunkSize fuel : Nat} {nodes : List Int64} (hs : 0 < chunkSize)
    (hf : nodes.length ≤ fuel) : (chunkLoop chunkSize fuel nodes).flatten = nodes := by
  induction fuel generalizing nodes with
  | zero => simp [chunkLoop, List.length_eq_zero_iff.mp (Nat.le_zero.mp hf)]
  | succ fuel ih =>
    cases nodes with
    | nil => rfl
    | cons node nodes =>
      rw [chunkLoop, List.flatten_cons, ih, List.take_append_drop]
      · rw [List.length_drop, List.length_cons]
        rw [List.length_cons] at hf
        omega
      · simp

theorem flatten_partitionNodes (nodes : List Int64) (numChunks : Nat) :
    (partitionNodes nodes numChunks).flatten = nodes := by
  unfold partitionNodes
  split
  · simp
  · rename_i h
    simp only [not_or, not_le] at h
    refine flatten_chunkLoop (Nat.div_pos ?_ (Nat.pos_of_ne_zero h.1)) (le_refl _)
    omega

/-- How each level is split into chunks, and the order in which the results are merged: of the
chunks, and of each chunk's hash map. -/
structure BfsSchedule where
  split : Nat → List Int64 → List (List Int64)
  covers : ∀ level nodes, (split level nodes).flatten.Perm nodes
  chunkChoices : Nat → Nat → Nat
  entryChoices : Nat → Nat → Nat → Nat

namespace BfsSchedule

/-- What the code does with `numCpus` threads: its own split, the chunks merged in their order. -/
def ofCpus (numCpus : Nat) (entryChoices : Nat → Nat → Nat → Nat) : BfsSchedule where
  split _ nodes := partitionNodes nodes numCpus
  covers _ nodes := .of_eq (flatten_partitionNodes nodes numCpus)
  chunkChoices _ _ := 0
  entryChoices := entryChoices

end BfsSchedule

section Parallel
variable {ε : Type}

/-- A neighbor not visited before the level, and not yet met in this chunk, is recorded. -/
def visitInChunk (visited : Finset Int64) (distance : Nat) (s : Finset Int64 × ChunkResult)
    (neighbor : Int64) : Finset Int64 × ChunkResult :=
  if neighbor ∈ visited then s else visit (fun r n => r.addNode n distance) s neighbor

def processNode (neighbors : Int64 → Except ε (List Int64)) (visited : Finset Int64)
    (distance : Nat) (s : Finset Int64 × ChunkResult) (node : Int64) : Finset Int64 × ChunkResult :=
  match neighbors node with
  | .ok ns => ns.foldl (visitInChunk visited distance) s
  | .error _ => s

/-- What one thread does with its chunk. -/
def processChunk (neighbors : Int64 → Except ε (List Int64)) (visited : Finset Int64)
    (distance : Nat) (chunk : List Int64) : ChunkResult :=
  (chunk.foldl (processNode neighbors visited distance) (∅, .new)).2

/-- The node is recorded, and put into the next level. -/
def mergeNode (s : Finset Int64 × BfsResult × List Int64) (entry : Sigma fun _ : Int64 => Nat) :
    Finset Int64 × BfsResult × List Int64 :=
  visit (fun r node => (r.1.addVisit node entry.2, r.2 ++ [node])) s entry.1

def mergeChunk (choices : Nat → Nat) (s : Finset Int64 × BfsResult × List Int64)
    (chunk : ChunkResult) : Finset Int64 × BfsResult × List Int64 :=
  (drain choices chunk.distances.entries).foldl mergeNode s

/-- The merge phase after all chunks of a level. -/
def mergeChunks (schedule : BfsSchedule) (distance : Nat) (chunks : List ChunkResult)
    (s : Finset Int64 × BfsResult × List Int64) : Finset Int64 × BfsResult × List Int64 :=
  ((drain (schedule.chunkChoices distance) chunks).zipIdx).foldl
    (fun s chunk => mergeChunk (schedule.entryChoices distance chunk.2) s chunk.1) s

/-- The loop of `parallel_bfs_impl`; `none` is a loop that goes on. -/
def parallelLoop (neighbors : Int64 → Except ε (List Int64)) (schedule : BfsSchedule) :
    Nat → Finset Int64 → List Int64 → Nat → BfsResult → Option BfsResult
  | _, _, [], _, result => some result
  | 0, _, _ :: _, _, _ => none
  | fuel + 1, visited, node :: level, distance, result =>
    let distance := distance + 1
    let chunks := (schedule.split distance (node :: level)).map
      (processChunk neighbors visited distance)
    let (visited, result, nextLevel) := mergeChunks schedule distance chunks (visited, result, [])
    parallelLoop neighbors schedule fuel visited nextLevel distance result

def parallelBfsImpl (neighbors : Int64 → Except ε (List Int64)) (schedule : BfsSchedule)
    (fuel : Nat) (start : Int64) : Option BfsResult :=
  parallelLoop neighbors schedule fuel {start} [start] 0 (BfsResult.new.addVisit start 0)

end Parallel

end SqliteGraph.V3
