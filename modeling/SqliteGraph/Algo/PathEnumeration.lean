import SqliteGraph.Algo.ControlDependence
import SqliteGraph.Algo.NaturalLoops
import SqliteGraph.Lib.PathTree

/-! Enumeration of the execution paths of a control-flow graph, with and without pruning. -/
namespace SqliteGraph.Algo
open Lib Sqlite

inductive PathClassification
  | normal
  | error
  | degenerate
  | infinite
  deriving DecidableEq

structure EnumeratedPath where
  nodes : List Int64
  classification : PathClassification
  deriving DecidableEq

structure PathEnumerationPruningStats where
  pathsPruned : Nat
  totalConsidered : Nat
  reductionRatio : ℚ

structure PathEnumerationConfig where
  maxDepth : Nat
  maxPaths : Nat
  revisitCap : Nat
  exitNodes : Option (Finset Int64)
  errorNodes : Option (Finset Int64)

def PathEnumerationConfig.default : PathEnumerationConfig := ⟨100, 10000, 2, none, none⟩

structure PathEnumerationResult where
  paths : List EnumeratedPath
  normalPaths : List EnumeratedPath
  errorPaths : List EnumeratedPath
  degeneratePaths : List EnumeratedPath
  infinitePaths : List EnumeratedPath
  totalPathsFound : Nat
  pathsPrunedByBounds : Nat
  maxDepthReached : Nat
  pruningStats : Option PathEnumerationPruningStats

namespace PathEnumerationConfig
variable (config : PathEnumerationConfig)

def isExit (node : Int64) : Bool := config.exitNodes.any (node ∈ ·)

def isError (node : Int64) : Bool := config.errorNodes.any (node ∈ ·)

def isTerminal (node : Int64) (depth : Nat) : Bool :=
  config.isExit node || config.isError node || decide (config.maxDepth < depth)

def classify (node : Int64) (path : List Int64) : PathClassification :=
  if config.isError node then .error
  else if config.maxDepth < path.length then .degenerate
  else if config.isExit node then .normal
  else if ¬ path.Nodup then .infinite
  else .normal

end PathEnumerationConfig

/-- What the search changes; the last active loop header is at the end. -/
structure Enumeration where
  currentPath : List Int64
  visited : Int64 → Nat
  loopStack : List Int64
  allPaths : List EnumeratedPath
  totalFound : Nat
  prunedByBounds : Nat
  maxDepthReached : Nat
  pathsPruned : Nat
  totalConsidered : Nat

/-- The two searches differ in the loop headers that they follow and in the candidates that they admit. -/
structure Pruning where
  isLoopHeader : Int64 → Bool
  admits : List Int64 → List Int64 → Bool

namespace Enumeration

def start : Enumeration := ⟨[], fun _ => 0, [], [], 0, 0, 0, 0, 0⟩

def enter (pruning : Pruning) (node : Int64) (s : Enumeration) : Enumeration :=
  { s with
    currentPath := s.currentPath ++ [node]
    visited := Function.update s.visited node (s.visited node + 1)
    loopStack := if pruning.isLoopHeader node then s.loopStack ++ [node] else s.loopStack
    maxDepthReached := max s.maxDepthReached (s.currentPath.length + 1) }

def leave (pruning : Pruning) (node : Int64) (s : Enumeration) : Enumeration :=
  { s with
    currentPath := s.currentPath.dropLast
    visited := Function.update s.visited node (s.visited node - 1)
    loopStack := if pruning.isLoopHeader node then s.loopStack.dropLast else s.loopStack }

def record (maxPaths : Nat) (path : EnumeratedPath) (s : Enumeration) : Enumeration :=
  if s.allPaths.length < maxPaths then
    { s with allPaths := s.allPaths ++ [path], totalFound := s.totalFound + 1 }
  else { s with prunedByBounds := s.prunedByBounds + 1 }

end Enumeration

/-- One successor after the other, until there are enough paths. -/
def exploreSuccessor (config : PathEnumerationConfig) (pruning : Pruning)
    (explore : Int64 → Enumeration → Except SqliteGraphError Enumeration) (s : Enumeration)
    (successor : Int64) : Except SqliteGraphError Enumeration :=
  if config.maxPaths ≤ s.allPaths.length then .ok s
  else if config.revisitCap ≤ s.visited successor then
    .ok { s with prunedByBounds := s.prunedByBounds + 1 }
  else if pruning.admits (s.currentPath ++ [successor]) s.loopStack then
    explore successor { s with totalConsidered := s.totalConsidered + 1 }
  else .ok { s with
    totalConsidered := s.totalConsidered + 1
    pathsPruned := s.pathsPruned + 1 }

def dfsWith (t : Tables) (config : PathEnumerationConfig) (pruning : Pruning) :
    Nat → Int64 → Enumeration → Except SqliteGraphError Enumeration
  | 0, _, _ => .error .outOfFuel
  | fuel + 1, node, s => do
    let s := s.enter pruning node
    if config.isTerminal node s.currentPath.length then
      let path := ⟨s.currentPath, config.classify node s.currentPath⟩
      return (s.record config.maxPaths path).leave pruning node
    else
      let s ← (fetchOutgoing t node).foldlM
        (exploreSuccessor config pruning (dfsWith t config pruning fuel)) s
      return s.leave pruning node

/-- The paths by their classification. -/
def PathEnumerationResult.of (s : Enumeration) (stats : Option PathEnumerationPruningStats) :
    PathEnumerationResult :=
  let normalPaths := s.allPaths.filter (·.classification = .normal)
  let errorPaths := s.allPaths.filter (·.classification = .error)
  let degeneratePaths := s.allPaths.filter (·.classification = .degenerate)
  let infinitePaths := s.allPaths.filter (·.classification = .infinite)
  { paths := normalPaths ++ errorPaths ++ degeneratePaths ++ infinitePaths
    normalPaths, errorPaths, degeneratePaths, infinitePaths
    totalPathsFound := s.totalFound
    pathsPrunedByBounds := s.prunedByBounds
    maxDepthReached := s.maxDepthReached
    pruningStats := stats }

def unpruned : Pruning := ⟨fun _ => false, fun _ _ => true⟩

def dfsEnumerate (t : Tables) (config : PathEnumerationConfig) :
    Nat → Int64 → Enumeration → Except SqliteGraphError Enumeration := dfsWith t config unpruned

/-- Below the depth bound every node is terminal, so that the bound is fuel enough. -/
def enumeratePaths (t : Tables) (entry : Int64) (config : PathEnumerationConfig) :
    Except SqliteGraphError PathEnumerationResult := do
  let s ← dfsEnumerate t config (config.maxDepth + 1) entry .start
  return .of s none

structure PathEnumerationDominanceConfig where
  base : PathEnumerationConfig
  useDominancePruning : Bool
  useControlDependencePruning : Bool
  useLoopConstraintPruning : Bool

def PathEnumerationDominanceConfig.default : PathEnumerationDominanceConfig := ⟨.default, true, true, true⟩

def ControlDependenceResult.controlledBy (result : ControlDependenceResult) (controller : Int64) :
    Option (List Int64) := result.cdg controller

def NaturalLoop.contains (loop : NaturalLoop) (node : Int64) : Bool :=
  decide (loop.header = node ∨ node ∈ loop.body)

def checkDominanceConstraints (path : List Int64) (domResult : DominatorResult) : Bool :=
  decide (path.Pairwise fun earlier later => ¬ (later ≠ earlier ∧ domResult.dominates later earlier))

def checkControlDependenceConstraints (path : List Int64) (cdResult : ControlDependenceResult) : Bool :=
  path.zipIdx.all fun (node, i) => ((cdResult.controlledBy node).getD []).all fun controlledNode =>
    match path.findIdx? (· = controlledNode) with
    | some j => decide (i < j)
    | none => true

def checkLoopConstraints (path loopStack : List Int64) (loopsResult : NaturalLoopsResult) : Bool :=
  match loopStack.getLast?.bind loopsResult.loopWithHeader, path.getLast? with
  | some activeLoop, some lastNode => activeLoop.contains lastNode
  | some _, none => false
  | none, _ => true

/-- The first of the checks that is switched on. -/
def constrained (domResult : DominatorResult) (cdResult : ControlDependenceResult)
    (loopsResult : NaturalLoopsResult) (config : PathEnumerationDominanceConfig) : Pruning where
  isLoopHeader node := (loopsResult.loopWithHeader node).isSome
  admits candidatePath loopStack :=
    if config.useDominancePruning then checkDominanceConstraints candidatePath domResult
    else if config.useControlDependencePruning then
      checkControlDependenceConstraints candidatePath cdResult
    else if config.useLoopConstraintPruning then
      checkLoopConstraints candidatePath loopStack loopsResult
    else true

def dfsWithConstraints (t : Tables) (config : PathEnumerationDominanceConfig)
    (domResult : DominatorResult) (cdResult : ControlDependenceResult)
    (loopsResult : NaturalLoopsResult) :
    Nat → Int64 → Enumeration → Except SqliteGraphError Enumeration :=
  dfsWith t config.base (constrained domResult cdResult loopsResult config)

def Enumeration.stats (s : Enumeration) : PathEnumerationPruningStats where
  pathsPruned := s.pathsPruned
  totalConsidered := s.totalConsidered
  reductionRatio := if 0 < s.totalConsidered then s.pathsPruned / s.totalConsidered else 0

def enumeratePathsWithDominance (t : Tables) (entry : Int64) (domResult : DominatorResult)
    (cdResult : ControlDependenceResult) (loopsResult : NaturalLoopsResult)
    (config : PathEnumerationDominanceConfig) : Except SqliteGraphError PathEnumerationResult := do
  let s ← dfsWithConstraints t config domResult cdResult loopsResult (config.base.maxDepth + 1) entry .start
  return .of s (some s.stats)

end SqliteGraph.Algo
