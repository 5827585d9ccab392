import SqliteGraph.V3.Error

/-! What the two backends share: edges, steps of a chain, and the errors their callers see. -/
namespace SqliteGraph

inductive SqliteGraphError
  | connectionError (message : String)
  | queryError (message : String)
  | notFound (message : String)
  | invalidInput (message : String)
  | validationError (message : String)
  /-- The native backend does not return. -/
  | aborted (e : V3.NativeBackendError)
  /-- The loop has used up its fuel; the code itself has no such bound. -/
  | outOfFuel
  deriving DecidableEq, Repr

inductive BackendDirection
  | outgoing
  | incoming
  deriving DecidableEq, Repr

structure EdgeSpec where
  fromId : Int64
  toId : Int64
  edgeType : String
  deriving DecidableEq, Repr

structure ChainStep where
  direction : BackendDirection
  edgeType : Option String
  deriving DecidableEq, Repr

/-- `char::is_whitespace`. -/
def isWhitespace (c : Char) : Bool :=
  decide (9 ≤ c.toNat ∧ c.toNat ≤ 13 ∨ 0x2000 ≤ c.toNat ∧ c.toNat ≤ 0x200A ∨
    c.toNat ∈ [0x20, 0x85, 0xA0, 0x1680, 0x2028, 0x2029, 0x202F, 0x205F, 0x3000])

/-- `s.trim().is_empty()`. -/
def isBlank (s : String) : Bool := s.toList.all isWhitespace

/-- An edge as a step in a direction. -/
def EdgeSpec.Joins (e : EdgeSpec) (direction : BackendDirection) (u v : Int64) : Prop :=
  match direction with
  | .outgoing => e.fromId = u ∧ e.toId = v
  | .incoming => e.toId = u ∧ e.fromId = v

/-- The step goes along the edge. -/
def ChainStep.Takes (step : ChainStep) (e : EdgeSpec) (u v : Int64) : Prop :=
  e.Joins step.direction u v ∧ ∀ edgeType, step.edgeType = some edgeType → e.edgeType = edgeType

def ChainStep.anyType (step : ChainStep) : ChainStep := { step with edgeType := none }

/-- The steps lead from one node to the other. -/
def EndsAt (edges : List EdgeSpec) : List ChainStep → Int64 → Int64 → Prop
  | [], u, v => u = v
  | step :: chain, u, w => ∃ v, (∃ e ∈ edges, step.Takes e u v) ∧ EndsAt edges chain v w

theorem EndsAt.anyType {edges : List EdgeSpec} {chain : List ChainStep} {u v : Int64}
    (h : EndsAt edges chain u v) : EndsAt edges (chain.map ChainStep.anyType) u v := by
  induction chain generalizing u with
  | nil => exact h
  | cons step chain ih =>
    obtain ⟨w, ⟨e, he, htakes⟩, hrest⟩ := h
    exact ⟨w, ⟨e, he, htakes.1, by simp [ChainStep.anyType]⟩, ih hrest⟩

end SqliteGraph
