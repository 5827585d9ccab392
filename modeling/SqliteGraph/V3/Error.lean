import Mathlib

/-! Errors of the native backend, as far as the modelled functions raise them. -/
namespace SqliteGraph.V3

inductive NativeBackendError
  | invalidHeader (field reason : String)
  | ioError (context : String)
  | corruptionDetected (context : String)
  | deserializationError (context : String)
  | unsupportedVersion (version supported : Nat)
  | invalidMagic (expected found : Nat)
  | recordTooLarge (size maxSize : Nat)
  | serializationError (context : String)
  | bufferTooSmall (size minSize : Nat)
  | invalidStringOffset (offset : Nat)
  | corruptStringTable (reason : String)
  /-- What bincode reports. -/
  | bincodeError
  /-- An index out of bounds, a failed assertion or an overflow trap: the call does not return. -/
  | panic (reason : String)
  /-- The loop has used up its fuel; the code itself has no such bound. -/
  | outOfFuel
  deriving DecidableEq, Repr

/-- A `Vec` of bytes cannot outgrow `isize::MAX`. -/
def NativeBackendError.capacityOverflow : NativeBackendError := .panic "capacity overflow"

/-- `xs[i]` of the source. -/
def index {α : Type} (xs : List α) (i : Nat) : Except NativeBackendError α :=
  match xs[i]? with
  | some a => .ok a
  | none => .error (.panic "index out of bounds")

@[simp] theorem index_of_getElem? {α : Type} {xs : List α} {i : Nat} {a : α}
    (h : xs[i]? = some a) : index xs i = .ok a := by
  simp [index, h]

end SqliteGraph.V3
