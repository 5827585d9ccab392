import SqliteGraph.Lib.StoreM

/-! One failing operation of a page store: which one, and what a program meets there. -/
namespace SqliteGraph.Lib

/-- The operations that can fail: an allocation, or a write of a page of some kind. -/
inductive Access (κ : Type)
  | allocation
  | write (kind : κ)
  deriving DecidableEq

/-- After `count` operations of one sort the next one of that sort fails. -/
structure FailurePoint (κ : Type) where
  access : Access κ
  count : Nat
  deriving DecidableEq

namespace FailurePoint
variable {κ : Type} [DecidableEq κ] {f f' : FailurePoint κ} {a : Access κ} {n : Nat}

/-- What is left of the failure point after an operation; `none` when the operation is the one. -/
def pass (f : FailurePoint κ) (a : Access κ) : Option (FailurePoint κ) :=
  if f.access = a then
    match f.count with
    | 0 => none
    | n + 1 => some ⟨a, n⟩
  else some f

theorem pass_of_ne (h : f.access ≠ a) : f.pass a = some f := if_neg h

theorem pass_self : (⟨a, n + 1⟩ : FailurePoint κ).pass a = some ⟨a, n⟩ := if_pos rfl

end FailurePoint

namespace PageStore
variable {σ ε Page κ α : Type} [DecidableEq κ]

/-- An operation that fails, and then changes nothing, when it is the one to fail. -/
def guarded (e : ε) (a : Access κ) (x : StoreM σ ε α) : StoreM (FailurePoint κ × σ) ε α := fun s =>
  match s.1.pass a with
  | none => (.error e, s)
  | some f => ((x s.2).1, (f, (x s.2).2))

end PageStore

end SqliteGraph.Lib
