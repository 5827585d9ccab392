import SqliteGraph.V3.Error

/-! B+Tree index pages: capacities, structural checks and in-page searches. -/
namespace SqliteGraph.V3

def maxKeys : Nat := 252
def minKeys : Nat := 125
def maxEntries : Nat := 252
def minEntries : Nat := 126

/-- An index page. The stored checksum is a matter of the byte format alone. -/
inductive IndexPage
  | internal (pageId : Nat) (keys children : List Nat) (isRoot : Bool)
  | leaf (pageId : Nat) (entries : List (Nat × Nat)) (nextLeaf : Nat) (isRoot : Bool)
  deriving DecidableEq, Repr

namespace IndexPage

def pageId : IndexPage → Nat
  | internal p _ _ _ | leaf p _ _ _ => p

@[simp] theorem pageId_internal (p : Nat) (keys children : List Nat) (r : Bool) :
    (internal p keys children r).pageId = p := rfl

@[simp] theorem pageId_leaf (p : Nat) (entries : List (Nat × Nat)) (n : Nat) (r : Bool) :
    (leaf p entries n r).pageId = p := rfl

def count : IndexPage → Nat
  | internal _ keys _ _ => keys.length
  | leaf _ entries _ _ => entries.length

def isRoot : IndexPage → Bool
  | internal _ _ _ r | leaf _ _ _ r => r

def newInternal (p : Nat) : IndexPage := internal p [] [] false
def newInternalRoot (p : Nat) : IndexPage := internal p [] [] true
def newLeaf (p : Nat) : IndexPage := leaf p [] 0 false
def newLeafRoot (p : Nat) : IndexPage := leaf p [] 0 true

def needsSplitInternal : IndexPage → Bool
  | internal _ keys _ _ => decide (maxKeys ≤ keys.length)
  | leaf _ _ _ _ => false

def needsSplitLeaf : IndexPage → Bool
  | internal _ _ _ _ => false
  | leaf _ entries _ _ => decide (maxEntries ≤ entries.length)

/-- The first pair of neighbours that is out of order. -/
def outOfOrder : List Nat → Option (Nat × Nat)
  | a :: b :: rest => if b ≤ a then some (a, b) else outOfOrder (b :: rest)
  | _ => none

/-- The structural check that builds with debug assertions run before each descent. -/
def verifyInvariants : IndexPage → Except NativeBackendError Unit
  | internal _ keys children isRoot =>
    if maxKeys < keys.length then
      .error (.invalidHeader "btree_verify"
        s!"internal node has {keys.length} keys, max is {maxKeys}")
    else if !isRoot && !keys.isEmpty && decide (keys.length < minKeys) then
      .error (.invalidHeader "btree_verify"
        s!"non-root internal node has {keys.length} keys, min is {minKeys}")
    else match outOfOrder keys with
      | some (a, b) => .error (.invalidHeader "btree_verify" s!"keys out of order: {a} >= {b}")
      | none =>
        if !keys.isEmpty && decide (children.length ≠ keys.length + 1) then
          .error (.invalidHeader "btree_verify"
            s!"children count ({children.length}) != keys count ({keys.length}) + 1")
        else .ok ()
  | leaf _ entries _ isRoot =>
    if maxEntries < entries.length then
      .error (.invalidHeader "btree_verify"
        s!"leaf node has {entries.length} entries, max is {maxEntries}")
    else if !isRoot && !entries.isEmpty && decide (entries.length < minEntries) then
      .error (.invalidHeader "btree_verify"
        s!"non-root leaf node has {entries.length} entries, min is {minEntries}")
    else match outOfOrder (entries.map Prod.fst) with
      | some (a, b) => .error (.invalidHeader "btree_verify" s!"entries out of order: {a} >= {b}")
      | none => .ok ()

/-- `slice::binary_search` on sorted keys: the index of the target, or where it would go. -/
def binarySearch (keys : List Nat) (target : Nat) : Except Nat Nat :=
  let idx := keys.findIdx (fun k => decide (target ≤ k))
  if keys[idx]? = some target then .ok idx else .error idx

def binarySearchLeaf (entries : List (Nat × Nat)) (target : Nat) : Except Nat Nat :=
  binarySearch (entries.map Prod.fst) target

/-- The child that holds the target: a key equal to a separator lies to its right. -/
def findChildIndex (keys : List Nat) (target : Nat) : Nat :=
  match binarySearch keys target with
  | .ok idx => idx + 1
  | .error idx => idx

/-- Everything on the page has room in its field of the byte format. -/
def Fits : IndexPage → Prop
  | internal p keys children _ => 0 < p ∧ p < 2 ^ 64 ∧ keys.length ≤ maxKeys ∧
      children.length = keys.length + 1 ∧ (∀ k ∈ keys, k < 2 ^ 64) ∧ ∀ c ∈ children, c < 2 ^ 64
  | leaf p entries nextLeaf _ => 0 < p ∧ p < 2 ^ 64 ∧ entries.length ≤ maxEntries ∧
      (∀ e ∈ entries, e.1 < 2 ^ 64 ∧ e.2 < 2 ^ 64) ∧ nextLeaf < 2 ^ 64

end IndexPage

end SqliteGraph.V3
