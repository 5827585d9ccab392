import SqliteGraph.Lib.Faults
import SqliteGraph.V3.LookupWalk
import SqliteGraph.V3.PageInvariants

/-! Insertions that fail half way: which failures leave every lookup as it was. -/
namespace SqliteGraph.V3
open Lib

inductive PageKind
  | internal
  | leaf
  deriving DecidableEq

def IndexPage.kind : IndexPage → PageKind
  | internal _ _ _ _ => .internal
  | leaf _ _ _ _ => .leaf

/-- Which allocation, internal page write or leaf page write of a call fails. -/
abbrev InsertFault : Type := FailurePoint PageKind

namespace BTreeManager
variable {σ : Type}

/-- The manager with a failure ahead of it. -/
def armed (t : BTreeManager σ) (f : InsertFault) : BTreeManager (InsertFault × σ) :=
  ⟨t.rootPageId, t.treeHeight, (f, t.store)⟩

/-- The manager once the storage works again. -/
def disarmed (t : BTreeManager (InsertFault × σ)) : BTreeManager σ :=
  ⟨t.rootPageId, t.treeHeight, t.store.2⟩

@[simp] theorem disarmed_armed (t : BTreeManager σ) (f : InsertFault) : (t.armed f).disarmed = t :=
  rfl

end BTreeManager

variable {σ α : Type} {S : IndexStore σ} {L : IndexStore.Lawful S} {e : NativeBackendError}
  {t t₁ t₂ t₃ : BTreeManager σ} {s s' s'' : σ} {f f' : InsertFault}
  {h m lo hi first next p c d key value fuel : Nat} {es : List (Nat × Nat)} {ps ps' : List Nat}
  {keys children : List Nat} {r : Bool} {pg page lower upper parent : IndexPage}

/-- Pages in use and outside `ps` are as they were. -/
structure Survives (L : IndexStore.Lawful S) (ps : List Nat) (s s' : σ) : Prop where
  inv : L.Inv s'
  frame : ∀ q pg, q ∉ ps → ¬ L.Free s q → L.view s q = some pg → L.view s' q = some pg

theorem Survives.after {W : Nat → Prop} (h : Survives L ps s' s'') (hr : Reads L W s s') :
    Survives L ps s s'' where
  inv := h.inv
  frame q pg hq hfree hv := h.frame q pg hq (hr.free ▸ hfree) (hr.view ▸ hv)

theorem Reads.owned {W : Nat → Prop} (hr : Reads L W s s') (ho : Owned L s ps) :
    Owned L s' ps := ⟨ho.nodup, ho.valid, fun q hq hf => ho.taken q hq (hr.free ▸ hf)⟩

section Equations
variable {τ : Type} {T : IndexStore τ} {u u₁ u₂ u₃ u₄ : BTreeManager τ} {idx sep n : Nat}
  {err : NativeBackendError}

/-- An insertion into a tree with pages: a split of a full root, and then the descent. -/
theorem insert_eq (dbg : Bool) (key : Int64) (hempty : u.isEmpty = false)
    (h₁ : BTreeManager.loadPage T u.rootPageId u = (.ok pg, u₁)) (hfull : pg.needsSplit = false) :
    BTreeManager.insert T dbg fuel key value u =
      BTreeManager.insertNonFull T dbg fuel u₁.rootPageId (searchKey key) value u₁ := by
  unfold BTreeManager.insert
  simp only [StoreM.get_bind_run, hempty, Bool.false_eq_true, if_false]
  rw [StoreM.bind_ok _ h₁]
  have hfull' : (pg.needsSplitInternal || pg.needsSplitLeaf) = false := hfull
  simp only [hfull', Bool.false_eq_true, if_false]
  rfl

end Equations

/-- Every lookup ends, with what `es` holds. -/
def AnswersAs (L : IndexStore.Lawful S) (t : BTreeManager σ) (es : List (Nat × Nat)) : Prop :=
  t.isEmpty = true ∧ es = [] ∨ t.isEmpty = false ∧ L.Inv t.store ∧ ∃ h, h < maxTreeHeight ∧
    ∀ key, Finds (L.view t.store) key h t.rootPageId (es.lookup key)

/-- Lookups of the key end with `r`, given enough fuel. -/
def Answers (S : IndexStore σ) (t : BTreeManager σ) (key : Int64) (r : Option Nat) : Prop :=
  ∃ bound, ∀ fuel, bound ≤ fuel → ∃ t', BTreeManager.lookup S fuel key t = (.ok r, t')

theorem AnswersAs.answers (ha : AnswersAs L t es) (key : Int64) :
    Answers S t key (es.lookup (searchKey key)) := by
  rcases ha with ⟨hempty, rfl⟩ | ⟨hempty, hinv, h, hh, hfinds⟩
  · refine ⟨0, fun fuel _ => ⟨t, ?_⟩⟩
    unfold BTreeManager.lookup
    simp only [StoreM.get_bind_run, hempty, if_true]
    rfl
  · obtain ⟨bound, hb⟩ := (hfinds (searchKey key)).lookupLoop (S := S) hinv rfl
      (by omega : 0 + h < maxTreeHeight)
    refine ⟨bound, fun fuel hf => ?_⟩
    unfold BTreeManager.lookup
    simp only [StoreM.get_bind_run, hempty, Bool.false_eq_true, if_false]
    exact hb fuel hf

theorem Answers.unique {key : Int64} {v w : Option Nat} (hv : Answers S t key v)
    (hw : Answers S t key w) : v = w := by
  obtain ⟨b, hb⟩ := hv
  obtain ⟨c, hc⟩ := hw
  obtain ⟨_, h₁⟩ := hb (max b c) (le_max_left _ _)
  obtain ⟨_, h₂⟩ := hc (max b c) (le_max_right _ _)
  cases h₁.symm.trans h₂
  rfl

section Lost
variable {t : BTreeManager TreeStore} {es : List (Nat × Nat)} {n : Nat}

end Lost

end SqliteGraph.V3
