import SqliteGraph.V3.TreeStore

/-! The manager over its disk-backed store refines a finite map, over whole runs. -/
namespace SqliteGraph.V3
open Lib

inductive TreeOp
  | insert (key : Int64) (value : UInt64)
  | delete (key : Int64)
  deriving DecidableEq

/-- What the index is for: a map from node keys to page ids. -/
abbrev KeyMap : Type := Int64 → Option Nat

namespace TreeOp

def apply (m : KeyMap) : TreeOp → KeyMap
  | insert key value => Function.update m key (some value.toNat)
  | delete key => Function.update m key none

def exec {σ : Type} (S : IndexStore σ) (debugAssertions : Bool) (fuel : Nat) : TreeOp → BTreeM σ Unit
  | insert key value => BTreeManager.insert S debugAssertions fuel key value.toNat
  | delete key => do
    let _ ← BTreeManager.delete S fuel key
    pure ()

end TreeOp

/-- An operation with what it returned. -/
abbrev TreeLog : Type := List (TreeOp × Except NativeBackendError Unit)

/-- What one operation leaves behind: nothing new when it failed. -/
def TreeLog.step (m : KeyMap) (entry : TreeOp × Except NativeBackendError Unit) : KeyMap :=
  match entry.2 with
  | .ok _ => entry.1.apply m
  | .error _ => m

def runTree {σ : Type} (S : IndexStore σ) (debugAssertions : Bool) (fuel : Nat) :
    List TreeOp → BTreeManager σ → TreeLog × BTreeManager σ
  | [], t => ([], t)
  | op :: ops, t =>
    let r := op.exec S debugAssertions fuel t
    let rest := runTree S debugAssertions fuel ops r.2
    ((op, r.1) :: rest.1, rest.2)

/-- The sorted contents stand for the map. -/
def Represents (es : List (Nat × Nat)) (m : KeyMap) : Prop :=
  ∀ key, es.lookup (searchKey key) = m key

theorem Represents.upsert {es : List (Nat × Nat)} {m : KeyMap} (h : Represents es m)
    (hs : Sorted es) (key : Int64) (value : Nat) :
    Represents (upsert (searchKey key) value es) (Function.update m key (some value)) := by
  intro k
  rw [lookup_upsert hs, Function.update_apply, h k]
  simp only [searchKey_inj]

theorem Represents.without {es : List (Nat × Nat)} {m : KeyMap} (h : Represents es m)
    (key : Int64) : Represents (without (searchKey key) es) (Function.update m key none) := by
  intro k
  rw [lookup_without, Function.update_apply, h k]
  simp only [searchKey_inj]

section Run
variable {σ : Type} {S : IndexStore σ} (L : IndexStore.Lawful S) {t : BTreeManager σ}
  (dbg : Bool) {es : List (Nat × Nat)} {ps : List Nat} {m : KeyMap} {fuel : Nat}

/-- The errors an operation may end with; it has then changed nothing. -/
def OpError (e : NativeBackendError) : Prop :=
  L.Exhausted e ∨ dbg = true ∧ ∃ reason, e = .invalidHeader "btree_verify" reason

/-- One operation keeps the tree and does to the contents what it does to the map. -/
theorem exec_run (op : TreeOp) (hi : TreeInv L t es ps) (hr : Represents es m)
    (hf : maxTreeHeight ≤ fuel) :
    ∃ res t' es' ps', op.exec S dbg fuel t = (res, t') ∧ TreeInv L t' es' ps' ∧
      (res = .ok () ∧ Represents es' (op.apply m) ∨
        ∃ e, res = .error e ∧ OpError L dbg e ∧ Represents es' m) := by
  cases op with
  | insert key value =>
    obtain ⟨res, t', es', ps', hrun, hi', -, hout⟩ := insert_run dbg key hi value.toNat_lt hf
    refine ⟨res, t', es', ps', hrun, hi', ?_⟩
    rcases hout with ⟨hres, rfl⟩ | ⟨e, hres, rfl, he⟩
    · exact .inl ⟨hres, hr.upsert hi.sorted key _⟩
    · exact .inr ⟨e, hres, he, hr⟩
  | delete key =>
    obtain ⟨found, t', es', ps', hrun, hi', -, rfl, -⟩ := delete_run key hi hf
    exact ⟨.ok (), t', _, ps', StoreM.bind_ok _ hrun, hi', .inl ⟨rfl, hr.without key⟩⟩

/-- The same over a run. -/
theorem runTree_run (ops : List TreeOp) (hi : TreeInv L t es ps) (hr : Represents es m)
    (hf : maxTreeHeight ≤ fuel) :
    ∃ log t' es' ps', runTree S dbg fuel ops t = (log, t') ∧ TreeInv L t' es' ps' ∧
      Represents es' (log.foldl TreeLog.step m) ∧
      ∀ entry ∈ log, ∀ e, entry.2 = .error e → OpError L dbg e := by
  induction ops generalizing t es ps m with
  | nil => exact ⟨[], t, es, ps, rfl, hi, hr, by simp⟩
  | cons op ops ih =>
    obtain ⟨res, t₁, es₁, ps₁, hexec, hi₁, hcase⟩ := exec_run L dbg op hi hr hf
    obtain ⟨m₁, hr₁, hm₁, herr⟩ : ∃ m₁, Represents es₁ m₁ ∧
        m₁ = TreeLog.step m (op, res) ∧
        ∀ e, res = .error e → OpError L dbg e := by
      rcases hcase with ⟨rfl, hr₁⟩ | ⟨e, rfl, he, hr₁⟩
      · exact ⟨_, hr₁, rfl, by simp⟩
      · exact ⟨_, hr₁, rfl, by rintro _ ⟨⟩; exact he⟩
    obtain ⟨log, t', es', ps', hrun, hi', hr', hlog⟩ := ih hi₁ hr₁
    refine ⟨(op, res) :: log, t', es', ps', ?_, hi', ?_, ?_⟩
    · simp only [runTree, hexec, hrun]
    · rw [List.foldl_cons]
      exact hm₁ ▸ hr'
    · intro entry hmem
      rcases List.mem_cons.mp hmem with rfl | hmem
      · exact herr
      · exact hlog entry hmem

end Run

/-- An empty tree over any file, any header and any eviction order. -/
def emptyTree (file : ByteFile) (header : PersistentHeaderV3) (capacity : Nat)
    (choices : Nat → Nat) : BTreeManager TreeStore :=
  BTreeManager.new ⟨file, .new header, .new capacity choices⟩

theorem emptyTree_inv (file : ByteFile) (header : PersistentHeaderV3) (capacity : Nat)
    (choices : Nat → Nat) : TreeInv treeStoreLawful (emptyTree file header capacity choices) [] [] where
  inv := ⟨by simp [TreeStore.Coherent, emptyTree, BTreeManager.new], PageAllocator.wf_new header⟩
  owned := ⟨List.nodup_nil, by simp, by simp⟩
  shape := .inl ⟨rfl, rfl, rfl⟩

end SqliteGraph.V3
