import Mathlib

/-! Programs over a store whose state survives an error, and the laws of a page store. -/
namespace SqliteGraph.Lib

/-- A computation over a state `σ`; an error keeps the state reached so far. -/
def StoreM (σ ε α : Type) : Type := σ → Except ε α × σ

namespace StoreM
variable {σ ε α β : Type} {s s' : σ} {a : α} {e : ε}

protected def bind (x : StoreM σ ε α) (f : α → StoreM σ ε β) : StoreM σ ε β := fun s =>
  match x s with
  | (.ok a, s') => f a s'
  | (.error e, s') => (.error e, s')

instance : Monad (StoreM σ ε) where
  pure a := fun s => (.ok a, s)
  bind := StoreM.bind

def throw (e : ε) : StoreM σ ε α := fun s => (.error e, s)

def get : StoreM σ ε σ := fun s => (.ok s, s)

def modify (f : σ → σ) : StoreM σ ε Unit := fun s => (.ok (), f s)

/-- A value already computed, or its error. -/
def ofExcept (r : Except ε α) : StoreM σ ε α := fun s => (r, s)

/-- Run the computation and hand out its result, whether it is an error or not. -/
def attempt (x : StoreM σ ε α) : StoreM σ ε (Except ε α) := fun s => (.ok (x s).1, (x s).2)

@[simp] theorem pure_run : (pure a : StoreM σ ε α) s = (.ok a, s) := rfl
@[simp] theorem throw_run : (throw e : StoreM σ ε α) s = (.error e, s) := rfl
@[simp] theorem get_run : (get : StoreM σ ε σ) s = (.ok s, s) := rfl
@[simp] theorem modify_run (f : σ → σ) : (modify f : StoreM σ ε Unit) s = (.ok (), f s) := rfl
@[simp] theorem ofExcept_run (r : Except ε α) : (ofExcept r : StoreM σ ε α) s = (r, s) := rfl

@[simp] theorem attempt_bind_run {x : StoreM σ ε α} (f : Except ε α → StoreM σ ε β) :
    (attempt x >>= f) s = f (x s).1 (x s).2 := rfl

theorem bind_ok {x : StoreM σ ε α} (f : α → StoreM σ ε β) (h : x s = (.ok a, s')) :
    (x >>= f) s = f a s' := by
  change StoreM.bind x f s = _
  simp only [StoreM.bind, h]

/-- Where the result and the state are not to be found by unification. -/
theorem bind_to {x : StoreM σ ε α} (a : α) (s' : σ) (f : α → StoreM σ ε β)
    (h : x s = (.ok a, s')) : (x >>= f) s = f a s' := bind_ok f h

theorem bind_error {x : StoreM σ ε α} (f : α → StoreM σ ε β) (h : x s = (.error e, s')) :
    (x >>= f) s = (.error e, s') := by
  change StoreM.bind x f s = _
  simp only [StoreM.bind, h]

theorem bind_fails {x : StoreM σ ε α} (e : ε) (s' : σ) (f : α → StoreM σ ε β)
    (h : x s = (.error e, s')) : (x >>= f) s = (.error e, s') := bind_error f h

/-- A program that succeeds has succeeded at each of its steps. -/
theorem bind_eq_ok {x : StoreM σ ε α} {f : α → StoreM σ ε β} {b : β}
    (h : (x >>= f) s = (.ok b, s')) : ∃ a t, x s = (.ok a, t) ∧ f a t = (.ok b, s') := by
  cases hx : x s with
  | mk r t =>
    cases r with
    | ok a =>
      rw [bind_ok _ hx] at h
      exact ⟨a, t, rfl, h⟩
    | error e =>
      rw [bind_error _ hx] at h
      cases h

@[simp] theorem pure_bind_run (f : α → StoreM σ ε β) : ((pure a : StoreM σ ε α) >>= f) s = f a s :=
  rfl

@[simp] theorem throw_bind_run (f : α → StoreM σ ε β) :
    ((throw e : StoreM σ ε α) >>= f) s = (.error e, s) := rfl

@[simp] theorem ofExcept_ok_bind_run (f : α → StoreM σ ε β) :
    ((ofExcept (.ok a) : StoreM σ ε α) >>= f) s = f a s := rfl

@[simp] theorem ofExcept_error_bind_run (f : α → StoreM σ ε β) :
    ((ofExcept (.error e) : StoreM σ ε α) >>= f) s = (.error e, s) := rfl

@[simp] theorem get_bind_run (f : σ → StoreM σ ε β) :
    ((get : StoreM σ ε σ) >>= f) s = f s s := rfl

@[simp] theorem modify_bind_run (g : σ → σ) (f : Unit → StoreM σ ε β) :
    ((modify g : StoreM σ ε Unit) >>= f) s = f () (g s) := rfl

/-- Whatever its result, the computation leaves a part of the state as it is. -/
def Keeps {γ : Type} (f : σ → γ) (x : StoreM σ ε α) : Prop := ∀ s, f (x s).2 = f s

namespace Keeps
variable {γ : Type} {f : σ → γ} {x : StoreM σ ε α} {g : α → StoreM σ ε β}

theorem pure : Keeps f (Pure.pure a : StoreM σ ε α) := fun _ => rfl

theorem throw : Keeps f (StoreM.throw e : StoreM σ ε α) := fun _ => rfl

theorem ofExcept {r : Except ε α} : Keeps f (StoreM.ofExcept r) := fun _ => rfl

theorem modify {h : σ → σ} (hf : ∀ s, f (h s) = f s) : Keeps f (StoreM.modify h : StoreM σ ε Unit) :=
  hf

theorem bind (hx : Keeps f x) (hg : ∀ a, Keeps f (g a)) : Keeps f (x >>= g) := by
  intro s
  have hs := hx s
  cases hr : x s with
  | mk r s' =>
    rw [hr] at hs
    cases r with
    | ok a =>
      rw [bind_ok _ hr]
      exact (hg a s').trans hs
    | error e =>
      rw [bind_error _ hr]
      exact hs

theorem get_bind {h : σ → StoreM σ ε β} (hh : ∀ s, Keeps f (h s)) :
    Keeps f (StoreM.get >>= h) := fun s => hh s s

end Keeps

/-- Whatever its result, the computation keeps an invariant. -/
def Preserves (I : σ → Prop) (x : StoreM σ ε α) : Prop := ∀ s, I s → I (x s).2

namespace Preserves
variable {I : σ → Prop} {x : StoreM σ ε α} {g : α → StoreM σ ε β}

theorem pure : Preserves I (Pure.pure a : StoreM σ ε α) := fun _ h => h

theorem throw : Preserves I (StoreM.throw e : StoreM σ ε α) := fun _ h => h

theorem ofExcept {r : Except ε α} : Preserves I (StoreM.ofExcept r) := fun _ h => h

theorem modify {h : σ → σ} (hi : ∀ s, I s → I (h s)) :
    Preserves I (StoreM.modify h : StoreM σ ε Unit) := hi

theorem attempt (hx : Preserves I x) : Preserves I (StoreM.attempt x) := hx

theorem bind (hx : Preserves I x) (hg : ∀ a, Preserves I (g a)) : Preserves I (x >>= g) := by
  intro s hs
  have hx := hx s hs
  cases hr : x s with
  | mk r s' =>
    rw [hr] at hx
    cases r with
    | ok a =>
      rw [bind_ok _ hr]
      exact hg a s' hx
    | error e =>
      rw [bind_error _ hr]
      exact hx

theorem get_bind {h : σ → StoreM σ ε β} (hh : ∀ s, Preserves I (h s)) :
    Preserves I (StoreM.get >>= h) := fun s hs => hh s s hs

end Preserves

/-- From every state of an invariant the computation returns what `v` says of a part of the state; it
keeps that part, and the invariant. -/
def Computes {δ : Type} (I : σ → Prop) (view : σ → δ) (x : StoreM σ ε α) (v : δ → Except ε α) : Prop :=
  ∀ s, I s → (x s).1 = v (view s) ∧ I (x s).2 ∧ view (x s).2 = view s

namespace Computes
variable {δ : Type} {I : σ → Prop} {view : σ → δ} {x : StoreM σ ε α} {v : δ → Except ε α}
  {g : α → StoreM σ ε β} {w : α → δ → Except ε β}

theorem pure : Computes I view (Pure.pure a : StoreM σ ε α) fun _ => .ok a :=
  fun _ h => ⟨rfl, h, rfl⟩

theorem ofExcept {r : Except ε α} : Computes I view (StoreM.ofExcept r) fun _ => r :=
  fun _ h => ⟨rfl, h, rfl⟩

theorem throw : Computes I view (StoreM.throw e : StoreM σ ε α) fun _ => .error e :=
  fun _ h => ⟨rfl, h, rfl⟩

theorem bind (hx : Computes I view x v) (hg : ∀ a, Computes I view (g a) (w a)) :
    Computes I view (x >>= g) fun d => (v d).bind fun a => w a d := by
  intro s hs
  obtain ⟨hres, hinv, hview⟩ := hx s hs
  cases hr : x s with
  | mk r s' =>
    rw [hr] at hres hinv hview
    cases r with
    | ok a =>
      obtain ⟨hres', hinv', hview'⟩ := hg a s' hinv
      rw [bind_ok _ hr]
      refine ⟨?_, hinv', hview'.trans hview⟩
      change _ = (v (view s)).bind fun a => w a (view s)
      rw [← hres, ← hview]
      exact hres'
    | error e =>
      rw [bind_error _ hr]
      refine ⟨?_, hinv, hview⟩
      change _ = (v (view s)).bind fun a => w a (view s)
      rw [← hres]
      rfl

theorem get_bind {h : σ → StoreM σ ε β} {v : σ → δ → Except ε β} {u : δ → Except ε β}
    (hh : ∀ s, I s → Computes I view (h s) (v s)) (hu : ∀ s, I s → v s (view s) = u (view s)) :
    Computes I view (StoreM.get >>= h) u := by
  intro s hs
  rw [← hu s hs]
  exact hh s hs s hs

theorem congr {u : δ → Except ε α} (hx : Computes I view x v) (huv : ∀ d, v d = u d) :
    Computes I view x u := by
  intro s hs
  rw [← huv]
  exact hx s hs

end Computes

/-- From every state of an invariant the computation returns a value of which `P` holds, in a state of
the invariant. -/
def Returns (I : σ → Prop) (x : StoreM σ ε α) (P : α → Prop) : Prop :=
  ∀ s, I s → ∃ a, (x s).1 = .ok a ∧ I (x s).2 ∧ P a

namespace Returns
variable {I : σ → Prop} {x : StoreM σ ε α} {f : α → StoreM σ ε β} {P : α → Prop} {Q : β → Prop}

theorem pure (h : P a) : Returns I (Pure.pure a : StoreM σ ε α) P := fun _ hs => ⟨a, rfl, hs, h⟩

theorem bind (hx : Returns I x P) (hf : ∀ a, P a → Returns I (f a) Q) : Returns I (x >>= f) Q := by
  intro s hs
  obtain ⟨a, hres, hinv, ha⟩ := hx s hs
  cases hr : x s with
  | mk r s' =>
    rw [hr] at hres hinv
    cases hres
    rw [bind_ok _ hr]
    exact hf a ha s' hinv

theorem mono {P' : α → Prop} (hx : Returns I x P) (h : ∀ a, P a → P' a) : Returns I x P' := by
  intro s hs
  obtain ⟨a, hres, hinv, ha⟩ := hx s hs
  exact ⟨a, hres, hinv, h a ha⟩

end Returns

end StoreM

/-- The three page operations that an index over pages is written with. -/
structure PageStore (σ ε Page : Type) where
  allocate : StoreM σ ε Nat
  load : Nat → StoreM σ ε Page
  write : Page → StoreM σ ε Unit

namespace PageStore
variable {σ ε Page : Type}

/-- `t` is reached from `s` by page operations that stay within the footprint `W`, all pages written
being ones that fit. -/
inductive Uses (S : PageStore σ ε Page) (pid : Page → Nat) (Fits : Page → Prop) (W : Nat → Prop) :
    σ → σ → Prop
  | refl (s) : Uses S pid Fits W s s
  | allocate {s t u p} : Uses S pid Fits W s t → S.allocate t = (.ok p, u) → W p →
      Uses S pid Fits W s u
  | load {s t u p r} : Uses S pid Fits W s t → S.load p t = (r, u) → W p → Uses S pid Fits W s u
  | write {s t u pg r} : Uses S pid Fits W s t → Fits pg → S.write pg t = (r, u) → W (pid pg) →
      Uses S pid Fits W s u

section Uses
variable {S : PageStore σ ε Page} {pid : Page → Nat} {Fits : Page → Prop} {V W : Nat → Prop}
  {s t u : σ}

theorem Uses.trans (h₁ : Uses S pid Fits W s t) (h₂ : Uses S pid Fits W t u) :
    Uses S pid Fits W s u := by
  induction h₂ with
  | refl => exact h₁
  | allocate _ ha hw ih => exact .allocate ih ha hw
  | load _ hl hw ih => exact .load ih hl hw
  | write _ hf hr hw ih => exact .write ih hf hr hw

theorem Uses.mono (h : Uses S pid Fits V s t) (hvw : ∀ p, V p → W p) : Uses S pid Fits W s t := by
  induction h with
  | refl => exact .refl _
  | allocate _ ha hw ih => exact .allocate ih ha (hvw _ hw)
  | load _ hl hw ih => exact .load ih hl (hvw _ hw)
  | write _ hf hr hw ih => exact .write ih hf hr (hvw _ hw)

end Uses

/-- `v'` has every page of `v`, and maybe more. -/
def Extends (v v' : Nat → Option Page) : Prop := ∀ p pg, v p = some pg → v' p = some pg

namespace Extends
variable {u v w : Nat → Option Page}

theorem refl : Extends v v := fun _ _ h => h

theorem trans (h : Extends u v) (h' : Extends v w) : Extends u w :=
  fun p pg hp => h' p pg (h p pg hp)

theorem update {p : Nat} {o : Option Page} (h : Extends v w) :
    Extends (Function.update v p o) (Function.update w p o) := by
  intro q pg hq
  by_cases he : q = p
  · subst he
    simpa using hq
  · rw [Function.update_of_ne he] at hq ⊢
    exact h q pg hq

end Extends

/-- What a page store owes an index: reads see the last write, and an allocated page was free. -/
structure Lawful (S : PageStore σ ε Page) (pid : Page → Nat) (Fits : Page → Prop)
    (Valid : Nat → Prop) where
  Inv : σ → Prop
  view : σ → Nat → Option Page
  Free : σ → Nat → Prop
  Exhausted : ε → Prop
  free_valid {s p} : Inv s → Free s p → Valid p
  load_ok {s p pg} : Inv s → view s p = some pg →
    ∃ s', S.load p s = (.ok pg, s') ∧ Inv s' ∧ view s' = view s ∧ Free s' = Free s
  write_ok {s pg} : Inv s → Fits pg → ∃ s', S.write pg s = (.ok (), s') ∧ Inv s' ∧
    Extends (Function.update (view s) (pid pg) (some pg)) (view s') ∧ Free s' = Free s
  allocate_cases {s} : Inv s →
    (∃ e, S.allocate s = (.error e, s) ∧ Exhausted e) ∨
    ∃ p s', S.allocate s = (.ok p, s') ∧ Free s p ∧ Inv s' ∧ view s' = view s ∧
      ∀ q, Free s' q ↔ Free s q ∧ q ≠ p

end PageStore

end SqliteGraph.Lib
