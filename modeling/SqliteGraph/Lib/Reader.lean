import SqliteGraph.Lib.Bytes
import SqliteGraph.Lib.StoreM

/-! Reading from the front of some bytes, where what is read does not depend on what follows. -/
namespace SqliteGraph.Lib

/-- The state is what has not been read yet. -/
abbrev Reader (ε α : Type) : Type := StoreM Bytes ε α

namespace Reader
variable {ε α β : Type} {r : Reader ε α} {f : α → Reader ε β} {a : α} {b : β} {x y rest : Bytes} {n : Nat}

/-- Read so many bytes, if they are there. -/
def take (n : Nat) (eof : Nat → ε) : Reader ε Bytes := fun bytes =>
  match readExact n bytes with
  | some (x, rest) => (.ok x, rest)
  | none => (.error (eof bytes.length), bytes)

/-- The same reading again and again. -/
def times (r : Reader ε α) : Nat → Reader ε (List α)
  | 0 => pure []
  | n + 1 => do
    let a ← r
    let rest ← times r n
    pure (a :: rest)

/-- The value is read from these bytes, whatever follows them. -/
def Reads (r : Reader ε α) (x : Bytes) (a : α) : Prop := ∀ rest, r (x ++ rest) = (.ok a, rest)

/-- A reading that succeeds is the same with more bytes behind. -/
def Local (r : Reader ε α) : Prop :=
  ∀ bytes a rest more, r bytes = (.ok a, rest) → r (bytes ++ more) = (.ok a, rest ++ more)

namespace Reads

theorem pure (a : α) : Reads (Pure.pure a : Reader ε α) [] a := fun _ => rfl

theorem bind (hr : Reads r x a) (hf : Reads (f a) y b) : Reads (r >>= f) (x ++ y) b := by
  intro rest
  rw [List.append_assoc, StoreM.bind_ok f (hr (y ++ rest))]
  exact hf rest

/-- After a step that reads nothing. -/
theorem bind_nil (hr : Reads r [] a) (hf : Reads (f a) y b) : Reads (r >>= f) y b := bind hr hf

/-- Where nothing more is read. -/
theorem map {g : α → β} (hr : Reads r x a) : Reads (r >>= fun a => Pure.pure (g a)) x (g a) := by
  intro rest
  rw [StoreM.bind_ok _ (hr rest)]
  rfl

theorem take {eof : Nat → ε} (h : x.length = n) : Reads (Reader.take n eof) x x := by
  intro rest
  rw [Reader.take, readExact_append h]

theorem times {l : List α} {write : α → Bytes} (h : ∀ a ∈ l, Reads r (write a) a) :
    Reads (r.times l.length) (l.flatMap write) l := by
  induction l with
  | nil => exact Reads.pure []
  | cons a l ih =>
    obtain ⟨ha, hl⟩ := List.forall_mem_cons.mp h
    exact bind ha (ih hl).map

/-- With nothing behind it. -/
theorem run (h : Reads r x a) : r x = (.ok a, []) := by
  have hrun := h []
  rwa [List.append_nil] at hrun

end Reads

namespace Local

theorem pure : Local (Pure.pure a : Reader ε α) := by
  intro bytes b rest more h
  cases h
  rfl

theorem throw {e : ε} : Local (StoreM.throw e : Reader ε α) := by
  intro bytes a rest more h
  cases h

theorem ofExcept {e : Except ε α} : Local (StoreM.ofExcept e) := by
  intro bytes a rest more h
  cases h
  rfl

theorem bind (hr : Local r) (hf : ∀ a, Local (f a)) : Local (r >>= f) := by
  intro bytes b rest more h
  obtain ⟨a, next, hnext, hrest⟩ := StoreM.bind_eq_ok h
  rw [StoreM.bind_ok f (hr _ _ _ more hnext)]
  exact hf a _ _ _ more hrest

theorem take {eof : Nat → ε} : Local (Reader.take n eof) := by
  intro bytes a rest more h
  unfold Reader.take readExact at h ⊢
  split at h
  · rename_i x left hread
    cases h
    split at hread
    · rename_i hle
      cases hread
      have hlong : n ≤ (bytes ++ more).length := by
        rw [List.length_append]
        omega
      rw [if_pos hlong, List.take_append_of_le_length hle, List.drop_append_of_le_length hle]
    · cases hread
  · cases h

theorem times (hr : Local r) : Local (r.times n) := by
  induction n with
  | zero => exact pure
  | succ n ih => exact bind hr fun _ => bind ih fun _ => pure

/-- Cut short, bytes that a reading takes whole are an error. -/
theorem cut (hr : Local r) (hwhole : r (x ++ y) = (.ok a, [])) (hy : y ≠ []) : ∃ e, (r x).1 = .error e := by
  cases hx : r x with
  | mk result rest =>
    cases result with
    | error e => exact ⟨e, rfl⟩
    | ok b =>
      have hlong := hr x b rest y hx
      rw [hwhole] at hlong
      have hnil := congrArg Prod.snd hlong
      exact absurd (List.append_eq_nil_iff.mp hnil.symm).2 hy

end Local

end Reader

end SqliteGraph.Lib
