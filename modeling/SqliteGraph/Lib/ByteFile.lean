import SqliteGraph.Lib.Bytes

/-! A file as a sparse array of bytes: positioned reads and writes, and what they leave alone. -/
namespace SqliteGraph.Lib

/-- `len` bytes; what `byte` says beyond them is never read. -/
structure ByteFile where
  len : Nat
  byte : Nat → UInt8

namespace ByteFile

def empty : ByteFile := ⟨0, fun _ => 0⟩

/-- The `n` bytes from `off` on, wherever the file ends. -/
def bytesAt (f : ByteFile) (off n : Nat) : Bytes := (List.range n).map fun i => f.byte (off + i)

/-- `seek` and `read_exact`; `none` is the unexpected end of file. -/
def readExact (f : ByteFile) (off n : Nat) : Option Bytes :=
  if off + n ≤ f.len then some (f.bytesAt off n) else none

/-- `seek` and `read`: as many of the `n` bytes as there are. -/
def read (f : ByteFile) (off n : Nat) : Bytes := f.bytesAt off (min n (f.len - off))

/-- `set_len` to a larger size: the gap reads as zeros. -/
def extendTo (f : ByteFile) (n : Nat) : ByteFile :=
  ⟨max f.len n, fun i => if i < f.len then f.byte i else 0⟩

/-- `seek` and `write_all`. -/
def writeAt (f : ByteFile) (off : Nat) (data : Bytes) : ByteFile :=
  if data.isEmpty then f
  else ⟨max f.len (off + data.length), fun i =>
    if off ≤ i then (data[i - off]?).getD ((f.extendTo off).byte i) else (f.extendTo off).byte i⟩

variable {f : ByteFile} {off off' n : Nat} {data : Bytes}

@[simp] theorem length_bytesAt : (f.bytesAt off n).length = n := by simp [bytesAt]

theorem bytesAt_congr {g : ByteFile} (h : ∀ i, off ≤ i → i < off + n → g.byte i = f.byte i) :
    g.bytesAt off n = f.bytesAt off n := by
  refine List.map_congr_left fun i hi => h _ (Nat.le_add_right _ _) ?_
  have := List.mem_range.mp hi
  omega

theorem len_writeAt (h : data ≠ []) : (f.writeAt off data).len = max f.len (off + data.length) := by
  simp [writeAt, h]

theorem len_le_writeAt : f.len ≤ (f.writeAt off data).len := by
  unfold writeAt
  split
  · exact le_refl _
  · exact le_max_left _ _

theorem byte_writeAt_of_lt {i : Nat} (hi : i < f.len) (h : i < off ∨ off + data.length ≤ i) :
    (f.writeAt off data).byte i = f.byte i := by
  unfold writeAt
  split
  · rfl
  · simp only [extendTo, hi, if_true]
    split
    · rw [List.getElem?_eq_none (by omega), Option.getD_none]
    · rfl

theorem byte_writeAt_self {i : Nat} (hi : i < data.length) :
    (f.writeAt off data).byte (off + i) = data[i] := by
  have hne : data ≠ [] := List.ne_nil_of_length_pos (by omega)
  simp [writeAt, hne, hi]

theorem bytesAt_writeAt_self : (f.writeAt off data).bytesAt off data.length = data := by
  apply List.ext_getElem (by simp)
  intro i _ hi
  simp only [bytesAt, List.getElem_map, List.getElem_range]
  exact byte_writeAt_self hi

theorem readExact_writeAt_self (h : data.length = n) (hn : 0 < n) :
    (f.writeAt off data).readExact off n = some data := by
  have hne : data ≠ [] := List.ne_nil_of_length_pos (by omega)
  have hlen : (f.writeAt off data).len = _ := len_writeAt hne
  rw [readExact, if_pos (by omega), ← h, bytesAt_writeAt_self]

theorem readExact_writeAt_of_disjoint {bs : Bytes} (hr : f.readExact off' n = some bs)
    (hd : off' + n ≤ off ∨ off + data.length ≤ off') :
    (f.writeAt off data).readExact off' n = some bs := by
  unfold readExact at hr ⊢
  split at hr
  · rename_i hle
    have : f.len ≤ (f.writeAt off data).len := len_le_writeAt
    rw [if_pos (by omega), ← hr]
    congr 1
    exact bytesAt_congr fun i h₁ h₂ => byte_writeAt_of_lt (by omega) (by omega)
  · cases hr

theorem bytesAt_add {m : Nat} :
    f.bytesAt off (m + n) = f.bytesAt off m ++ f.bytesAt (off + m) n := by
  simp [bytesAt, List.range_add, Nat.add_assoc]

theorem bytesAt_writeAt_append {rest : Bytes} :
    (f.writeAt off (data ++ rest)).bytesAt off data.length = data := by
  have h : (f.writeAt off (data ++ rest)).bytesAt off (data ++ rest).length = data ++ rest :=
    bytesAt_writeAt_self
  rw [List.length_append, bytesAt_add] at h
  exact (List.append_inj h length_bytesAt).1

/-- A write leaves all bytes outside a range alone, whatever the file holds, exactly when it stays
within that range. -/
theorem writeAt_within_iff (off lo hi : Nat) (hne : data ≠ []) :
    (∀ f : ByteFile, ∀ i < f.len, ¬(lo ≤ i ∧ i < hi) → (f.writeAt off data).byte i = f.byte i) ↔
      lo ≤ off ∧ off + data.length ≤ hi := by
  have hpos := List.length_pos_of_ne_nil hne
  constructor
  · intro h
    -- a file filled with a byte other than the one written there shows a write out of range
    have hin : ∀ j, j < data.length → lo ≤ off + j ∧ off + j < hi := by
      intro j hj
      by_contra hout
      have := h ⟨off + data.length, fun _ => data[j] + 1⟩ (off + j) (Nat.add_lt_add_left hj _) hout
      rw [byte_writeAt_self hj] at this
      simp at this
    have hfirst := hin 0 hpos
    have hlast := hin (data.length - 1) (by omega)
    omega
  · rintro ⟨hlo, hhi⟩ f i hi hout
    exact byte_writeAt_of_lt hi (by omega)

end ByteFile

end SqliteGraph.Lib
