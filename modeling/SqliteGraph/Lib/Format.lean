import SqliteGraph.Lib.Bytes

/-! Formats: values as bytes that are read back from the front of whatever follows. -/
namespace SqliteGraph.Lib

/-- A value that fits is read back, and what follows it is left. -/
structure Format (α : Type) where
  write : α → Bytes
  read : Bytes → Option (α × Bytes)
  Fits : α → Prop
  read_write : ∀ {a} rest, Fits a → read (write a ++ rest) = some (a, rest)

namespace Format
variable {α β : Type}

def map (f : Format α) (decode : α → β) (encode : β → α) (h : ∀ b, decode (encode b) = b) :
    Format β where
  write b := f.write (encode b)
  read bs := (f.read bs).map fun (a, rest) => (decode a, rest)
  Fits b := f.Fits (encode b)
  read_write {b} rest hb := by simp [f.read_write rest hb, h]

def pair (f : Format α) (g : Format β) : Format (α × β) where
  write p := f.write p.1 ++ g.write p.2
  read bs := do
    let (a, bs) ← f.read bs
    let (b, bs) ← g.read bs
    some ((a, b), bs)
  Fits p := f.Fits p.1 ∧ g.Fits p.2
  read_write {p} rest hp := by
    simp [f.read_write _ hp.1, g.read_write _ hp.2]

/-- A little-endian number of a width in bytes. -/
def word (n : Nat) : Format Nat where
  write v := leBytes n v
  read bs := (readExact n bs).map fun (x, rest) => (leNat x, rest)
  Fits v := v < 256 ^ n
  read_write rest hv := by simp [leNat_leBytes hv]

def u8 : Format UInt8 := (word 1).map .ofNat UInt8.toNat fun _ => UInt8.ofNat_toNat
def u32 : Format UInt32 := (word 4).map .ofNat UInt32.toNat fun _ => UInt32.ofNat_toNat
def u64 : Format UInt64 := (word 8).map .ofNat UInt64.toNat fun _ => UInt64.ofNat_toNat
def i64 : Format Int64 := u64.map UInt64.toInt64 Int64.toUInt64 fun _ => Int64.toInt64_toUInt64 _

/-- A length in eight bytes, and the bytes. -/
def bytes : Format Bytes where
  write b := leBytes 8 b.length ++ b
  read bs := do
    let (len, bs) ← (word 8).read bs
    readExact len bs
  Fits b := b.length < 256 ^ 8
  read_write {b} rest hb := by
    rw [List.append_assoc]
    have hlen := (word 8).read_write (b ++ rest) hb
    change (word 8).read (leBytes 8 b.length ++ (b ++ rest)) = _ at hlen
    simp [hlen]

/-- A byte that says whether there is a value. -/
def option (f : Format α) : Format (Option α) where
  write
    | none => [0]
    | some a => 1 :: f.write a
  read
    | 0 :: bs => some (none, bs)
    | 1 :: bs => (f.read bs).map fun (a, rest) => (some a, rest)
    | _ => none
  Fits o := ∀ a, o = some a → f.Fits a
  read_write {o} rest ho := by
    cases o with
    | none => rfl
    | some a => simp [f.read_write rest (ho a rfl)]

section Laws
variable {f : Format α} {g : Format β} {a : α} {p : α × β}

/-- A value with nothing behind it. -/
theorem read_write_end (h : f.Fits a) : f.read (f.write a) = some (a, []) := by
  have hread := f.read_write [] h
  rwa [List.append_nil] at hread

@[simp] theorem fits_u8 {x : UInt8} : u8.Fits x := x.toNat_lt
@[simp] theorem fits_u32 {x : UInt32} : u32.Fits x := x.toNat_lt
@[simp] theorem fits_u64 {x : UInt64} : u64.Fits x := x.toNat_lt
@[simp] theorem fits_i64 {x : Int64} : i64.Fits x := x.toUInt64.toNat_lt
theorem fits_bytes {b : Bytes} : bytes.Fits b ↔ b.length < 2 ^ 64 := .rfl
@[simp] theorem fits_pair : (f.pair g).Fits p ↔ f.Fits p.1 ∧ g.Fits p.2 := .rfl
@[simp] theorem fits_option_none : f.option.Fits none := nofun
@[simp] theorem fits_option_some : f.option.Fits (some a) ↔ f.Fits a :=
  ⟨fun h => h a rfl, fun h _ heq => by cases heq; exact h⟩

end Laws

end Format

end SqliteGraph.Lib
