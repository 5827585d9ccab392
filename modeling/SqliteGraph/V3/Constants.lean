import SqliteGraph.Lib.Bytes

/-! Constants of the file format, page offsets and the XOR checksum. -/
namespace SqliteGraph.V3
open Lib

def v3Magic : Bytes := [0x53, 0x51, 0x4C, 0x54, 0x47, 0x46, 0, 3]
def v2Magic : Bytes := [0x53, 0x51, 0x4C, 0x54, 0x47, 0x46, 0, 0]
def v3FormatVersion : Nat := 4
def v3HeaderSize : Nat := 112
def defaultPageSize : Nat := 4096
def defaultSchemaVersion : Nat := 1
def maxBtreeHeight : Nat := 4

def flagV2FramedRecords : Nat := 1
def flagV2AtomicCommit : Nat := 2
def flagV3BtreeIndex : Nat := 4
def defaultV3FeatureFlags : Nat := flagV2FramedRecords ||| flagV2AtomicCommit ||| flagV3BtreeIndex

/-- Where a component with this page size puts a page: `u64` arithmetic in the source, exact for
every page that a file offset can reach. -/
def pageOffset (pageSize pageId : Nat) : Nat := v3HeaderSize + (pageId - 1) * pageSize

def xorSeed : UInt64 := 0x5A5A5A5A5A5A5A5A

def xorChecksum (data : Bytes) : UInt64 :=
  (data.zipIdx.map fun bi => bi.1.toUInt64 ^^^ UInt64.ofNat bi.2).foldl (· ^^^ ·) xorSeed

/-- `xor_checksum(data) as u32`. -/
def checksum32 (data : Bytes) : Nat := (xorChecksum data).toUInt32.toNat

theorem checksum32_lt (data : Bytes) : checksum32 data < 256 ^ 4 :=
  (xorChecksum data).toUInt32.toNat_lt

/-- Two pages of one size do not overlap. -/
theorem pageOffset_disjoint (size : Nat) {p q : Nat} (hp : 0 < p) (hq : 0 < q) (h : p ≠ q) :
    pageOffset size p + size ≤ pageOffset size q ∨ pageOffset size q + size ≤ pageOffset size p := by
  have key : ∀ {a b : Nat}, 0 < a → a < b → pageOffset size a + size ≤ pageOffset size b := by
    intro a b ha hab
    have hle : (a - 1 + 1) * size ≤ (b - 1) * size := Nat.mul_le_mul_right _ (by omega)
    rw [Nat.add_mul, Nat.one_mul] at hle
    simp only [pageOffset]
    omega
  rcases Nat.lt_or_gt_of_ne h with h | h
  · exact .inl (key hp h)
  · exact .inr (key hq h)

theorem header_le_pageOffset (size p : Nat) : v3HeaderSize ≤ pageOffset size p :=
  Nat.le_add_right _ _

end SqliteGraph.V3
