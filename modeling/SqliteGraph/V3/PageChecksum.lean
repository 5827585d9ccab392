import SqliteGraph.Lib.ByteXor
import SqliteGraph.V3.IndexPageCodec

/-! What the checksum of an index page sees, and what reading any 4 KB page gives. -/
namespace SqliteGraph.V3
open Lib

theorem xor_succ_even (n : Nat) : (2 * n) ^^^ (2 * n + 1) = 1 := by
  apply Nat.eq_of_testBit_eq
  intro i
  cases i with
  | zero => simp
  | succ i =>
    rw [Nat.testBit_xor, Nat.testBit_succ, Nat.testBit_succ, Nat.testBit_succ,
      show (2 * n + 1) / 2 = n by omega, show 2 * n / 2 = n by omega]
    simp

/-- Four indices in a row cancel. -/
theorem xor_four (k : Nat) : UInt64.ofNat (4 * k) ^^^ UInt64.ofNat (4 * k + 1) ^^^
    (UInt64.ofNat (4 * k + 2) ^^^ UInt64.ofNat (4 * k + 3)) = 0 := by
  have h₁ := xor_succ_even (2 * k)
  have h₂ := xor_succ_even (2 * k + 1)
  rw [show 2 * (2 * k) = 4 * k by omega] at h₁
  rw [show 2 * (2 * k + 1) = 4 * k + 2 by omega] at h₂
  rw [← UInt64.ofNat_xor, ← UInt64.ofNat_xor, h₁, h₂, UInt64.xor_self]

theorem foldl_xor {k m : Nat} {data : Bytes} {s : UInt64} (h : data.length = 4 * m) :
    ((data.zipIdx (4 * k)).map fun bi => bi.1.toUInt64 ^^^ UInt64.ofNat bi.2).foldl (· ^^^ ·) s =
      s ^^^ (byteXor data).toUInt64 := by
  induction m generalizing k data s with
  | zero =>
    rw [List.eq_nil_of_length_eq_zero h]
    simp
  | succ m ih =>
    match data, h with
    | a :: b :: c :: d :: rest, h =>
      have hrest : rest.length = 4 * m := by
        simp only [List.length_cons] at h
        omega
      have hi := xor_four k
      simp only [List.zipIdx_cons, List.map_cons, List.foldl_cons, byteXor_cons,
        UInt8.toUInt64_xor, Nat.add_assoc, Nat.reduceAdd]
      rw [show 4 * k + 4 = 4 * (k + 1) by omega, ih hrest]
      generalize UInt64.ofNat (4 * k) = i₀ at hi ⊢
      generalize UInt64.ofNat (4 * k + 1) = i₁ at hi ⊢
      generalize UInt64.ofNat (4 * k + 2) = i₂ at hi ⊢
      generalize UInt64.ofNat (4 * k + 3) = i₃ at hi ⊢
      calc _ = s ^^^ (a.toUInt64 ^^^ (b.toUInt64 ^^^ (c.toUInt64 ^^^ (d.toUInt64 ^^^
              (byteXor rest).toUInt64)))) ^^^ (i₀ ^^^ i₁ ^^^ (i₂ ^^^ i₃)) := by ac_rfl
        _ = _ := by rw [hi, UInt64.xor_zero]

/-- Over a multiple of four bytes the indices cancel, and only the bytes' own sum is left. -/
theorem xorChecksum_eq {data : Bytes} (h : data.length % 4 = 0) :
    xorChecksum data = xorSeed ^^^ (byteXor data).toUInt64 := by
  have hm : data.length = 4 * (data.length / 4) := by omega
  exact foldl_xor (k := 0) hm

/-- The checksum of bytes whose sum is `x`. -/
def checksumOf (x : UInt8) : Nat := (xorSeed ^^^ x.toUInt64).toUInt32.toNat

theorem checksum32_eq {data : Bytes} (h : data.length % 4 = 0) :
    checksum32 data = checksumOf (byteXor data) := by
  rw [checksum32, xorChecksum_eq h, checksumOf]

theorem checksumOf_inj {x y : UInt8} (h : checksumOf x = checksumOf y) : x = y := by
  have h₁ := UInt32.toNat_inj.mp h
  rw [UInt64.toUInt32_xor, UInt64.toUInt32_xor, UInt32.xor_right_inj] at h₁
  have h₂ := congrArg UInt32.toNat h₁
  simp only [UInt64.toNat_toUInt32, UInt8.toNat_toUInt64] at h₂
  have hx := x.toNat_lt
  have hy := y.toNat_lt
  apply UInt8.toNat.inj
  omega

namespace IndexPage

/-- The flag is all that the reader takes from its byte. -/
def flagByte (b : Bool) : UInt8 := if b then 1 else 0

def countField (bytes : Bytes) : Nat := beNat (slice bytes 10 2)

/-- The sum that the reader compares with the stored checksum. -/
def readSum (bytes : Bytes) : UInt8 :=
  byteXor (slice bytes 0 8) ^^^ (flagByte (slice bytes 8 1 == [1]) ^^^
    (flagByte (slice bytes 9 1 == [1]) ^^^ (byteXor (slice bytes 10 2) ^^^
      byteXor (slice bytes indexHeaderSize (8 + 16 * countField bytes)))))

def storedChecksum (bytes : Bytes) : Nat := beNat (slice bytes 12 4)

/-- There is a child beyond the keys, and every field is a `u64`. -/
def Shaped : IndexPage → Prop
  | internal p keys children _ => p < 2 ^ 64 ∧ children.length = keys.length + 1 ∧
      (∀ k ∈ keys, k < 2 ^ 64) ∧ ∀ c ∈ children, c < 2 ^ 64
  | leaf p entries nextLeaf _ => p < 2 ^ 64 ∧
      (∀ e ∈ entries, e.1 < 2 ^ 64 ∧ e.2 < 2 ^ 64) ∧ nextLeaf < 2 ^ 64

/-- The page has what the fields of these bytes say. -/
structure ReadAs (bytes : Bytes) (page : IndexPage) : Prop where
  pageId : page.pageId = beNat (slice bytes 0 8)
  isLeaf : page.isLeaf = (slice bytes 8 1 == [1])
  isRoot : page.isRoot = (slice bytes 9 1 == [1])
  count : page.count = countField bytes
  data : page.dataBytes = slice bytes indexHeaderSize (8 + 16 * countField bytes)
  shaped : page.Shaped

variable {page page' : IndexPage} {bytes : Bytes} {off n : Nat} {reason : String}

theorem beBytes_beNat {x : Bytes} (h : x.length = n) : beBytes n (beNat x) = x := by
  have hx : x.reverse.length = n := by rw [List.length_reverse, h]
  rw [beBytes, beNat, ← hx, leBytes_leNat, List.reverse_reverse]

theorem beNat_slice_lt (h : off + n ≤ bytes.length) : beNat (slice bytes off n) < 256 ^ n := by
  have hlt := @leNat_lt (slice bytes off n).reverse
  rwa [List.length_reverse, length_slice h] at hlt

/-- With room on the page the loop returns as many words as it is asked for, the bytes' own. -/
theorem readU64s_ok (hlen : bytes.length = defaultPageSize) (hroom : off + 8 * n ≤ defaultPageSize) :
    ∃ xs, readU64s reason bytes n off = .ok xs ∧ xs.length = n ∧ (∀ x ∈ xs, x < 2 ^ 64) ∧
      u64s xs = slice bytes off (8 * n) := by
  induction n generalizing off with
  | zero => exact ⟨[], rfl, rfl, by simp, by simp [u64s, slice]⟩
  | succ n ih =>
    obtain ⟨xs, hxs, hn, hlt, hu⟩ := @ih (off + 8) (by omega)
    refine ⟨beNat (slice bytes off 8) :: xs, ?_, by rw [List.length_cons, hn], ?_, ?_⟩
    · rw [readU64s, if_neg (by omega), hxs]
    · intro x hx
      rcases List.mem_cons.mp hx with rfl | hx
      · exact beNat_slice_lt (by omega)
      · exact hlt x hx
    · rw [show 8 * (n + 1) = 8 + 8 * n by omega, slice_add, ← hu]
      have hword : (slice bytes off 8).length = 8 := length_slice (by omega)
      simp only [u64s, List.flatMap_cons, beBytes_beNat hword]

/-- Without it the loop runs off the page. -/
theorem readU64s_error (hoff : off ≤ defaultPageSize) (hroom : defaultPageSize < off + 8 * n) :
    ∃ e, readU64s reason bytes n off = .error e := by
  induction n generalizing off with
  | zero => exact absurd hroom (by omega)
  | succ n ih =>
    rw [readU64s]
    split
    · exact ⟨_, rfl⟩
    · obtain ⟨e, he⟩ := @ih (off + 8) (by omega) (by omega)
      exact ⟨e, by rw [he]⟩

theorem readEntries_ok (hlen : bytes.length = defaultPageSize)
    (hroom : off + 16 * n ≤ defaultPageSize) :
    ∃ es, readEntries bytes n off = .ok es ∧ es.length = n ∧
      (∀ e ∈ es, e.1 < 2 ^ 64 ∧ e.2 < 2 ^ 64) ∧
      (es.flatMap fun e => beBytes 8 e.1 ++ beBytes 8 e.2) = slice bytes off (16 * n) := by
  induction n generalizing off with
  | zero => exact ⟨[], rfl, rfl, by simp, by simp [slice]⟩
  | succ n ih =>
    obtain ⟨es, hes, hn, hlt, hu⟩ := @ih (off + 16) (by omega)
    refine ⟨(beNat (slice bytes off 8), beNat (slice bytes (off + 8) 8)) :: es, ?_,
      by rw [List.length_cons, hn], ?_, ?_⟩
    · rw [readEntries, if_neg (by omega), hes]
    · intro e he
      rcases List.mem_cons.mp he with rfl | he
      · exact ⟨beNat_slice_lt (by omega), beNat_slice_lt (by omega)⟩
      · exact hlt e he
    · have h₁ : (slice bytes off 8).length = 8 := length_slice (by omega)
      have h₂ : (slice bytes (off + 8) 8).length = 8 := length_slice (by omega)
      rw [show 16 * (n + 1) = 8 + (8 + 16 * n) by omega, slice_add, slice_add,
        show off + 8 + 8 = off + 16 by omega, ← hu]
      simp only [List.flatMap_cons, List.append_assoc, beBytes_beNat h₁, beBytes_beNat h₂]

theorem readEntries_error (hoff : off ≤ defaultPageSize) (hroom : defaultPageSize < off + 16 * n) :
    ∃ e, readEntries bytes n off = .error e := by
  induction n generalizing off with
  | zero => exact absurd hroom (by omega)
  | succ n ih =>
    rw [readEntries]
    split
    · exact ⟨_, rfl⟩
    · obtain ⟨e, he⟩ := @ih (off + 16) (by omega) (by omega)
      exact ⟨e, by rw [he]⟩

theorem ReadAs.calculateChecksum (h : ReadAs bytes page) (hlen : bytes.length = defaultPageSize)
    (hc : countField bytes ≤ 253) : page.calculateChecksum = checksumOf (readSum bytes) := by
  have hdata : page.dataBytes.length = 8 + 16 * countField bytes := by
    rw [h.data, length_slice]
    rw [hlen, indexHeaderSize, defaultPageSize]
    omega
  have hmod : (headerBytes page.pageId page.isLeaf page.isRoot page.count 0 ++
      page.dataBytes).length % 4 = 0 := by
    rw [List.length_append, length_headerBytes, hdata, indexHeaderSize]
    omega
  have hid : beBytes 8 page.pageId = slice bytes 0 8 := by
    rw [h.pageId, beBytes_beNat (length_slice (by rw [hlen]; decide))]
  have hcount : beBytes 2 page.count = slice bytes 10 2 := by
    rw [h.count, countField, beBytes_beNat (length_slice (by rw [hlen]; decide))]
  have hzero : byteXor (beBytes 4 0) = 0 := by decide
  rw [IndexPage.calculateChecksum, checksum32_eq hmod]
  congr 1
  simp only [headerBytes, byteXor_append, hid, hcount, hzero, byteXor_replicate_zero, byteXor_cons,
    byteXor_nil, UInt8.xor_zero, h.data, h.isLeaf, h.isRoot, readSum, flagByte, UInt8.xor_assoc]

/-- A count beyond what the page holds is rejected. -/
theorem unpack_error (hlen : bytes.length = defaultPageSize) (hc : 253 < countField bytes) :
    ∃ e, unpack bytes = .error e := by
  rw [unpack, if_neg (by omega)]
  simp only
  rw [show beNat (slice bytes 10 2) = countField bytes from rfl]
  generalize countField bytes = c at hc ⊢
  split
  · by_cases h : 254 < c
    · obtain ⟨e, he⟩ := @readEntries_error bytes indexHeaderSize c (by decide)
        (by rw [indexHeaderSize, defaultPageSize]; omega)
      simp only [unpackLeaf, he]
      exact ⟨e, rfl⟩
    · obtain ⟨es, hes, -⟩ := @readEntries_ok bytes indexHeaderSize c hlen
        (by rw [indexHeaderSize, defaultPageSize]; omega)
      have hroom : defaultPageSize < indexHeaderSize + 16 * c + 8 := by
        rw [indexHeaderSize, defaultPageSize]
        omega
      simp only [unpackLeaf, hes]
      exact ⟨_, if_pos hroom⟩
  · by_cases h : 508 < c
    · obtain ⟨e, he⟩ := @readU64s_error bytes indexHeaderSize c
        "page overflow reading keys" (by decide)
        (by rw [indexHeaderSize, defaultPageSize]; omega)
      simp only [unpackInternal, he]
      exact ⟨e, rfl⟩
    · obtain ⟨ks, hks, -⟩ := @readU64s_ok bytes indexHeaderSize c
        "page overflow reading keys" hlen
        (by rw [indexHeaderSize, defaultPageSize]; omega)
      obtain ⟨e, he⟩ := @readU64s_error bytes (indexHeaderSize + 8 * c)
        (c + 1) "page overflow reading children"
        (by rw [indexHeaderSize, defaultPageSize]; omega)
        (by rw [indexHeaderSize, defaultPageSize]; omega)
      simp only [unpackInternal, hks, he]
      exact ⟨e, rfl⟩

/-- Otherwise there is a page in the bytes, and only the checksum stands in its way. -/
theorem unpack_verdict (hlen : bytes.length = defaultPageSize) (hc : countField bytes ≤ 253) :
    ∃ page e, ReadAs bytes page ∧ unpack bytes =
      if page.calculateChecksum ≠ storedChecksum bytes then .error e else .ok page := by
  have hid : beNat (slice bytes 0 8) < 2 ^ 64 := beNat_slice_lt (by rw [hlen]; decide)
  have hcount : beNat (slice bytes 10 2) = countField bytes := rfl
  by_cases hl : slice bytes 8 1 == [1]
  · obtain ⟨es, hes, hn, hlt, hu⟩ := @readEntries_ok bytes indexHeaderSize
      (countField bytes) hlen (by rw [indexHeaderSize, defaultPageSize]; omega)
    have hroom : ¬ defaultPageSize < indexHeaderSize + 16 * countField bytes + 8 := by
      rw [indexHeaderSize, defaultPageSize]
      omega
    let page := leaf (beNat (slice bytes 0 8)) es
      (beNat (slice bytes (indexHeaderSize + 16 * countField bytes) 8)) (slice bytes 9 1 == [1])
    have hread : ReadAs bytes page := by
      refine ⟨rfl, hl.symm, rfl, hn, ?_, hid, hlt, beNat_slice_lt (by omega)⟩
      rw [dataBytes, hu, beBytes_beNat (length_slice (by omega)), Nat.add_comm 8, slice_add]
    have hunpack : ∃ e, unpack bytes =
        if page.calculateChecksum ≠ storedChecksum bytes then .error e else .ok page := by
      rw [unpack, if_neg (by omega)]
      simp only [hl, if_true, unpackLeaf, hcount, hes]
      exact ⟨_, if_neg hroom⟩
    obtain ⟨e, he⟩ := hunpack
    exact ⟨page, e, hread, he⟩
  · obtain ⟨ks, hks, hkn, hklt, hku⟩ := @readU64s_ok bytes indexHeaderSize
      (countField bytes) "page overflow reading keys" hlen
      (by rw [indexHeaderSize, defaultPageSize]; omega)
    obtain ⟨cs, hcs, hcn, hclt, hcu⟩ := @readU64s_ok bytes (indexHeaderSize + 8 * countField bytes)
      (countField bytes + 1) "page overflow reading children" hlen
      (by rw [indexHeaderSize, defaultPageSize]; omega)
    let page := internal (beNat (slice bytes 0 8)) ks cs (slice bytes 9 1 == [1])
    have hread : ReadAs bytes page := by
      refine ⟨rfl, (Bool.eq_false_iff.mpr hl).symm, rfl, hkn, ?_, hid, ?_, hklt, hclt⟩
      · rw [dataBytes, hku, hcu, show 8 + 16 * countField bytes =
          8 * countField bytes + 8 * (countField bytes + 1) by omega, slice_add]
      · rw [hcn, hkn]
    have hunpack : ∃ e, unpack bytes =
        if page.calculateChecksum ≠ storedChecksum bytes then .error e else .ok page := by
      rw [unpack, if_neg (by omega)]
      simp only [hl, unpackInternal, hcount, hks, hcs]
      exact ⟨_, rfl⟩
    obtain ⟨e, he⟩ := hunpack
    exact ⟨page, e, hread, he⟩

/-- The sum of what is read decides between the page and an error. -/
theorem unpack_read (hlen : bytes.length = defaultPageSize) (hc : countField bytes ≤ 253) :
    ∃ page, ReadAs bytes page ∧
      (checksumOf (readSum bytes) = storedChecksum bytes → unpack bytes = .ok page) ∧
      (checksumOf (readSum bytes) ≠ storedChecksum bytes → ∃ e, unpack bytes = .error e) := by
  obtain ⟨page, e, hread, hunpack⟩ := unpack_verdict hlen hc
  rw [hread.calculateChecksum hlen hc] at hunpack
  refine ⟨page, hread, fun h => ?_, fun h => ⟨e, ?_⟩⟩
  · rw [hunpack, if_neg (not_not_intro h)]
  · rw [hunpack, if_pos h]

end IndexPage

end SqliteGraph.V3
