import SqliteGraph.V3.PageChecksum

/-! What an index page comes back as: from its own image, and from its image with a byte changed. -/
namespace SqliteGraph.V3
open Lib

namespace IndexPage
variable {page page' : IndexPage} {bytes : Bytes} {i : Nat} {b : UInt8}

/-- Every field is a `u64`. -/
def Words : IndexPage → Prop
  | internal p keys children _ => p < 2 ^ 64 ∧ (∀ k ∈ keys, k < 2 ^ 64) ∧ ∀ c ∈ children, c < 2 ^ 64
  | leaf p entries nextLeaf _ => p < 2 ^ 64 ∧
      (∀ e ∈ entries, e.1 < 2 ^ 64 ∧ e.2 < 2 ^ 64) ∧ nextLeaf < 2 ^ 64

/-- An internal page as `new_internal` makes it: without the child that every reader expects. -/
def Childless : IndexPage → Prop
  | internal _ _ children _ => children = []
  | leaf _ _ _ _ => False

/-- What is written for a page, seen as a page: the padding supplies a missing child. -/
def written : IndexPage → IndexPage
  | internal p [] [] r => internal p [] [0] r
  | page => page

theorem written_of_not_childless (h : ¬ page.Childless) : page.written = page := by
  match page, h with
  | internal p [] [] r, h => exact absurd rfl h
  | internal p [] (_ :: _) r, _ => rfl
  | internal p (_ :: _) _ r, _ => rfl
  | leaf p es n r, _ => rfl

theorem written_ne (hin : page.written.InWidth) (h : page.Childless) : page.written ≠ page := by
  intro heq
  match page, h, hin, heq with
  | internal p [] [] r, _, _, heq => cases heq
  | internal p (_ :: _) [] r, _, hin, _ => exact absurd hin.2.2.1 (by simp)

theorem count_of_childless (hin : page.written.InWidth) (h : page.Childless) : page.count = 0 := by
  match page, h, hin with
  | internal p [] [] r, _, _ => rfl
  | internal p (_ :: _) [] r, _, hin => exact absurd hin.2.2.1 (by simp)

theorem image_written : page.written.image = page.image := by
  match page with
  | internal p [] [] r =>
    have hx : (headerBytes p false r 0 0 ++ u64s [0]).length % 4 = 0 := by
      rw [List.length_append, length_headerBytes, length_u64s]
      decide
    have hy : (headerBytes p false r 0 0).length % 4 = 0 := by
      rw [length_headerBytes]
      decide
    have hword : u64s [0] = List.replicate 8 0 := by decide
    have hsum : (internal p [] [0] r).calculateChecksum =
        (internal p [] [] r).calculateChecksum := by
      simp only [calculateChecksum, pageId, isLeaf, isRoot, count, dataBytes, List.length_nil]
      rw [show u64s [] = [] from rfl, List.nil_append, List.nil_append, List.append_nil,
        checksum32_eq hx, checksum32_eq hy, byteXor_append, hword, byteXor_replicate_zero,
        UInt8.xor_zero]
    simp only [written, image, hsum]
    simp only [pageId, isLeaf, isRoot, count, dataBytes, List.length_nil]
    rw [hword, show u64s [] = [] from rfl, List.nil_append, List.nil_append, List.append_nil,
      List.append_assoc, List.length_append, List.length_replicate, length_headerBytes,
      List.replicate_append_replicate]
    rfl
  | internal p [] (_ :: _) r => rfl
  | internal p (_ :: _) _ r => rfl
  | leaf p es n r => rfl

/-- What is accepted is its image, and what is written there is a page that fits. -/
theorem pack_inv (hw : page.Words) (hp : page.pack = .ok bytes) :
    bytes = page.image ∧ page.written.InWidth := by
  cases page with
  | internal p keys children r =>
    obtain ⟨hid, hk, hc⟩ := hw
    simp only [pack] at hp
    split at hp
    · cases hp
    · rename_i hshape
      split at hp
      · cases hp
      · rename_i hempty
        split at hp
        · cases hp
        · rename_i hmax
          cases hp
          refine ⟨rfl, ?_⟩
          cases keys with
          | nil =>
            rcases children with _ | ⟨c, _ | ⟨c', cs⟩⟩
            · exact ⟨hid, by decide, rfl, by simp, by simp⟩
            · exact ⟨hid, by decide, rfl, by simp, hc⟩
            · exact absurd ⟨rfl, by simp⟩ hempty
          | cons k ks =>
            refine ⟨hid, Nat.le_of_not_lt hmax, ?_, hk, hc⟩
            by_contra hne
            exact hshape ⟨by simp, hne⟩
  | leaf p entries n r =>
    obtain ⟨hid, he, hn⟩ := hw
    simp only [pack] at hp
    split at hp
    · cases hp
    · rename_i hmax
      cases hp
      exact ⟨rfl, hid, Nat.le_of_not_lt hmax, he, hn⟩

/-- A page is read back as itself, except an internal page without children: it gets one. -/
theorem page_round_trip (hw : page.Words) (hp : page.pack = .ok bytes) :
    unpack bytes = .ok page ↔ ¬ page.Childless := by
  obtain ⟨rfl, hin⟩ := pack_inv hw hp
  have hread := hin.unpack_image
  rw [image_written] at hread
  rw [hread]
  constructor
  · intro h hchild
    exact written_ne hin hchild (Except.ok.inj h)
  · intro h
    rw [written_of_not_childless h]

theorem page_round_trip_leaf : unpack (leaf 7 [(1, 100), (2, 200)] 8 true).image =
    .ok (leaf 7 [(1, 100), (2, 200)] 8 true) := by
  have hw : (leaf 7 [(1, 100), (2, 200)] 8 true).Words := ⟨by decide, by decide, by decide⟩
  exact (page_round_trip hw rfl).mpr id

/-- The page that `new_internal` makes comes back with page 0 as its child. -/
theorem not_page_round_trip : (newInternal 3).pack = .ok (newInternal 3).image ∧
    unpack (newInternal 3).image = .ok (internal 3 [] [0] false) ∧
    internal 3 [] [0] false ≠ newInternal 3 := by
  refine ⟨rfl, ?_, by decide⟩
  decide +kernel

/-- The byte is none that the reader takes anything from. -/
def Ignored (page : IndexPage) (i : Nat) (b : UInt8) : Prop :=
  (i = 8 ∧ page.isLeaf = false ∧ b ≠ 1) ∨ (i = 9 ∧ page.isRoot = false ∧ b ≠ 1) ∨
    (16 ≤ i ∧ i < indexHeaderSize) ∨ indexHeaderSize + 8 + 16 * page.count ≤ i

/-- The count is lowered, and what it then leaves out sums to the very change of the count. -/
def Shortens (page : IndexPage) (i : Nat) (b : UInt8) : Prop :=
  i = 11 ∧ b.toNat < page.count ∧
    byteXor (page.dataBytes.drop (8 + 16 * b.toNat)) = UInt8.ofNat page.count ^^^ b

instance : Decidable (Ignored page i b) := inferInstanceAs (Decidable (_ ∨ _))
instance : Decidable (Shortens page i b) := inferInstanceAs (Decidable (_ ∧ _))

theorem Shaped.inWidth (h : page.Shaped) (hc : page.count ≤ maxEntries) : page.InWidth := by
  cases page with
  | internal p ks cs r => exact ⟨h.1, hc, h.2⟩
  | leaf p es n r => exact ⟨h.1, hc, h.2⟩

/-- The fields that bytes hold determine the page. -/
theorem ReadAs.unique {other : Bytes} (h : ReadAs bytes page) (h' : ReadAs other page')
    (hc : countField bytes ≤ maxEntries) (hid : slice other 0 8 = slice bytes 0 8)
    (hleaf : (slice other 8 1 == [1]) = (slice bytes 8 1 == [1]))
    (hroot : (slice other 9 1 == [1]) = (slice bytes 9 1 == [1]))
    (hcount : slice other 10 2 = slice bytes 10 2)
    (hdata : slice other indexHeaderSize (8 + 16 * countField bytes) =
      slice bytes indexHeaderSize (8 + 16 * countField bytes)) : page' = page := by
  have hfield : countField other = countField bytes := congrArg beNat hcount
  have e₁ : page'.pageId = page.pageId := by rw [h'.pageId, h.pageId, hid]
  have e₂ : page'.isLeaf = page.isLeaf := by rw [h'.isLeaf, h.isLeaf, hleaf]
  have e₃ : page'.isRoot = page.isRoot := by rw [h'.isRoot, h.isRoot, hroot]
  have e₄ : page'.count = page.count := by rw [h'.count, h.count, hfield]
  have e₅ : page'.dataBytes = page.dataBytes := by rw [h'.data, h.data, hfield, hdata]
  have himage : page'.image = page.image := by
    simp only [image, IndexPage.calculateChecksum, e₁, e₂, e₃, e₄, e₅]
  have hin := h.shaped.inWidth (by rw [h.count]; exact hc)
  have hin' := h'.shaped.inWidth (by rw [h'.count, hfield]; exact hc)
  have hread := hin'.unpack_image
  rw [himage, hin.unpack_image] at hread
  exact (Except.ok.inj hread).symm

/-- What a packed page's own image is read as. -/
theorem InWidth.readAs (hf : page.InWidth) : ReadAs page.image page ∧
    checksumOf (readSum page.image) = storedChecksum page.image := by
  have hread := hf.unpack_image
  have hc : countField page.image ≤ 253 := by
    by_contra hlt
    obtain ⟨e, he⟩ := unpack_error hf.length_image (Nat.lt_of_not_le hlt)
    rw [he] at hread
    cases hread
  obtain ⟨page', h, hok, herr⟩ := unpack_read hf.length_image hc
  by_cases hsum : checksumOf (readSum page.image) = storedChecksum page.image
  · have heq : page' = page := Except.ok.inj ((hok hsum).symm.trans hread)
    exact ⟨heq ▸ h, hsum⟩
  · obtain ⟨e, he⟩ := herr hsum
    rw [he] at hread
    cases hread

theorem InWidth.count_le (hf : page.InWidth) : page.count ≤ maxEntries := by
  cases page <;> exact hf.2.1

theorem InWidth.countField (hf : page.InWidth) : countField page.image = page.count :=
  hf.readAs.1.count.symm

theorem countField_eq {high low : UInt8} (hhigh : bytes[10]? = some high)
    (hlow : bytes[11]? = some low) : countField bytes = 256 * high.toNat + low.toNat := by
  obtain ⟨_, rfl⟩ := List.getElem?_eq_some_iff.mp hhigh
  obtain ⟨hlen, rfl⟩ := List.getElem?_eq_some_iff.mp hlow
  rw [IndexPage.countField, slice_two hlen]
  simp only [beNat, List.reverse_cons, List.reverse_nil, List.nil_append, List.cons_append, leNat,
    Nat.reduceAdd]
  omega

/-- Bytes that agree with the image wherever the reader looks are read as the page. -/
theorem InWidth.unpack_same (hf : page.InWidth) (hlen : bytes.length = defaultPageSize)
    (hid : slice bytes 0 8 = slice page.image 0 8)
    (hleaf : (slice bytes 8 1 == [1]) = (slice page.image 8 1 == [1]))
    (hroot : (slice bytes 9 1 == [1]) = (slice page.image 9 1 == [1]))
    (hcount : slice bytes 10 2 = slice page.image 10 2)
    (hstored : slice bytes 12 4 = slice page.image 12 4)
    (hdata : slice bytes indexHeaderSize (8 + 16 * page.count) =
      slice page.image indexHeaderSize (8 + 16 * page.count)) : unpack bytes = .ok page := by
  obtain ⟨hread, hsum⟩ := hf.readAs
  have hfield : IndexPage.countField bytes = page.count := by
    rw [IndexPage.countField, hcount]
    exact hf.countField
  have hmax := hf.count_le
  rw [maxEntries] at hmax
  obtain ⟨page', hread', hok, -⟩ := unpack_read hlen (by omega)
  have hsum' : checksumOf (readSum bytes) = storedChecksum bytes := by
    rw [storedChecksum, hstored]
    rw [readSum, hf.countField, storedChecksum] at hsum
    rw [readSum, hfield, hid, hleaf, hroot, hcount, hdata, hsum]
  have heq : page' = page := hread.unique hread' (by rw [hf.countField]; exact hf.count_le)
    hid hleaf hroot hcount (by rw [hf.countField]; exact hdata)
  rw [hok hsum', heq]

/-- A change where the reader takes nothing from the byte goes unnoticed, and changes nothing. -/
theorem InWidth.unpack_ignored (hf : page.InWidth) (h : page.Ignored i b) :
    unpack (page.image.set i b) = .ok page := by
  have hlen := hf.length_image
  have hread := hf.readAs.1
  have hout : ∀ (off : Nat) {n : Nat}, i < off ∨ off + n ≤ i →
      slice (page.image.set i b) off n = slice page.image off n := fun _ _ => slice_set_of_not_mem
  have hlen' : (page.image.set i b).length = defaultPageSize := by rw [List.length_set, hlen]
  have hflag : ∀ {off : Nat}, i = off → off < defaultPageSize → b ≠ 1 →
      (slice (page.image.set i b) off 1 == [1]) = false := by
    intro off hi hoff hb
    subst hi
    rw [slice_one (by omega), List.getElem_set_self]
    simpa using hb
  simp only [Ignored, indexHeaderSize] at h
  apply hf.unpack_same hlen'
  · exact hout _ (by omega)
  · rcases h with ⟨hi, hl, hb⟩ | h
    · rw [hflag hi (by decide) hb, ← hread.isLeaf, hl]
    · rw [hout _ (by omega)]
  · rcases h with h | ⟨hi, hr, hb⟩ | h
    · rw [hout _ (by omega)]
    · rw [hflag hi (by decide) hb, ← hread.isRoot, hr]
    · rw [hout _ (by omega)]
  · exact hout _ (by omega)
  · exact hout _ (by omega)
  · exact hout _ (by rw [indexHeaderSize]; omega)

/-- A changed sum is noticed. -/
theorem InWidth.error_of_sum (hf : page.InWidth) (hlen : bytes.length = defaultPageSize)
    (hc : IndexPage.countField bytes ≤ 253) (hstored : slice bytes 12 4 = slice page.image 12 4)
    (h : readSum bytes ≠ readSum page.image) : ∃ e, unpack bytes = .error e := by
  obtain ⟨-, -, -, herr⟩ := unpack_read hlen hc
  apply herr
  intro hsum
  rw [storedChecksum, hstored] at hsum
  exact h (checksumOf_inj (hsum.trans hf.readAs.2.symm))

/-- A change of the page id, of the stored checksum, of a flag or of the data is noticed. -/
theorem InWidth.unpack_noticed (hf : page.InWidth) (hi : i < page.image.length)
    (hb : page.image[i] ≠ b) (hcount : i ≠ 10 ∧ i ≠ 11) (h : ¬ page.Ignored i b) :
    ∃ e, unpack (page.image.set i b) = .error e := by
  have hlen := hf.length_image
  have hread := hf.readAs.1
  have hmax := hf.count_le
  rw [maxEntries] at hmax
  have hlen' : (page.image.set i b).length = defaultPageSize := by rw [List.length_set, hlen]
  have hout : ∀ (off : Nat) {n : Nat}, i < off ∨ off + n ≤ i →
      slice (page.image.set i b) off n = slice page.image off n := fun _ _ => slice_set_of_not_mem
  have hfield : IndexPage.countField (page.image.set i b) = page.count := by
    rw [IndexPage.countField, hout _ (by omega)]
    exact hf.countField
  have hflag : ∀ {off : Nat}, i = off →
      ((slice (page.image.set i b) off 1 == [1]) = (b == 1)) ∧
      ((slice page.image off 1 == [1]) = (page.image[i] == 1)) := by
    intro off hoff
    subst hoff
    rw [slice_one (by rw [List.length_set]; exact hi), List.getElem_set_self, slice_one hi]
    simp
  have hwas : ∀ {off : Nat}, i = off →
      ¬ ((slice page.image off 1 == [1]) = false ∧ b ≠ 1) →
      flagByte (slice (page.image.set i b) off 1 == [1]) ≠
        flagByte (slice page.image off 1 == [1]) := by
    intro off hoff hnot
    obtain ⟨h₁, h₂⟩ := hflag hoff
    rw [h₂] at hnot
    rw [h₁, h₂]
    by_cases hone : b = 1
    · have : page.image[i] ≠ 1 := hone ▸ hb
      simp [hone, this, flagByte]
    · have : page.image[i] = 1 := by
        by_contra hne
        exact hnot ⟨by simpa using hne, hone⟩
      simp [hone, this, flagByte]
  simp only [Ignored, indexHeaderSize, hread.isLeaf, hread.isRoot] at h
  by_cases hstored : 12 ≤ i ∧ i < 16
  · -- the stored checksum is another number, and what it is compared with is not
    obtain ⟨-, -, -, herr⟩ := unpack_read hlen' (by omega)
    apply herr
    have hsum : readSum (page.image.set i b) = readSum page.image := by
      rw [readSum, readSum, hfield, hf.countField, hout _ (by omega), hout _ (by omega),
        hout _ (by omega), hout _ (by omega), hout _ (by rw [indexHeaderSize]; omega)]
    rw [hsum, hf.readAs.2, storedChecksum, storedChecksum]
    intro heq
    have hbytes := congrArg (beBytes 4) heq
    rw [beBytes_beNat (length_slice (by rw [hlen]; decide)),
      beBytes_beNat (length_slice (by rw [hlen']; decide))] at hbytes
    exact byteXor_slice_set_ne hstored.1 hstored.2 hi hb (congrArg byteXor hbytes).symm
  · apply hf.error_of_sum hlen' (by omega) (hout _ (by omega))
    rw [readSum, readSum, hfield, hf.countField, hout 10 (by omega)]
    by_cases hid : i < 8
    · rw [hout 8 (by omega), hout 9 (by omega),
        hout indexHeaderSize (by rw [indexHeaderSize]; omega)]
      intro heq
      exact byteXor_slice_set_ne (by omega) (by omega) hi hb (UInt8.xor_left_inj _ |>.mp heq)
    · rw [hout 0 (by omega)]
      intro heq
      have heq := UInt8.xor_right_inj _ |>.mp heq
      by_cases hl : i = 8
      · rw [hout 9 (by omega),
          hout indexHeaderSize (by rw [indexHeaderSize]; omega)] at heq
        exact hwas hl (fun hn => h (.inl ⟨hl, hn⟩)) (UInt8.xor_left_inj _ |>.mp heq)
      · rw [hout 8 (by omega)] at heq
        have heq := UInt8.xor_right_inj _ |>.mp heq
        by_cases hr : i = 9
        · rw [hout indexHeaderSize (by rw [indexHeaderSize]; omega)] at heq
          exact hwas hr (fun hn => h (.inr (.inl ⟨hr, hn⟩))) (UInt8.xor_left_inj _ |>.mp heq)
        · rw [hout 9 (by omega)] at heq
          have heq := UInt8.xor_right_inj _ |>.mp (UInt8.xor_right_inj _ |>.mp heq)
          exact byteXor_slice_set_ne (by rw [indexHeaderSize]; omega)
            (by rw [indexHeaderSize]; omega) hi hb heq

/-- The count stands in the low byte of its field. -/
theorem InWidth.count_bytes (hf : page.InWidth) :
    page.image[10]? = some 0 ∧ page.image[11]? = some (UInt8.ofNat page.count) := by
  have hlen := hf.length_image
  obtain ⟨high, hhigh⟩ : ∃ high, page.image[10]? = some high :=
    ⟨_, List.getElem?_eq_getElem (by rw [hlen]; decide)⟩
  obtain ⟨low, hlow⟩ : ∃ low, page.image[11]? = some low :=
    ⟨_, List.getElem?_eq_getElem (by rw [hlen]; decide)⟩
  have heq := countField_eq hhigh hlow
  have hmax := hf.count_le
  rw [hf.countField] at heq
  rw [maxEntries] at hmax
  have h₁ := high.toNat_lt
  have h₂ := low.toNat_lt
  rw [hhigh, hlow]
  constructor
  · refine congrArg some (UInt8.toNat.inj ?_)
    rw [UInt8.toNat_zero]
    omega
  · refine congrArg some (UInt8.toNat.inj ?_)
    rw [UInt8.toNat_ofNat', Nat.mod_eq_of_lt (by omega)]
    omega

/-- Past the data there is only padding. -/
theorem InWidth.byteXor_padding (hf : page.InWidth) (n : Nat) :
    byteXor (slice page.image (indexHeaderSize + (8 + 16 * page.count)) n) = 0 := by
  have hread := hf.readAs.1
  have hmax := hf.count_le
  rw [maxEntries] at hmax
  have hdata : page.dataBytes.length = 8 + 16 * page.count := by
    rw [hread.data, hf.countField, length_slice]
    rw [hf.length_image, indexHeaderSize, defaultPageSize]
    omega
  have hfront : (headerBytes page.pageId page.isLeaf page.isRoot page.count
      page.calculateChecksum ++ page.dataBytes).length =
      indexHeaderSize + (8 + 16 * page.count) := by
    rw [List.length_append, length_headerBytes, hdata]
  rw [slice, image, ← hfront, List.drop_left, List.take_replicate, byteXor_replicate_zero]

/-- Beyond one byte the count does not fit the page. -/
theorem InWidth.unpack_high (hf : page.InWidth) (hb : b ≠ 0) :
    ∃ e, unpack (page.image.set 10 b) = .error e := by
  have hlen' : (page.image.set 10 b).length = defaultPageSize := by
    rw [List.length_set, hf.length_image]
  apply unpack_error hlen'
  have hpos : b.toNat ≠ 0 := fun h => hb (UInt8.toNat.inj h)
  have hhigh : (page.image.set 10 b)[10]? = some b :=
    List.getElem?_set_self (by rw [hf.length_image]; decide)
  obtain ⟨low, hlow⟩ : ∃ low, (page.image.set 10 b)[11]? = some low :=
    ⟨_, List.getElem?_eq_getElem (by rw [hlen']; decide)⟩
  rw [countField_eq hhigh hlow]
  omega

theorem InWidth.countField_low (hf : page.InWidth) :
    IndexPage.countField (page.image.set 11 b) = b.toNat := by
  have hhigh : (page.image.set 11 b)[10]? = some 0 := by
    rw [List.getElem?_set_ne (by decide)]
    exact hf.count_bytes.1
  have hlow : (page.image.set 11 b)[11]? = some b :=
    List.getElem?_set_self (by rw [hf.length_image]; decide)
  rw [countField_eq hhigh hlow]
  simp

/-- With another count the sum changes by the change of the count and by what it leaves out. -/
theorem InWidth.readSum_low (hf : page.InWidth) :
    readSum (page.image.set 11 b) = readSum page.image ↔
      byteXor (slice page.image indexHeaderSize (8 + 16 * b.toNat)) ^^^
        byteXor (slice page.image indexHeaderSize (8 + 16 * page.count)) =
      UInt8.ofNat page.count ^^^ b := by
  have hlen := hf.length_image
  obtain ⟨hzero, hcount⟩ := hf.count_bytes
  rw [List.getElem?_eq_getElem (by rw [hlen]; decide)] at hzero hcount
  have hold : slice page.image 10 2 = [0, UInt8.ofNat page.count] := by
    rw [slice_two (by rw [hlen]; decide), Option.some.inj hzero, Option.some.inj hcount]
  have hnew : slice (page.image.set 11 b) 10 2 = [0, b] := by
    rw [slice_set_of_mem (by decide), hold]
    rfl
  have hout : ∀ (off : Nat) {n : Nat}, 11 < off ∨ off + n ≤ 11 →
      slice (page.image.set 11 b) off n = slice page.image off n := fun _ _ => slice_set_of_not_mem
  rw [readSum, readSum, hf.countField_low, hf.countField, hold, hnew, hout 0 (by omega),
    hout 8 (by omega), hout 9 (by omega),
    hout indexHeaderSize (by rw [indexHeaderSize]; omega), UInt8.xor_right_inj,
    UInt8.xor_right_inj, UInt8.xor_right_inj]
  generalize byteXor (slice page.image indexHeaderSize (8 + 16 * b.toNat)) = x
  generalize byteXor (slice page.image indexHeaderSize (8 + 16 * page.count)) = y
  generalize UInt8.ofNat page.count = c
  simp only [byteXor_cons, byteXor_nil, UInt8.xor_zero, UInt8.zero_xor]
  constructor
  · intro h
    calc x ^^^ y = (b ^^^ x) ^^^ (b ^^^ y) := by
          rw [show (b ^^^ x) ^^^ (b ^^^ y) = (b ^^^ b) ^^^ (x ^^^ y) by ac_rfl, UInt8.xor_self,
            UInt8.zero_xor]
      _ = (c ^^^ y) ^^^ (b ^^^ y) := by rw [h]
      _ = (c ^^^ b) ^^^ (y ^^^ y) := by ac_rfl
      _ = c ^^^ b := by rw [UInt8.xor_self, UInt8.xor_zero]
  · intro h
    calc b ^^^ x = (x ^^^ y) ^^^ (b ^^^ y) := by
          rw [show (x ^^^ y) ^^^ (b ^^^ y) = (b ^^^ x) ^^^ (y ^^^ y) by ac_rfl, UInt8.xor_self,
            UInt8.xor_zero]
      _ = (c ^^^ b) ^^^ (b ^^^ y) := by rw [h]
      _ = (c ^^^ y) ^^^ (b ^^^ b) := by ac_rfl
      _ = c ^^^ y := by rw [UInt8.xor_self, UInt8.xor_zero]

/-- A longer page takes padding in, which adds nothing to make up for the count. -/
theorem InWidth.unpack_longer (hf : page.InWidth) (hb : page.count < b.toNat) :
    ∃ e, unpack (page.image.set 11 b) = .error e := by
  have hlen' : (page.image.set 11 b).length = defaultPageSize := by
    rw [List.length_set, hf.length_image]
  by_cases hmax : b.toNat ≤ 253
  · apply hf.error_of_sum hlen' (by rw [hf.countField_low]; exact hmax)
      (slice_set_of_not_mem (by omega))
    rw [Ne, hf.readSum_low, show 8 + 16 * b.toNat = 8 + 16 * page.count +
      16 * (b.toNat - page.count) by omega, slice_add, byteXor_append, hf.byteXor_padding,
      UInt8.xor_zero, UInt8.xor_self]
    intro h
    have heq := congrArg UInt8.toNat (UInt8.xor_eq_zero_iff.mp h.symm)
    rw [UInt8.toNat_ofNat'] at heq
    omega
  · exact unpack_error hlen' (by rw [hf.countField_low]; omega)

/-- A shorter page passes exactly when what it leaves out makes up for the count. -/
theorem InWidth.unpack_shorter (hf : page.InWidth) (hb : b.toNat < page.count) :
    if page.Shortens 11 b then ∃ page', page' ≠ page ∧ unpack (page.image.set 11 b) = .ok page'
    else ∃ e, unpack (page.image.set 11 b) = .error e := by
  have hread := hf.readAs.1
  have hmax := hf.count_le
  rw [maxEntries] at hmax
  have hlen' : (page.image.set 11 b).length = defaultPageSize := by
    rw [List.length_set, hf.length_image]
  have hroom : b.toNat ≤ 253 := by omega
  have hsplit : page.dataBytes = slice page.image indexHeaderSize (8 + 16 * b.toNat) ++
      slice page.image (indexHeaderSize + (8 + 16 * b.toNat)) (16 * (page.count - b.toNat)) := by
    rw [hread.data, hf.countField, ← slice_add]
    congr 1
    omega
  have hdrop : page.dataBytes.drop (8 + 16 * b.toNat) =
      slice page.image (indexHeaderSize + (8 + 16 * b.toNat)) (16 * (page.count - b.toNat)) := by
    have hfront : (slice page.image indexHeaderSize (8 + 16 * b.toNat)).length =
        8 + 16 * b.toNat := by
      apply length_slice
      rw [hf.length_image, indexHeaderSize, defaultPageSize]
      omega
    rw [hsplit, List.drop_left' hfront]
  have hsum : readSum (page.image.set 11 b) = readSum page.image ↔ page.Shortens 11 b := by
    rw [hf.readSum_low, Shortens, hdrop, show 8 + 16 * page.count = 8 + 16 * b.toNat +
      16 * (page.count - b.toNat) by omega, slice_add _ _ (8 + 16 * b.toNat), byteXor_append,
      ← UInt8.xor_assoc, UInt8.xor_self, UInt8.zero_xor]
    exact ⟨fun h => ⟨rfl, hb, h⟩, fun h => h.2.2⟩
  have hstored : slice (page.image.set 11 b) 12 4 = slice page.image 12 4 :=
    slice_set_of_not_mem (by omega)
  split
  · rename_i hs
    obtain ⟨page', hread', hok, -⟩ := unpack_read hlen' (by rw [hf.countField_low]; exact hroom)
    refine ⟨page', ?_, hok ?_⟩
    · rintro rfl
      have hcount := hread'.count
      rw [hf.countField_low] at hcount
      omega
    · rw [hsum.mpr hs, hf.readAs.2, storedChecksum, storedChecksum, hstored]
  · rename_i hs
    exact hf.error_of_sum hlen' (by rw [hf.countField_low]; exact hroom) hstored
      (fun h => hs (hsum.mp h))

/-- What becomes of an image with one byte changed. -/
theorem InWidth.unpack_changed (hf : page.InWidth) (hi : i < page.image.length)
    (hb : page.image[i] ≠ b) :
    if page.Ignored i b then unpack (page.image.set i b) = .ok page
    else if page.Shortens i b then ∃ page', page' ≠ page ∧ unpack (page.image.set i b) = .ok page'
    else ∃ e, unpack (page.image.set i b) = .error e := by
  obtain ⟨hzero, hcount⟩ := hf.count_bytes
  split
  · rename_i h
    exact hf.unpack_ignored h
  · rename_i h
    by_cases hten : i = 10
    · subst hten
      rw [List.getElem?_eq_getElem hi] at hzero
      rw [Option.some.inj hzero] at hb
      rw [if_neg (by rintro ⟨h, -⟩; omega)]
      exact hf.unpack_high hb.symm
    · by_cases heleven : i = 11
      · subst heleven
        rw [List.getElem?_eq_getElem hi] at hcount
        rw [Option.some.inj hcount] at hb
        by_cases hlt : b.toNat < page.count
        · exact hf.unpack_shorter hlt
        · rw [if_neg (by rintro ⟨-, h, -⟩; omega)]
          apply hf.unpack_longer
          have hne : b.toNat ≠ page.count := by
            intro heq
            exact hb (by rw [← heq, UInt8.ofNat_toNat])
          omega
      · rw [if_neg (by rintro ⟨h, -⟩; omega)]
        exact hf.unpack_noticed hi hb ⟨hten, heleven⟩ h

theorem written_fields : page.written.isLeaf = page.isLeaf ∧ page.written.isRoot = page.isRoot ∧
    page.written.count = page.count := by
  match page with
  | internal p [] [] r => exact ⟨rfl, rfl, rfl⟩
  | internal p [] (_ :: _) r => exact ⟨rfl, rfl, rfl⟩
  | internal p (_ :: _) _ r => exact ⟨rfl, rfl, rfl⟩
  | leaf p es n r => exact ⟨rfl, rfl, rfl⟩

/-- One changed byte leads to an error or to the page itself, unless it shortens the page in a way
that its own sum hides, or the page comes back with a child that it did not have. -/
theorem corruption_detected (hw : page.Words) (hp : page.pack = .ok bytes) (hi : i < bytes.length)
    (hb : bytes[i] ≠ b) :
    ((∃ e, unpack (bytes.set i b) = .error e) ∨ unpack (bytes.set i b) = .ok page) ↔
      ¬ page.Shortens i b ∧ ¬ (page.Childless ∧ page.Ignored i b) := by
  obtain ⟨rfl, hin⟩ := pack_inv hw hp
  have hchanged := hin.unpack_changed (i := i) (b := b) (by rw [image_written]; exact hi)
    (by simp only [image_written]; exact hb)
  obtain ⟨hl, hr, hc⟩ := @written_fields page
  have hignored : page.written.Ignored i b ↔ page.Ignored i b := by
    rw [Ignored, Ignored, hl, hr, hc]
  rw [image_written, if_congr hignored rfl rfl] at hchanged
  by_cases hchild : page.Childless
  · have hne := written_ne hin hchild
    have hnot : ∀ other : IndexPage, other.count = page.count → ¬ other.Shortens i b := by
      rintro other hcount ⟨-, hlt, -⟩
      rw [hcount, count_of_childless hin hchild] at hlt
      exact Nat.not_lt_zero _ hlt
    rw [if_neg (hnot page.written hc)] at hchanged
    split at hchanged
    · rename_i h
      rw [hchanged]
      constructor
      · rintro (⟨e, he⟩ | he)
        · cases he
        · exact absurd (Except.ok.inj he) hne
      · rintro ⟨-, hno⟩
        exact absurd ⟨hchild, h⟩ hno
    · rename_i h
      exact ⟨fun _ => ⟨hnot page rfl, fun hno => h hno.2⟩, fun _ => .inl hchanged⟩
  · rw [written_of_not_childless hchild] at hchanged
    split at hchanged
    · rename_i h
      refine ⟨fun _ => ⟨?_, fun hno => hchild hno.1⟩, fun _ => .inr hchanged⟩
      rintro ⟨hi, -⟩
      simp only [Ignored, indexHeaderSize] at h
      omega
    · split at hchanged
      · rename_i h
        obtain ⟨page', hne, hok⟩ := hchanged
        rw [hok]
        constructor
        · rintro (⟨e, he⟩ | he)
          · cases he
          · exact absurd (Except.ok.inj he) hne
        · rintro ⟨hno, -⟩
          exact absurd h hno
      · rename_i h
        exact ⟨fun _ => ⟨h, fun hno => hchild hno.1⟩, fun _ => .inl hchanged⟩

theorem corruption_detected_leaf :
    (∃ e, unpack ((leaf 7 [(1, 100), (2, 200)] 8 true).image.set 47 9) = .error e) ∨
      unpack ((leaf 7 [(1, 100), (2, 200)] 8 true).image.set 47 9) =
        .ok (leaf 7 [(1, 100), (2, 200)] 8 true) := by
  have hw : (leaf 7 [(1, 100), (2, 200)] 8 true).Words := ⟨by decide, by decide, by decide⟩
  have hi : 47 < (leaf 7 [(1, 100), (2, 200)] 8 true).image.length := by decide +kernel
  have hb : (leaf 7 [(1, 100), (2, 200)] 8 true).image[47] ≠ 9 := by
    have hsome : (leaf 7 [(1, 100), (2, 200)] 8 true).image[47]? = some 100 := by decide +kernel
    rw [List.getElem?_eq_getElem hi] at hsome
    rw [Option.some.inj hsome]
    decide
  exact (corruption_detected hw rfl hi hb).mpr ⟨by decide, fun h => h.1⟩

/-- With its count set to zero, a root leaf with one entry passes as an empty leaf that is followed
by the page whose number is the entry's node id. -/
theorem not_corruption_detected :
    (leaf 1 [(5, 1)] 0 true).pack = .ok (leaf 1 [(5, 1)] 0 true).image ∧
    (leaf 1 [(5, 1)] 0 true).image[11]? = some 1 ∧
    unpack ((leaf 1 [(5, 1)] 0 true).image.set 11 0) = .ok (leaf 1 [] 5 true) ∧
    leaf 1 [] 5 true ≠ leaf 1 [(5, 1)] 0 true := by
  refine ⟨rfl, ?_, ?_, by decide⟩
  · decide +kernel
  · decide +kernel

end IndexPage

end SqliteGraph.V3
