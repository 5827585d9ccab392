import SqliteGraph.V3.Constants
import SqliteGraph.V3.IndexPage

/-! The 4 KB image of an index page, and that reading it gives the page back. -/
namespace SqliteGraph.V3
open Lib

def indexHeaderSize : Nat := 32

namespace IndexPage

def isLeaf : IndexPage → Bool
  | internal _ _ _ _ => false
  | leaf _ _ _ _ => true

def headerBytes (pageId : Nat) (isLeaf isRoot : Bool) (count checksum : Nat) : Bytes :=
  beBytes 8 pageId ++ ([if isLeaf then 1 else 0] ++ ([if isRoot then 1 else 0] ++
    (beBytes 2 count ++ (beBytes 4 checksum ++ List.replicate 16 0))))

def u64s (xs : List Nat) : Bytes := xs.flatMap (beBytes 8)

def dataBytes : IndexPage → Bytes
  | internal _ keys children _ => u64s keys ++ u64s children
  | leaf _ entries nextLeaf _ =>
    (entries.flatMap fun e => beBytes 8 e.1 ++ beBytes 8 e.2) ++ beBytes 8 nextLeaf

/-- Over the header with an empty checksum field and the data, without the padding. -/
def calculateChecksum (page : IndexPage) : Nat :=
  checksum32 (headerBytes page.pageId page.isLeaf page.isRoot page.count 0 ++ page.dataBytes)

def image (page : IndexPage) : Bytes :=
  let bytes := headerBytes page.pageId page.isLeaf page.isRoot page.count page.calculateChecksum ++
    page.dataBytes
  bytes ++ List.replicate (defaultPageSize - bytes.length) 0

/-- The counts checked here leave the loops that write the fields no way to run off the page. -/
def pack (page : IndexPage) : Except NativeBackendError Bytes :=
  match page with
  | internal _ keys children _ =>
    if keys ≠ [] ∧ children.length ≠ keys.length + 1 then
      .error (.invalidHeader "internal_page"
        s!"children count ({children.length}) must be keys count ({keys.length}) + 1")
    else if keys = [] ∧ 1 < children.length then
      .error (.invalidHeader "internal_page"
        s!"empty page has too many children: {children.length}")
    else if maxKeys < keys.length then
      .error (.invalidHeader "internal_page"
        s!"keys count ({keys.length}) exceeds max ({maxKeys})")
    else .ok page.image
  | leaf _ entries _ _ =>
    if maxEntries < entries.length then
      .error (.invalidHeader "leaf_page"
        s!"entries count ({entries.length}) exceeds max ({maxEntries})")
    else .ok page.image

/-- The loop that reads keys or children. -/
def readU64s (reason : String) (bytes : Bytes) :
    Nat → Nat → Except NativeBackendError (List Nat)
  | 0, _ => .ok []
  | n + 1, off =>
    if defaultPageSize < off + 8 then .error (.invalidHeader "internal_page" reason)
    else match readU64s reason bytes n (off + 8) with
      | .ok rest => .ok (beNat (slice bytes off 8) :: rest)
      | .error e => .error e

def readEntries (bytes : Bytes) : Nat → Nat → Except NativeBackendError (List (Nat × Nat))
  | 0, _ => .ok []
  | n + 1, off =>
    if defaultPageSize < off + 16 then
      .error (.invalidHeader "leaf_page" "page overflow reading entries")
    else match readEntries bytes n (off + 16) with
      | .ok rest => .ok ((beNat (slice bytes off 8), beNat (slice bytes (off + 8) 8)) :: rest)
      | .error e => .error e

def unpackLeaf (bytes : Bytes) (pageId count checksum : Nat) (isRoot : Bool) :
    Except NativeBackendError IndexPage := do
  let entries ← readEntries bytes count indexHeaderSize
  let off := indexHeaderSize + 16 * count
  if defaultPageSize < off + 8 then
    .error (.invalidHeader "leaf_page" "missing next_leaf pointer")
  else
    let page := leaf pageId entries (beNat (slice bytes off 8)) isRoot
    if page.calculateChecksum ≠ checksum then
      .error (.invalidHeader "leaf_checksum"
        s!"checksum mismatch: expected {page.calculateChecksum}, found {checksum}")
    else .ok page

def unpackInternal (bytes : Bytes) (pageId count checksum : Nat) (isRoot : Bool) :
    Except NativeBackendError IndexPage := do
  let keys ← readU64s "page overflow reading keys" bytes count indexHeaderSize
  let children ← readU64s "page overflow reading children" bytes (count + 1)
    (indexHeaderSize + 8 * count)
  let page := internal pageId keys children isRoot
  if page.calculateChecksum ≠ checksum then
    .error (.invalidHeader "internal_checksum"
      s!"checksum mismatch: expected {page.calculateChecksum}, found {checksum}")
  else .ok page

def unpack (bytes : Bytes) : Except NativeBackendError IndexPage :=
  if bytes.length < defaultPageSize then
    .error (.invalidHeader "page_data" s!"insufficient bytes: expected 4096, found {bytes.length}")
  else
    let pageId := beNat (slice bytes 0 8)
    let isLeaf := slice bytes 8 1 == [1]
    let isRoot := slice bytes 9 1 == [1]
    let count := beNat (slice bytes 10 2)
    let checksum := beNat (slice bytes 12 4)
    if isLeaf then unpackLeaf bytes pageId count checksum isRoot
    else unpackInternal bytes pageId count checksum isRoot

variable {page : IndexPage} {bytes rest : Bytes} {off : Nat} {reason : String}

theorem length_headerBytes {p count checksum : Nat} {l r : Bool} :
    (headerBytes p l r count checksum).length = indexHeaderSize := by
  simp [headerBytes, indexHeaderSize]

theorem length_u64s {xs : List Nat} : (u64s xs).length = 8 * xs.length := by
  induction xs with
  | nil => rfl
  | cons x xs ih =>
    simp only [u64s, List.flatMap_cons, List.length_append, length_beBytes, List.length_cons] at ih ⊢
    omega

theorem readU64s_u64s {xs : List Nat} (hd : bytes.drop off = u64s xs ++ rest)
    (hlt : ∀ x ∈ xs, x < 2 ^ 64) (hroom : off + 8 * xs.length ≤ defaultPageSize) :
    readU64s reason bytes xs.length off = .ok xs := by
  induction xs generalizing off with
  | nil => rfl
  | cons x xs ih =>
    simp only [u64s, List.flatMap_cons, List.append_assoc] at hd
    simp only [List.length_cons] at hroom ⊢
    have hx : beNat (slice bytes off 8) = x := by
      rw [slice_of_drop hd length_beBytes, beNat_beBytes (hlt x List.mem_cons_self)]
    rw [readU64s, if_neg (by omega), ih (drop_of_drop hd length_beBytes)
      (fun y hy => hlt y (List.mem_cons_of_mem _ hy)) (by omega)]
    simp only [hx]

theorem length_entries {es : List (Nat × Nat)} :
    (es.flatMap fun e => beBytes 8 e.1 ++ beBytes 8 e.2).length = 16 * es.length := by
  induction es with
  | nil => rfl
  | cons e es ih =>
    simp only [List.flatMap_cons, List.length_append, length_beBytes, List.length_cons, ih]
    omega

theorem readEntries_entries {es : List (Nat × Nat)}
    (hd : bytes.drop off = (es.flatMap fun e => beBytes 8 e.1 ++ beBytes 8 e.2) ++ rest)
    (hlt : ∀ e ∈ es, e.1 < 2 ^ 64 ∧ e.2 < 2 ^ 64)
    (hroom : off + 16 * es.length ≤ defaultPageSize) :
    readEntries bytes es.length off = .ok es := by
  induction es generalizing off with
  | nil => rfl
  | cons e es ih =>
    simp only [List.flatMap_cons, List.append_assoc] at hd
    simp only [List.length_cons] at hroom ⊢
    have he := hlt e List.mem_cons_self
    have hd' := drop_of_drop hd length_beBytes
    have hd'' : bytes.drop (off + 8 + 8) = _ ++ rest := drop_of_drop hd' length_beBytes
    rw [show off + 8 + 8 = off + 16 by omega] at hd''
    have h₁ : beNat (slice bytes off 8) = e.1 := by
      rw [slice_of_drop hd length_beBytes, beNat_beBytes he.1]
    have h₂ : beNat (slice bytes (off + 8) 8) = e.2 := by
      rw [slice_of_drop hd' length_beBytes, beNat_beBytes he.2]
    rw [readEntries, if_neg (by omega), ih hd''
      (fun y hy => hlt y (List.mem_cons_of_mem _ hy)) (by omega)]
    simp only [h₁, h₂]

/-- The page has a child beyond its keys, and all of it has room in the byte format. -/
def InWidth : IndexPage → Prop
  | internal p keys children _ => p < 2 ^ 64 ∧ keys.length ≤ maxKeys ∧
      children.length = keys.length + 1 ∧ (∀ k ∈ keys, k < 2 ^ 64) ∧ ∀ c ∈ children, c < 2 ^ 64
  | leaf p entries nextLeaf _ => p < 2 ^ 64 ∧ entries.length ≤ maxEntries ∧
      (∀ e ∈ entries, e.1 < 2 ^ 64 ∧ e.2 < 2 ^ 64) ∧ nextLeaf < 2 ^ 64

theorem Fits.inWidth (hf : page.Fits) : page.InWidth := by
  cases page <;> exact hf.2

theorem InWidth.length_dataBytes (hf : page.InWidth) :
    indexHeaderSize + page.dataBytes.length ≤ defaultPageSize := by
  cases page with
  | internal p keys children r =>
    obtain ⟨-, hk, hc, -⟩ := hf
    simp only [dataBytes, List.length_append, length_u64s, hc, indexHeaderSize, defaultPageSize]
    simp only [maxKeys] at hk
    omega
  | leaf p entries n r =>
    obtain ⟨-, he, -⟩ := hf
    simp only [dataBytes, List.length_append, length_entries, length_beBytes, indexHeaderSize,
      defaultPageSize]
    simp only [maxEntries] at he
    omega

theorem length_dataBytes (hf : page.Fits) :
    indexHeaderSize + page.dataBytes.length ≤ defaultPageSize := hf.inWidth.length_dataBytes

theorem InWidth.length_image (hf : page.InWidth) : page.image.length = defaultPageSize := by
  have := hf.length_dataBytes
  simp only [image, List.length_append, List.length_replicate, length_headerBytes]
  omega

theorem length_image (hf : page.Fits) : page.image.length = defaultPageSize :=
  hf.inWidth.length_image

theorem InWidth.pack_ok (hf : page.InWidth) : page.pack = .ok page.image := by
  cases page with
  | internal p keys children r =>
    obtain ⟨-, hk, hc, -⟩ := hf
    have hc' : ¬ (keys ≠ [] ∧ children.length ≠ keys.length + 1) := fun h => h.2 hc
    have hn : ¬ (keys = [] ∧ 1 < children.length) := by
      rintro ⟨rfl, h⟩
      simp only [List.length_nil] at hc
      omega
    simp only [pack, if_neg hc', if_neg hn, if_neg (Nat.not_lt.mpr hk)]
  | leaf p entries n r =>
    obtain ⟨-, he, -⟩ := hf
    simp only [pack, if_neg (Nat.not_lt.mpr he)]

theorem pack_ok (hf : page.Fits) : page.pack = .ok page.image := hf.inWidth.pack_ok

theorem flag_eq (b : Bool) : (([if b then 1 else 0] : Bytes) == [1]) = b := by
  cases b <;> rfl

/-- What is written as a page is read back as that page. -/
theorem InWidth.unpack_image (hf : page.InWidth) : unpack page.image = .ok page := by
  have hlen := hf.length_image
  have hdata := hf.length_dataBytes
  obtain ⟨pad, hpad⟩ : ∃ pad, page.image = (headerBytes page.pageId page.isLeaf page.isRoot
      page.count page.calculateChecksum ++ page.dataBytes) ++ pad := ⟨_, rfl⟩
  have hdrop : page.image.drop indexHeaderSize = page.dataBytes ++ pad := by
    rw [hpad, List.append_assoc, ← length_headerBytes, List.drop_left]
  have hid : page.pageId < 256 ^ 8 := by cases page <;> exact hf.1
  have hcount : page.count < 256 ^ 2 := by
    cases page
    · exact lt_of_le_of_lt hf.2.1 (by decide)
    · exact lt_of_le_of_lt hf.2.1 (by decide)
  have hsum : page.calculateChecksum < 256 ^ 4 := checksum32_lt _
  have hheader : ∀ {off n : Nat}, off + n ≤ indexHeaderSize → slice page.image off n =
      slice (headerBytes page.pageId page.isLeaf page.isRoot page.count page.calculateChecksum)
        off n := by
    intro off n hle
    rw [hpad, List.append_assoc, slice_append_within (by rw [length_headerBytes]; exact hle)]
  rw [unpack, if_neg (by omega), hheader (by decide), hheader (by decide), hheader (by decide),
    hheader (by decide), hheader (by decide)]
  simp only [headerBytes, slice_append_right, slice_append_left, length_beBytes, List.length_cons,
    List.length_nil, Nat.reduceLeDiff, Nat.reduceSub, Nat.reduceAdd, Nat.sub_self, le_refl, flag_eq,
    beNat_beBytes hid, beNat_beBytes hcount, beNat_beBytes hsum]
  cases page with
  | internal p keys children r =>
    obtain ⟨-, hk, hc, hks, hcs⟩ := hf
    rw [dataBytes, List.append_assoc] at hdrop
    have hdrop' := drop_of_drop hdrop length_u64s
    simp only [maxKeys] at hk
    have hkeys : readU64s "page overflow reading keys" _ _ _ = _ := readU64s_u64s hdrop hks
      (by simp only [indexHeaderSize, defaultPageSize]; omega)
    have hchildren : readU64s "page overflow reading children" _ _ _ = _ :=
      readU64s_u64s hdrop' hcs (by simp only [indexHeaderSize, defaultPageSize]; omega)
    rw [hc] at hchildren
    simp only [isLeaf, isRoot, Bool.false_eq_true, if_false, count, pageId_internal,
      unpackInternal, hkeys, hchildren]
    exact if_neg (not_not_intro rfl)
  | leaf p entries n r =>
    obtain ⟨-, he, hes, hn⟩ := hf
    rw [dataBytes, List.append_assoc] at hdrop
    have hdrop' := drop_of_drop hdrop length_entries
    simp only [maxEntries] at he
    have hentries := readEntries_entries hdrop hes
      (by simp only [indexHeaderSize, defaultPageSize]; omega)
    have hnext : beNat (slice (leaf p entries n r).image (indexHeaderSize + 16 * entries.length) 8) =
        n := by
      rw [slice_of_drop hdrop' length_beBytes, beNat_beBytes hn]
    simp only [isLeaf, isRoot, if_true, count, pageId_leaf, unpackLeaf, hentries, hnext]
    refine (if_neg ?_).trans (if_neg (not_not_intro rfl))
    simp only [indexHeaderSize, defaultPageSize]
    omega

theorem unpack_image (hf : page.Fits) : unpack page.image = .ok page := hf.inWidth.unpack_image

end IndexPage

end SqliteGraph.V3
