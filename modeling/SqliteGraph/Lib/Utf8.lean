import SqliteGraph.Lib.Bytes

/-! Text as UTF-8, and the lossy reading of bytes, which puts a replacement character where they are not. -/
namespace SqliteGraph.Lib

def utf8Bytes (s : String) : Bytes := s.toUTF8.data.toList

def isContinuation (b : UInt8) : Bool := 0x80 ≤ b && b ≤ 0xBF

/-- What the second byte of a sequence of three or four may be. -/
def isSecond (first second : UInt8) : Bool :=
  if first = 0xE0 then 0xA0 ≤ second && second ≤ 0xBF
  else if first = 0xED then 0x80 ≤ second && second ≤ 0x9F
  else if 0xE1 ≤ first && first ≤ 0xEF then isContinuation second
  else if first = 0xF0 then 0x90 ≤ second && second ≤ 0xBF
  else if 0xF1 ≤ first && first ≤ 0xF3 then isContinuation second
  else if first = 0xF4 then 0x80 ≤ second && second ≤ 0x8F
  else false

/-- How many bytes one replacement character stands for: the longest start of a valid sequence, and
at least a byte. -/
def invalidLength : Bytes → Nat
  | first :: second :: rest =>
    if isSecond first second then
      match rest with
      | third :: _ => if 0xF0 ≤ first && isContinuation third then 3 else 2
      | [] => 2
    else 1
  | _ => 1

def decodeFirst (bytes : Bytes) : Option Char := bytes.toByteArray.utf8DecodeChar? 0

def replacementCharacter : Char := Char.ofNat 0xFFFD

def lossyChars : Nat → Bytes → List Char
  | 0, _ => []
  | fuel + 1, bytes =>
    if bytes.isEmpty then []
    else match decodeFirst bytes with
      | some c => c :: lossyChars fuel (bytes.drop c.utf8Size)
      | none => replacementCharacter :: lossyChars fuel (bytes.drop (invalidLength bytes))

/-- `String::from_utf8_lossy`; each round takes a byte, so the length is fuel enough. -/
def fromUtf8Lossy (bytes : Bytes) : String := .ofList (lossyChars bytes.length bytes)

/-- `str::from_utf8`. -/
def fromUtf8 (bytes : Bytes) : Option String := String.fromUTF8? bytes.toByteArray

/-- `Utf8Error::valid_up_to`. -/
def validUpTo : Nat → Bytes → Nat
  | 0, _ => 0
  | fuel + 1, bytes =>
    match decodeFirst bytes with
    | some c => c.utf8Size + validUpTo fuel (bytes.drop c.utf8Size)
    | none => 0

/-- How long a sequence is that starts with this byte. -/
def sequenceLength (first : UInt8) : Nat :=
  if first < 0xC2 then 0 else if first < 0xE0 then 2 else if first < 0xF0 then 3
  else if first < 0xF5 then 4 else 0

/-- The text of a `Utf8Error`; where the bytes only end too early, there is no length in it. -/
def utf8ErrorText (bytes : Bytes) : String :=
  let upTo := validUpTo bytes.length bytes
  let bad := bytes.drop upTo
  if bad.length < sequenceLength (bad.headD 0) && invalidLength bad == bad.length then
    s!"incomplete utf-8 byte sequence from index {upTo}"
  else s!"invalid utf-8 sequence of {invalidLength bad} bytes from index {upTo}"

variable {c : Char} {cs : List Char} {bytes rest : Bytes} {fuel n : Nat}

theorem utf8Bytes_eq (s : String) : utf8Bytes s = s.toList.flatMap String.utf8EncodeChar := by
  have h := congrArg ByteArray.data (String.utf8Encode_toList (b := s))
  rw [List.utf8Encode, List.data_toByteArray] at h
  rw [utf8Bytes, String.toUTF8_eq_toByteArray, ← h]

theorem length_utf8Bytes (s : String) : (utf8Bytes s).length = s.utf8ByteSize := by
  rw [utf8Bytes, Array.length_toList]
  rfl

/-- Text is read as it was encoded. -/
theorem fromUtf8_utf8Bytes (s : String) : fromUtf8 (utf8Bytes s) = some s := by
  have hbytes : (utf8Bytes s).toByteArray = s.toByteArray := by
    apply ByteArray.ext
    rw [List.data_toByteArray]
    rfl
  rw [fromUtf8, hbytes, String.fromUTF8?, dif_pos s.isValidUTF8]
  rfl

theorem utf8Bytes_fromUtf8 {s : String} (h : fromUtf8 bytes = some s) : utf8Bytes s = bytes := by
  rw [fromUtf8, String.fromUTF8?] at h
  split at h
  · cases h
    change bytes.toByteArray.data.toList = bytes
    rw [List.data_toByteArray]
  · cases h

theorem decodeFirst_encode : decodeFirst (String.utf8EncodeChar c ++ rest) = some c := by
  rw [decodeFirst, List.toByteArray_append]
  exact ByteArray.utf8DecodeChar?_utf8EncodeChar_append

theorem utf8Size_le_of_decodeFirst (h : decodeFirst bytes = some c) : c.utf8Size ≤ bytes.length := by
  have := ByteArray.le_size_of_utf8DecodeChar?_eq_some h
  rw [List.size_toByteArray] at this
  omega

theorem invalidLength_pos : 1 ≤ invalidLength bytes := by
  unfold invalidLength
  split
  · split
    · split
      · split <;> decide
      · decide
    · decide
  · decide

/-- The characters at the front of the bytes are read as they are. -/
theorem lossyChars_append (rest : Bytes) (n : Nat)
    (h : (cs.flatMap String.utf8EncodeChar).length ≤ fuel) :
    ∃ fuel', lossyChars (fuel + n) (cs.flatMap String.utf8EncodeChar ++ rest) =
      cs ++ lossyChars (fuel' + n) rest := by
  induction cs generalizing fuel with
  | nil => exact ⟨fuel, rfl⟩
  | cons c cs ih =>
    have hlen := String.length_utf8EncodeChar c
    have hpos := c.utf8Size_pos
    rw [List.flatMap_cons, List.length_append] at h
    obtain ⟨fuel, rfl⟩ : ∃ k, fuel = k + 1 := ⟨fuel - 1, by omega⟩
    obtain ⟨fuel', hrest⟩ := @ih fuel (by omega)
    refine ⟨fuel', ?_⟩
    have hne : (String.utf8EncodeChar c ++ (cs.flatMap String.utf8EncodeChar ++ rest)).isEmpty =
        false := by
      rw [List.isEmpty_eq_false_iff]
      exact List.ne_nil_of_length_pos (by rw [List.length_append]; omega)
    have hdrop : (String.utf8EncodeChar c ++ (cs.flatMap String.utf8EncodeChar ++ rest)).drop
        c.utf8Size = cs.flatMap String.utf8EncodeChar ++ rest := by
      rw [← hlen, List.drop_left]
    rw [List.flatMap_cons, List.append_assoc, Nat.add_right_comm, lossyChars, hne,
      decodeFirst_encode]
    simp only [Bool.false_eq_true, if_false, hdrop, hrest, List.cons_append]

theorem lossyChars_nil : lossyChars fuel [] = [] := by
  cases fuel <;> rfl

/-- Text that was encoded comes back. -/
theorem fromUtf8Lossy_utf8Bytes (s : String) : fromUtf8Lossy (utf8Bytes s) = s := by
  obtain ⟨fuel', h⟩ := lossyChars_append [] 0
    (Nat.le_refl (s.toList.flatMap String.utf8EncodeChar).length)
  rw [List.append_nil, lossyChars_nil, List.append_nil, Nat.add_zero] at h
  rw [fromUtf8Lossy, utf8Bytes_eq, h, String.ofList_toList]

def charsSize (cs : List Char) : Nat := (cs.map Char.utf8Size).sum

theorem utf8ByteSize_ofList : (String.ofList cs).utf8ByteSize = charsSize cs := by
  rw [← length_utf8Bytes, utf8Bytes_eq, String.toList_ofList, List.length_flatMap, charsSize]
  simp only [String.length_utf8EncodeChar]

/-- A replacement character is three bytes long, and stands for one at least. -/
theorem charsSize_lossyChars : charsSize (lossyChars fuel bytes) ≤ 3 * bytes.length := by
  induction fuel generalizing bytes with
  | zero => exact Nat.zero_le _
  | succ fuel ih =>
    rw [lossyChars]
    split
    · exact Nat.zero_le _
    · rename_i hne
      have hpos : 0 < bytes.length := List.length_pos_of_ne_nil (by simpa using hne)
      split
      · rename_i c hc
        have hsize := utf8Size_le_of_decodeFirst hc
        have hrest := @ih (bytes.drop c.utf8Size)
        rw [List.length_drop] at hrest
        simp only [charsSize, List.map_cons, List.sum_cons] at hrest ⊢
        omega
      · have hskip : 1 ≤ invalidLength bytes := invalidLength_pos
        have hrest := @ih (bytes.drop (invalidLength bytes))
        have hthree : replacementCharacter.utf8Size = 3 := by decide
        rw [List.length_drop] at hrest
        simp only [charsSize, List.map_cons, List.sum_cons, hthree] at hrest ⊢
        omega

/-- A cut through a text leaves whole characters and less than one more. -/
theorem take_flatMap_utf8EncodeChar (cs : List Char) (n : Nat) :
    ∃ (front : List Char) (left : Bytes), (cs.flatMap String.utf8EncodeChar).take n =
      front.flatMap String.utf8EncodeChar ++ left ∧ left.length ≤ 3 := by
  induction cs generalizing n with
  | nil => exact ⟨[], [], by simp, Nat.zero_le _⟩
  | cons c cs ih =>
    have hlen := String.length_utf8EncodeChar c
    have hfour := c.utf8Size_le_four
    rw [List.flatMap_cons]
    by_cases hn : c.utf8Size ≤ n
    · obtain ⟨front, left, he, hl⟩ := ih (n - c.utf8Size)
      refine ⟨c :: front, left, ?_, hl⟩
      rw [List.take_append, hlen, he, List.take_of_length_le (by omega), List.flatMap_cons,
        List.append_assoc]
    · refine ⟨[], (String.utf8EncodeChar c).take n, ?_, by rw [List.length_take]; omega⟩
      rw [List.take_append, hlen, Nat.sub_eq_zero_of_le (by omega), List.take_zero, List.append_nil]
      rfl

/-- What is read from a part of a text is hardly longer than that part. -/
theorem utf8ByteSize_fromUtf8Lossy_take (s : String) (n : Nat) :
    (fromUtf8Lossy ((utf8Bytes s).take n)).utf8ByteSize ≤ n + 9 := by
  obtain ⟨front, left, he, hl⟩ := take_flatMap_utf8EncodeChar s.toList n
  have hlen := congrArg List.length he
  rw [List.length_take, List.length_append] at hlen
  obtain ⟨fuel', h⟩ := lossyChars_append left left.length
    (Nat.le_refl (front.flatMap String.utf8EncodeChar).length)
  have hleft : charsSize (lossyChars (fuel' + left.length) left) ≤ 3 * left.length :=
    charsSize_lossyChars
  have hfront : charsSize front = (front.flatMap String.utf8EncodeChar).length := by
    rw [charsSize, List.length_flatMap]
    simp only [String.length_utf8EncodeChar]
  rw [fromUtf8Lossy, utf8Bytes_eq, he, List.length_append, h, utf8ByteSize_ofList, charsSize,
    List.map_append, List.sum_append, ← charsSize, ← charsSize, hfront]
  omega

end SqliteGraph.Lib
