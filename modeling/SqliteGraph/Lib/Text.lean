import SqliteGraph.Lib.Utf8

/-! Text that is searched and cut by byte offsets, which have to lie between characters. -/
namespace SqliteGraph.Lib

/-- The characters of a `str`. -/
abbrev Text := List Char

section Slices

/-- The two parts at an offset, if a character begins or the text ends there. -/
def splitBytes : Nat → Text → Option (Text × Text)
  | 0, s => some ([], s)
  | _ + 1, [] => none
  | n + 1, c :: s =>
    if c.utf8Size ≤ n + 1 then
      (splitBytes (n + 1 - c.utf8Size) s).map fun (front, rest) => (c :: front, rest)
    else none

/-- `&s[..n]`. -/
def sliceTo (s : Text) (n : Nat) : Option Text := (splitBytes n s).map Prod.fst

/-- `&s[n..]`. -/
def sliceFrom (s : Text) (n : Nat) : Option Text := (splitBytes n s).map Prod.snd

/-- `&s[a..b]`. -/
def sliceRange (s : Text) (a b : Nat) : Option Text :=
  if a ≤ b then (sliceTo s b).bind (sliceFrom · a) else none

end Slices

section Searches

/-- `s.find(pat)`. -/
def find (pat : Text) : Text → Option Nat
  | [] => if pat = [] then some 0 else none
  | c :: s => if pat.isPrefixOf (c :: s) then some 0 else (find pat s).map (c.utf8Size + ·)

/-- `s.rfind(pat)`. -/
def rfind (pat : Text) : Text → Option Nat
  | [] => if pat = [] then some 0 else none
  | c :: s =>
    match rfind pat s with
    | some n => some (c.utf8Size + n)
    | none => if pat.isPrefixOf (c :: s) then some 0 else none

/-- `s.find(|c| p(c))`. -/
def findChar (p : Char → Bool) : Text → Option Nat
  | [] => none
  | c :: s => if p c then some 0 else (findChar p s).map (c.utf8Size + ·)

/-- `s.rfind(|c| p(c))`. -/
def rfindChar (p : Char → Bool) : Text → Option Nat
  | [] => none
  | c :: s =>
    match rfindChar p s with
    | some n => some (c.utf8Size + n)
    | none => if p c then some 0 else none

/-- `s.contains(pat)`. -/
def contains (s pat : Text) : Bool := (find pat s).isSome

/-- `s.matches(pat).count()`, for a pattern that does not overlap itself. -/
def countMatches (pat : Text) : Text → Nat
  | [] => 0
  | c :: s => (if pat.isPrefixOf (c :: s) then 1 else 0) + countMatches pat s

/-- `s.split(c)`. -/
def splitChar (d : Char) : Text → List Text
  | [] => [[]]
  | c :: s =>
    if c = d then [] :: splitChar d s
    else match splitChar d s with
      | [] => [[c]]
      | part :: parts => (c :: part) :: parts

end Searches

section Trims
variable (p : Char → Bool)

def trimStart (s : Text) : Text := s.dropWhile p

def trimEnd (s : Text) : Text := (s.reverse.dropWhile p).reverse

/-- `s.trim_matches(p)`. -/
def trimMatches (s : Text) : Text := trimEnd p (trimStart p s)

end Trims

section Numbers

def digitsValue (s : Text) : Nat := s.foldl (fun n c => 10 * n + (c.toNat - '0'.toNat)) 0

def parseDigits (s : Text) : Option Nat :=
  if s ≠ [] ∧ s.all Char.isDigit then some (digitsValue s) else none

/-- `s.parse::<usize>()`. -/
def parseUsize (s : Text) : Option Nat := do
  let n ← parseDigits (if s.head? = some '+' then s.tail else s)
  if n < 2 ^ 64 then some n else none

/-- `s.parse::<u8>()`. -/
def parseU8 (s : Text) : Option UInt8 := do
  let n ← parseDigits (if s.head? = some '+' then s.tail else s)
  if n < 2 ^ 8 then some (UInt8.ofNat n) else none

/-- `s.parse::<i64>()`. -/
def parseI64 (s : Text) : Option Int64 := do
  let n ← parseDigits (if s.head? = some '+' ∨ s.head? = some '-' then s.tail else s)
  let z : Int := if s.head? = some '-' then -n else n
  if -2 ^ 63 ≤ z ∧ z < 2 ^ 63 then some (Int64.ofInt z) else none

end Numbers

variable {s t front rest pat : Text} {n m : Nat} {c : Char} {p : Char → Bool}

/-- Parts without the character, put together with it, are split again. -/
theorem splitChar_intercalate {d : Char} {parts : List Text} (hparts : parts ≠ [])
    (hd : ∀ part ∈ parts, d ∉ part) : splitChar d ([d].intercalate parts) = parts := by
  have hlast : ∀ part : Text, d ∉ part → splitChar d part = [part] := by
    intro part hpart
    induction part with
    | nil => rfl
    | cons c part ih =>
      have hc : c ≠ d := List.ne_of_not_mem_cons hpart ∘ Eq.symm
      rw [splitChar, if_neg hc, ih fun h => hpart (List.mem_cons_of_mem _ h)]
  have hmore : ∀ part rest : Text, d ∉ part → splitChar d (part ++ d :: rest) = part :: splitChar d rest := by
    intro part rest hpart
    induction part with
    | nil => rw [List.nil_append, splitChar, if_pos rfl]
    | cons c part ih =>
      have hc : c ≠ d := List.ne_of_not_mem_cons hpart ∘ Eq.symm
      rw [List.cons_append, splitChar, if_neg hc, ih fun h => hpart (List.mem_cons_of_mem _ h)]
  induction parts with
  | nil => exact absurd rfl hparts
  | cons part parts ih =>
    obtain ⟨hpart, hrest⟩ := List.forall_mem_cons.mp hd
    cases parts with
    | nil => simpa using hlast part hpart
    | cons next parts =>
      have hstep : [d].intercalate (part :: next :: parts) = part ++ d :: [d].intercalate (next :: parts) := by
        simp [List.intercalate]
      rw [hstep, hmore part _ hpart, ih (by simp) hrest]

theorem charsSize_cons : charsSize (c :: s) = c.utf8Size + charsSize s := by
  simp [charsSize]

theorem charsSize_append : charsSize (s ++ t) = charsSize s + charsSize t := by
  simp [charsSize]

/-- The offset is that of a character or of the end. -/
def Boundary (s : Text) (n : Nat) : Prop := ∃ front rest, s = front ++ rest ∧ charsSize front = n

theorem splitBytes_append (front rest : Text) :
    splitBytes (charsSize front) (front ++ rest) = some (front, rest) := by
  induction front with
  | nil => cases rest <;> rfl
  | cons c front ih =>
    obtain ⟨k, hk⟩ : ∃ k, charsSize (c :: front) = k + 1 := by
      have := c.utf8Size_pos
      rw [charsSize_cons]
      exact ⟨c.utf8Size + charsSize front - 1, by omega⟩
    rw [hk, List.cons_append, splitBytes, ← hk, charsSize_cons, if_pos (Nat.le_add_right ..),
      Nat.add_sub_cancel_left, ih]
    rfl

theorem splitBytes_eq_some (h : splitBytes n s = some (front, rest)) :
    s = front ++ rest ∧ charsSize front = n := by
  induction s generalizing n front with
  | nil =>
    cases n with
    | zero =>
      cases h
      exact ⟨rfl, rfl⟩
    | succ n => cases h
  | cons c s ih =>
    cases n with
    | zero =>
      cases h
      exact ⟨rfl, rfl⟩
    | succ n =>
      rw [splitBytes] at h
      split at h
      · rename_i hle
        obtain ⟨⟨front', rest'⟩, hsplit, heq⟩ := Option.map_eq_some_iff.mp h
        cases heq
        obtain ⟨rfl, hsize⟩ := ih hsplit
        exact ⟨rfl, by rw [charsSize_cons, hsize]; omega⟩
      · cases h

theorem splitBytes_isSome : (splitBytes n s).isSome ↔ Boundary s n := by
  constructor
  · intro h
    obtain ⟨⟨front, rest⟩, hsplit⟩ := Option.isSome_iff_exists.mp h
    exact ⟨front, rest, splitBytes_eq_some hsplit⟩
  · rintro ⟨front, rest, rfl, rfl⟩
    rw [splitBytes_append]
    rfl

theorem sliceTo_append : sliceTo (front ++ rest) (charsSize front) = some front := by
  rw [sliceTo, splitBytes_append]
  rfl

theorem sliceFrom_append : sliceFrom (front ++ rest) (charsSize front) = some rest := by
  rw [sliceFrom, splitBytes_append]
  rfl

/-- What comes before the first occurrence, and what comes after. -/
theorem find_eq_some (h : find pat s = some n) :
    ∃ front rest, s = front ++ pat ++ rest ∧ charsSize front = n := by
  induction s generalizing n with
  | nil =>
    rw [find] at h
    split at h
    · rename_i hp
      cases h
      exact ⟨[], [], by simp [hp], rfl⟩
    · cases h
  | cons c s ih =>
    rw [find] at h
    split at h
    · rename_i hp
      cases h
      obtain ⟨rest, hrest⟩ := List.isPrefixOf_iff_prefix.mp hp
      exact ⟨[], rest, hrest.symm, rfl⟩
    · obtain ⟨m, hm, rfl⟩ := Option.map_eq_some_iff.mp h
      obtain ⟨front, rest, rfl, rfl⟩ := ih hm
      exact ⟨c :: front, rest, rfl, charsSize_cons⟩

theorem rfind_eq_some (h : rfind pat s = some n) :
    ∃ front rest, s = front ++ pat ++ rest ∧ charsSize front = n := by
  induction s generalizing n with
  | nil =>
    rw [rfind] at h
    split at h
    · rename_i hp
      cases h
      exact ⟨[], [], by simp [hp], rfl⟩
    · cases h
  | cons c s ih =>
    rw [rfind] at h
    split at h
    · rename_i m hm
      cases h
      obtain ⟨front, rest, rfl, rfl⟩ := ih hm
      exact ⟨c :: front, rest, rfl, charsSize_cons⟩
    · split at h
      · rename_i hp
        cases h
        obtain ⟨rest, hrest⟩ := List.isPrefixOf_iff_prefix.mp hp
        exact ⟨[], rest, hrest.symm, rfl⟩
      · cases h

theorem findChar_eq_some (h : findChar p s = some n) :
    ∃ front c rest, s = front ++ c :: rest ∧ charsSize front = n ∧ p c = true ∧
      ∀ d ∈ front, p d = false := by
  induction s generalizing n with
  | nil => cases h
  | cons c s ih =>
    rw [findChar] at h
    split at h
    · rename_i hp
      cases h
      exact ⟨[], c, s, rfl, rfl, hp, by simp⟩
    · rename_i hp
      obtain ⟨m, hm, rfl⟩ := Option.map_eq_some_iff.mp h
      obtain ⟨front, d, rest, rfl, rfl, hd, hfront⟩ := ih hm
      refine ⟨c :: front, d, rest, rfl, charsSize_cons, hd, ?_⟩
      rw [List.forall_mem_cons]
      exact ⟨by simpa using hp, hfront⟩

theorem rfindChar_eq_none : rfindChar p s = none ↔ ∀ d ∈ s, p d = false := by
  induction s with
  | nil => simp [rfindChar]
  | cons c s ih =>
    rw [rfindChar]
    cases hs : rfindChar p s with
    | none =>
      have hrest := ih.mp hs
      cases hp : p c <;> simp_all
    | some n =>
      have hsome : ¬ ∀ d ∈ s, p d = false := fun hall => by
        rw [ih.mpr hall] at hs
        cases hs
      simp_all

theorem rfindChar_eq_some (h : rfindChar p s = some n) :
    ∃ front c rest, s = front ++ c :: rest ∧ charsSize front = n ∧ p c = true ∧
      ∀ d ∈ rest, p d = false := by
  induction s generalizing n with
  | nil => cases h
  | cons c s ih =>
    rw [rfindChar] at h
    split at h
    · rename_i m hm
      cases h
      obtain ⟨front, d, rest, rfl, rfl, hd, hrest⟩ := ih hm
      exact ⟨c :: front, d, rest, rfl, charsSize_cons, hd, hrest⟩
    · rename_i hm
      split at h
      · rename_i hp
        cases h
        exact ⟨[], c, s, rfl, rfl, hp, rfindChar_eq_none.mp hm⟩
      · cases h

end SqliteGraph.Lib
