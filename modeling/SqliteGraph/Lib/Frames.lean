import SqliteGraph.Lib.Bytes

/-! Length-prefixed payloads one after the other, and a reader that tolerates a torn tail. -/
namespace SqliteGraph.Lib
variable {limit fuel n : Nat} {bs payload : Bytes} {payloads : List Bytes}

def frame (payload : Bytes) : Bytes := leBytes 4 payload.length ++ payload

def frames (payloads : List Bytes) : Bytes := payloads.flatMap frame

/-- The payloads from the front on, and a `none` for what cannot be one: a length that is 0 or over
the limit, which is skipped, or a tail that is too short, which ends the reading. Every round takes
four bytes at least, so that as much fuel as there are bytes is enough. -/
def readFrames (limit : Nat) : Nat → Bytes → List (Option Bytes)
  | 0, _ => []
  | fuel + 1, bs =>
    if bs = [] then []
    else if bs.length < 4 then [none]
    else
      let size := leNat (bs.take 4)
      let rest := bs.drop 4
      if size = 0 ∨ limit < size then none :: readFrames limit fuel rest
      else if rest.length < size then [none]
      else some (rest.take size) :: readFrames limit fuel (rest.drop size)

/-- The items of given sizes that lie within the first `n` bytes. -/
def whole {α : Type} (size : α → Nat) : Nat → List α → List α
  | _, [] => []
  | n, a :: l => if size a ≤ n then a :: whole size (n - size a) l else []

/-- The size of a payload in its frame. -/
def frameSize (payload : Bytes) : Nat := (frame payload).length

/-- A payload that a reader takes for one. -/
def Framable (limit : Nat) (payload : Bytes) : Prop := payload ≠ [] ∧ payload.length ≤ limit

@[simp] theorem length_frame : (frame payload).length = 4 + payload.length := by simp [frame]

theorem whole_map {α β : Type} {size : β → Nat} {f : α → β} {l : List α} :
    whole size n (l.map f) = (whole (fun a => size (f a)) n l).map f := by
  induction l generalizing n with
  | nil => rfl
  | cons a l ih =>
    rw [List.map_cons, whole, whole]
    split
    · rw [ih, List.map_cons]
    · rfl

@[simp] theorem frames_cons : frames (payload :: payloads) = frame payload ++ frames payloads := rfl

theorem frames_append {a b : List Bytes} : frames (a ++ b) = frames a ++ frames b := by simp [frames]

theorem length_frames : (frames payloads).length = (payloads.map frameSize).sum := by
  rw [frames, List.length_flatMap]
  rfl

theorem whole_of_le {α : Type} {size : α → Nat} {l : List α} (h : (l.map size).sum ≤ n) :
    whole size n l = l := by
  induction l generalizing n with
  | nil => rfl
  | cons a l ih =>
    rw [List.map_cons, List.sum_cons] at h
    rw [whole, if_pos (by omega), ih (by omega)]

theorem whole_subset {α : Type} {size : α → Nat} {l : List α} : whole size n l ⊆ l := by
  induction l generalizing n with
  | nil => simp [whole]
  | cons a l ih =>
    rw [whole]
    split
    · exact List.cons_subset_cons a ih
    · exact List.nil_subset _

/-- A frame in front is read, whatever follows it. -/
theorem readFrames_frame {rest : Bytes} (hlimit : limit < 2 ^ 32) (hp : Framable limit payload) :
    readFrames limit (fuel + 1) (frame payload ++ rest) =
      some payload :: readFrames limit fuel rest := by
  have hsize : leNat (leBytes 4 payload.length) = payload.length :=
    leNat_leBytes (lt_of_le_of_lt hp.2 hlimit)
  have htake : (frame payload ++ rest).take 4 = leBytes 4 payload.length := by
    rw [frame, List.append_assoc, List.take_left' length_leBytes]
  have hdrop : (frame payload ++ rest).drop 4 = payload ++ rest := by
    rw [frame, List.append_assoc, List.drop_left' length_leBytes]
  have hpos := List.length_pos_of_ne_nil hp.1
  have hlen : (frame payload ++ rest).length = 4 + payload.length + rest.length := by
    rw [List.length_append, length_frame]
  have hne : frame payload ++ rest ≠ [] := List.ne_nil_of_length_pos (by omega)
  simp only [readFrames, if_neg hne, htake, hdrop, hsize]
  have hlimit' := hp.2
  rw [if_neg (by omega), if_neg (by omega), if_neg (by rw [List.length_append]; omega),
    List.take_left, List.drop_left]

/-- What is left of a frame that has been cut short is not read. -/
theorem readFrames_torn (hlimit : limit < 2 ^ 32) (hp : Framable limit payload)
    (hn : n < (frame payload).length) :
    readFrames limit (fuel + 1) ((frame payload).take n) = if n = 0 then [] else [none] := by
  by_cases hzero : n = 0
  · simp [hzero, readFrames]
  · have hlen : ((frame payload).take n).length = n := by
      rw [List.length_take]
      omega
    have hne : (frame payload).take n ≠ [] := List.ne_nil_of_length_pos (by omega)
    rw [length_frame] at hn
    simp only [readFrames, if_neg hne, if_neg hzero, hlen]
    by_cases hshort : n < 4
    · rw [if_pos hshort]
    · have hsize : leNat (leBytes 4 payload.length) = payload.length :=
        leNat_leBytes (lt_of_le_of_lt hp.2 hlimit)
      have htake : ((frame payload).take n).take 4 = leBytes 4 payload.length := by
        rw [List.take_take, Nat.min_eq_left (by omega), frame, List.take_left' length_leBytes]
      have hpos := List.length_pos_of_ne_nil hp.1
      have hlimit' := hp.2
      rw [if_neg hshort, htake, hsize, if_neg (by omega), if_pos (by rw [List.length_drop]; omega)]

/-- A file of frames that has been cut somewhere: the whole ones are read, and then at most one thing
that cannot be. -/
theorem readFrames_take (hlimit : limit < 2 ^ 32) (hp : ∀ p ∈ payloads, Framable limit p)
    (hfuel : ((frames payloads).take n).length ≤ fuel) :
    ∃ torn, (torn = [] ∨ torn = [none]) ∧ ((frames payloads).length ≤ n → torn = []) ∧
      readFrames limit fuel ((frames payloads).take n) = (whole frameSize n payloads).map some ++ torn := by
  induction payloads generalizing n fuel with
  | nil =>
    refine ⟨[], .inl rfl, fun _ => rfl, ?_⟩
    cases fuel <;> simp [frames, readFrames, whole]
  | cons payload payloads ih =>
    have hpayload := hp payload (by simp)
    cases fuel with
    | zero =>
      have hn : n = 0 := by
        rw [List.length_take, frames_cons, List.length_append, length_frame] at hfuel
        omega
      subst hn
      refine ⟨[], .inl rfl, fun _ => rfl, ?_⟩
      simp [readFrames, whole, frameSize]
    | succ fuel =>
      rw [frames_cons, whole, frameSize]
      by_cases hle : (frame payload).length ≤ n
      · have htake : (frame payload ++ frames payloads).take n =
            frame payload ++ (frames payloads).take (n - (frame payload).length) := by
          rw [List.take_append, List.take_of_length_le hle]
        have hlen : 4 ≤ (frame payload).length := by simp
        rw [frames_cons, htake, List.length_append] at hfuel
        have hrest : ((frames payloads).take (n - (frame payload).length)).length ≤ fuel := by omega
        obtain ⟨torn, htorn, hall, hread⟩ := ih (fun p hpm => hp p (by simp [hpm])) hrest
        refine ⟨torn, htorn, fun hlen => hall ?_, ?_⟩
        · rw [List.length_append] at hlen
          omega
        · rw [htake, readFrames_frame hlimit hpayload, hread, if_pos hle]
          rfl
      · have htake : (frame payload ++ frames payloads).take n = (frame payload).take n :=
          List.take_append_of_le_length (by omega)
        refine ⟨if n = 0 then [] else [none], ?_, fun hlen => ?_, ?_⟩
        · split
          · exact .inl rfl
          · exact .inr rfl
        · rw [List.length_append] at hlen
          omega
        · rw [htake, readFrames_torn hlimit hpayload (by omega), if_neg hle]
          rfl

/-- A file of frames is read in full. -/
theorem readFrames_frames (hlimit : limit < 2 ^ 32) (hp : ∀ p ∈ payloads, Framable limit p)
    (hfuel : (frames payloads).length ≤ fuel) :
    readFrames limit fuel (frames payloads) = payloads.map some := by
  have htake : (frames payloads).take (frames payloads).length = frames payloads := List.take_length
  have hfuel' : ((frames payloads).take (frames payloads).length).length ≤ fuel := by rwa [htake]
  obtain ⟨torn, -, hall, hread⟩ := readFrames_take hlimit hp hfuel'
  rw [htake, whole_of_le (le_of_eq length_frames.symm), hall (le_refl _), List.append_nil] at hread
  exact hread

end SqliteGraph.Lib
