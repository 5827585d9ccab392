import SqliteGraph.V3.KvStore

/-! Point reads against the history of writes, and when a read is the one that the key's own writes
call for. -/
namespace SqliteGraph.V3
open Lib
variable {J : Type} {hashKey : Bytes → UInt64} {history : List (KvWrite J)} {w : KvWrite J}
  {key : Bytes} {snapshot now h : UInt64} {versions : List (KvEntry J)}

namespace KvEntry

/-- An entry without its time of creation, which no read looks at. -/
def core (e : KvEntry J) : KvEntry J := { e with metadata := { e.metadata with createdAt := 0 } }

/-- What a point read says of the entry it has found. -/
def shown (now snapshot : UInt64) (e : KvEntry J) : Option (KvValue J) :=
  if e.metadata.isExpiredAt now then none
  else if snapshot ≠ 0 ∧ e.value.isNull then none
  else some e.value

/-- Snapshot 0 sees all versions. -/
def visible (snapshot : UInt64) (e : KvEntry J) : Bool :=
  decide (snapshot = 0 ∨ e.metadata.version ≤ snapshot)

end KvEntry

theorem takeWhile_eq_filter {α : Type} {p : α → Bool} {l : List α}
    (h : l.Pairwise fun a b => p b = true → p a = true) : l.takeWhile p = l.filter p := by
  induction l with
  | nil => rfl
  | cons a l ih =>
    obtain ⟨ha, hl⟩ := List.pairwise_cons.mp h
    cases hp : p a with
    | true => rw [List.takeWhile_cons_of_pos hp, List.filter_cons_of_pos hp, ih hl]
    | false =>
      have hnone : ∀ b ∈ l, p b ≠ true := by
        intro b hb hpb
        rw [ha b hb hpb] at hp
        cases hp
      rw [List.takeWhile_cons_of_neg (by simp [hp]), List.filter_cons_of_neg (by simp [hp]),
        List.filter_eq_nil_iff.mpr hnone]

/-- The last element of the front of a list, by its position. -/
theorem getElem?_pred_of_prefix {α : Type} {l l' : List α} (h : l <+: l') (hne : l ≠ []) :
    l'[l.length - 1]? = l.getLast? := by
  obtain ⟨t, rfl⟩ := h
  have hpos := List.length_pos_of_ne_nil hne
  rw [List.getElem?_append_left (by omega), List.getLast?_eq_getElem?]

/-- A read finds the last entry before the first one that it does not see. -/
theorem readChain_takeWhile : KvStore.readChain now versions snapshot =
    (versions.takeWhile (KvEntry.visible snapshot)).getLast?.bind (KvEntry.shown now snapshot) := by
  unfold KvStore.readChain
  by_cases hs : snapshot = 0
  · subst hs
    have hall : versions.takeWhile (KvEntry.visible 0) = versions :=
      List.takeWhile_eq_self_iff.mpr fun _ _ => by simp [KvEntry.visible]
    rw [if_pos rfl, hall]
    cases versions.getLast? with
    | none => rfl
    | some e =>
      cases he : e.metadata.isExpiredAt now with
      | true => simp [KvEntry.shown, he]
      | false => simp [KvEntry.shown, he]
  · have hvisible : KvEntry.visible snapshot =
        fun e : KvEntry J => decide (e.metadata.version ≤ snapshot) := by
      funext e
      simp [KvEntry.visible, hs]
    have hidx : KvStore.partitionPoint versions snapshot =
      (versions.takeWhile fun e => decide (e.metadata.version ≤ snapshot)).length := rfl
    rw [if_neg hs, hvisible]
    by_cases hnil : (versions.takeWhile fun e => decide (e.metadata.version ≤ snapshot)) = []
    · have hzero : KvStore.partitionPoint versions snapshot = 0 := by rw [hidx, hnil, List.length_nil]
      rw [hnil]
      exact if_pos hzero
    · have hpos : KvStore.partitionPoint versions snapshot ≠ 0 := by
        rw [hidx]
        exact (List.length_pos_of_ne_nil hnil).ne'
      refine (if_neg hpos).trans ?_
      rw [hidx, getElem?_pred_of_prefix (List.takeWhile_prefix _) hnil]
      cases (versions.takeWhile fun e => decide (e.metadata.version ≤ snapshot)).getLast? with
      | none => rfl
      | some e => simp [KvEntry.shown, hs]

/-- That is the newest visible entry, when versions do not decrease. -/
theorem readChain_eq (hmono : versions.Pairwise fun a b => a.metadata.version ≤ b.metadata.version) :
    KvStore.readChain now versions snapshot =
      (versions.filter (KvEntry.visible snapshot)).getLast?.bind (KvEntry.shown now snapshot) := by
  rw [readChain_takeWhile, takeWhile_eq_filter]
  refine hmono.imp fun {a b} hab hb => ?_
  rw [KvEntry.visible, decide_eq_true_eq] at hb ⊢
  exact hb.imp_right (UInt64.le_trans hab)

namespace KvWrite

/-- The entry that the write files, less its time of creation. -/
def entry (w : KvWrite J) : KvEntry J :=
  match w.change with
  | .set value ttlSeconds => ⟨w.key, value, ⟨0, w.now, ttlSeconds, w.version⟩⟩
  | .delete => ⟨w.key, .null, ⟨0, w.now, none, w.version⟩⟩

@[simp] theorem entry_key (w : KvWrite J) : w.entry.key = w.key := by
  unfold entry
  split <;> rfl

@[simp] theorem entry_version (w : KvWrite J) : w.entry.metadata.version = w.version := by
  unfold entry
  split <;> rfl

theorem chain_apply (s : KvStore J) (w : KvWrite J) :
    ((w.apply hashKey s).chain h).map KvEntry.core =
      (s.chain h).map KvEntry.core ++ if hashKey w.key = h then [w.entry] else [] := by
  obtain ⟨now, key, version, change⟩ := w
  cases change with
  | set value ttlSeconds =>
    simp only [apply, KvStore.set, KvStore.chain_push, entry]
    split
    · simp [KvEntry.core]
    · simp
  | delete =>
    simp only [apply, KvStore.delete, KvStore.chain_push, entry]
    split
    · simp [KvEntry.core]
    · simp

/-- The writes filed under a hash. -/
def filed (hashKey : Bytes → UInt64) (history : List (KvWrite J)) (h : UInt64) : List (KvWrite J) :=
  history.filter fun w => decide (hashKey w.key = h)

/-- A chain has the writes filed under its hash, in order. -/
theorem chain_run (hashKey : Bytes → UInt64) (history : List (KvWrite J)) (h : UInt64) :
    ((run hashKey history).chain h).map KvEntry.core = (filed hashKey history h).map entry := by
  suffices hfold : ∀ s : KvStore J, ((history.foldl (apply hashKey) s).chain h).map KvEntry.core =
      (s.chain h).map KvEntry.core ++ (filed hashKey history h).map entry by
    exact hfold .new
  induction history with
  | nil => simp [filed]
  | cons w history ih =>
    intro s
    rw [List.foldl_cons, ih, chain_apply]
    by_cases hw : hashKey w.key = h
    · simp [filed, hw]
    · simp [filed, hw]

theorem chain_sorted (hmono : history.Pairwise fun a b => a.version ≤ b.version) :
    ((run hashKey history).chain h).Pairwise fun a b => a.metadata.version ≤ b.metadata.version := by
  have hversions : ((run hashKey history).chain h).map (fun e => e.metadata.version) =
      (filed hashKey history h).map (·.version) := by
    have hchain := congrArg (List.map fun e => e.metadata.version) (chain_run hashKey history h)
    simpa [Function.comp_def, KvEntry.core] using hchain
  have hmap : ((filed hashKey history h).map (·.version)).Pairwise (· ≤ ·) :=
    List.pairwise_map.mpr (hmono.filter _)
  rw [← hversions] at hmap
  exact List.pairwise_map.mp hmap

/-- The newest of the writes with `p` that a snapshot sees. -/
def newest (history : List (KvWrite J)) (snapshot : UInt64) (p : KvWrite J → Bool) :
    Option (KvWrite J) :=
  (history.filter fun w => p w && decide (snapshot = 0 ∨ w.version ≤ snapshot)).getLast?

def isExpiredAt (w : KvWrite J) (now : UInt64) : Bool :=
  match w.change with
  | .set _ (some ttl) => decide (saturatingAdd w.now ttl ≤ now)
  | _ => false

/-- What the write leaves to be read: the value that it sets, until that expires. -/
def outcome (now : UInt64) (w : KvWrite J) : Option (KvValue J) :=
  match w.change with
  | .set value _ => if w.isExpiredAt now then none else some value
  | .delete => none

/-- What a multi-version map with whole keys answers. -/
def answer (history : List (KvWrite J)) (key : Bytes) (snapshot now : UInt64) : Option (KvValue J) :=
  (newest history snapshot fun w => decide (w.key = key)).bind (outcome now)

/-- A deletion seen by snapshot 0, or a `Null` that has been set and not expired, seen by another. -/
def Misread (snapshot now : UInt64) (w : KvWrite J) : Prop :=
  match w.change with
  | .set value _ => snapshot ≠ 0 ∧ value.isNull = true ∧ w.isExpiredAt now = false
  | .delete => snapshot = 0

/-- The newest visible write filed under the key's hash is one to the key itself that is not misread,
or else it happens to show what the key's own newest write calls for. -/
def ReadRight (hashKey : Bytes → UInt64) (history : List (KvWrite J)) (key : Bytes)
    (snapshot now : UInt64) : Prop :=
  match newest history snapshot fun w => decide (hashKey w.key = hashKey key) with
  | none => True
  | some w =>
    if w.key = key then ¬ w.Misread snapshot now
    else w.entry.shown now snapshot = answer history key snapshot now

theorem isExpiredAt_entry (w : KvWrite J) : w.entry.metadata.isExpiredAt now = w.isExpiredAt now := by
  obtain ⟨time, key, version, change⟩ := w
  cases change with
  | set value ttlSeconds => cases ttlSeconds <;> rfl
  | delete => rfl

theorem shown_entry_iff : w.entry.shown now snapshot = w.outcome now ↔ ¬ w.Misread snapshot now := by
  rw [KvEntry.shown, isExpiredAt_entry]
  obtain ⟨time, key, version, change⟩ := w
  cases change with
  | set value ttlSeconds =>
    simp only [outcome, Misread, entry]
    cases isExpiredAt ⟨time, key, version, .set value ttlSeconds⟩ now with
    | true => simp
    | false => by_cases hnull : snapshot ≠ 0 ∧ value.isNull = true <;> simp [hnull]
  | delete => by_cases hs : snapshot = 0 <;> simp [entry, outcome, Misread, isExpiredAt, KvValue.isNull, hs]

/-- A point read shows the newest visible write filed under the key's hash. -/
theorem getAtSnapshot_run (hmono : history.Pairwise fun a b => a.version ≤ b.version) :
    (run hashKey history).getAtSnapshot hashKey now key snapshot =
      (newest history snapshot fun w => decide (hashKey w.key = hashKey key)).bind fun w =>
        w.entry.shown now snapshot := by
  have hchain := chain_run hashKey history (hashKey key)
  have hsorted : ((run hashKey history).chain (hashKey key)).Pairwise _ := chain_sorted hmono
  have hread : ∀ l : List (KvEntry J), (l.filter (KvEntry.visible snapshot)).getLast?.bind
      (KvEntry.shown now snapshot) = ((l.map KvEntry.core).filter (KvEntry.visible snapshot)).getLast?.bind
        (KvEntry.shown now snapshot) := by
    intro l
    rw [List.filter_map, List.getLast?_map, Option.bind_map]
    rfl
  rw [KvStore.getAtSnapshot_eq, readChain_eq hsorted, hread, hchain, List.filter_map,
    List.getLast?_map, Option.bind_map, newest, filed, List.filter_filter]
  refine congrArg (fun l => (List.getLast? l).bind _) (List.filter_congr fun w _ => ?_)
  simp [KvEntry.visible, Bool.and_comm]

section Newest
variable {p q : KvWrite J → Bool}

theorem newest_of_imp (hw : newest history snapshot p = some w) (hq : q w = true)
    (himp : ∀ w, q w = true → p w = true) : newest history snapshot q = some w := by
  unfold newest at hw ⊢
  rw [List.getLast?_filter, List.find?_eq_some_iff_append] at hw ⊢
  obtain ⟨hp, as, bs, heq, has⟩ := hw
  simp only [Bool.and_eq_true] at hp
  refine ⟨by simp [hq, hp.2], as, bs, heq, fun a ha => ?_⟩
  have hna := has a ha
  cases hqa : q a with
  | false => simp
  | true => simpa [himp a hqa] using hna

theorem newest_none_of_imp (hw : newest history snapshot p = none)
    (himp : ∀ w, q w = true → p w = true) : newest history snapshot q = none := by
  unfold newest at hw ⊢
  rw [List.getLast?_eq_none_iff, List.filter_eq_nil_iff] at hw ⊢
  intro a ha hqa
  rw [Bool.and_eq_true] at hqa
  exact hw a ha (by rw [himp a hqa.1, hqa.2]; rfl)

end Newest

end KvWrite

/-- For histories whose versions do not decrease: when a point read gives what the key's own writes
call for. -/
theorem get_at_snapshot_iff (hashKey : Bytes → UInt64) {history : List (KvWrite J)}
    (hmono : history.Pairwise fun a b => a.version ≤ b.version) (key : Bytes) (snapshot now : UInt64) :
    (KvWrite.run hashKey history).getAtSnapshot hashKey now key snapshot =
        KvWrite.answer history key snapshot now ↔
      KvWrite.ReadRight hashKey history key snapshot now := by
  have himp : ∀ w : KvWrite J, decide (w.key = key) = true →
      decide (hashKey w.key = hashKey key) = true := by
    intro w hw
    rw [of_decide_eq_true hw, decide_eq_true rfl]
  rw [KvWrite.getAtSnapshot_run hmono, KvWrite.ReadRight]
  cases hn : KvWrite.newest history snapshot fun w => decide (hashKey w.key = hashKey key) with
  | none => simp [KvWrite.answer, KvWrite.newest_none_of_imp hn himp]
  | some w =>
    simp only [Option.bind_some]
    by_cases hk : w.key = key
    · rw [if_pos hk, KvWrite.answer, KvWrite.newest_of_imp hn (by simpa using hk) himp,
        Option.bind_some]
      exact KvWrite.shown_entry_iff
    · rw [if_neg hk]

/-- A key that is set, deleted, and read. -/
def setAndDelete : List (KvWrite Unit) :=
  [⟨0, [1], 1, .set (.integer 7) none⟩, ⟨0, [1], 2, .delete⟩]

theorem get_at_snapshot_iff_setAndDelete :
    (KvWrite.run (fun _ => 0) setAndDelete).getAtSnapshot (fun _ => 0) 5 [1] 1 =
        KvWrite.answer setAndDelete [1] 1 5 ↔
      KvWrite.ReadRight (fun _ => 0) setAndDelete [1] 1 5 :=
  get_at_snapshot_iff (fun _ => 0) (by decide) [1] 1 5

/-- Snapshot 0 sees the deletion as a value; and under one hash a key that was never set has the
value of another. -/
theorem not_get_at_snapshot :
    ((KvWrite.run (fun _ => 0) setAndDelete).getAtSnapshot (fun _ => 0) 5 [1] 0 = some .null ∧
        KvWrite.answer setAndDelete [1] 0 5 = none) ∧
      (KvWrite.run (fun _ => 0) setAndDelete).getAtSnapshot (fun _ => 0) 5 [2] 1 = some (.integer 7) ∧
        KvWrite.answer setAndDelete [2] 1 5 = none := by
  decide +kernel

end SqliteGraph.V3
