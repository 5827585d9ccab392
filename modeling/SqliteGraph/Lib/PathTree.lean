import Mathlib.Data.List.Induction
import Mathlib.Data.List.Nodup
import Mathlib.Logic.Relation

/-! Enumeration of the paths that grow from one path a step at a time. -/
namespace SqliteGraph.Lib
variable {V : Type} {out : List V → List (List V)} {steps : List V → List V} {depth : Nat}
  {p q r : List V}

/-- What the path and those grown from it give, as deep as the bound lets it. -/
def pathTree (out : List V → List (List V)) (steps : List V → List V) :
    Nat → List V → List (List V)
  | 0, _ => []
  | depth + 1, p => out p ++ (steps p).flatMap fun w => pathTree out steps depth (p ++ [w])

def GrowsTo (steps : List V → List V) : List V → List V → Prop :=
  Relation.ReflTransGen fun p r => ∃ w ∈ steps p, r = p ++ [w]

theorem growsTo_iff : GrowsTo steps p r ↔
    ∃ ws, r = p ++ ws ∧ ∀ pre w post, ws = pre ++ w :: post → w ∈ steps (p ++ pre) := by
  constructor
  · intro h
    induction h with
    | refl => exact ⟨[], by simp, by simp⟩
    | tail _ hstep ih =>
      obtain ⟨ws, rfl, hws⟩ := ih
      obtain ⟨v, hv, rfl⟩ := hstep
      refine ⟨ws ++ [v], by simp, fun pre w post hsplit => ?_⟩
      rcases List.eq_nil_or_concat post with rfl | ⟨post, x, rfl⟩
      · obtain ⟨rfl, heq⟩ := List.append_inj' hsplit rfl
        obtain rfl : v = w := (List.cons.inj heq).1
        exact hv
      · rw [List.concat_eq_append, ← List.cons_append, ← List.append_assoc] at hsplit
        exact hws pre w post (List.append_inj' hsplit rfl).1
  · rintro ⟨ws, rfl, hws⟩
    induction ws using List.reverseRecOn with
    | nil =>
      rw [List.append_nil]
      exact .refl
    | append_singleton ws v ih =>
      refine .tail (ih fun pre w post hsplit => hws pre w (post ++ [v]) (by simp [hsplit])) ?_
      exact ⟨v, hws ws v [] rfl, by simp⟩

/-- Among the good paths the rank falls with each step. -/
structure Ranked (steps : List V → List V) (Good : List V → Prop) (rank : List V → Nat) : Prop where
  good : ∀ p, Good p → ∀ w ∈ steps p, Good (p ++ [w])
  falls : ∀ p, Good p → ∀ w ∈ steps p, rank (p ++ [w]) < rank p

section Exact
variable {Good : List V → Prop} {rank : List V → Nat}

theorem mem_pathTree (h : Ranked steps Good rank) (hp : Good p) (hdepth : rank p < depth) :
    q ∈ pathTree out steps depth p ↔ ∃ r, GrowsTo steps p r ∧ q ∈ out r := by
  induction depth generalizing p with
  | zero => omega
  | succ depth ih =>
    have hstep : ∀ w ∈ steps p, (q ∈ pathTree out steps depth (p ++ [w]) ↔
        ∃ r, GrowsTo steps (p ++ [w]) r ∧ q ∈ out r) := by
      intro w hw
      have := h.falls p hp w hw
      exact ih (h.good p hp w hw) (by omega)
    rw [pathTree, List.mem_append, List.mem_flatMap]
    constructor
    · rintro (hq | ⟨w, hw, hq⟩)
      · exact ⟨p, .refl, hq⟩
      · obtain ⟨r, hr, hqr⟩ := (hstep w hw).mp hq
        exact ⟨r, .head ⟨w, hw, rfl⟩ hr, hqr⟩
    · rintro ⟨r, hr, hq⟩
      rcases hr.cases_head with rfl | ⟨_, ⟨w, hw, rfl⟩, hrest⟩
      · exact .inl hq
      · exact .inr ⟨w, hw, (hstep w hw).mpr ⟨r, hrest, hq⟩⟩

end Exact

/-- What comes from a path begins with it. -/
theorem prefix_of_mem_pathTree (hout : ∀ p, ∀ q ∈ out p, p <+: q) (hq : q ∈ pathTree out steps depth p) :
    p <+: q := by
  induction depth generalizing p with
  | zero => cases hq
  | succ depth ih =>
    rw [pathTree, List.mem_append, List.mem_flatMap] at hq
    rcases hq with hq | ⟨w, -, hq⟩
    · exact hout p q hq
    · exact (List.prefix_append p [w]).trans (ih hq)

/-- Each of the steps is allowed after those before it. -/
def allowedFrom (allowed : List V → V → Bool) : List V → List V → Bool
  | _, [] => true
  | p, w :: ws => allowed p w && allowedFrom allowed (p ++ [w]) ws

/-- Steps that are left out cost the paths that take them, and nothing else. -/
theorem pathTree_filter {allowed : List V → V → Bool} (hout : ∀ p, ∀ q ∈ out p, q = p) :
    pathTree out (fun p => (steps p).filter (allowed p)) depth p =
      (pathTree out steps depth p).filter fun q => allowedFrom allowed p (q.drop p.length) := by
  induction depth generalizing p with
  | zero => rfl
  | succ depth ih =>
    have hself : (out p).filter (fun q => allowedFrom allowed p (q.drop p.length)) = out p := by
      refine List.filter_eq_self.mpr fun q hq => ?_
      rw [hout p q hq, List.drop_length, allowedFrom]
    have hbelow : ∀ w, (pathTree out steps depth (p ++ [w])).filter
        (fun q => allowedFrom allowed p (q.drop p.length)) =
          if allowed p w then pathTree out (fun p => (steps p).filter (allowed p)) depth (p ++ [w])
          else [] := by
      intro w
      have hpre : ∀ q ∈ pathTree out steps depth (p ++ [w]),
          allowedFrom allowed p (q.drop p.length) =
            (allowed p w && allowedFrom allowed (p ++ [w]) (q.drop (p ++ [w]).length)) := by
        intro q hq
        obtain ⟨rest, rfl⟩ := prefix_of_mem_pathTree (fun p q hq => (hout p q hq) ▸ List.prefix_rfl) hq
        rw [List.append_assoc, List.drop_left, ← List.append_assoc, List.drop_left]
        rfl
      rw [List.filter_congr hpre]
      cases allowed p w with
      | true => simp [ih]
      | false => simp
    rw [pathTree, pathTree, List.filter_append, hself, List.filter_flatMap]
    simp only [hbelow]
    congr 1
    induction steps p with
    | nil => rfl
    | cons w ws ihw =>
      rw [List.filter_cons, List.flatMap_cons, ← ihw]
      cases allowed p w with
      | true => simp
      | false => simp

/-- A list that has been cut goes on as if it had not been. -/
theorem take_append_take {B : Type} (l m : List B) (n : Nat) :
    (l.take n ++ m).take n = (l ++ m).take n := by
  rw [List.take_append, List.take_append, List.take_take, Nat.min_self, List.length_take]
  congr 2
  omega

end SqliteGraph.Lib
