import Mathlib

/-! Breadth-first search over a neighbor function: walks, distances and the queue's invariant. -/
namespace SqliteGraph.Lib

/-- There is a walk of `n` steps from `start`. -/
inductive Walk {V : Type} (next : V → List V) (start : V) : Nat → V → Prop
  | nil : Walk next start 0 start
  | step {n u v} : Walk next start n u → v ∈ next u → Walk next start (n + 1) v

variable {V : Type} {next : V → List V} {start u v w : V} {n d k : Nat}

/-- `v` is at distance `d`, and a search that leaves the levels `expands` gets there. -/
structure Found (next : V → List V) (expands : Nat → Prop) (start v : V) (d : Nat) : Prop where
  walk : Walk next start d v
  expands : ∀ m < d, expands m
  least : ∀ n, Walk next start n v → d ≤ n

theorem Found.unique {expands expands' : Nat → Prop} {d' : Nat} (h : Found next expands start v d)
    (h' : Found next expands' start v d') : d = d' :=
  Nat.le_antisymm (h.least _ h'.walk) (h'.least _ h.walk)

section Congr
variable {next' : V → List V} {expands : Nat → Prop}

theorem Walk.congr (hnext : ∀ u v, v ∈ next u → v ∈ next' u) (h : Walk next start n v) :
    Walk next' start n v := by
  induction h with
  | nil => exact .nil
  | step _ hv ih => exact ih.step (hnext _ _ hv)

/-- Only which nodes are neighbors matters, not their order. -/
theorem Found.congr (hnext : ∀ u v, v ∈ next u ↔ v ∈ next' u) :
    Found next expands start v d ↔ Found next' expands start v d := by
  have hwalk : ∀ n v, Walk next start n v ↔ Walk next' start n v := fun n v =>
    ⟨.congr fun u v => (hnext u v).mp, .congr fun u v => (hnext u v).mpr⟩
  constructor
  · intro h
    exact ⟨(hwalk _ _).mp h.walk, h.expands, fun n hn => h.least n ((hwalk _ _).mpr hn)⟩
  · intro h
    exact ⟨(hwalk _ _).mpr h.walk, h.expands, fun n hn => h.least n ((hwalk _ _).mp hn)⟩

end Congr

/-- The nodes met so far with their levels: those of `done` have been left, those of `queue` are
waiting, the nearest first. -/
structure SearchInv (next : V → List V) (expands : Nat → Prop) (start : V)
    (done queue : List (V × Nat)) : Prop where
  met : (start, 0) ∈ done ++ queue
  nodup : ((done ++ queue).map Prod.fst).Nodup
  walk : ∀ x ∈ done ++ queue, Walk next start x.2 x.1
  level : ∀ x ∈ done ++ queue, ∀ m < x.2, expands m
  sorted : queue.Pairwise fun x y => x.2 ≤ y.2
  window : ∀ x ∈ done ++ queue, ∀ y ∈ queue, x.2 ≤ y.2 + 1
  left : ∀ x ∈ done, expands x.2 → ∀ w ∈ next x.1, ∃ e ≤ x.2 + 1, (w, e) ∈ done ++ queue

namespace SearchInv
variable {expands : Nat → Prop} {done queue batch rest : List (V × Nat)} {x : V × Nat}
  {new : List V}

theorem init : SearchInv next expands start [] [(start, 0)] where
  met := by simp
  nodup := by simp
  walk := by simpa using Walk.nil
  level := by simp
  sorted := by simp
  window := by simp
  left := by simp

/-- A search that has left every node it met knows all walks through the levels it leaves. -/
theorem covers (h : SearchInv next expands start done []) (hw : Walk next start n v)
    (he : ∀ m < n, expands m) : ∃ e ≤ n, (v, e) ∈ done := by
  induction hw with
  | nil => exact ⟨0, le_refl _, by simpa using h.met⟩
  | step _ hv ih =>
    obtain ⟨e, hle, hmem⟩ := ih fun m hm => he m (Nat.lt_succ_of_lt hm)
    obtain ⟨e', hle', hmem'⟩ := h.left _ hmem (he e (Nat.lt_succ_of_le hle)) _ hv
    exact ⟨e', by omega, by simpa using hmem'⟩

/-- It has met the nodes at every distance within these levels, and no others. -/
theorem found (h : SearchInv next expands start done []) : (v, d) ∈ done ↔ Found next expands start v d := by
  have hnodup : (done.map Prod.fst).Nodup := by simpa using h.nodup
  have hunique : ∀ {e}, (v, d) ∈ done → (v, e) ∈ done → d = e := fun hd he =>
    congrArg Prod.snd (List.inj_on_of_nodup_map hnodup hd he rfl)
  constructor
  · intro hmem
    have hmem' : (v, d) ∈ done ++ [] := by simpa using hmem
    refine ⟨h.walk _ hmem', h.level _ hmem', fun n hw => ?_⟩
    by_contra hlt
    obtain ⟨e, hle, he⟩ := h.covers hw fun m hm => h.level _ hmem' m (by simp only; omega)
    have := hunique hmem he
    omega
  · intro hf
    obtain ⟨e, hle, he⟩ := h.covers hf.walk hf.expands
    have hwalk := h.walk (v, e) (by simpa using he)
    have := hf.least e hwalk
    rwa [Nat.le_antisymm this hle]

/-- The nodes at the front of the queue, all of one level, are left: `new` are their neighbors that
had not been met. -/
theorem expand (h : SearchInv next expands start done (x :: batch ++ rest))
    (hbatch : ∀ y ∈ batch, y.2 = x.2) (hnew : new.Nodup)
    (hmem : ∀ w, w ∈ new ↔ (expands x.2 ∧ ∃ y ∈ x :: batch, w ∈ next y.1) ∧
      w ∉ (done ++ (x :: batch ++ rest)).map Prod.fst) :
    SearchInv next expands start (done ++ x :: batch) (rest ++ new.map (·, x.2 + 1)) := by
  have hperm : done ++ x :: batch ++ (rest ++ new.map (·, x.2 + 1)) =
      done ++ (x :: batch ++ rest) ++ new.map (·, x.2 + 1) := by simp
  have hlevel : ∀ y ∈ x :: batch, y.2 = x.2 := by
    intro y hy
    rcases List.mem_cons.mp hy with rfl | hy
    · rfl
    · exact hbatch y hy
  have hbound : ∀ y ∈ done ++ (x :: batch ++ rest), y.2 ≤ x.2 + 1 := fun y hy =>
    h.window y hy x (by simp)
  have hrest : ∀ y ∈ rest, x.2 ≤ y.2 := by
    intro y hy
    have hs := h.sorted
    rw [List.cons_append, List.pairwise_cons] at hs
    exact hs.1 y (by simp [hy])
  have hsorted : rest.Pairwise fun y z => y.2 ≤ z.2 := (List.pairwise_append.mp h.sorted).2.1
  refine ⟨?_, ?_, ?_, ?_, ?_, ?_, ?_⟩
  · rw [hperm]
    exact List.mem_append_left _ h.met
  · rw [hperm, List.map_append, List.map_map, List.nodup_append]
    refine ⟨h.nodup, by simpa [Function.comp_def] using hnew, ?_⟩
    intro a ha b hb hab
    simp only [List.mem_map, Function.comp_apply, exists_eq_right] at hb
    exact ((hmem b).mp hb).2 (hab ▸ ha)
  · rw [hperm]
    intro y hy
    rcases List.mem_append.mp hy with hy | hy
    · exact h.walk y hy
    · obtain ⟨w, hw, rfl⟩ := List.mem_map.mp hy
      obtain ⟨⟨-, z, hz, hadj⟩, -⟩ := (hmem w).mp hw
      have hwalk := h.walk z (by simp only [List.mem_append]; exact .inr (.inl hz))
      rw [hlevel z hz] at hwalk
      exact hwalk.step hadj
  · rw [hperm]
    intro y hy m hm
    rcases List.mem_append.mp hy with hy | hy
    · exact h.level y hy m hm
    · obtain ⟨w, hw, rfl⟩ := List.mem_map.mp hy
      obtain ⟨⟨hexp, -⟩, -⟩ := (hmem w).mp hw
      rcases Nat.lt_succ_iff_lt_or_eq.mp hm with hm | rfl
      · exact h.level x (by simp) m hm
      · exact hexp
  · rw [List.pairwise_append]
    refine ⟨hsorted, ?_, ?_⟩
    · exact List.pairwise_map.mpr (List.pairwise_of_forall fun _ _ => le_refl _)
    · intro y hy z hz
      obtain ⟨w, -, rfl⟩ := List.mem_map.mp hz
      exact hbound y (by simp [hy])
  · rw [hperm]
    intro y hy z hz
    have hz : x.2 ≤ z.2 := by
      rcases List.mem_append.mp hz with hz | hz
      · exact hrest z hz
      · obtain ⟨w, -, rfl⟩ := List.mem_map.mp hz
        exact Nat.le_succ _
    rcases List.mem_append.mp hy with hy | hy
    · exact (hbound y hy).trans (Nat.succ_le_succ hz)
    · obtain ⟨w, -, rfl⟩ := List.mem_map.mp hy
      exact Nat.succ_le_succ hz
  · rw [hperm]
    intro y hy hexp w hw
    rcases List.mem_append.mp hy with hy | hy
    · obtain ⟨e, hle, he⟩ := h.left y hy hexp w hw
      exact ⟨e, hle, List.mem_append_left _ he⟩
    · rw [hlevel y hy] at hexp ⊢
      by_cases hmet : w ∈ (done ++ (x :: batch ++ rest)).map Prod.fst
      · obtain ⟨z, hz, rfl⟩ := List.mem_map.mp hmet
        exact ⟨z.2, hbound z hz, List.mem_append_left _ hz⟩
      · have hw' := (hmem w).mpr ⟨⟨hexp, y, hy, hw⟩, hmet⟩
        exact ⟨x.2 + 1, le_refl _, List.mem_append_right _ (List.mem_map.mpr ⟨w, hw', rfl⟩)⟩

end SearchInv

section Queue
variable [DecidableEq V] {expands : Nat → Prop} [DecidablePred expands] {visited : Finset V}
  {ws : List V} {done queue : List (V × Nat)} {fuel bound : Nat}

/-- The nodes of a list that have not been visited, each once, in order. -/
def discover (visited : Finset V) : List V → List V
  | [] => []
  | w :: ws => if w ∈ visited then discover visited ws else w :: discover (insert w visited) ws

theorem mem_discover : v ∈ discover visited ws ↔ v ∈ ws ∧ v ∉ visited := by
  induction ws generalizing visited with
  | nil => simp [discover]
  | cons w ws ih =>
    rw [discover]
    by_cases hw : w ∈ visited
    · rw [if_pos hw, ih]
      by_cases hv : v = w
      · subst hv
        simp [hw]
      · simp [hv]
    · rw [if_neg hw, List.mem_cons, ih]
      by_cases hv : v = w
      · subst hv
        simp [hw]
      · simp [hv]

theorem nodup_discover : (discover visited ws).Nodup := by
  induction ws generalizing visited with
  | nil => exact List.nodup_nil
  | cons w ws ih =>
    rw [discover]
    split
    · exact ih
    · refine List.nodup_cons.mpr ⟨fun hmem => ?_, ih⟩
      exact (mem_discover.mp hmem).2 (Finset.mem_insert_self ..)

/-- Insert into a set of visited nodes, and go on with `f` if the node is a new one. -/
def visit {β : Type} (f : β → V → β) (s : Finset V × β) (w : V) : Finset V × β :=
  if w ∈ s.1 then s else (insert w s.1, f s.2 w)

theorem foldl_visit {β : Type} (f : β → V → β) (b : β) :
    ws.foldl (visit f) (visited, b) =
      (visited ∪ (discover visited ws).toFinset, (discover visited ws).foldl f b) := by
  induction ws generalizing visited b with
  | nil => simp [discover]
  | cons w ws ih =>
    rw [List.foldl_cons, visit, discover]
    by_cases hw : w ∈ visited
    · simp only [hw, if_true]
      exact ih b
    · simp only [hw, if_false]
      rw [ih (f b w)]
      simp

theorem foldl_snoc {α β : Type} (f : α → β) (xs : List α) (ys : List β) :
    xs.foldl (fun ys x => ys ++ [f x]) ys = ys ++ xs.map f := by
  induction xs generalizing ys with
  | nil => simp
  | cons x xs ih => simp [ih]

/-- The search with a queue; the nodes in the order in which they leave it. -/
def search (next : V → List V) (expands : Nat → Prop) [DecidablePred expands] :
    Nat → Finset V → List (V × Nat) → Option (List (V × Nat))
  | _, _, [] => some []
  | 0, _, _ :: _ => none
  | fuel + 1, visited, (u, d) :: queue =>
    let new := if expands d then discover visited (next u) else []
    (search next expands fuel (visited ∪ new.toFinset) (queue ++ new.map (·, d + 1))).map ((u, d) :: ·)

/-- The first node in the queue is left, and its new neighbors are queued if its level expands. -/
theorem search_expand {l : List (V × Nat)}
    (h : search next expands (fuel + 1) visited ((u, d) :: queue) = some l) (hd : expands d) :
    ∃ l', l = (u, d) :: l' ∧ search next expands fuel
      (visited ∪ (discover visited (next u)).toFinset)
      (queue ++ (discover visited (next u)).map (·, d + 1)) = some l' := by
  obtain ⟨l', hl', rfl⟩ := Option.map_eq_some_iff.mp h
  rw [if_pos hd] at hl'
  exact ⟨l', rfl, hl'⟩

theorem search_skip {l : List (V × Nat)}
    (h : search next expands (fuel + 1) visited ((u, d) :: queue) = some l) (hd : ¬ expands d) :
    ∃ l', l = (u, d) :: l' ∧ search next expands fuel visited queue = some l' := by
  obtain ⟨l', hl', rfl⟩ := Option.map_eq_some_iff.mp h
  rw [if_neg hd, List.toFinset_nil, Finset.union_empty, List.map_nil, List.append_nil] at hl'
  exact ⟨l', rfl, hl'⟩

/-- The first of the queue is left, and its new neighbors are queued if its level expands. -/
theorem SearchInv.leave (h : SearchInv next expands start done ((u, d) :: queue))
    (hvisited : ∀ v, v ∈ visited ↔ v ∈ (done ++ (u, d) :: queue).map Prod.fst) {new : List V}
    (hnew : new = if expands d then discover visited (next u) else []) :
    SearchInv next expands start (done ++ [(u, d)]) (queue ++ new.map (·, d + 1)) ∧
      ∀ v, v ∈ visited ∪ new.toFinset ↔
        v ∈ (done ++ [(u, d)] ++ (queue ++ new.map (·, d + 1))).map Prod.fst := by
  have hmem : ∀ w, w ∈ new ↔ (expands d ∧ ∃ y ∈ [(u, d)], w ∈ next y.1) ∧
      w ∉ (done ++ (u, d) :: queue).map Prod.fst := by
    intro w
    rw [← hvisited, hnew]
    by_cases he : expands d
    · simp [he, mem_discover]
    · simp [he]
  have hnodup : new.Nodup := by
    rw [hnew]
    split
    · exact nodup_discover
    · exact List.nodup_nil
  have h' : SearchInv next expands start done ((u, d) :: [] ++ queue) := h
  refine ⟨h'.expand (by simp) hnodup hmem, fun v => ?_⟩
  rw [Finset.mem_union, hvisited]
  simp [or_assoc]

/-- With fuel for every node the search ends, and it has met the nodes within its levels. -/
theorem search_run (h : SearchInv next expands start done queue)
    (hvisited : ∀ v, v ∈ visited ↔ v ∈ (done ++ queue).map Prod.fst)
    (hbound : ∀ l : List V, l.Nodup → l.length ≤ bound) (hfuel : bound < fuel + done.length) :
    ∃ l, search next expands fuel visited queue = some l ∧ SearchInv next expands start (done ++ l) [] := by
  induction fuel generalizing visited done queue with
  | zero =>
    have hlen := hbound _ h.nodup
    rw [List.length_map, List.length_append] at hlen
    omega
  | succ fuel ih =>
    cases queue with
    | nil => exact ⟨[], rfl, by simpa using h⟩
    | cons x queue =>
      obtain ⟨u, d⟩ := x
      obtain ⟨hnext, hvisited'⟩ := h.leave hvisited rfl
      obtain ⟨l, hl, hinv⟩ := ih hnext hvisited' (by simp; omega)
      refine ⟨(u, d) :: l, ?_, by simpa using hinv⟩
      rw [search]
      exact (congrArg (Option.map _) hl).trans rfl

/-- The search from one node. -/
theorem search_found (start : V) (hbound : ∀ l : List V, l.Nodup → l.length ≤ bound)
    (hfuel : bound < fuel) :
    ∃ l, search next expands fuel {start} [(start, 0)] = some l ∧ (l.map Prod.fst).Nodup ∧
      ∀ v d, (v, d) ∈ l ↔ Found next expands start v d := by
  have hvisited : ∀ v, v ∈ ({start} : Finset V) ↔ v ∈ ([] ++ [(start, 0)]).map Prod.fst := by simp
  have hinit : SearchInv next expands start [] [(start, 0)] := .init
  obtain ⟨l, hl, hinv⟩ := search_run hinit hvisited hbound (by simpa using hfuel)
  rw [List.nil_append] at hinv
  exact ⟨l, hl, by simpa using hinv.nodup, fun v d => hinv.found⟩

end Queue

end SqliteGraph.Lib
