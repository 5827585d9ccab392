import SqliteGraph.Lib.Search

/-! A queue search that hands keys on: every node ends with the least key that a walk brings to it. -/
namespace SqliteGraph.Lib

/-- A walk from one of the sources brings the key to the node. -/
inductive Brings {V K : Type} (next : V → List V) (step : K → K) (sources : List (V × K)) : V → K → Prop
  | source {v k} : (v, k) ∈ sources → Brings next step sources v k
  | step {u v k} : Brings next step sources u k → v ∈ next u → Brings next step sources v (step k)

variable {V K : Type} [LinearOrder K] {next : V → List V} {step : K → K} {sources : List (V × K)}
  {done queue : List (V × K)} {new : List V} {u v : V} {k : K}

/-- The nodes met so far with their keys: those of `done` have been left, those of `queue` are waiting,
the least key first. -/
structure KeyedInv (next : V → List V) (step : K → K) (sources : List (V × K))
    (done queue : List (V × K)) : Prop where
  nodup : ((done ++ queue).map Prod.fst).Nodup
  brought : ∀ x ∈ done ++ queue, Brings next step sources x.1 x.2
  sorted : queue.Pairwise fun x y => x.2 ≤ y.2
  window : ∀ x ∈ done ++ queue, ∀ y ∈ queue, x.2 ≤ step y.2
  met : ∀ x ∈ sources, ∃ k ≤ x.2, (x.1, k) ∈ done ++ queue
  left : ∀ x ∈ done, ∀ w ∈ next x.1, ∃ k ≤ step x.2, (w, k) ∈ done ++ queue

namespace KeyedInv

theorem init (hnodup : (sources.map Prod.fst).Nodup) (hsorted : sources.Pairwise fun x y => x.2 ≤ y.2)
    (hwindow : ∀ x ∈ sources, ∀ y ∈ sources, x.2 ≤ step y.2) :
    KeyedInv next step sources [] sources where
  nodup := hnodup
  brought x hx := .source hx
  sorted := hsorted
  window := hwindow
  met x hx := ⟨x.2, le_refl _, hx⟩
  left x hx := by cases hx

/-- The first node of the queue hands its key on to the neighbors that have none. -/
theorem expand (hmono : Monotone step) (hle : ∀ k, k ≤ step k)
    (h : KeyedInv next step sources done ((u, k) :: queue)) (hnew : new.Nodup)
    (hmem : ∀ w, w ∈ new ↔ w ∈ next u ∧ w ∉ (done ++ (u, k) :: queue).map Prod.fst) :
    KeyedInv next step sources (done ++ [(u, k)]) (queue ++ new.map fun w => (w, step k)) := by
  have hall : ∀ x, x ∈ done ++ [(u, k)] ++ (queue ++ new.map fun w => (w, step k)) ↔
      x ∈ done ++ (u, k) :: queue ∨ ∃ w ∈ new, (w, step k) = x := by
    intro x
    simp only [List.mem_append, List.mem_cons, List.mem_map]
    tauto
  have hhead : ∀ x ∈ done ++ (u, k) :: queue, x.2 ≤ step k := fun x hx =>
    h.window x hx (u, k) List.mem_cons_self
  obtain ⟨hfirst, hsorted⟩ := List.pairwise_cons.mp h.sorted
  refine ⟨?_, ?_, ?_, ?_, ?_, ?_⟩
  · have heq : (done ++ [(u, k)] ++ (queue ++ new.map fun w => (w, step k))).map Prod.fst =
        (done ++ (u, k) :: queue).map Prod.fst ++ new := by
      simp [Function.comp_def]
    rw [heq]
    refine List.nodup_append.mpr ⟨h.nodup, hnew, ?_⟩
    rintro v hv w hw rfl
    exact ((hmem v).mp hw).2 hv
  · intro x hx
    rcases (hall x).mp hx with hx | ⟨w, hw, rfl⟩
    · exact h.brought x hx
    · have hu : Brings next step sources u k := h.brought (u, k) (by simp)
      exact hu.step ((hmem w).mp hw).1
  · refine List.pairwise_append.mpr ⟨hsorted, ?_, ?_⟩
    · rw [List.pairwise_map]
      exact List.pairwise_of_forall fun _ _ => le_refl _
    · intro x hx y hy
      obtain ⟨w, -, rfl⟩ := List.mem_map.mp hy
      exact hhead x (by simp [hx])
  · intro x hx y hy
    have hy : y ∈ queue ∨ y.2 = step k := by
      rcases List.mem_append.mp hy with hy | hy
      · exact .inl hy
      · obtain ⟨w, -, rfl⟩ := List.mem_map.mp hy
        exact .inr rfl
    rcases (hall x).mp hx with hx | ⟨w, -, rfl⟩
    · rcases hy with hy | hy
      · exact h.window x hx y (List.mem_cons_of_mem _ hy)
      · rw [hy]
        exact (hhead x hx).trans (hle _)
    · rcases hy with hy | hy
      · exact hmono (hfirst y hy)
      · rw [hy]
        exact hle _
  · intro x hx
    obtain ⟨e, he, hin⟩ := h.met x hx
    exact ⟨e, he, (hall _).mpr (.inl hin)⟩
  · intro x hx w hw
    rcases List.mem_append.mp hx with hx | hx
    · obtain ⟨e, he, hin⟩ := h.left x hx w hw
      exact ⟨e, he, (hall _).mpr (.inl hin)⟩
    · obtain rfl := List.mem_singleton.mp hx
      by_cases hold : w ∈ (done ++ (u, k) :: queue).map Prod.fst
      · obtain ⟨y, hy, rfl⟩ := List.mem_map.mp hold
        exact ⟨y.2, hhead y hy, (hall _).mpr (.inl hy)⟩
      · exact ⟨step k, le_refl _, (hall _).mpr (.inr ⟨w, (hmem w).mpr ⟨hw, hold⟩, rfl⟩)⟩

/-- With nothing left to do, no walk brings less than what a node has. -/
theorem covers (hmono : Monotone step) (h : KeyedInv next step sources done [])
    (hb : Brings next step sources v k) : ∃ e ≤ k, (v, e) ∈ done := by
  induction hb with
  | source hs =>
    obtain ⟨e, he, hin⟩ := h.met _ hs
    exact ⟨e, he, by simpa using hin⟩
  | step _ hv ih =>
    obtain ⟨e, he, hin⟩ := ih
    obtain ⟨e', he', hin'⟩ := h.left _ hin _ hv
    exact ⟨e', he'.trans (hmono he), by simpa using hin'⟩

theorem least (hmono : Monotone step) (h : KeyedInv next step sources done []) :
    (v, k) ∈ done ↔ IsLeast {k | Brings next step sources v k} k := by
  have hnodup : (done.map Prod.fst).Nodup := by simpa using h.nodup
  have hbest : ∀ e, (v, e) ∈ done → IsLeast {k | Brings next step sources v k} e := by
    intro e hin
    refine ⟨h.brought (v, e) (by simpa using hin), ?_⟩
    intro e' hb
    obtain ⟨e'', he'', hin''⟩ := h.covers hmono hb
    have hsame : (v, e) = (v, e'') := List.inj_on_of_nodup_map hnodup hin hin'' rfl
    rw [(Prod.mk.inj hsame).2]
    exact he''
  refine ⟨hbest k, ?_⟩
  intro hk
  obtain ⟨e, -, hin⟩ := h.covers hmono hk.1
  rw [hk.unique (hbest e hin)]
  exact hin

end KeyedInv

end SqliteGraph.Lib
