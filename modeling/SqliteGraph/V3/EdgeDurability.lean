import SqliteGraph.V3.BTreeMap
import SqliteGraph.V3.EdgeSession

/-! The edge store over whole runs with flushes and reopens, and when no edge gets lost. -/
namespace SqliteGraph.V3
open Lib

namespace EdgeSession

def exec (fuel : Nat) : EdgeOp → SessionM Unit
  | .insert src dst dir edgeType => onStore (V3EdgeStore.insertEdge fuel src dst dir edgeType)
  | .neighbors src dir => do
    let _ ← onStore (V3EdgeStore.neighbors fuel src dir)
    pure ()
  | .flush => onStore V3EdgeStore.flush
  | .reopen => reopen

def run (fuel : Nat) : List EdgeOp → SessionM Unit
  | [] => pure ()
  | op :: ops => do
    exec fuel op
    run fuel ops

end EdgeSession

section Run
variable {x : EdgeSession} {m : EdgeTable}

/-- One operation does to the session what it does to the table. -/
theorem SessionSim.exec (h : SessionSim x m) {op : EdgeOp} (hallow : m.Allows op) :
    StoreM.Settles PagesExhausted (fun fuel => EdgeSession.exec fuel op) x
      fun _ x' => SessionSim x' (m.apply op) := by
  obtain ⟨page, es, ps, hs⟩ := h.store
  cases op with
  | insert src dst dir edgeType =>
    exact h.onStore (hs.insertEdge hallow) fun _ => V3EdgeStore.insertEdge_keeps
  | neighbors src dir =>
    have hquery : StoreM.Settles PagesExhausted (fun fuel => V3EdgeStore.neighbors fuel src dir)
        x.state fun _ s' => Holds s' (m.query (src, dir)) :=
      (hs.neighbors hallow).mono fun r s' hr => ⟨page, es, ps, hr.2⟩
    refine (h.onStore hquery fun _ => V3EdgeStore.neighbors_keeps).bind ?_
    rintro - x' h'
    exact .of_run (a := ()) rfl h'
  | flush => exact h.flush
  | reopen => exact h.reopen

/-- The same over a run. -/
theorem SessionSim.run {ops : List EdgeOp} (h : SessionSim x m) (hallow : m.AllowsRun ops) :
    StoreM.Settles PagesExhausted (fun fuel => EdgeSession.run fuel ops) x
      fun _ x' => SessionSim x' (m.run ops) := by
  induction ops generalizing x m with
  | nil => exact .of_run (a := ()) rfl h
  | cons op ops ih =>
    refine (h.exec hallow.1).bind ?_
    rintro - x' h'
    exact ih h' hallow.2

theorem sessionSim_create (choices cacheChoices : Nat → Nat) :
    SessionSim (.create defaultPageSize choices cacheChoices) .empty where
  store := by
    refine ⟨fun _ => 0, [], [], ⟨⟨⟨Nat.zero_le _, rfl, ?_, ?_, ?_, ?_, ?_, ?_, ?_⟩, ?_, ?_, ?_⟩,
      fun _ => rfl, fun _ => rfl, .inr ⟨rfl, rfl⟩⟩⟩
    · simp [EdgeTable.Known, EdgeTable.empty]
    · simp [EdgeTable.Known, EdgeTable.empty]
    · intro q p hq
      cases hq
    · intro k edges hk
      cases hk
    · intro k edges hk
      cases hk
    · simp [EdgeTable.Known, EdgeTable.empty]
    · simp [EdgeTable.empty]
    · exact emptyTree_inv _ _ _ _
    · simp [EdgeTable.empty]
    · intro key p hp
      cases hp
  header := ⟨0, 0, rfl, by decide⟩
  sidecar _ := rfl

end Run

namespace EdgeTable

/-- What was inserted for a pair: the distinct destinations, in first-insertion order. -/
def inserted (ops : List EdgeOp) (k : EdgeKey) : List Int64 :=
  ops.foldl (fun dsts op =>
    match op with
    | .insert src dst dir _ => if (src, dir) = k then appendNew dsts dst else dsts
    | _ => dsts) []

/-- An insertion that the next flush will not lose or double: the pair has no stored cluster, and
its pending cluster does not have the destination. -/
def KeepsEdges (m : EdgeTable) : EdgeOp → Prop
  | .insert src dst dir edgeType => m.Allows (.insert src dst dir edgeType) ∧
      m.stored (src, dir) = none ∧ dst ∉ ((m.pending (src, dir)).getD []).map Prod.fst
  | op => m.Allows op

def KeepsEdgesRun (m : EdgeTable) : List EdgeOp → Prop
  | [] => True
  | op :: ops => m.KeepsEdges op ∧ (m.apply op).KeepsEdgesRun ops

instance instDecidableKeepsEdges (m : EdgeTable) (op : EdgeOp) : Decidable (m.KeepsEdges op) :=
  match op with
  | .insert src dst dir edgeType =>
    inferInstanceAs (Decidable (m.Allows (.insert src dst dir edgeType) ∧
      m.stored (src, dir) = none ∧ dst ∉ ((m.pending (src, dir)).getD []).map Prod.fst))
  | .neighbors src dir => inferInstanceAs (Decidable (m.Allows (.neighbors src dir)))
  | .flush => inferInstanceAs (Decidable (m.Allows .flush))
  | .reopen => inferInstanceAs (Decidable (m.Allows .reopen))

instance instDecidableKeepsEdgesRun (m : EdgeTable) (ops : List EdgeOp) :
    Decidable (m.KeepsEdgesRun ops) :=
  match ops with
  | [] => inferInstanceAs (Decidable True)
  | op :: ops =>
    have := instDecidableKeepsEdgesRun (m.apply op) ops
    inferInstanceAs (Decidable (m.KeepsEdges op ∧ (m.apply op).KeepsEdgesRun ops))

variable {m : EdgeTable} {dsts : EdgeKey → List Int64} {op : EdgeOp} {ops : List EdgeOp}

theorem KeepsEdges.allows (h : m.KeepsEdges op) : m.Allows op := by
  cases op with
  | insert => exact h.1
  | neighbors => exact h
  | flush => exact h
  | reopen => exact h

theorem KeepsEdgesRun.allowsRun (h : m.KeepsEdgesRun ops) : m.AllowsRun ops := by
  induction ops generalizing m with
  | nil => trivial
  | cons op ops ih => exact ⟨h.1.allows, ih h.2⟩

/-- The three tables agree on the destinations of one pair: a pending cluster has them all, and so
has a stored one once nothing is pending. -/
structure PairHolds (c : Option (List Int64)) (p s : Option (List EdgeItem))
    (dsts : List Int64) : Prop where
  pending : ∀ edges, p = some edges → edges.map Prod.fst = dsts ∧ s = none ∧ c = some dsts
  stored : ∀ edges, s = some edges → edges.map Prod.fst = dsts
  absent : p = none → s = none → dsts = []
  cached : ∀ ns, c = some ns → ns = dsts

/-- The tables hold the destinations `dsts` of every pair. -/
def Tracks (m : EdgeTable) (dsts : EdgeKey → List Int64) : Prop :=
  ∀ k, PairHolds (m.cached k) (m.pending k) (m.stored k) (dsts k)

theorem tracks_empty : Tracks .empty fun _ => [] := fun _ =>
  ⟨by simp [empty], by simp [empty], fun _ _ => rfl, by simp [empty]⟩

theorem Tracks.storedDsts (h : m.Tracks dsts) {k : EdgeKey} (hp : m.pending k = none) :
    m.storedDsts k = dsts k := by
  unfold EdgeTable.storedDsts
  cases hs : m.stored k with
  | none => exact ((h k).absent hp hs).symm
  | some edges => exact (h k).stored edges hs

theorem Tracks.answer (h : m.Tracks dsts) (k : EdgeKey) : m.answer k = dsts k := by
  unfold EdgeTable.answer
  cases hc : m.cached k with
  | some ns => exact (h k).cached ns hc
  | none =>
    refine h.storedDsts ?_
    cases hp : m.pending k with
    | none => rfl
    | some edges => cases hc.symm.trans ((h k).pending edges hp).2.2

theorem Tracks.insert (h : m.Tracks dsts) {k : EdgeKey} {e : EdgeItem} (hs : m.stored k = none)
    (he : e.1 ∉ ((m.pending k).getD []).map Prod.fst) :
    (m.insert k e).Tracks (Function.update dsts k (appendNew (dsts k) e.1)) := by
  obtain ⟨dst, edgeType⟩ := e
  intro k'
  by_cases hk : k' = k
  · subst hk
    simp only [EdgeTable.insert, Function.update_self, hs]
    cases hp : m.pending k' with
    | none =>
      have hnil := (h k').absent hp hs
      have hc : (m.cached k').getD [] = [] := by
        cases hc : m.cached k' with
        | none => rfl
        | some ns => exact ((h k').cached ns hc).trans hnil
      rw [hnil, hc]
      exact ⟨by simp [appendNew], by simp, by simp, by simp⟩
    | some edges =>
      obtain ⟨hd, -, hc⟩ := (h k').pending edges hp
      rw [hp, Option.getD_some, hd] at he
      rw [hc]
      exact ⟨by simp [appendNew, he, hd], by simp, by simp, by simp⟩
  · simpa only [EdgeTable.insert, Function.update_of_ne hk] using h k'

theorem Tracks.query (h : m.Tracks dsts) (k : EdgeKey) : (m.query k).Tracks dsts := by
  unfold EdgeTable.query
  split
  · rename_i hq
    intro k'
    by_cases hk : k' = k
    · subst hk
      have hp : m.pending k' = none := by
        cases hp : m.pending k' with
        | none => rfl
        | some edges => cases hq.1.symm.trans ((h k').pending edges hp).2.2
      simp only [Function.update_self, h.storedDsts hp]
      exact ⟨by simp [hp], (h k').stored, (h k').absent, by simp⟩
    · simpa only [Function.update_of_ne hk] using h k'
  · exact h

theorem Tracks.flush (h : m.Tracks dsts) : m.flush.Tracks dsts := by
  intro k
  simp only [EdgeTable.flush]
  cases hp : m.pending k with
  | none => exact ⟨by simp, by simpa using (h k).stored, by simpa using (h k).absent hp, (h k).cached⟩
  | some edges =>
    obtain ⟨hd, -, hc⟩ := (h k).pending edges hp
    exact ⟨by simp, by simp [hd], by simp, (h k).cached⟩

theorem Tracks.reopen (h : m.Tracks dsts) : m.reopen.Tracks dsts := by
  intro k
  obtain ⟨-, hstored, habsent, -⟩ := h.flush k
  exact ⟨by simp [EdgeTable.reopen, EdgeTable.flush], hstored, habsent, by simp [EdgeTable.reopen]⟩

/-- What one operation adds to the destinations of the pairs. -/
def extend (dsts : EdgeKey → List Int64) : EdgeOp → EdgeKey → List Int64
  | .insert src dst dir _ => Function.update dsts (src, dir) (appendNew (dsts (src, dir)) dst)
  | _ => dsts

theorem Tracks.apply (h : m.Tracks dsts) (hk : m.KeepsEdges op) :
    (m.apply op).Tracks (extend dsts op) := by
  cases op with
  | insert src dst dir edgeType => exact h.insert hk.2.1 hk.2.2
  | neighbors src dir => exact h.query _
  | flush => exact h.flush
  | reopen => exact h.reopen

theorem Tracks.run (h : m.Tracks dsts) (hk : m.KeepsEdgesRun ops) :
    (m.run ops).Tracks (ops.foldl extend dsts) := by
  induction ops generalizing m dsts with
  | nil => exact h
  | cons op ops ih => exact ih (h.apply hk.1) hk.2

theorem foldl_extend (k : EdgeKey) : ops.foldl extend (fun _ => []) k = inserted ops k := by
  suffices h : ∀ dsts : EdgeKey → List Int64, ops.foldl extend dsts k = ops.foldl (fun dsts op =>
      match op with
      | .insert src dst dir _ => if (src, dir) = k then appendNew dsts dst else dsts
      | _ => dsts) (dsts k) from h _
  induction ops with
  | nil => exact fun _ => rfl
  | cons op ops ih =>
    intro dsts
    rw [List.foldl_cons, ih, List.foldl_cons]
    congr 1
    cases op with
    | insert src dst dir edgeType =>
      by_cases he : (src, dir) = k
      · subst he
        simp [extend]
      · simp [extend, he, Function.update_of_ne (Ne.symm he)]
    | _ => rfl

end EdgeTable

/-- In every run whose insertions a flush will not lose or double, and whose clusters and keys fit
the format, queries always give what was inserted, before and after any flush or reopen. -/
theorem edge_store_durable (choices cacheChoices : Nat → Nat) {ops : List EdgeOp}
    (hops : EdgeTable.empty.KeepsEdgesRun ops) :
    StoreM.Settles PagesExhausted (fun fuel => EdgeSession.run fuel ops)
      (.create defaultPageSize choices cacheChoices) fun _ x =>
        ∀ src dir, (EdgeTable.empty.run ops).Apart (src, dir) →
          StoreM.Settles (fun _ => False) (fun fuel => V3EdgeStore.neighbors fuel src dir) x.state
            fun dsts _ => dsts = EdgeTable.inserted ops (src, dir) := by
  refine ((sessionSim_create choices cacheChoices).run hops.allowsRun).mono ?_
  rintro - x hx src dir hapart
  obtain ⟨page, es, ps, hs⟩ := hx.store
  refine (hs.neighbors hapart).mono ?_
  rintro dsts - ⟨rfl, -⟩
  rw [(EdgeTable.tracks_empty.run hops).answer, EdgeTable.foldl_extend]

/-- Two edges of one node, one flush and one reopen. -/
def twoEdges : List EdgeOp :=
  [.insert 1 2 .outgoing none, .insert 1 3 .outgoing (some "calls"), .flush, .reopen]

theorem edge_store_durable_twoEdges :
    StoreM.Settles PagesExhausted (fun fuel => EdgeSession.run fuel twoEdges)
      (.create defaultPageSize (fun _ => 0) fun _ => 0) fun _ x =>
        ∀ src dir, (EdgeTable.empty.run twoEdges).Apart (src, dir) →
          StoreM.Settles (fun _ => False) (fun fuel => V3EdgeStore.neighbors fuel src dir) x.state
            fun dsts _ => dsts = EdgeTable.inserted twoEdges (src, dir) :=
  edge_store_durable (fun _ => 0) (fun _ => 0) (by decide +kernel)

/-- The edge inserted after the flush replaces the cluster flushed before. -/
def lostEdge : List EdgeOp :=
  [.insert 1 2 .outgoing none, .flush, .insert 1 3 .outgoing none, .reopen]

theorem not_edge_store_durable :
    ((EdgeSession.run 20 lostEdge >>= fun _ =>
      EdgeSession.onStore (V3EdgeStore.neighbors 20 1 .outgoing))
        (.create defaultPageSize (fun _ => 0) fun _ => 0)).1.toOption = some [3] ∧
      EdgeTable.inserted lostEdge (1, .outgoing) = [2, 3] := by
  constructor
  · decide +kernel
  · decide

end SqliteGraph.V3
