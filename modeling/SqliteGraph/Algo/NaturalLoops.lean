import SqliteGraph.Algo.Dominators
import SqliteGraph.Lib.Search

/-! Natural loops: the back edges, and the bodies against the nodes that lead to their tails. -/
namespace SqliteGraph.Algo
open Lib Sqlite

structure NaturalLoop where
  header : Int64
  backEdges : List (Int64 × Int64)
  body : Finset Int64

def NaturalLoop.allNodes (loop : NaturalLoop) : Finset Int64 := insert loop.header loop.body

structure NaturalLoopsResult where
  loops : Int64 → Option NaturalLoop

def NaturalLoopsResult.loopWithHeader (result : NaturalLoopsResult) (header : Int64) :
    Option NaturalLoop := result.loops header

def bodyLoop (t : Tables) (header : Int64) :
    Nat → Finset Int64 → Finset Int64 → List Int64 → Except SqliteGraphError (Finset Int64)
  | _, body, _, [] => .ok body
  | 0, _, _, _ :: _ => .error .outOfFuel
  | fuel + 1, body, visited, node :: queue =>
    if node = header then bodyLoop t header fuel body visited queue
    else
      let (visited, queue) :=
        (fetchOutgoing t node).foldl (visit fun queue succ => queue ++ [succ]) (visited, queue)
      bodyLoop t header fuel (insert node body) visited queue

def computeLoopBody (t : Tables) (header tail : Int64) : Except SqliteGraphError (Finset Int64) :=
  bodyLoop t header t.entities.length ∅ {tail} [tail]

def addBackEdge (t : Tables) (domResult : DominatorResult) (node : Int64)
    (result : NaturalLoopsResult) (target : Int64) : Except SqliteGraphError NaturalLoopsResult := do
  if domResult.dominates target node then
    if node = target then return result
    else
      let loop := (result.loops target).getD ⟨target, [], ∅⟩
      let body ← computeLoopBody t target node
      return ⟨Function.update result.loops target (some
        { loop with backEdges := loop.backEdges ++ [(node, target)], body := loop.body ∪ body })⟩
  else return result

/-- An edge between nodes that are not the header. -/
def Apart (t : Tables) (header u v : Int64) : Prop := Joined t u v ∧ u ≠ header ∧ v ≠ header

/-- A path that does not pass the header. -/
abbrev Avoids (t : Tables) (header : Int64) : Int64 → Int64 → Prop :=
  Relation.ReflTransGen (Apart t header)

section Body
variable {t : Tables} {g : FiniteGraph} {header tail node n u v : Int64} {body visited : Finset Int64}
  {queue : List Int64} {fuel : Nat}

/-- The search has left the nodes of the body, and knows where their successors are. -/
structure BodyInv (t : Tables) (header tail : Int64) (body visited : Finset Int64)
    (queue : List Int64) : Prop where
  start : tail ∈ visited
  reached : ∀ v ∈ visited, v ≠ header → Avoids t header tail v
  kept : ∀ v ∈ visited, v ≠ header → v ∈ body ∨ v ∈ queue
  inner : ∀ v ∈ body, v ≠ header ∧ v ∈ visited
  pending : ∀ v ∈ queue, v ∈ visited
  follows : ∀ v ∈ body, ∀ w, Joined t v w → w ∈ visited

namespace BodyInv

theorem init : BodyInv t header tail ∅ {tail} [tail] := by
  refine ⟨Finset.mem_singleton_self tail, ?_, by simp, by simp, by simp, by simp⟩
  intro v hv _
  rw [Finset.mem_singleton.mp hv]

theorem ends (h : BodyInv t header tail body visited []) (hne : tail ≠ header) :
    n ∈ body ↔ Avoids t header tail n := by
  constructor
  · intro hn
    obtain ⟨hne, hvisited⟩ := h.inner n hn
    exact h.reached n hvisited hne
  · intro hn
    induction hn with
    | refl => exact (h.kept tail h.start hne).resolve_right (by simp)
    | tail _ he ih =>
      exact (h.kept _ (h.follows _ ih _ he.1) he.2.2).resolve_right (by simp)

theorem skip (h : BodyInv t header tail body visited (header :: queue)) :
    BodyInv t header tail body visited queue := by
  refine ⟨h.start, h.reached, fun v hv hne => ?_, h.inner, fun v hv => h.pending v (.tail _ hv),
    h.follows⟩
  exact (h.kept v hv hne).imp_right fun hin => (List.mem_cons.mp hin).resolve_left hne

theorem expand (h : BodyInv t header tail body visited (node :: queue)) (hne : node ≠ header) :
    BodyInv t header tail (insert node body)
      (visited ∪ (discover visited (fetchOutgoing t node)).toFinset)
      (queue ++ discover visited (fetchOutgoing t node)) := by
  have hnode := h.pending node (.head _)
  have hold : ∀ v ∈ visited, v ∈ visited ∪ (discover visited (fetchOutgoing t node)).toFinset :=
    fun v hv => Finset.mem_union_left _ hv
  refine ⟨hold tail h.start, ?_, ?_, ?_, ?_, ?_⟩
  · intro v hv hv'
    rcases Finset.mem_union.mp hv with hv | hv
    · exact h.reached v hv hv'
    · have hv := (mem_discover.mp (List.mem_toFinset.mp hv)).1
      exact (h.reached node hnode hne).tail ⟨mem_fetchOutgoing.mp hv, hne, hv'⟩
  · intro v hv hv'
    rcases Finset.mem_union.mp hv with hv | hv
    · rcases h.kept v hv hv' with hbody | hqueue
      · exact .inl (Finset.mem_insert_of_mem hbody)
      · rcases List.mem_cons.mp hqueue with rfl | hqueue
        · exact .inl (Finset.mem_insert_self _ _)
        · exact .inr (List.mem_append_left _ hqueue)
    · exact .inr (List.mem_append_right _ (List.mem_toFinset.mp hv))
  · intro v hv
    rcases Finset.mem_insert.mp hv with rfl | hv
    · exact ⟨hne, hold v hnode⟩
    · exact ⟨(h.inner v hv).1, hold v (h.inner v hv).2⟩
  · intro v hv
    rcases List.mem_append.mp hv with hv | hv
    · exact hold v (h.pending v (.tail _ hv))
    · exact Finset.mem_union_right _ (List.mem_toFinset.mpr hv)
  · intro v hv w he
    rcases Finset.mem_insert.mp hv with rfl | hv
    · by_cases hw : w ∈ visited
      · exact hold w hw
      · exact Finset.mem_union_right _
          (List.mem_toFinset.mpr (mem_discover.mpr ⟨mem_fetchOutgoing.mpr he, hw⟩))
    · exact hold w (h.follows v hv w he)

end BodyInv

/-- What is still to be left. -/
theorem card_undiscovered (hsub : visited ⊆ g.entities.toFinset) :
    visited ∪ (discover visited (fetchOutgoing g.toTables node)).toFinset ⊆ g.entities.toFinset ∧
      (g.entities.toFinset \ (visited ∪
        (discover visited (fetchOutgoing g.toTables node)).toFinset)).card +
        (discover visited (fetchOutgoing g.toTables node)).length =
      (g.entities.toFinset \ visited).card := by
  have hnew : (discover visited (fetchOutgoing g.toTables node)).toFinset ⊆
      g.entities.toFinset \ visited := by
    intro v hv
    obtain ⟨hv, hnot⟩ := mem_discover.mp (List.mem_toFinset.mp hv)
    have hentity := (g.joined_mem (mem_fetchOutgoing.mp hv)).2
    exact Finset.mem_sdiff.mpr ⟨List.mem_toFinset.mpr hentity, hnot⟩
  refine ⟨Finset.union_subset hsub (hnew.trans Finset.sdiff_subset), ?_⟩
  rw [← Finset.sup_eq_union, ← sdiff_sdiff_left, ← List.toFinset_card_of_nodup nodup_discover]
  exact Finset.card_sdiff_add_card_eq_card hnew

theorem bodyLoop_run (h : BodyInv g.toTables header tail body visited queue) (hne : tail ≠ header)
    (hsub : visited ⊆ g.entities.toFinset)
    (hfuel : (g.entities.toFinset \ visited).card + queue.length ≤ fuel) :
    ∃ body', bodyLoop g.toTables header fuel body visited queue = .ok body' ∧
      ∀ n, n ∈ body' ↔ Avoids g.toTables header tail n := by
  induction fuel generalizing body visited queue with
  | zero =>
    cases queue with
    | nil => exact ⟨body, rfl, fun _ => h.ends hne⟩
    | cons node queue => simp at hfuel
  | succ fuel ih =>
    cases queue with
    | nil => exact ⟨body, rfl, fun _ => h.ends hne⟩
    | cons node queue =>
      rw [List.length_cons] at hfuel
      rw [bodyLoop]
      split
      · rename_i heq
        subst heq
        exact ih h.skip hsub (by omega)
      · rename_i hnode
        rw [foldl_visit, foldl_snoc, List.map_id']
        obtain ⟨hsub', hcard⟩ := card_undiscovered hsub
        refine ih (h.expand hnode) hsub' ?_
        rw [List.length_append]
        omega

theorem computeLoopBody_run (hne : tail ≠ header) (htail : tail ∈ g.entities) :
    ∃ body, computeLoopBody g.toTables header tail = .ok body ∧
      ∀ n, n ∈ body ↔ Avoids g.toTables header tail n := by
  have hsub : ({tail} : Finset Int64) ⊆ g.entities.toFinset :=
    Finset.singleton_subset_iff.mpr (List.mem_toFinset.mpr htail)
  refine bodyLoop_run .init hne hsub ?_
  have hcard := Finset.card_le_card hsub
  have hle := g.entities.toFinset_card_le
  rw [Finset.card_sdiff_of_subset hsub]
  simp only [Finset.card_singleton, List.length_singleton] at hcard ⊢
  omega

end Body

section Loops
variable {g : FiniteGraph} {domResult : DominatorResult} {result : NaturalLoopsResult}
  {P Q : Int64 → Int64 → Prop} {u v n header node target : Int64} {l : List Int64}

/-- The loop of the back edges to one header. -/
structure LoopOf (g : FiniteGraph) (P : Int64 → Int64 → Prop) (header : Int64) (loop : NaturalLoop) :
    Prop where
  header_eq : loop.header = header
  backEdges : ∀ u v, (u, v) ∈ loop.backEdges ↔ v = header ∧ P u header
  body : ∀ n, n ∈ loop.body ↔ ∃ u, P u header ∧ Avoids g.toTables header u n

/-- The loops of some back edges, given by tail and header. -/
structure LoopsOf (g : FiniteGraph) (P : Int64 → Int64 → Prop) (result : NaturalLoopsResult) :
    Prop where
  get : ∀ header loop, result.loops header = some loop → LoopOf g P header loop
  missing : ∀ header, result.loops header = none → ∀ u, ¬ P u header

theorem LoopsOf.congr (h : LoopsOf g P result) (hP : ∀ u v, P u v ↔ Q u v) : LoopsOf g Q result := by
  have heq : P = Q := funext fun u => funext fun v => propext (hP u v)
  exact heq ▸ h

theorem LoopsOf.empty : LoopsOf g (fun _ _ => False) ⟨fun _ => none⟩ := ⟨by simp, by simp⟩

/-- The loop of a header, which has no back edges yet if it is new. -/
theorem LoopsOf.getD (h : LoopsOf g P result) (header : Int64) :
    LoopOf g P header ((result.loops header).getD ⟨header, [], ∅⟩) := by
  cases hloop : result.loops header with
  | some loop => exact h.get header loop hloop
  | none =>
    have hnone := h.missing header hloop
    exact ⟨rfl, by simp [hnone], by simp [hnone]⟩

/-- The head of an edge dominates its tail, which is another node. -/
def BackEdge (domResult : DominatorResult) (u v : Int64) : Prop :=
  domResult.dominates v u = true ∧ u ≠ v

theorem LoopsOf.add (h : LoopsOf g P result) (domResult : DominatorResult)
    (hnode : node ∈ g.entities) (target : Int64) :
    ∃ result', addBackEdge g.toTables domResult node result target = .ok result' ∧
      LoopsOf g (fun u v => P u v ∨ u = node ∧ v = target ∧ BackEdge domResult u v) result' := by
  rw [addBackEdge]
  by_cases hdom : domResult.dominates target node = true
  · rw [if_pos hdom]
    by_cases hne : node = target
    · rw [if_pos hne]
      refine ⟨result, rfl, h.congr fun u v => (or_iff_left ?_).symm⟩
      rintro ⟨rfl, rfl, -, hnot⟩
      exact hnot hne
    · rw [if_neg hne]
      obtain ⟨body, hrun, hbody⟩ := computeLoopBody_run hne hnode
      obtain ⟨heq, hedges, hold⟩ := h.getD target
      dsimp only
      rw [hrun]
      have hback : BackEdge domResult node target := ⟨hdom, hne⟩
      refine ⟨_, rfl, fun header loop hloop => ?_, fun header hloop u => ?_⟩
      · dsimp only at hloop
        by_cases hheader : header = target
        · subst hheader
          rw [Function.update_self, Option.some.injEq] at hloop
          subst hloop
          refine ⟨heq, fun u v => ?_, fun n => ?_⟩
          · simp only [List.mem_append, hedges, List.mem_singleton, Prod.mk.injEq]
            grind
          · simp only [Finset.mem_union, hold, hbody]
            grind
        · rw [Function.update_of_ne hheader] at hloop
          obtain ⟨heq, hedges, hold⟩ := h.get header loop hloop
          exact ⟨heq, by simpa [hheader] using hedges, by simpa [hheader] using hold⟩
      · dsimp only at hloop
        have hheader : header ≠ target := by
          rintro rfl
          rw [Function.update_self] at hloop
          cases hloop
        rw [Function.update_of_ne hheader] at hloop
        simpa [hheader] using h.missing header hloop u
  · rw [if_neg hdom]
    refine ⟨result, rfl, h.congr fun u v => (or_iff_left ?_).symm⟩
    rintro ⟨rfl, rfl, hnot, -⟩
    exact hdom hnot

theorem LoopsOf.successors (h : LoopsOf g P result) (domResult : DominatorResult)
    (hnode : node ∈ g.entities) (l : List Int64) :
    ∃ result', l.foldlM (addBackEdge g.toTables domResult node) result = .ok result' ∧
      LoopsOf g (fun u v => P u v ∨ u = node ∧ v ∈ l ∧ BackEdge domResult u v) result' := by
  induction l generalizing P result with
  | nil => exact ⟨result, rfl, h.congr fun u v => by simp⟩
  | cons target l ih =>
    obtain ⟨first, hfirst, h⟩ := h.add domResult hnode target
    obtain ⟨result', hrun, h⟩ := ih h
    refine ⟨result', ?_, h.congr fun u v => ?_⟩
    · rw [List.foldlM_cons, hfirst]
      exact hrun
    · rw [List.mem_cons]
      grind

end Loops

section Correctness
variable {g : FiniteGraph} {domResult : DominatorResult} {result : NaturalLoopsResult} {entry u v : Int64}

end Correctness

end SqliteGraph.Algo
