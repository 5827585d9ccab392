import SqliteGraph.Lib.Search

/-! Breadth-first search for a path: the parents it records lead back along a shortest one. -/
namespace SqliteGraph.Lib
variable {V : Type} {next : V → List V} {start finish node u v w : V} {n d : Nat} {path : List V}

/-- The nodes of a path, each a neighbor of the one before. -/
structure IsPath (next : V → List V) (start finish : V) (path : List V) : Prop where
  head : path.head? = some start
  last : path.getLast? = some finish
  chain : path.IsChain fun u v => v ∈ next u

/-- A path exactly when the end can be reached, and then a shortest. -/
structure ShortestPath (next : V → List V) (start finish : V) (r : Option (List V)) : Prop where
  reachable : r.isSome ↔ Relation.ReflTransGen (fun u v => v ∈ next u) start finish
  isPath : ∀ path, r = some path → IsPath next start finish path
  least : ∀ path, r = some path → ∀ other, IsPath next start finish other →
    path.length ≤ other.length

theorem Walk.trans_path (h : Walk next start n u) (hp : IsPath next u v path) :
    Walk next start (n + (path.length - 1)) v := by
  induction path generalizing n u with
  | nil => cases hp.head
  | cons x rest ih =>
    obtain rfl : x = u := Option.some.inj hp.head
    cases rest with
    | nil =>
      obtain rfl : x = v := Option.some.inj hp.last
      exact h
    | cons y rest =>
      obtain ⟨hy, hchain⟩ := List.isChain_cons_cons.mp hp.chain
      have hrest := ih (h.step hy) ⟨rfl, by simpa using hp.last, hchain⟩
      simp only [List.length_cons, Nat.add_sub_cancel] at hrest ⊢
      rwa [show n + (rest.length + 1) = n + 1 + rest.length by omega]

theorem IsPath.walk (h : IsPath next start v path) : Walk next start (path.length - 1) v := by
  have hwalk := Walk.nil.trans_path h
  rwa [Nat.zero_add] at hwalk

theorem reachable_iff_walk : Relation.ReflTransGen (fun u v => v ∈ next u) start v ↔
    ∃ n, Walk next start n v := by
  constructor
  · intro h
    induction h with
    | refl => exact ⟨0, .nil⟩
    | tail _ hv ih =>
      obtain ⟨n, hn⟩ := ih
      exact ⟨n + 1, hn.step hv⟩
  · rintro ⟨n, h⟩
    induction h with
    | nil => exact .refl
    | step _ hv ih => exact ih.tail hv

section Congr
variable {next' : V → List V} {r : Option (List V)}

theorem IsPath.congr (hnext : ∀ u v, v ∈ next u → v ∈ next' u) (h : IsPath next start finish path) :
    IsPath next' start finish path :=
  ⟨h.head, h.last, h.chain.imp hnext⟩

/-- Only which nodes are neighbors matters. -/
theorem ShortestPath.congr (hnext : ∀ u v, v ∈ next u ↔ v ∈ next' u)
    (h : ShortestPath next start finish r) : ShortestPath next' start finish r where
  reachable := by
    have heq : (fun u v => v ∈ next u) = fun u v => v ∈ next' u :=
      funext₂ fun u v => propext (hnext u v)
    rw [← heq]
    exact h.reachable
  isPath path hr := (h.isPath path hr).congr fun u v => (hnext u v).mp
  least path hr other ho := h.least path hr other (ho.congr fun u v => (hnext u v).mpr)

end Congr

section Parents
variable [DecidableEq V] {parents parents' : List (V × V)}

/-- From a node back to the start, each the recorded parent of the one before. -/
inductive Traced (next : V → List V) (start : V) (parents : List (V × V)) : V → List V → Prop
  | start : Traced next start parents start [start]
  | step {u v : V} {path : List V} : v ≠ start → parents.lookup v = some u → v ∈ next u →
      Traced next start parents u path → Traced next start parents v (v :: path)

namespace Traced

theorem mono (h : Traced next start parents v path)
    (hp : ∀ w u, parents.lookup w = some u → parents'.lookup w = some u) :
    Traced next start parents' v path := by
  induction h with
  | start => exact .start
  | step hne hl hv _ ih => exact .step hne (hp _ _ hl) hv ih

theorem length_pos (h : Traced next start parents v path) : 0 < path.length := by
  cases h <;> simp

theorem head (h : Traced next start parents v path) : path.head? = some v := by
  cases h <;> rfl

theorem isPath (h : Traced next start parents v path) : IsPath next start v path.reverse := by
  induction h with
  | start => exact ⟨rfl, rfl, .singleton _⟩
  | @step u v path _ _ hv _ ih =>
    rw [List.reverse_cons]
    refine ⟨?_, by simp, ?_⟩
    · rw [List.head?_append, ih.head]
      rfl
    · apply ih.chain.append (.singleton _)
      intro x hx y hy
      rw [ih.last] at hx
      cases hx
      cases hy
      exact hv

/-- Each node on the way was reached before. -/
theorem walk_of_mem (h : Traced next start parents v path) (hw : w ∈ path) :
    ∃ m < path.length, Walk next start m w := by
  induction h with
  | start =>
    rw [List.mem_singleton.mp hw]
    exact ⟨0, by simp, .nil⟩
  | @step u v path _ _ hv htail ih =>
    rcases List.mem_cons.mp hw with rfl | hw
    · have hwalk := htail.isPath.walk
      have := htail.length_pos
      rw [List.length_reverse] at hwalk
      exact ⟨path.length - 1 + 1, by rw [List.length_cons]; omega, hwalk.step hv⟩
    · obtain ⟨m, hm, hwalk⟩ := ih hw
      exact ⟨m, Nat.lt_succ_of_lt hm, hwalk⟩

/-- The way back from a node that is this far is without repetitions. -/
theorem nodup (h : Traced next start parents v path)
    (hleast : ∀ n, Walk next start n v → path.length ≤ n + 1) : path.Nodup := by
  induction h with
  | start => simp
  | @step u v path _ _ hv htail ih =>
    refine List.nodup_cons.mpr ⟨fun hmem => ?_, ih fun n hn => ?_⟩
    · obtain ⟨m, hm, hwalk⟩ := htail.walk_of_mem hmem
      have := hleast m hwalk
      rw [List.length_cons] at this
      omega
    · have := hleast (n + 1) (hn.step hv)
      rw [List.length_cons] at this
      omega

/-- A way back as long as the distance is a shortest path. -/
theorem shortestPath (h : Traced next start parents v path)
    (hleast : ∀ n, Walk next start n v → path.length ≤ n + 1) :
    ShortestPath next start v (some path.reverse) where
  reachable := by
    simp only [Option.isSome_some, true_iff]
    exact reachable_iff_walk.mpr ⟨_, h.isPath.walk⟩
  isPath := by
    rintro _ ⟨⟩
    exact h.isPath
  least := by
    rintro _ ⟨⟩ other hp
    have hwalk := hleast _ hp.walk
    cases other with
    | nil => cases hp.head
    | cons x rest =>
      rw [List.length_reverse]
      simpa using hwalk

end Traced

/-- The state of a search for a path; the newest parents come first. -/
structure PathState (V : Type) [DecidableEq V] where
  seen : Finset V
  parents : List (V × V)
  queue : List V

/-- The neighbors of a node, up to the end of the path. -/
def scan (node finish : V) : List V → PathState V → Bool × PathState V
  | [], s => (false, s)
  | w :: ws, s =>
    if w ∈ s.seen then scan node finish ws s
    else
      let s := { s with seen := insert w s.seen, parents := (w, node) :: s.parents }
      if w = finish then (true, s) else scan node finish ws { s with queue := s.queue ++ [w] }

variable {s : PathState V} {ws : List V}

end Parents

end SqliteGraph.Lib
