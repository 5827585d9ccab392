import SqliteGraph.Hnsw.Layer
import SqliteGraph.Lib.BestFirst
import SqliteGraph.Lib.HashOrder
import SqliteGraph.Lib.Search

/-! The search for the nearest neighbors of a vector in one layer. -/
namespace SqliteGraph.Hnsw
open Lib

structure SearchCandidate (D : Type) where
  nodeId : Nat
  distance : D
  level : Nat

structure SearchMetrics where
  layersVisited : Nat := 0
  entryPointsConsidered : Nat := 0
  searchDepth : Nat := 0

structure SearchResult (D : Type) where
  neighbors : List Nat
  distances : List D
  candidatesExamined : Nat
  metrics : SearchMetrics

structure SearchState (D : Type) where
  candidates : List (SearchCandidate D)
  visited : Finset Nat
  resultSet : List (SearchCandidate D)
  candidatesExamined : Nat

section Sorting
variable {D : Type} [LinearOrder D]

/-- A stable sort by distance. -/
def sortByDistance (candidates : List (SearchCandidate D)) : List (SearchCandidate D) :=
  candidates.insertionSort fun a b => a.distance ≤ b.distance

/-- The sort of the results, by distance and then by id. -/
def sortByDistanceAndId (candidates : List (SearchCandidate D)) : List (SearchCandidate D) :=
  candidates.insertionSort fun a b =>
    a.distance < b.distance ∨ a.distance = b.distance ∧ a.nodeId ≤ b.nodeId

/-- The largest distance; `⊥` is the negative infinity that the fold starts from. -/
def worst (resultSet : List (SearchCandidate D)) : WithBot D :=
  (resultSet.map fun c => (c.distance : WithBot D)).foldl max ⊥

end Sorting

section Search
variable {F D : Type} [LinearOrder D] (distance : List F → List F → D) (layer : HnswLayer)
  (query : List F) (lookup : Nat → Option (List F)) (choices : Nat → Nat → Nat)

def computeDistance (target : List F) : Except HnswError D :=
  if query.length ≠ target.length then
    .error (.index (.vectorDimensionMismatch query.length target.length))
  else .ok (distance query target)

def entryCandidates : List Nat → List (SearchCandidate D) → Finset Nat →
    Except HnswError (List (SearchCandidate D) × Finset Nat)
  | [], candidates, visited => .ok (candidates, visited)
  | entryPoint :: rest, candidates, visited =>
    if layer.containsNode entryPoint then
      match lookup entryPoint with
      | none => .error (.index (.nodeNotFound entryPoint))
      | some vector => do
        let d ← computeDistance distance query vector
        entryCandidates rest (candidates ++ [⟨entryPoint, d, layer.level⟩]) (insert entryPoint visited)
    else entryCandidates rest candidates visited

/-- The loop over the connections of a candidate. -/
def expandNeighbors : List Nat → Finset Nat → List (SearchCandidate D) →
    Except HnswError (Finset Nat × List (SearchCandidate D))
  | [], visited, candidates => .ok (visited, candidates)
  | neighborId :: rest, visited, candidates =>
    if neighborId ∈ visited then expandNeighbors rest visited candidates
    else
      match lookup neighborId with
      | none => expandNeighbors rest (insert neighborId visited) candidates
      | some vector => do
        let d ← computeDistance distance query vector
        expandNeighbors rest (insert neighborId visited) (candidates ++ [⟨neighborId, d, layer.level⟩])

def expandCandidate (nodeId : Nat) (visited : Finset Nat) (candidates : List (SearchCandidate D)) :
    Except HnswError (Finset Nat × List (SearchCandidate D)) :=
  match layer.getConnections nodeId with
  | .ok connections =>
    expandNeighbors distance layer query lookup (drain (choices nodeId) connections) visited candidates
  | .error _ => .ok (visited, candidates)

def searchLoop (k : Nat) : Nat → SearchState D → Except HnswError (SearchState D)
  | 0, s => if s.candidates.isEmpty then .ok s else .error .outOfFuel
  | fuel + 1, s =>
    match sortByDistance s.candidates with
    | [] => .ok s
    | candidate :: rest =>
      if k ≤ s.resultSet.length ∧ worst s.resultSet < (candidate.distance : WithBot D) then
        .ok { s with candidates := rest, candidatesExamined := s.candidatesExamined + 1 }
      else do
        let resultSet := s.resultSet ++ [candidate]
        let (visited, candidates) ←
          expandCandidate distance layer query lookup choices candidate.nodeId s.visited rest
        searchLoop k fuel {
          candidates, visited
          resultSet := if k < resultSet.length then (sortByDistance resultSet).take k else resultSet
          candidatesExamined := s.candidatesExamined + 1 }

/-- More rounds than the search can take. -/
def searchRounds (entryPoints : List Nat) : Nat :=
  entryPoints.length + (layer.nodes.entries.map (·.2.length)).sum

def searchLayerFn (entryPoints : List Nat) (k : Nat) : Except HnswError (SearchResult D) :=
  if query.isEmpty then .error (.index .invalidSearchParameters)
  else if k = 0 then .ok ⟨[], [], 0, {}⟩
  else if entryPoints.isEmpty then .error (.index .invalidSearchParameters)
  else if layer.nodeCount = 0 then .error (.index .indexNotInitialized)
  else do
    let (candidates, visited) ← entryCandidates distance layer query lookup entryPoints [] ∅
    let s ← searchLoop distance layer query lookup choices k (searchRounds layer entryPoints)
      ⟨candidates, visited, [], 0⟩
    let resultSet := sortByDistanceAndId s.resultSet
    return {
      neighbors := resultSet.map (·.nodeId)
      distances := resultSet.map (·.distance)
      candidatesExamined := s.candidatesExamined
      metrics := { entryPointsConsidered := entryPoints.length, searchDepth := s.visited.card } }

end Search

/-- A connection of the layer. -/
def HnswLayer.Links (layer : HnswLayer) (u v : Nat) : Prop := v ∈ layer.linked u

/-- The ids that the layer speaks of. -/
def HnswLayer.Mentions (layer : HnswLayer) (n : Nat) : Prop :=
  n ∈ layer.nodes ∨ ∃ u, layer.Links u n

section Correctness
variable {F D : Type} [LinearOrder D] {distance : List F → List F → D} {layer : HnswLayer}
  {query : List F} {lookup : Nat → Option (List F)} {choices : Nat → Nat → Nat} {k fuel : Nat}
  {entryPoints ns : List Nat} {visited expanded : Finset Nat} {candidates : List (SearchCandidate D)}
  {s : SearchState D}

/-- Each id of the layer has a vector, as long as the query. -/
def GivesVectors (layer : HnswLayer) (query : List F) (lookup : Nat → Option (List F)) : Prop :=
  ∀ n, layer.Mentions n → ∃ vector, lookup n = some vector ∧ query.length = vector.length

/-- The distance of a node's vector. -/
def nodeDistance (distance : List F → List F → D) (query : List F) (lookup : Nat → Option (List F))
    (n : Nat) : D :=
  distance query ((lookup n).getD [])

/-- A candidate for each node. -/
def candidateOf (distance : List F → List F → D) (layer : HnswLayer) (query : List F)
    (lookup : Nat → Option (List F)) (n : Nat) : SearchCandidate D :=
  ⟨n, nodeDistance distance query lookup n, layer.level⟩

omit [LinearOrder D] in
theorem map_nodeId_candidateOf (l : List Nat) :
    (l.map (candidateOf distance layer query lookup)).map (·.nodeId) = l := by
  rw [List.map_map]
  exact List.map_id l

omit [LinearOrder D] in
theorem computeDistance_ok {n : Nat} {vector : List F} (hn : lookup n = some vector)
    (hlen : query.length = vector.length) :
    computeDistance distance query vector = .ok (nodeDistance distance query lookup n) := by
  rw [computeDistance, if_neg (not_not.mpr hlen), nodeDistance, hn, Option.getD_some]

omit [LinearOrder D] in
variable (distance) in
theorem entryCandidates_ok (hlookup : GivesVectors layer query lookup) (ns : List Nat)
    (candidates : List (SearchCandidate D)) (visited : Finset Nat) :
    entryCandidates distance layer query lookup ns candidates visited =
      .ok (candidates ++ (ns.filter layer.containsNode).map (candidateOf distance layer query lookup),
        visited ∪ (ns.filter layer.containsNode).toFinset) := by
  induction ns generalizing candidates visited with
  | nil => simp [entryCandidates]
  | cons n ns ih =>
    rw [entryCandidates]
    by_cases hn : layer.containsNode n = true
    · obtain ⟨vector, hvector, hlen⟩ := hlookup n (.inl (HnswLayer.containsNode_iff.mp hn))
      rw [if_pos hn, hvector, List.filter_cons_of_pos hn]
      simp only [bind, Except.bind, computeDistance_ok hvector hlen, ih]
      simp [candidateOf]
    · rw [if_neg hn, List.filter_cons_of_neg hn, ih]

omit [LinearOrder D] in
/-- The new neighbors become candidates, in their order. -/
theorem expandNeighbors_ok (hlookup : ∀ n ∈ ns, ∃ vector, lookup n = some vector ∧
      query.length = vector.length) (visited : Finset Nat) (candidates : List (SearchCandidate D)) :
    expandNeighbors distance layer query lookup ns visited candidates =
      .ok (visited ∪ (discover visited ns).toFinset,
        candidates ++ (discover visited ns).map (candidateOf distance layer query lookup)) := by
  induction ns generalizing visited candidates with
  | nil => simp [expandNeighbors, discover]
  | cons n ns ih =>
    obtain ⟨⟨vector, hvector, hlen⟩, hns⟩ := List.forall_mem_cons.mp hlookup
    rw [expandNeighbors, discover]
    by_cases hn : n ∈ visited
    · rw [if_pos hn, if_pos hn, ih hns]
    · rw [if_neg hn, if_neg hn, hvector]
      simp only [bind, Except.bind, computeDistance_ok hvector hlen, ih hns]
      simp [candidateOf]

omit [LinearOrder D] in
theorem expandCandidate_ok (hlookup : GivesVectors layer query lookup) (c : Nat) (visited : Finset Nat)
    (candidates : List (SearchCandidate D)) :
    expandCandidate distance layer query lookup choices c visited candidates =
      .ok (visited ∪ (discover visited (drain (choices c) (layer.linked c))).toFinset, candidates ++
        (discover visited (drain (choices c) (layer.linked c))).map
          (candidateOf distance layer query lookup)) := by
  rw [expandCandidate, HnswLayer.getConnections]
  cases hc : layer.nodes.lookup c with
  | none =>
    have hnil : layer.linked c = [] := by rw [HnswLayer.linked, hc, Option.getD_none]
    simp [hnil, drain, drainLoop, discover]
  | some connections =>
    have hlinked : layer.linked c = connections := by rw [HnswLayer.linked, hc, Option.getD_some]
    rw [hlinked]
    apply expandNeighbors_ok
    intro n hn
    have hin : n ∈ layer.linked c := hlinked ▸ (drain_perm _ _).mem_iff.mp hn
    exact hlookup n (.inr ⟨c, hin⟩)

omit [LinearOrder D] in
theorem expandCandidate_map (hlookup : GivesVectors layer query lookup) (c : Nat) (visited : Finset Nat)
    (rest : List Nat) : expandCandidate distance layer query lookup choices
      (candidateOf distance layer query lookup c).nodeId visited
      (rest.map (candidateOf distance layer query lookup)) =
        .ok (visited ∪ (discover visited (drain (choices c) (layer.linked c))).toFinset,
          (rest ++ discover visited (drain (choices c) (layer.linked c))).map
            (candidateOf distance layer query lookup)) := by
  rw [List.map_append]
  exact expandCandidate_ok hlookup c visited _

/-- Ids, the nearest first. -/
def nearestFirst (dist : Nat → D) (ids : List Nat) : List Nat :=
  ids.insertionSort fun a b => dist a ≤ dist b

theorem nearestFirst_perm (dist : Nat → D) (ids : List Nat) : (nearestFirst dist ids).Perm ids :=
  List.perm_insertionSort _ _

theorem nearestFirst_sorted (dist : Nat → D) (ids : List Nat) :
    (nearestFirst dist ids).Pairwise fun a b => dist a ≤ dist b := by
  have : Std.Total fun a b => dist a ≤ dist b := ⟨fun _ _ => le_total _ _⟩
  have : IsTrans Nat fun a b => dist a ≤ dist b := ⟨fun _ _ _ => le_trans⟩
  exact List.pairwise_insertionSort _ _

theorem sortByDistance_map (ids : List Nat) :
    sortByDistance (ids.map (candidateOf distance layer query lookup)) =
      (nearestFirst (nodeDistance distance query lookup) ids).map
        (candidateOf distance layer query lookup) := by
  symm
  apply List.map_insertionSort
  intro a _ b _
  exact Iff.rfl

theorem worst_lt_iff {results : List Nat} {d : D} :
    worst (results.map (candidateOf distance layer query lookup)) < (d : WithBot D) ↔
      ∀ r ∈ results, nodeDistance distance query lookup r < d := by
  have hfold : ∀ (l : List (WithBot D)) (a x : WithBot D),
      l.foldl max a < x ↔ a < x ∧ ∀ b ∈ l, b < x := by
    intro l
    induction l with
    | nil => simp
    | cons b l ih =>
      intro a x
      rw [List.foldl_cons, ih, max_lt_iff, List.forall_mem_cons, and_assoc]
  rw [worst, hfold]
  simp [candidateOf]

/-- What the loop keeps: the candidates and results are those of a beam, and the beam's are visited. -/
structure Searching (distance : List F → List F → D) (layer : HnswLayer) (query : List F)
    (lookup : Nat → Option (List F)) (k : Nat) (S : Set Nat) (s : SearchState D) (expanded : Finset Nat)
    (ids results : List Nat) : Prop where
  candidates : s.candidates = ids.map (candidateOf distance layer query lookup)
  resultSet : s.resultSet = results.map (candidateOf distance layer query lookup)
  visited : ∀ v, v ∈ s.visited ↔ v ∈ expanded ∨ v ∈ ids
  beam : Beam layer.Links S (nodeDistance distance query lookup) k expanded results ids

theorem keepsNearest_prune {all : List Nat} (dist : Nat → D) (hnodup : all.Nodup) :
    KeepsNearest dist k all (if k < all.length then (nearestFirst dist all).take k else all) := by
  split
  · exact .take hnodup (nearestFirst_perm _ _) (nearestFirst_sorted _ _)
  · exact .of_le hnodup (by omega)

/-- One round: a candidate nearest to the query is expanded. -/
theorem Searching.expand {S : Set Nat} {ids results rest : List Nat} {c : Nat}
    (h : Searching distance layer query lookup k S s expanded ids results)
    (hperm : (c :: rest).Perm ids) (order : Nat → Nat) : ∃ results', Searching distance layer query lookup
      k S {
        candidates := (rest ++ discover s.visited (drain order (layer.linked c))).map
          (candidateOf distance layer query lookup)
        visited := s.visited ∪ (discover s.visited (drain order (layer.linked c))).toFinset
        resultSet :=
          if k < (s.resultSet ++ [candidateOf distance layer query lookup c]).length then
            (sortByDistance (s.resultSet ++ [candidateOf distance layer query lookup c])).take k
          else s.resultSet ++ [candidateOf distance layer query lookup c]
        candidatesExamined := s.candidatesExamined + 1 }
      (insert c expanded) (rest ++ discover s.visited (drain order (layer.linked c))) results' := by
  have hbeam := h.beam.perm hperm
  have hfresh : ∀ v, v ∈ discover s.visited (drain order (layer.linked c)) ↔
      layer.Links c v ∧ v ∉ expanded ∧ v ∉ c :: rest := by
    intro v
    rw [mem_discover, (drain_perm _ _).mem_iff, h.visited, not_or, hperm.mem_iff]
    exact Iff.rfl
  have hnodup : (results ++ [c]).Nodup := by
    rw [List.nodup_append']
    refine ⟨hbeam.nodup, List.nodup_singleton c, ?_⟩
    intro v hv hvc
    obtain rfl := List.mem_singleton.mp hvc
    exact hbeam.unexpanded v (.head _) (hbeam.found v hv)
  refine ⟨_, rfl, ?_, ?_, hbeam.expand hfresh (nodup_discover) (keepsNearest_prune _ hnodup)⟩
  · have happend : results.map (candidateOf distance layer query lookup) ++
        [candidateOf distance layer query lookup c] =
        (results ++ [c]).map (candidateOf distance layer query lookup) := by
      rw [List.map_append, List.map_singleton]
    simp only [h.resultSet, happend, List.length_map, sortByDistance_map, ← List.map_take]
    split <;> rfl
  · intro v
    have hmem := hperm.mem_iff (a := v)
    rw [List.mem_cons] at hmem
    rw [Finset.mem_union, h.visited, Finset.mem_insert, List.mem_append, List.mem_toFinset, ← hmem]
    tauto

variable (choices) in
theorem searchLoop_run {S : Set Nat} {ids results : List Nat} {nodes : Finset Nat}
    (hlookup : GivesVectors layer query lookup)
    (hnodes : ∀ v, ReachedFrom layer.Links S v → v ∈ nodes)
    (h : Searching distance layer query lookup k S s expanded ids results)
    (hfuel : nodes.card ≤ fuel + expanded.card) :
    ∃ s' results', searchLoop distance layer query lookup choices k fuel s = .ok s' ∧
      s'.resultSet = results'.map (candidateOf distance layer query lookup) ∧
      Nearest layer.Links S (nodeDistance distance query lookup) k results' := by
  induction fuel generalizing s expanded ids results with
  | zero =>
    cases ids with
    | nil =>
      refine ⟨s, results, ?_, h.resultSet, h.beam.nearest (by simp)⟩
      rw [searchLoop, h.candidates]
      rfl
    | cons c rest =>
      have := h.beam.card_lt hnodes
      omega
  | succ fuel ih =>
    have hperm := nearestFirst_perm (nodeDistance distance query lookup) ids
    have hsorted := nearestFirst_sorted (nodeDistance distance query lookup) ids
    rw [searchLoop, h.candidates, sortByDistance_map]
    cases hids : nearestFirst (nodeDistance distance query lookup) ids with
    | nil =>
      refine ⟨s, results, rfl, h.resultSet, h.beam.nearest ?_⟩
      intro v hv
      rw [← hperm.mem_iff, hids] at hv
      exact absurd hv List.not_mem_nil
    | cons c rest =>
      rw [hids] at hperm hsorted
      have hbeam := h.beam.perm hperm
      rw [List.map_cons]
      dsimp only
      by_cases hstop : k ≤ s.resultSet.length ∧
          worst s.resultSet < ((candidateOf distance layer query lookup c).distance : WithBot D)
      · refine ⟨_, results, if_pos hstop, h.resultSet, hbeam.nearest ?_⟩
        obtain ⟨hlen, hworst⟩ := hstop
        rw [h.resultSet, List.length_map] at hlen
        rw [h.resultSet, worst_lt_iff] at hworst
        intro v hv
        refine ⟨le_antisymm hbeam.bounded hlen, fun r hr => (hworst r hr).le.trans ?_⟩
        rcases List.mem_cons.mp hv with rfl | hv
        · exact le_rfl
        · exact (List.pairwise_cons.mp hsorted).1 v hv
      · obtain ⟨results', hnext⟩ := h.expand hperm (choices c)
        have hcard : (insert c expanded).card = expanded.card + 1 :=
          Finset.card_insert_of_notMem (hbeam.unexpanded c (.head _))
        obtain ⟨s', found, hrun, hfound, hnearest⟩ := ih hnext (by omega)
        refine ⟨s', found, ?_, hfound, hnearest⟩
        rw [if_neg hstop, expandCandidate_map hlookup]
        exact hrun

/-- The ids that connections lead to. -/
def targets (layer : HnswLayer) : Finset Nat := (layer.nodes.entries.flatMap (·.2)).toFinset

theorem mem_targets {u v : Nat} (h : layer.Links u v) : v ∈ targets layer := by
  obtain ⟨connections, hlookup⟩ := Option.isSome_iff_exists.mp
    (AList.lookup_isSome.mpr (HnswLayer.mem_of_linked h))
  rw [HnswLayer.Links, HnswLayer.linked, hlookup, Option.getD_some] at h
  rw [targets, List.mem_toFinset, List.mem_flatMap]
  exact ⟨⟨u, connections⟩, AList.mem_lookup_iff.mp hlookup, h⟩

theorem card_targets : (targets layer).card ≤ (layer.nodes.entries.map (·.2.length)).sum := by
  refine (List.toFinset_card_le _).trans ?_
  rw [List.length_flatMap]

/-- The ids that a search can meet. -/
def searched (layer : HnswLayer) (entryPoints : List Nat) : Finset Nat :=
  entryPoints.toFinset ∪ targets layer

theorem mem_searched {v : Nat} (h : ReachedFrom layer.Links {e | e ∈ entryPoints} v) :
    v ∈ searched layer entryPoints := by
  obtain ⟨e, he, hreached⟩ := h
  rw [searched, Finset.mem_union]
  cases hreached with
  | refl => exact .inl (List.mem_toFinset.mpr he)
  | tail _ hv => exact .inr (mem_targets hv)

theorem card_searched : (searched layer entryPoints).card ≤ searchRounds layer entryPoints :=
  (Finset.card_union_le _ _).trans (Nat.add_le_add (List.toFinset_card_le _) card_targets)

/-- The order of the results. -/
def Ascending (dist : Nat → D) (ids : List Nat) : Prop :=
  ids.Pairwise fun a b => dist a < dist b ∨ dist a = dist b ∧ a < b

/-- The results in the order of their distances and ids. -/
def resultOrder (dist : Nat → D) (ids : List Nat) : List Nat :=
  ids.insertionSort fun a b => dist a < dist b ∨ dist a = dist b ∧ a ≤ b

theorem resultOrder_perm (dist : Nat → D) (ids : List Nat) : (resultOrder dist ids).Perm ids :=
  List.perm_insertionSort _ _

theorem resultOrder_ascending {dist : Nat → D} {ids : List Nat} (hnodup : ids.Nodup) :
    Ascending dist (resultOrder dist ids) := by
  have hle : ∀ a b, (dist a < dist b ∨ dist a = dist b ∧ a ≤ b) ↔ toLex (dist a, a) ≤ toLex (dist b, b) :=
    fun a b => (Prod.Lex.toLex_le_toLex (x := (dist a, a)) (y := (dist b, b))).symm
  have : Std.Total fun a b => dist a < dist b ∨ dist a = dist b ∧ a ≤ b :=
    ⟨fun a b => by simpa only [hle] using le_total _ _⟩
  have : IsTrans Nat fun a b => dist a < dist b ∨ dist a = dist b ∧ a ≤ b :=
    ⟨fun a b c hab hbc => by simpa only [hle] using ((hle a b).mp hab).trans ((hle b c).mp hbc)⟩
  have hsorted : (resultOrder dist ids).Pairwise fun a b => dist a < dist b ∨ dist a = dist b ∧ a ≤ b :=
    List.pairwise_insertionSort _ _
  refine hsorted.imp₂ ?_ ((resultOrder_perm dist ids).nodup_iff.mpr hnodup)
  rintro a b (hlt | ⟨heq, hab⟩) hne
  · exact .inl hlt
  · exact .inr ⟨heq, lt_of_le_of_ne hab hne⟩

theorem sortByDistanceAndId_map (ids : List Nat) :
    sortByDistanceAndId (ids.map (candidateOf distance layer query lookup)) =
      (resultOrder (nodeDistance distance query lookup) ids).map
        (candidateOf distance layer query lookup) := by
  symm
  apply List.map_insertionSort
  intro a _ b _
  exact Iff.rfl

/-- The search ends with the nearest of what the entry points lead to. -/
def FindsNearest (distance : List F → List F → D) (layer : HnswLayer) (query : List F)
    (lookup : Nat → Option (List F)) (choices : Nat → Nat → Nat) (entryPoints : List Nat) (k : Nat) :
    Prop :=
  ∃ result, searchLayerFn distance layer query lookup choices entryPoints k = .ok result ∧
    Nearest layer.Links {e | e ∈ entryPoints} (nodeDistance distance query lookup) k result.neighbors ∧
    Ascending (nodeDistance distance query lookup) result.neighbors ∧
    result.distances = result.neighbors.map (nodeDistance distance query lookup) ∧
    ({v | ReachedFrom layer.Links {e | e ∈ entryPoints} v}.encard ≤ k →
      ∀ v, v ∈ result.neighbors ↔ ReachedFrom layer.Links {e | e ∈ entryPoints} v)

theorem searchLayerFn_findsNearest (hquery : query ≠ []) (hlookup : GivesVectors layer query lookup)
    (hentries : entryPoints ≠ []) (hnodup : entryPoints.Nodup)
    (hin : ∀ e ∈ entryPoints, e ∈ layer.nodes) (hk : 1 ≤ k) :
    FindsNearest distance layer query lookup choices entryPoints k := by
  have hcount : layer.nodeCount ≠ 0 := by
    obtain ⟨e, he⟩ := List.exists_mem_of_ne_nil _ hentries
    have hkey : e ∈ layer.nodes.entries.map Sigma.fst := AList.mem_keys.mp (hin e he)
    intro hzero
    rw [List.eq_nil_of_length_eq_zero hzero] at hkey
    exact List.not_mem_nil hkey
  have hbeam : Beam layer.Links {e | e ∈ entryPoints} (nodeDistance distance query lookup) k ∅ []
      entryPoints := .init hnodup fun _ => Iff.rfl
  have hinit : Searching distance layer query lookup k {e | e ∈ entryPoints}
      ⟨entryPoints.map (candidateOf distance layer query lookup), entryPoints.toFinset, [], 0⟩ ∅ entryPoints
      [] := ⟨rfl, rfl, by simp, hbeam⟩
  have hfuel : (searched layer entryPoints).card ≤
      searchRounds layer entryPoints + (∅ : Finset Nat).card := by
    rw [Finset.card_empty]
    exact card_searched
  obtain ⟨s, results, hrun, hresults, hnearest⟩ := searchLoop_run choices hlookup (fun v => mem_searched)
    hinit hfuel
  have hperm := resultOrder_perm (nodeDistance distance query lookup) results
  have hentry := entryCandidates_ok distance hlookup entryPoints [] ∅
  have hall : entryPoints.filter layer.containsNode = entryPoints :=
    List.filter_eq_self.mpr fun e he => HnswLayer.containsNode_iff.mpr (hin e he)
  rw [hall, List.nil_append, Finset.empty_union] at hentry
  have hresult : ∃ result, searchLayerFn distance layer query lookup choices entryPoints k = .ok result ∧
      result.neighbors = resultOrder (nodeDistance distance query lookup) results ∧
      result.distances = result.neighbors.map (nodeDistance distance query lookup) := by
    rw [searchLayerFn, if_neg (by simpa using hquery), if_neg (by omega), if_neg (by simpa using hentries),
      if_neg hcount, hentry]
    simp only [bind, Except.bind, hrun, hresults, sortByDistanceAndId_map]
    refine ⟨_, rfl, map_nodeId_candidateOf _, ?_⟩
    simp only [List.map_map]
    rfl
  obtain ⟨result, hok, hneighbors, hdistances⟩ := hresult
  have hfound := hnearest.perm hperm
  rw [← hneighbors] at hfound
  refine ⟨result, hok, hfound, ?_, hdistances, fun hk v => hfound.exact hk⟩
  rw [hneighbors]
  exact resultOrder_ascending hnearest.nodup

section Total

variable (choices k s) in
/-- Each round uses up a candidate, and a new candidate has not been visited before. -/
theorem searchLoop_total {ids : List Nat} (hlookup : GivesVectors layer query lookup)
    (hcandidates : s.candidates = ids.map (candidateOf distance layer query lookup))
    (hfuel : ids.length + (targets layer \ s.visited).card ≤ fuel) :
    ∃ s', searchLoop distance layer query lookup choices k fuel s = .ok s' := by
  induction fuel generalizing s ids with
  | zero =>
    obtain rfl : ids = [] := List.eq_nil_of_length_eq_zero (by omega)
    refine ⟨s, ?_⟩
    rw [searchLoop, hcandidates]
    rfl
  | succ fuel ih =>
    rw [searchLoop, hcandidates, sortByDistance_map]
    have hlen := (nearestFirst_perm (nodeDistance distance query lookup) ids).length_eq
    cases hids : nearestFirst (nodeDistance distance query lookup) ids with
    | nil => exact ⟨s, rfl⟩
    | cons c rest =>
      rw [hids, List.length_cons] at hlen
      rw [List.map_cons]
      dsimp only
      split
      · exact ⟨_, rfl⟩
      · have hfresh : (discover s.visited (drain (choices c) (layer.linked c))).toFinset ⊆
            targets layer \ s.visited := by
          intro v hv
          obtain ⟨hlinked, hnew⟩ := mem_discover.mp (List.mem_toFinset.mp hv)
          exact Finset.mem_sdiff.mpr ⟨mem_targets ((drain_perm _ _).mem_iff.mp hlinked), hnew⟩
        have hcard := Finset.card_sdiff_add_card_eq_card hfresh
        rw [sdiff_sdiff_left, List.toFinset_card_of_nodup nodup_discover] at hcard
        rw [expandCandidate_map hlookup]
        apply ih _ rfl
        rw [Finset.sup_eq_union] at hcard
        rw [List.length_append]
        dsimp only
        omega

/-- A search among nodes with vectors does not fail, whatever entry points it starts from. -/
theorem searchLayerFn_total (hquery : query ≠ []) (hlookup : GivesVectors layer query lookup)
    (hcount : layer.nodeCount ≠ 0) (hentries : entryPoints ≠ []) :
    ∃ result, searchLayerFn distance layer query lookup choices entryPoints k = .ok result := by
  rw [searchLayerFn, if_neg (by simpa using hquery)]
  by_cases hk : k = 0
  · exact ⟨_, if_pos hk⟩
  · rw [if_neg hk, if_neg (by simpa using hentries), if_neg hcount,
      entryCandidates_ok distance hlookup entryPoints [] ∅]
    have hlen := List.length_filter_le layer.containsNode entryPoints
    have hunvisited : (targets layer \ (entryPoints.filter layer.containsNode).toFinset).card ≤
        (targets layer).card := Finset.card_le_card Finset.sdiff_subset
    have hfuel : (entryPoints.filter layer.containsNode).length +
        (targets layer \ (entryPoints.filter layer.containsNode).toFinset).card ≤
          searchRounds layer entryPoints := by
      rw [searchRounds]
      exact Nat.add_le_add hlen (hunvisited.trans card_targets)
    obtain ⟨s, hs⟩ := searchLoop_total choices k ⟨(entryPoints.filter layer.containsNode).map
      (candidateOf distance layer query lookup), (entryPoints.filter layer.containsNode).toFinset, [], 0⟩
      hlookup rfl hfuel
    simp only [bind, Except.bind, List.nil_append, Finset.empty_union, hs]
    exact ⟨_, rfl⟩

end Total

section Sound
variable {P : Nat → Prop}

omit [LinearOrder D] in
theorem entryCandidates_mem {found : List (SearchCandidate D) × Finset Nat}
    (hstart : ∀ e ∈ ns, e ∈ layer.nodes → P e) (hcandidates : ∀ c ∈ candidates, P c.nodeId)
    (hok : entryCandidates distance layer query lookup ns candidates visited = .ok found) :
    ∀ c ∈ found.1, P c.nodeId := by
  induction ns generalizing candidates visited with
  | nil =>
    cases hok
    exact hcandidates
  | cons n ns ih =>
    obtain ⟨hn, hns⟩ := List.forall_mem_cons.mp hstart
    rw [entryCandidates] at hok
    split at hok
    · rename_i hin
      split at hok
      · cases hok
      · rename_i vector _
        cases hd : computeDistance distance query vector with
        | error e =>
          simp only [hd, bind, Except.bind] at hok
          cases hok
        | ok d =>
          simp only [hd, bind, Except.bind] at hok
          refine ih hns ?_ hok
          intro c hc
          rcases List.mem_append.mp hc with hc | hc
          · exact hcandidates c hc
          · rw [List.mem_singleton.mp hc]
            exact hn (HnswLayer.containsNode_iff.mp hin)
    · exact ih hns hcandidates hok

omit [LinearOrder D] in
theorem expandNeighbors_mem {found : Finset Nat × List (SearchCandidate D)}
    (hns : ∀ n ∈ ns, P n) (hcandidates : ∀ c ∈ candidates, P c.nodeId)
    (hok : expandNeighbors distance layer query lookup ns visited candidates = .ok found) :
    ∀ c ∈ found.2, P c.nodeId := by
  induction ns generalizing candidates visited with
  | nil =>
    cases hok
    exact hcandidates
  | cons n ns ih =>
    obtain ⟨hn, hns⟩ := List.forall_mem_cons.mp hns
    rw [expandNeighbors] at hok
    split at hok
    · exact ih hns hcandidates hok
    · split at hok
      · exact ih hns hcandidates hok
      · rename_i vector _
        cases hd : computeDistance distance query vector with
        | error e =>
          simp only [hd, bind, Except.bind] at hok
          cases hok
        | ok d =>
          simp only [hd, bind, Except.bind] at hok
          refine ih hns ?_ hok
          intro c hc
          rcases List.mem_append.mp hc with hc | hc
          · exact hcandidates c hc
          · rw [List.mem_singleton.mp hc]
            exact hn

omit [LinearOrder D] in
theorem expandCandidate_mem {n : Nat} {found : Finset Nat × List (SearchCandidate D)}
    (hlinks : ∀ v, layer.Links n v → P v) (hcandidates : ∀ c ∈ candidates, P c.nodeId)
    (hok : expandCandidate distance layer query lookup choices n visited candidates = .ok found) :
    ∀ c ∈ found.2, P c.nodeId := by
  rw [expandCandidate, HnswLayer.getConnections] at hok
  cases hn : layer.nodes.lookup n with
  | none =>
    rw [hn] at hok
    cases hok
    exact hcandidates
  | some connections =>
    rw [hn] at hok
    refine expandNeighbors_mem (fun v hv => hlinks v ?_) hcandidates hok
    rw [HnswLayer.Links, HnswLayer.linked, hn, Option.getD_some]
    exact (drain_perm _ _).mem_iff.mp hv

theorem searchLoop_mem {s' : SearchState D} (hclosed : ∀ u v, P u → layer.Links u v → P v)
    (hcandidates : ∀ c ∈ s.candidates, P c.nodeId) (hresults : ∀ c ∈ s.resultSet, P c.nodeId)
    (hok : searchLoop distance layer query lookup choices k fuel s = .ok s') :
    ∀ c ∈ s'.resultSet, P c.nodeId := by
  induction fuel generalizing s with
  | zero =>
    rw [searchLoop] at hok
    split at hok
    · cases hok
      exact hresults
    · cases hok
  | succ fuel ih =>
    have hperm : (sortByDistance s.candidates).Perm s.candidates := List.perm_insertionSort _ _
    rw [searchLoop] at hok
    cases hsort : sortByDistance s.candidates with
    | nil =>
      rw [hsort] at hok
      cases hok
      exact hresults
    | cons candidate rest =>
      rw [hsort] at hok hperm
      have hsorted : ∀ c ∈ candidate :: rest, P c.nodeId :=
        fun c hc => hcandidates c (hperm.mem_iff.mp hc)
      obtain ⟨hcandidate, hrest⟩ := List.forall_mem_cons.mp hsorted
      dsimp only at hok
      split at hok
      · cases hok
        exact hresults
      · cases hexpand : expandCandidate distance layer query lookup choices candidate.nodeId s.visited
            rest with
        | error e =>
          simp only [hexpand, bind, Except.bind] at hok
          cases hok
        | ok found =>
          simp only [hexpand, bind, Except.bind] at hok
          refine ih (expandCandidate_mem (fun v => hclosed _ v hcandidate) hrest hexpand) ?_ hok
          have hadd : ∀ c ∈ s.resultSet ++ [candidate], P c.nodeId := by
            intro c hc
            rcases List.mem_append.mp hc with hc | hc
            · exact hresults c hc
            · rw [List.mem_singleton.mp hc]
              exact hcandidate
          intro c hc
          dsimp only at hc
          split at hc
          · exact hadd c ((List.perm_insertionSort _ _).mem_iff.mp (List.mem_of_mem_take hc))
          · exact hadd c hc

/-- A search stays within what is closed under connections and has its entry points. -/
theorem searchLayerFn_mem {result : SearchResult D} (hclosed : ∀ u v, P u → layer.Links u v → P v)
    (hstart : ∀ e ∈ entryPoints, e ∈ layer.nodes → P e)
    (hok : searchLayerFn distance layer query lookup choices entryPoints k = .ok result) :
    ∀ n ∈ result.neighbors, P n := by
  rw [searchLayerFn] at hok
  split at hok
  · cases hok
  split at hok
  · cases hok
    simp
  split at hok
  · cases hok
  split at hok
  · cases hok
  cases hentry : entryCandidates distance layer query lookup entryPoints [] ∅ with
  | error e =>
    simp only [hentry, bind, Except.bind] at hok
    cases hok
  | ok found =>
    cases hloop : searchLoop distance layer query lookup choices k (searchRounds layer entryPoints)
        ⟨found.1, found.2, [], 0⟩ with
    | error e =>
      simp only [hentry, hloop, bind, Except.bind] at hok
      cases hok
    | ok s =>
      simp only [hentry, hloop, bind, Except.bind] at hok
      cases hok
      intro n hn
      obtain ⟨c, hc, rfl⟩ := List.mem_map.mp hn
      have hmem : ∀ c ∈ s.resultSet, P c.nodeId :=
        searchLoop_mem hclosed (entryCandidates_mem hstart (by simp) hentry) (by simp) hloop
      exact hmem c ((List.perm_insertionSort _ _).mem_iff.mp hc)

end Sound

end Correctness

section Run

def closeness (u v : List Nat) : Nat := (u.sum - v.sum) + (v.sum - u.sum)

/-- Two nodes that are connected. -/
def pairLayer : HnswLayer :=
  ((HnswLayer.new 0 16).setConnections 1 [2]).setConnections 2 [1]

theorem searchLayerFn_findsNearest_pair :
    FindsNearest closeness pairLayer [0] (fun n => some [n]) (fun _ _ => 0) [2] 1 := by
  apply searchLayerFn_findsNearest
  · decide
  · exact fun n _ => ⟨[n], rfl, rfl⟩
  · decide
  · decide
  · decide
  · decide

/-- Without an entry point there is an error. -/
theorem not_findsNearest_nil : ¬ ∀ entryPoints : List Nat, entryPoints.Nodup →
    (∀ e ∈ entryPoints, e ∈ pairLayer.nodes) →
      FindsNearest closeness pairLayer [0] (fun n => some [n]) (fun _ _ => 0) entryPoints 1 := by
  intro h
  obtain ⟨result, hrun, -⟩ := h [] List.nodup_nil (by simp)
  have herror : searchLayerFn closeness pairLayer [0] (fun n => some [n]) (fun _ _ => 0) [] 1 =
      .error (.index .invalidSearchParameters) := rfl
  rw [herror] at hrun
  cases hrun

end Run

end SqliteGraph.Hnsw
