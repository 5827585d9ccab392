import SqliteGraph.Algo.AutoExit

/-! The virtual exit does not show in the result, unless an entity has its id. -/
namespace SqliteGraph.Algo
open Lib Sqlite
variable {g : FiniteGraph} {v n m : Int64} {preds : PredecessorMap} {sets own : NodeSets}
  {choices : Int64 → Nat → Nat}

section Extraction
variable {strict l : List Int64} {best : Option Int64} {size size' : Nat}

def forget (v : Int64) (best : Option Int64) : Option Int64 := if best = some v then none else best

/-- The search of candidates finds the same without the virtual exit, which is its choice only where
there is no other. -/
theorem Carries.findImmediate (h : Carries g v sets own) (hv : v ∉ g.entities)
    (hl : ∀ n ∈ l, n = v ∨ n ∈ g.entities) (hsub : ∀ n ∈ l, n ∈ strict) {best' : Option Int64}
    (hnone : (∀ n ∈ strict, n = v) → best' = none)
    (hsize : size = 0 ∧ size' = 0 ∧ best = none ∧ best' = none ∨
      size = size' + 1 ∧ forget v best = best') :
    forget v (findImmediate sets strict l best size) =
      findImmediate own (strict.filter (· ≠ v)) (l.filter (· ≠ v)) best' size' := by
  induction l generalizing best best' size size' with
  | nil =>
    rcases hsize with ⟨-, -, rfl, rfl⟩ | ⟨-, hbest⟩
    · rfl
    · exact hbest
  | cons c l ih =>
    obtain ⟨hc, hl⟩ := List.forall_mem_cons.mp hl
    obtain ⟨hcs, hsub⟩ := List.forall_mem_cons.mp hsub
    rw [List.filter_cons, Algo.findImmediate]
    by_cases hcv : c = v
    · subst hcv
      rw [if_neg (by simp), h.start]
      dsimp only
      split
      · rename_i hall
        have hall : ∀ n ∈ strict, n = c := by simpa using hall
        have hnil : l.filter (· ≠ c) = [] := by
          rw [List.filter_eq_nil_iff]
          intro n hn
          simpa using hall n (hsub n hn)
        rw [hnil, hnone hall]
        exact if_pos rfl
      · split
        · rename_i hlt
          refine ih hl hsub hnone (.inr ?_)
          rcases hsize with ⟨-, rfl, -, rfl⟩ | ⟨rfl, -⟩
          · exact ⟨rfl, if_pos rfl⟩
          · simp at hlt
        · exact ih hl hsub hnone hsize
    · obtain ⟨set, rest, hset, hrest, hpair⟩ := h.get c (hc.resolve_left hcv)
      rw [if_pos (by simpa using hcv), Algo.findImmediate, hset, hrest]
      dsimp only
      have hlen : set.length = rest.length + 1 := by
        have hperm : set.Perm (v :: rest) := by
          refine (List.perm_ext_iff_of_nodup hpair.nodup ?_).mpr fun m => ?_
          · exact List.nodup_cons.mpr ⟨fun hin => hv (hpair.sub v hin), hpair.nodupRest⟩
          · rw [hpair.mem, List.mem_cons]
        rw [hperm.length_eq, List.length_cons]
      have hpos : 0 < rest.length := List.length_pos_of_mem hpair.self
      have hall : (strict.all fun other => other = c || other ∈ set) =
          (strict.filter (· ≠ v)).all fun other => other = c || other ∈ rest := by
        rw [Bool.eq_iff_iff]
        simp only [List.all_eq_true, Bool.or_eq_true, decide_eq_true_eq, hpair.mem, List.mem_filter,
          and_imp]
        constructor
        · intro hall other ho hne
          exact (hall other ho).imp_right (Or.resolve_left · hne)
        · intro hall other ho
          by_cases hother : other = v
          · exact .inr (.inl hother)
          · exact (hall other ho hother).imp_right .inr
      have hlater : (∀ n ∈ strict, n = v) → some c = none := fun hall => absurd (hall c hcs) hcv
      rw [hall, hlen]
      split
      · exact if_neg (by simpa using hcv)
      · have hlt : size < rest.length + 1 ↔ size' < rest.length := by
          rcases hsize with ⟨rfl, rfl, -, -⟩ | ⟨rfl, -⟩
          · omega
          · omega
        rw [if_congr hlt rfl rfl]
        split
        · exact ih hl hsub hlater (.inr ⟨rfl, if_neg (by simpa using hcv)⟩)
        · exact ih hl hsub hnone hsize

/-- What a node gets for its immediate post-dominator when its set gives out its elements so. -/
def chosen (own : NodeSets) (n : Int64) (t : List Int64) : Option Int64 :=
  findImmediate own (t.filter (· ≠ n)) (t.filter (· ≠ n)) none 0

/-- The entry of a node after the virtual exit has been taken out. -/
theorem Carries.extract (h : Carries g v sets own) (hv : v ∉ g.entities) (hn : n ∈ g.entities)
    {set : List Int64} (hset : sets n = some set) :
    (PostDominatorResult.remove ⟨sets, extractImmediate choices sets v⟩ v).ipdom n =
      some (chosen own n ((drain (choices n) set).filter (· ≠ v))) := by
  have hne : n ≠ v := fun heq => hv (heq ▸ hn)
  obtain ⟨set', rest, hset', -, hpair⟩ := h.get n hn
  rw [hset, Option.some.injEq] at hset'
  subst hset'
  have hmem : ∀ m ∈ (drain (choices n) set).filter (· ≠ n), m = v ∨ m ∈ g.entities := by
    intro m hm
    have hm := (drain_perm (choices n) set).mem_iff.mp (List.mem_filter.mp hm).1
    exact ((hpair.mem m).mp hm).imp_right (hpair.sub m)
  have hfind := h.findImmediate hv hmem (fun _ hm => hm) (fun _ => rfl) (.inl ⟨rfl, rfl, rfl, rfl⟩)
  rw [PostDominatorResult.remove]
  dsimp only
  rw [if_neg hne, extractImmediate, if_neg hne, hset, chosen, List.filter_comm]
  exact congrArg some hfind

/-- Any order of the sets without the virtual exit comes from some order of the sets with it. -/
theorem Carries.exists_choices (h : Carries g v sets own) (hv : v ∉ g.entities)
    (t : Int64 → List Int64) (ht : ∀ n ∈ g.entities, ∀ rest, own n = some rest → (t n).Perm rest) :
    ∃ choices : Int64 → Nat → Nat, ∀ n ∈ g.entities, ∀ set, sets n = some set →
      (drain (choices n) set).filter (· ≠ v) = t n := by
  have hone : ∀ n, ∃ choices : Nat → Nat, n ∈ g.entities → ∀ set, sets n = some set →
      (drain choices set).filter (· ≠ v) = t n := by
    intro n
    by_cases hn : n ∈ g.entities
    · obtain ⟨set, rest, hset, hrest, hpair⟩ := h.get n hn
      have hperm := ht n hn rest hrest
      have hnot : v ∉ rest := fun hin => hv (hpair.sub v hin)
      have htarget : (v :: t n).Perm set := by
        refine (List.Perm.cons v hperm).trans ?_
        refine (List.perm_ext_iff_of_nodup (List.nodup_cons.mpr ⟨hnot, hpair.nodupRest⟩)
          hpair.nodup).mpr fun m => ?_
        rw [hpair.mem, List.mem_cons]
      obtain ⟨choices, hchoices⟩ := exists_drain htarget
      refine ⟨choices, fun _ set' hset' => ?_⟩
      rw [hset, Option.some.injEq] at hset'
      rw [← hset', hchoices, List.filter_cons, if_neg (by simp), List.filter_eq_self]
      intro m hm
      simp only [ne_eq, decide_eq_true_eq]
      rintro rfl
      exact hnot (hperm.subset hm)
    · exact ⟨fun _ => 0, fun hin => absurd hin hn⟩
  choose choices hchoices using hone
  exact ⟨choices, hchoices⟩

end Extraction

/-- The one result is the other without the node. -/
structure SameResult (v : Int64) (result result' : PostDominatorResult) : Prop where
  postDom : ∀ n, (result.postDom n).map List.toFinset =
    ((result'.remove v).postDom n).map List.toFinset
  ipdom : ∀ n, result.ipdom n = (result'.remove v).ipdom n

section Results
variable {r exit : Int64} {result : PostDominatorResult} {nodes : List Int64}

theorem Carries.postDom (h : Carries g v sets own) (hv : v ∉ g.entities)
    (ipdom : Int64 → Option (Option Int64)) (n : Int64) :
    ((PostDominatorResult.remove ⟨sets, ipdom⟩ v).postDom n).map List.toFinset =
      (own n).map List.toFinset := by
  rw [PostDominatorResult.remove]
  dsimp only
  by_cases hn : n ∈ g.entities
  · obtain ⟨set, rest, hset, hrest, hpair⟩ := h.get n hn
    rw [if_neg fun heq : n = v => hv (heq ▸ hn), hset, hrest, Option.map_some, Option.map_some, Option.map_some,
      Option.some.injEq]
    ext m
    simp only [List.mem_toFinset, List.mem_filter, hpair.mem, decide_eq_true_eq]
    constructor
    · rintro ⟨hm, hne⟩
      exact hm.resolve_left hne
    · exact fun hm => ⟨.inr hm, fun heq => hv (hpair.sub v (heq ▸ hm))⟩
  · obtain ⟨hown, hsets⟩ := h.missing n hn
    rw [hown]
    split
    · rfl
    · rename_i hne
      rw [hsets hne]
      rfl

theorem Carries.ipdom_missing (h : Carries g v sets own) (hn : n ∉ g.entities) :
    (PostDominatorResult.remove ⟨sets, extractImmediate choices sets v⟩ v).ipdom n = none := by
  rw [PostDominatorResult.remove]
  dsimp only
  split
  · rfl
  · rename_i hne
    rw [extractImmediate, if_neg hne, (h.missing n hn).2 hne]
    rfl

/-- Two virtual exits over the same sets give the same result. -/
theorem Carries.sameResult (h : Carries g r sets own) (hr : r ∉ g.entities) {sets' : NodeSets}
    (h' : Carries g v sets' own) (hv : v ∉ g.entities) (choices : Int64 → Nat → Nat) :
    ∃ choices', SameResult v (PostDominatorResult.remove ⟨sets, extractImmediate choices sets r⟩ r)
      ⟨sets', extractImmediate choices' sets' v⟩ := by
  obtain ⟨choices', hchoices⟩ := h'.exists_choices hv
    (fun n => (drain (choices n) ((sets n).getD [])).filter (· ≠ r)) fun n hn rest hrest => by
      obtain ⟨set, rest', hset, hrest', hpair⟩ := h.get n hn
      rw [hrest, Option.some.injEq] at hrest'
      subst hrest'
      rw [hset, Option.getD_some]
      refine (List.Perm.filter _ (drain_perm (choices n) set)).trans ?_
      refine (List.perm_ext_iff_of_nodup (hpair.nodup.filter _) hpair.nodupRest).mpr fun m => ?_
      simp only [List.mem_filter, hpair.mem, decide_eq_true_eq]
      constructor
      · rintro ⟨hm, hne⟩
        exact hm.resolve_left hne
      · exact fun hm => ⟨.inr hm, fun heq => hr (hpair.sub r (heq ▸ hm))⟩
  refine ⟨choices', ⟨fun n => ?_, fun n => ?_⟩⟩
  · rw [h.postDom hr, h'.postDom hv]
  · by_cases hn : n ∈ g.entities
    · obtain ⟨set, _, hset, -⟩ := h.get n hn
      obtain ⟨set', _, hset', -⟩ := h'.get n hn
      rw [h.extract hr hn hset, h'.extract hv hn hset', hchoices n hn set' hset', hset,
        Option.getD_some]
    · rw [h.ipdom_missing hn, h'.ipdom_missing hn]

/-- So does a single exit over the sets themselves. -/
theorem Carries.sameResult_single (h : Carries g v sets own) (hv : v ∉ g.entities)
    (hexit : own exit = some [exit]) (choices : Int64 → Nat → Nat) :
    ∃ choices', SameResult v ⟨own, extractImmediate choices own exit⟩
      ⟨sets, extractImmediate choices' sets v⟩ := by
  obtain ⟨choices', hchoices⟩ := h.exists_choices hv
    (fun n => drain (choices n) ((own n).getD [])) fun n hn rest hrest => by
      rw [hrest, Option.getD_some]
      exact drain_perm (choices n) rest
  refine ⟨choices', ⟨fun n => ?_, fun n => ?_⟩⟩
  · rw [h.postDom hv]
  · change extractImmediate choices own exit n = _
    by_cases hn : n ∈ g.entities
    · obtain ⟨set, rest, hset, hrest, -⟩ := h.get n hn
      rw [h.extract hv hn hset, hchoices n hn set hset, extractImmediate]
      split
      · rename_i heq
        subst heq
        have hone : drain (choices n) ((own n).getD []) = [n] := by
          rw [hexit, Option.getD_some]
          exact List.perm_singleton.mp (drain_perm (choices n) [n])
        rw [hone, chosen, List.filter_cons, if_neg (by simp)]
        rfl
      · rw [hrest]
        rfl
    · rw [h.ipdom_missing hn, extractImmediate, (h.missing n hn).1]
      split
      · rename_i heq
        subst heq
        rw [(h.missing n hn).1] at hexit
        cases hexit
      · rfl

/-- The sets without a virtual exit. -/
def exitSets (g : FiniteGraph) : Except SqliteGraphError NodeSets := do
  let order ← exitOrder g
  exitRounds g order (.queryError
    s!"Post-dominator computation failed to converge after {maxIterations} iterations")
    maxIterations (fullSets g)

theorem ExitLists.exitSets_run (h : ExitLists g v preds)
    (hnodes : ∀ n, n ∈ nodes ↔ n = v ∨ n ∈ g.entities) (hlen : nodes.length = g.entities.length + 1) :
    Alike (Carries g v) (postDominatorSets preds nodes v) (exitSets g) := by
  rw [postDominatorSets, exitSets, h.rooted_order hlen]
  cases horder : exitOrder g with
  | error e => exact rfl
  | ok order => exact (carries_initial h.fresh hnodes).iterate h (mem_exitOrder horder)

theorem withExit_sets (hv : v ∉ g.entities) : Alike (Carries g v)
    (postDominatorSets (buildPredecessorMap (g.withExit v hv).toTables) (g.withExit v hv).entities v)
    (exitSets g) :=
  (g.withExit_lists hv).exitSets_run (fun _ => mem_extendTables) (List.orderedInsert_length _ _ _)

/-- A single exit is as good as a virtual one after it. -/
theorem single_sets (hexits : exitNodes g.toTables = [exit]) :
    postDominatorSets (buildPredecessorMap g.toTables) g.entities exit = exitSets g := by
  have hexit : exit ∈ g.entities := (mem_exitNodes.mp (hexits ▸ List.mem_singleton_self exit)).1
  have horder : reversePostorderReversed (buildPredecessorMap g.toTables) exit g.entities =
      exitOrder g := by
    rw [reversePostorderReversed, exitOrder, hexits]
    rfl
  obtain ⟨order, hrun, hg⟩ := reversePostorderReversed_run hexit
  obtain ⟨rest, rfl⟩ := hg.order_eq
  rw [postDominatorSets, exitSets, ← horder, hrun]
  exact (exitRounds_single hexits).symm

end Results

/-- The automatic choice agrees with the graph extended by a new node, whatever its id. -/
def AutoExitAgrees (g : FiniteGraph) : Prop :=
  ∀ (v : Int64) (hv : v ∉ g.entities) (choices : Int64 → Nat → Nat), ∃ choices' : Int64 → Nat → Nat,
    Alike (SameResult v) (postDominatorsAutoExit choices g.toTables)
      (postDominators choices' (g.withExit v hv).toTables v)

/-- Results are exact, and those of the automatic choice are those of the extended graph. -/
def PostDominatorsCorrect (g : FiniteGraph) : Prop :=
  (∀ choices exit result, postDominators choices g.toTables exit = .ok result →
    result.Exact g exit) ∧
  (exitNodes g.toTables ≠ [] → AutoExitAgrees g)

section Agreement
variable {exit : Int64} {hv : v ∉ g.entities}

theorem postDominators_withExit : postDominators choices (g.withExit v hv).toTables v =
    (postDominatorSets (buildPredecessorMap (g.withExit v hv).toTables) (g.withExit v hv).entities v >>=
      fun sets => pure ⟨sets, extractImmediate choices sets v⟩) := by
  have hmem : v ∈ (g.withExit v hv).entities := mem_extendTables.mpr (.inl rfl)
  rw [postDominators, if_neg (not_not.mpr hmem)]

theorem Alike.of_ok {α β : Type} {R : α → β → Prop} {x : Except SqliteGraphError α} {b : β}
    (h : Alike R x (.ok b)) : ∃ a, x = .ok a ∧ R a b := by
  cases x with
  | ok a => exact ⟨a, rfl, h⟩
  | error e => cases h

theorem Alike.of_error {α β : Type} {R : α → β → Prop} {x : Except SqliteGraphError α}
    {e : SqliteGraphError} (h : Alike R x (.error e)) : x = .error e := by
  cases x with
  | ok a => cases h
  | error e' => exact congrArg Except.error h

theorem single_agrees (hexits : exitNodes g.toTables = [exit]) (hv : v ∉ g.entities)
    (choices : Int64 → Nat → Nat) :
    ∃ choices', Alike (SameResult v) (postDominators choices g.toTables exit)
      (postDominators choices' (g.withExit v hv).toTables v) := by
  have hexit : exit ∈ g.entities := (mem_exitNodes.mp (hexits ▸ List.mem_singleton_self exit)).1
  have hext := withExit_sets hv
  have hcode : postDominators choices g.toTables exit =
      (exitSets g >>= fun sets => pure ⟨sets, extractImmediate choices sets exit⟩) := by
    rw [postDominators, if_neg (not_not.mpr hexit), single_sets hexits]
  cases hsets : exitSets g with
  | error e =>
    rw [hsets] at hext hcode
    refine ⟨choices, ?_⟩
    rw [hcode, postDominators_withExit, hext.of_error]
    exact rfl
  | ok own =>
    rw [hsets] at hext hcode
    obtain ⟨sets, hrun, hcarries⟩ := hext.of_ok
    have hown : own exit = some [exit] := (postDominators_sets hcode).2.1.start
    obtain ⟨choices', hsame⟩ := hcarries.sameResult_single hv hown choices
    refine ⟨choices', ?_⟩
    rw [hcode, postDominators_withExit, hrun]
    exact hsame

theorem several_agree (hfresh : virtualExit ∉ g.entities) (hv : v ∉ g.entities)
    (choices : Int64 → Nat → Nat) : ∃ choices', Alike (SameResult v)
      (postDominatorsWithVirtualExit choices g.toTables (exitNodes g.toTables))
      (postDominators choices' (g.withExit v hv).toTables v) := by
  have hext := withExit_sets hv
  have hcode := (FiniteGraph.virtualExit_lists hfresh).exitSets_run
    (show ∀ n, n ∈ g.entities ++ [virtualExit] ↔ n = virtualExit ∨ n ∈ g.entities by
      intro n
      rw [List.mem_append, List.mem_singleton, or_comm])
    List.length_append
  cases hsets : exitSets g with
  | error e =>
    rw [hsets] at hext hcode
    refine ⟨choices, ?_⟩
    rw [postDominatorsWithVirtualExit, hcode.of_error, postDominators_withExit, hext.of_error]
    exact rfl
  | ok own =>
    rw [hsets] at hext hcode
    obtain ⟨sets, hrun, hcarries⟩ := hcode.of_ok
    obtain ⟨sets', hrun', hcarries'⟩ := hext.of_ok
    obtain ⟨choices', hsame⟩ := hcarries.sameResult hfresh hcarries' hv choices
    refine ⟨choices', ?_⟩
    rw [postDominatorsWithVirtualExit, hrun, postDominators_withExit, hrun']
    exact hsame

theorem autoExit_cases (choices : Int64 → Nat → Nat) (hexits : exitNodes g.toTables ≠ []) :
    (∃ exit, exitNodes g.toTables = [exit] ∧
      postDominatorsAutoExit choices g.toTables = postDominators choices g.toTables exit) ∨
    1 < (exitNodes g.toTables).length ∧ postDominatorsAutoExit choices g.toTables =
      postDominatorsWithVirtualExit choices g.toTables (exitNodes g.toTables) := by
  obtain ⟨exit, rest, hcons⟩ := List.exists_cons_of_ne_nil hexits
  have hsome : g.entities.isEmpty = false := by
    have hexit : exit ∈ g.entities := (mem_exitNodes.mp (hcons ▸ List.mem_cons_self)).1
    rw [List.isEmpty_eq_false_iff]
    exact List.ne_nil_of_mem hexit
  rw [postDominatorsAutoExit, hsome, hcons]
  cases rest with
  | nil => exact .inl ⟨exit, rfl, rfl⟩
  | cons exit' rest => exact .inr ⟨by simp, rfl⟩

/-- Where an entity has the id of the virtual exit and there are several exits, its entry is lost. -/
theorem several_disagree (hvirtual : virtualExit ∈ g.entities)
    (hexits : 1 < (exitNodes g.toTables).length) {result : PostDominatorResult}
    {choices' : Int64 → Nat → Nat}
    (hrun : postDominators choices' (g.withExit v hv).toTables v = .ok result) :
    ¬ Alike (SameResult v) (postDominatorsAutoExit choices g.toTables)
      (postDominators choices' (g.withExit v hv).toTables v) := by
  intro halike
  have hne : virtualExit ≠ v := fun heq => hv (heq ▸ hvirtual)
  rw [hrun] at halike
  obtain ⟨code, hcode, hsame⟩ := halike.of_ok
  have hsome : exitNodes g.toTables ≠ [] := List.ne_nil_of_length_pos (by omega)
  rcases autoExit_cases choices hsome with ⟨exit, hsingle, -⟩ | ⟨-, heq⟩
  · rw [hsingle] at hexits
    simp at hexits
  rw [heq, postDominatorsWithVirtualExit] at hcode
  obtain ⟨sets, -, hcode⟩ := except_bind_eq_ok hcode
  cases hcode
  obtain ⟨-, hsets, -⟩ := postDominators_sets hrun
  obtain ⟨set, hset, -⟩ := hsets.get virtualExit (mem_extendTables.mpr (.inr hvirtual))
  have hlost := hsame.postDom virtualExit
  simp [PostDominatorResult.remove, hset, hne] at hlost

end Agreement

/-- The analysis of the extended graph, for some id that is new, ends within its rounds. -/
def Converges (g : FiniteGraph) : Prop :=
  ∃ (v : Int64) (hv : v ∉ g.entities), ∀ choices : Int64 → Nat → Nat, ∃ result,
    postDominators choices (g.withExit v hv).toTables v = .ok result

/-- All is right unless an entity has the id of the virtual exit and there are several exits; then, where
there is a result to compare with, it is not. -/
theorem post_dominators_iff (g : FiniteGraph) :
    ((virtualExit ∈ g.entities → (exitNodes g.toTables).length ≤ 1) → PostDominatorsCorrect g) ∧
    (Converges g → PostDominatorsCorrect g →
      virtualExit ∈ g.entities → (exitNodes g.toTables).length ≤ 1) := by
  constructor
  · intro hcond
    refine ⟨fun choices exit result => postDominators_ok_exact, fun hexits v hv choices => ?_⟩
    rcases autoExit_cases choices hexits with ⟨exit, hsingle, heq⟩ | ⟨hlen, heq⟩
    · rw [heq]
      exact single_agrees hsingle hv choices
    · rw [heq]
      exact several_agree (fun hin => absurd (hcond hin) (by omega)) hv choices
  · rintro ⟨v, hv, hok⟩ ⟨-, hagree⟩ hvirtual
    by_contra hlen
    have hexits : exitNodes g.toTables ≠ [] := List.ne_nil_of_length_pos (by omega)
    obtain ⟨choices', halike⟩ := hagree hexits v hv fun _ _ => 0
    obtain ⟨result, hrun⟩ := hok choices'
    exact several_disagree hvirtual (by omega) hrun halike

/-- Two nodes without edges, one of them with the id of the virtual exit. -/
def negativeGraph : FiniteGraph where
  entities := [-1, 1]
  edges := []
  nodup := by decide
  closed := by decide

theorem negativeGraph_sets : ∃ sets, postDominatorSets
    (buildPredecessorMap (extendTables negativeGraph.toTables 2))
    (extendTables negativeGraph.toTables 2).entities 2 = .ok sets := by
  have hok : (postDominatorSets (buildPredecessorMap (extendTables negativeGraph.toTables 2))
      (extendTables negativeGraph.toTables 2).entities 2).isOk = true := by decide +kernel
  cases hsets : postDominatorSets (buildPredecessorMap (extendTables negativeGraph.toTables 2))
      (extendTables negativeGraph.toTables 2).entities 2 with
  | ok sets => exact ⟨sets, rfl⟩
  | error e =>
    rw [hsets] at hok
    cases hok

theorem not_post_dominators : ¬ ∀ g, PostDominatorsCorrect g := by
  intro h
  have hv : (2 : Int64) ∉ negativeGraph.entities := by decide
  obtain ⟨choices', halike⟩ := (h negativeGraph).2 (by decide +kernel) 2 hv fun _ _ => 0
  obtain ⟨sets, hsets⟩ : ∃ sets, postDominatorSets
      (buildPredecessorMap (negativeGraph.withExit 2 hv).toTables)
      (negativeGraph.withExit 2 hv).entities 2 = .ok sets := negativeGraph_sets
  have hrun : postDominators choices' (negativeGraph.withExit 2 hv).toTables 2 =
      .ok ⟨sets, extractImmediate choices' sets 2⟩ := by
    rw [postDominators_withExit, hsets]
    rfl
  exact several_disagree (by decide) (by decide +kernel) hrun halike

end SqliteGraph.Algo
