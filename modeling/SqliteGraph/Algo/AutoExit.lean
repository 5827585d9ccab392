import SqliteGraph.Algo.VirtualExit

/-! The rounds with and without a virtual exit, and what is taken out of them. -/
namespace SqliteGraph.Algo
open Lib Sqlite
variable {g : FiniteGraph} {v n m : Int64} {preds : PredecessorMap} {sets own sets' own' : NodeSets}
  {l order : List Int64}

/-- The set of a node is what is common to those after it, and the node. -/
def settle (sets : NodeSets) (node : Int64) (common : List Int64) : NodeSets × Bool :=
  let set := common.insert node
  if (sets node).any (sameSet set) then (sets, false)
  else (Function.update sets node (some set), true)

theorem visitNode_settle {before : Int64 → List Int64} {common : List Int64}
    (h : intersect sets (before n) = some common) :
    visitNode before sets n = settle sets n common := by
  rw [visitNode, h]
  rfl

/-- The visit of a node as it is without a virtual exit, where nothing follows an exit. -/
def visitExit (g : FiniteGraph) (sets : NodeSets) (node : Int64) : NodeSets × Bool :=
  if node ∈ exitNodes g.toTables then settle sets node []
  else visitNode (buildPredecessorMap g.toTables).successors sets node

def visitExits (g : FiniteGraph) (state : NodeSets × Bool) (node : Int64) : NodeSets × Bool :=
  ((visitExit g state.1 node).1, state.2 || (visitExit g state.1 node).2)

/-- `iterateSets` with such visits. -/
def exitRounds (g : FiniteGraph) (order : List Int64) (failure : SqliteGraphError) :
    Nat → NodeSets → Except SqliteGraphError NodeSets
  | 0, _ => .error failure
  | rounds + 1, sets =>
    let (sets, changed) := order.foldl (visitExits g) (sets, false)
    if !changed then .ok sets else exitRounds g order failure rounds sets

/-- The set of a node is another one and the virtual exit. -/
structure CarriesSet (g : FiniteGraph) (v n : Int64) (set rest : List Int64) : Prop where
  nodup : set.Nodup
  nodupRest : rest.Nodup
  self : n ∈ rest
  sub : ∀ m ∈ rest, m ∈ g.entities
  mem : ∀ m, m ∈ set ↔ m = v ∨ m ∈ rest

/-- The sets of one run are those of another, and the virtual exit in each of them. -/
structure Carries (g : FiniteGraph) (v : Int64) (sets own : NodeSets) : Prop where
  start : sets v = some [v]
  get : ∀ n ∈ g.entities, ∃ set rest, sets n = some set ∧ own n = some rest ∧ CarriesSet g v n set rest
  missing : ∀ n ∉ g.entities, own n = none ∧ (n ≠ v → sets n = none)

section Visits

theorem sameSet_cons_iff {a b rest rest' : List Int64} (ha : ∀ m, m ∈ a ↔ m = v ∨ m ∈ rest)
    (hb : ∀ m, m ∈ b ↔ m = v ∨ m ∈ rest') (hrest : v ∉ rest) (hrest' : v ∉ rest') :
    sameSet a b = sameSet rest rest' := by
  rw [Bool.eq_iff_iff, sameSet_iff, sameSet_iff]
  refine forall_congr' fun m => ?_
  rw [ha, hb]
  by_cases hm : m = v
  · subst hm
    simp [hrest, hrest']
  · simp [hm]

theorem Carries.settle (h : Carries g v sets own) (hv : v ∉ g.entities) (hn : n ∈ g.entities)
    {common rest : List Int64} (hcommon : common.Nodup) (hrest : rest.Nodup)
    (hsub : ∀ m ∈ rest, m ∈ g.entities) (hmem : ∀ m, m ∈ common ↔ m = v ∨ m ∈ rest) :
    Carries g v (settle sets n common).1 (settle own n rest).1 ∧
      (settle sets n common).2 = (settle own n rest).2 := by
  have hne : v ≠ n := fun heq => hv (heq ▸ hn)
  have hset : ∀ m, m ∈ common.insert n ↔ m = v ∨ m ∈ rest.insert n := by
    intro m
    rw [List.mem_insert_iff, List.mem_insert_iff, hmem]
    tauto
  have hsub' : ∀ m ∈ rest.insert n, m ∈ g.entities := by
    intro m hm
    rcases List.mem_insert_iff.mp hm with rfl | hm
    · exact hn
    · exact hsub m hm
  obtain ⟨old, oldRest, hold, holdRest, hpair⟩ := h.get n hn
  have hsame : sameSet (common.insert n) old = sameSet (rest.insert n) oldRest :=
    sameSet_cons_iff hset hpair.mem (fun hin => hv (hsub' v hin)) fun hin => hv (hpair.sub v hin)
  rw [Algo.settle, Algo.settle, hold, holdRest, Option.any_some, Option.any_some, hsame]
  split
  · exact ⟨h, rfl⟩
  dsimp only
  refine ⟨⟨?_, fun k hk => ?_, fun k hk => ?_⟩, rfl⟩
  · rw [Function.update_of_ne hne]
    exact h.start
  · by_cases hkn : k = n
    · subst hkn
      exact ⟨_, _, Function.update_self .., Function.update_self .., hcommon.insert, hrest.insert,
        List.mem_insert_self, hsub', hset⟩
    · rw [Function.update_of_ne hkn, Function.update_of_ne hkn]
      exact h.get k hk
  · have hkn : k ≠ n := fun heq => hk (heq ▸ hn)
    rw [Function.update_of_ne hkn, Function.update_of_ne hkn]
    exact h.missing k hk

theorem FiniteGraph.mem_successors {s : Int64} :
    s ∈ (buildPredecessorMap g.toTables).successors n ↔ Joined g.toTables n s := by
  rw [PredecessorMap.mem_successors, FiniteGraph.mem_predecessors]

theorem ExitLists.mem_successors (h : ExitLists g v preds) {s : Int64} :
    s ∈ preds.successors n ↔ (s = v ∧ n ∈ exitNodes g.toTables) ∨ Joined g.toTables n s := by
  rw [PredecessorMap.mem_successors]
  by_cases hs : s = v
  · subst hs
    have hnot : ¬ Joined g.toTables n s := fun he => h.fresh (g.joined_mem he).2
    simp [h.exits, hnot]
  · rw [h.others s hs, FiniteGraph.mem_predecessors]
    simp [hs]

theorem Carries.visit (h : Carries g v sets own) (hl : ExitLists g v preds) (hn : n ∈ g.entities) :
    Carries g v (visitNode preds.successors sets n).1 (visitExit g own n).1 ∧
      (visitNode preds.successors sets n).2 = (visitExit g own n).2 := by
  rw [visitExit]
  by_cases hexit : n ∈ exitNodes g.toTables
  · have hnone := (mem_exitNodes.mp hexit).2
    have hsucc : ∀ s, s ∈ preds.successors n ↔ s = v := by
      intro s
      rw [hl.mem_successors]
      simp [hexit, hnone s]
    obtain ⟨common, hrun, hnodup, hmem⟩ := intersect_run sets
      (List.ne_nil_of_mem ((hsucc v).mpr rfl)) fun p hp => by
        rw [(hsucc p).mp hp]
        exact ⟨[v], h.start, List.nodup_singleton v⟩
    rw [if_pos hexit, visitNode_settle hrun]
    refine h.settle hl.fresh hn hnodup List.nodup_nil (by simp) fun m => ?_
    rw [hmem]
    simp [hsucc, h.start]
  · have hsucc : ∀ s, s ∈ preds.successors n ↔ Joined g.toTables n s := by
      intro s
      rw [hl.mem_successors]
      simp [hexit]
    obtain ⟨s, hs⟩ : ∃ s, Joined g.toTables n s := by
      by_contra hnone
      exact hexit (mem_exitNodes.mpr ⟨hn, fun s hs => hnone ⟨s, hs⟩⟩)
    have hget : ∀ p, Joined g.toTables n p → _ := fun p hp => h.get p (g.joined_mem hp).2
    obtain ⟨common, hrun, hnodup, hmem⟩ := intersect_run sets
      (List.ne_nil_of_mem ((hsucc s).mpr hs)) fun p hp => by
        obtain ⟨set, _, hset, -, hpair⟩ := hget p ((hsucc p).mp hp)
        exact ⟨set, hset, hpair.nodup⟩
    obtain ⟨rest, hrunRest, hnodupRest, hmemRest⟩ := intersect_run own
      (List.ne_nil_of_mem (FiniteGraph.mem_successors.mpr hs)) fun p hp => by
        obtain ⟨_, rest, -, hrest, hpair⟩ := hget p (FiniteGraph.mem_successors.mp hp)
        exact ⟨rest, hrest, hpair.nodupRest⟩
    rw [if_neg hexit, visitNode_settle hrun, visitNode_settle hrunRest]
    refine h.settle hl.fresh hn hnodup hnodupRest (fun m hm => ?_) fun m => ?_
    · obtain ⟨_, rest, -, hrest, hpair⟩ := hget s hs
      exact hpair.sub m ((hmemRest m).mp hm s (FiniteGraph.mem_successors.mpr hs) rest hrest)
    · rw [hmem, hmemRest]
      constructor
      · intro hall
        by_cases hm : m = v
        · exact .inl hm
        refine .inr fun p hp rest hrest => ?_
        obtain ⟨set, rest', hset, hrest', hpair⟩ := hget p (FiniteGraph.mem_successors.mp hp)
        rw [hrest, Option.some.injEq] at hrest'
        subst hrest'
        have hp := (hsucc p).mpr (FiniteGraph.mem_successors.mp hp)
        exact ((hpair.mem m).mp (hall p hp set hset)).resolve_left hm
      · intro hall p hp set hset
        obtain ⟨set', rest, hset', hrest, hpair⟩ := hget p ((hsucc p).mp hp)
        rw [hset, Option.some.injEq] at hset'
        subst hset'
        refine (hpair.mem m).mpr (hall.imp_right fun hall => ?_)
        exact hall p (FiniteGraph.mem_successors.mpr ((hsucc p).mp hp)) rest hrest

end Visits

/-- Both end well with related results, or both in one error. -/
def Alike {α β : Type} (R : α → β → Prop) :
    Except SqliteGraphError α → Except SqliteGraphError β → Prop
  | .ok a, .ok b => R a b
  | .error e, .error e' => e = e'
  | _, _ => False

theorem Alike.bind {α β γ δ : Type} {R : α → β → Prop} {S : γ → δ → Prop}
    {x : Except SqliteGraphError α} {y : Except SqliteGraphError β}
    {f : α → Except SqliteGraphError γ} {f' : β → Except SqliteGraphError δ}
    (h : Alike R x y) (hf : ∀ a b, R a b → Alike S (f a) (f' b)) : Alike S (x >>= f) (y >>= f') := by
  cases x with
  | ok a =>
    cases y with
    | ok b => exact hf a b h
    | error e => cases h
  | error e =>
    cases y with
    | ok b => cases h
    | error e' => exact h

section Rounds
variable {failure : SqliteGraphError} {k : Nat}

theorem Carries.fold (h : Carries g v sets own) (hl : ExitLists g v preds)
    (hnodes : ∀ n ∈ l, n ∈ g.entities) (changed : Bool) :
    Carries g v (l.foldl (visitNext preds.successors) (sets, changed)).1
        (l.foldl (visitExits g) (own, changed)).1 ∧
      (l.foldl (visitNext preds.successors) (sets, changed)).2 =
        (l.foldl (visitExits g) (own, changed)).2 := by
  induction l generalizing sets own changed with
  | nil => exact ⟨h, rfl⟩
  | cons n l ih =>
    obtain ⟨hn, hnodes⟩ := List.forall_mem_cons.mp hnodes
    obtain ⟨hvisit, hflag⟩ := h.visit hl hn
    have hleft : visitNext preds.successors (sets, changed) n =
        ((visitNode preds.successors sets n).1, changed || (visitExit g own n).2) := by
      rw [← hflag]
      rfl
    rw [List.foldl_cons, List.foldl_cons, hleft]
    exact ih hvisit hnodes _

theorem ExitLists.round_nodes (hl : ExitLists g v preds) (horder : ∀ n ∈ order, n ∈ g.entities) :
    (v :: order).tail.filter (fun n => (v :: order).head? ≠ some n) = order := by
  rw [List.tail_cons, List.filter_eq_self]
  intro n hn
  simp only [List.head?_cons, ne_eq, Option.some.injEq, decide_eq_true_eq]
  rintro rfl
  exact hl.fresh (horder v hn)

theorem Carries.iterate (h : Carries g v sets own) (hl : ExitLists g v preds)
    (horder : ∀ n ∈ order, n ∈ g.entities) :
    Alike (Carries g v) (iterateSets preds.successors (v :: order) failure k sets)
      (exitRounds g order failure k own) := by
  induction k generalizing sets own with
  | zero => exact rfl
  | succ k ih =>
    obtain ⟨hfold, hflag⟩ := h.fold hl horder false
    rw [iterateSets, exitRounds, visitNodes, hl.round_nodes horder]
    dsimp only
    rw [hflag]
    split
    · exact hfold
    · exact ih hfold

/-- Without a virtual exit the sets of all nodes are full at first. -/
def fullSets (g : FiniteGraph) : NodeSets := fun n =>
  if n ∈ g.entities then some g.entities.dedup else none

theorem carries_initial (hv : v ∉ g.entities) {nodes : List Int64}
    (hnodes : ∀ n, n ∈ nodes ↔ n = v ∨ n ∈ g.entities) :
    Carries g v (initializeSets nodes v) (fullSets g) := by
  refine ⟨?_, fun n hn => ?_, fun n hn => ?_⟩
  · simp [initializeSets, hnodes]
  · have hne : n ≠ v := fun heq => hv (heq ▸ hn)
    refine ⟨nodes.dedup, g.entities.dedup, ?_, ?_, nodes.nodup_dedup, g.entities.nodup_dedup,
      List.mem_dedup.mpr hn, ?_, ?_⟩
    · simp [initializeSets, hnodes, hn, hne]
    · simp [fullSets, hn]
    · exact fun m hm => List.mem_dedup.mp hm
    · intro m
      rw [List.mem_dedup, List.mem_dedup, hnodes]
  · refine ⟨by simp [fullSets, hn], fun hne => ?_⟩
    simp [initializeSets, hnodes, hn, hne]

end Rounds

section SingleExit
variable {exit : Int64} {rest : List Int64} {failure : SqliteGraphError} {k : Nat} {changed : Bool}

theorem visitExit_settled (hexits : exitNodes g.toTables = [exit]) (h : sets exit = some [exit]) :
    visitExit g sets exit = (sets, false) := by
  have hsame : sameSet [exit] [exit] = true := sameSet_iff.mpr fun _ => Iff.rfl
  rw [visitExit, if_pos (by simp [hexits]), settle, h]
  exact if_pos hsame

theorem visitExit_other (hexits : exitNodes g.toTables = [exit]) (hne : n ≠ exit) :
    visitExit g sets n = visitNode (buildPredecessorMap g.toTables).successors sets n := by
  rw [visitExit, if_neg (by simp [hexits, hne])]

theorem visitNode_frame {before : Int64 → List Int64} (hne : m ≠ n) :
    (visitNode before sets n).1 m = sets m := by
  cases hrun : intersect sets (before n) with
  | none =>
    rw [visitNode, hrun]
  | some common =>
    rw [visitNode_settle hrun, settle]
    split
    · rfl
    · exact Function.update_of_ne hne _ _

/-- An exit that has its set is passed over. -/
theorem foldl_settled (l : List Int64) (changed : Bool) (hexits : exitNodes g.toTables = [exit]) (h : sets exit = some [exit]) :
    l.foldl (visitExits g) (sets, changed) = (l.filter (fun n => some exit ≠ some n)).foldl
        (visitNext (buildPredecessorMap g.toTables).successors) (sets, changed) ∧
      (l.foldl (visitExits g) (sets, changed)).1 exit = some [exit] := by
  induction l generalizing sets changed with
  | nil => exact ⟨rfl, h⟩
  | cons n l ih =>
    rw [List.foldl_cons, List.filter_cons]
    by_cases hn : n = exit
    · subst hn
      rw [if_neg (by simp), visitExits, visitExit_settled hexits h, Bool.or_false]
      exact ih changed h
    · rw [if_pos (by simpa using Ne.symm hn), List.foldl_cons, visitExits, visitExit_other hexits hn]
      refine ih _ ?_
      rw [visitNode_frame (Ne.symm hn)]
      exact h

theorem foldl_visitExits_settled (hexits : exitNodes g.toTables = [exit])
    (h : sets exit = some [exit]) : (exit :: rest).foldl (visitExits g) (sets, changed) =
      rest.foldl (visitExits g) (sets, changed) := by
  rw [List.foldl_cons, visitExits, visitExit_settled hexits h, Bool.or_false]

/-- From then on the rounds agree. -/
theorem exitRounds_settled (hexits : exitNodes g.toTables = [exit]) (h : sets exit = some [exit]) :
    exitRounds g (exit :: rest) failure k sets =
      iterateSets (buildPredecessorMap g.toTables).successors (exit :: rest) failure k sets := by
  induction k generalizing sets with
  | zero => rfl
  | succ k ih =>
    obtain ⟨hfold, hkeep⟩ := foldl_settled rest false hexits h
    rw [exitRounds, iterateSets, foldl_visitExits_settled hexits h, visitNodes, List.tail_cons,
      List.head?_cons, ← hfold]
    dsimp only
    split
    · rfl
    · exact ih hkeep

theorem foldl_changed (l : List Int64) (sets : NodeSets) (changed : Bool) :
    l.foldl (visitExits g) (sets, changed) = ((l.foldl (visitExits g) (sets, false)).1,
      changed || (l.foldl (visitExits g) (sets, false)).2) := by
  induction l generalizing sets changed with
  | nil => simp
  | cons n l ih =>
    have hor := ih (visitExit g sets n).1 (visitExit g sets n).2
    have ih := ih (visitExit g sets n).1 (changed || (visitExit g sets n).2)
    rw [List.foldl_cons, List.foldl_cons, visitExits, visitExits, Bool.false_or, ih, hor,
      Bool.or_assoc]

/-- The first visit gives an exit its set. -/
theorem visitExit_first (hexits : exitNodes g.toTables = [exit]) :
    (visitExit g (fullSets g) exit).1 = initializeSets g.entities exit := by
  have hexit : exit ∈ g.entities := (mem_exitNodes.mp (hexits ▸ List.mem_singleton_self exit)).1
  rw [visitExit, if_pos (by simp [hexits]), settle]
  have hfull : fullSets g exit = some g.entities.dedup := if_pos hexit
  rw [hfull]
  split
  · rename_i hsame
    rw [Option.any_some, sameSet_iff] at hsame
    have hall : ∀ n, n ∈ g.entities ↔ n = exit := by
      intro n
      have hn := hsame n
      simp only [List.insert_nil, List.mem_singleton, List.mem_dedup] at hn
      exact hn.symm
    have hone : g.entities = [exit] := by
      refine List.perm_singleton.mp ((List.perm_ext_iff_of_nodup g.nodup (List.nodup_singleton _)).mpr ?_)
      simpa using hall
    funext n
    have hdedup : [exit].dedup = [exit] := (List.nodup_singleton exit).dedup
    simp only [fullSets, initializeSets, hone, List.mem_singleton, hdedup]
    by_cases hn : n = exit
    · simp [hn]
    · simp [hn]
  · funext n
    by_cases hn : n = exit
    · subst hn
      simp [initializeSets, hexit]
    · simp [fullSets, initializeSets, hn]

/-- With one exit alone the rounds may be one more, and end with the same sets. -/
theorem exitRounds_single (hexits : exitNodes g.toTables = [exit]) :
    exitRounds g (exit :: rest) failure (k + 2) (fullSets g) =
      iterateSets (buildPredecessorMap g.toTables).successors (exit :: rest) failure (k + 2)
        (initializeSets g.entities exit) := by
  have hexit : exit ∈ g.entities := (mem_exitNodes.mp (hexits ▸ List.mem_singleton_self exit)).1
  have hstart : initializeSets g.entities exit exit = some [exit] := by
    simp [initializeSets, hexit]
  rw [← exitRounds_settled hexits hstart, exitRounds, exitRounds, foldl_visitExits_settled hexits hstart,
    List.foldl_cons, visitExits, visitExit_first hexits, Bool.false_or]
  obtain ⟨hfold, hkeep⟩ := foldl_settled rest false hexits hstart
  cases hfirst : (visitExit g (fullSets g) exit).2 with
  | false => rfl
  | true =>
    rw [foldl_changed rest _ true]
    dsimp only
    cases hround : (rest.foldl (visitExits g) (initializeSets g.entities exit, false)).2 with
    | true => rfl
    | false =>
      have hsame : (rest.foldl (visitExits g) (initializeSets g.entities exit, false)).1 =
          initializeSets g.entities exit := by
        rw [hfold] at hround ⊢
        exact (foldl_unchanged hround).2.1
      simp only [Bool.or_false, Bool.not_true, Bool.false_eq_true, if_false, Bool.not_false, if_true]
      rw [exitRounds, foldl_visitExits_settled hexits hkeep, hsame]
      dsimp only
      rw [hround]
      simp [hsame]

end SingleExit

end SqliteGraph.Algo
