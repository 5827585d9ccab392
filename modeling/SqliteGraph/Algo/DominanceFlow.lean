import SqliteGraph.Algo.DominanceSets

/-! The data-flow iteration ends with the dominators of every node that is reached. -/
namespace SqliteGraph.Algo
open Lib Sqlite
variable {E : Int64 → Int64 → Prop} {before : Int64 → List Int64} {nodes order : List Int64}
  {root n d : Int64} {sets sets' : NodeSets} {set : List Int64}

theorem sameSet_iff {a b : List Int64} : sameSet a b = true ↔ ∀ x, x ∈ a ↔ x ∈ b := by
  simp only [sameSet, Bool.and_eq_true, List.all_eq_true, decide_eq_true_eq]
  constructor
  · rintro ⟨hab, hba⟩ x
    exact ⟨hab x, hba x⟩
  · intro h
    exact ⟨fun x hx => (h x).mp hx, fun x hx => (h x).mpr hx⟩

section Intersect

/-- One node more takes from a set what its own set lacks. -/
theorem intersect_some (sets : NodeSets) (l current : List Int64) :
    ∃ common, l.foldl (fun result node =>
        match sets node, result with
        | some set, some current => some (current.filter (· ∈ set))
        | some set, none => some set
        | none, _ => result) (some current) = some common ∧ common.Sublist current ∧
      ∀ x, x ∈ common ↔ x ∈ current ∧ ∀ p ∈ l, ∀ set, sets p = some set → x ∈ set := by
  induction l generalizing current with
  | nil => exact ⟨current, rfl, List.Sublist.refl _, by simp⟩
  | cons p l ih =>
    rw [List.foldl_cons]
    cases hp : sets p with
    | none =>
      obtain ⟨common, hrun, hsub, hmem⟩ := ih current
      exact ⟨common, hrun, hsub, by simp [hmem, hp]⟩
    | some set =>
      obtain ⟨common, hrun, hsub, hmem⟩ := ih (current.filter (· ∈ set))
      refine ⟨common, hrun, hsub.trans List.filter_sublist, fun x => ?_⟩
      rw [hmem, List.mem_filter, decide_eq_true_eq, List.forall_mem_cons, hp]
      simp [and_assoc]

/-- The sets of some nodes, at least one, have a common part. -/
theorem intersect_run (sets : NodeSets) {l : List Int64} (hne : l ≠ [])
    (hget : ∀ p ∈ l, ∃ set, sets p = some set ∧ set.Nodup) :
    ∃ common, intersect sets l = some common ∧ common.Nodup ∧
      ∀ x, x ∈ common ↔ ∀ p ∈ l, ∀ set, sets p = some set → x ∈ set := by
  cases l with
  | nil => exact absurd rfl hne
  | cons p l =>
    obtain ⟨set, hp, hnodup⟩ := hget p List.mem_cons_self
    obtain ⟨common, hrun, hsub, hmem⟩ := intersect_some sets l set
    refine ⟨common, ?_, hnodup.sublist hsub, fun x => ?_⟩
    · rw [intersect, List.foldl_cons, hp]
      exact hrun
    · rw [hmem, List.forall_mem_cons, hp]
      simp

end Intersect

/-- What the iteration is run on: the arcs before each node, and the nodes that are reached, the root
first. -/
structure FlowGraph (E : Int64 → Int64 → Prop) (before : Int64 → List Int64) (nodes : List Int64)
    (root : Int64) (order : List Int64) : Prop where
  before_iff : ∀ u v, u ∈ before v ↔ E u v
  closed : ∀ u v, E u v → u ∈ nodes ∧ v ∈ nodes
  root_mem : root ∈ nodes
  head : order.head? = some root
  order_iff : ∀ v, v ∈ order ↔ Reached E root v

/-- The sets hold all dominators; those of nodes that are not reached still hold all nodes. -/
structure FlowInv (E : Int64 → Int64 → Prop) (nodes : List Int64) (root : Int64) (sets : NodeSets) :
    Prop where
  start : sets root = some [root]
  get : ∀ n ∈ nodes, ∃ set, sets n = some set ∧ set.Nodup
  missing : ∀ n ∉ nodes, sets n = none
  dominators : ∀ n set, sets n = some set → ∀ d, Dominates E root d n → Reached E root n → d ∈ set
  unreached : ∀ n ∈ nodes, ¬ Reached E root n → sets n = some nodes.dedup

section Rounds
variable (hg : FlowGraph E before nodes root order)
include hg

theorem FlowGraph.reached_mem (h : Reached E root n) : n ∈ nodes := by
  rcases h.cases with rfl | ⟨u, -, he⟩
  · exact hg.root_mem
  · exact (hg.closed u n he).2

theorem FlowGraph.order_eq : ∃ rest, order = root :: rest := List.head?_eq_some_iff.mp hg.head

theorem FlowGraph.initial : FlowInv E nodes root (initializeSets nodes root) := by
  refine ⟨?_, ?_, ?_, ?_, ?_⟩
  · simp [initializeSets, hg.root_mem]
  · intro n hn
    by_cases hroot : n = root
    · exact ⟨[root], by simp [initializeSets, hroot, hg.root_mem], List.nodup_singleton _⟩
    · exact ⟨nodes.dedup, by simp [initializeSets, hn, hroot], nodes.nodup_dedup⟩
  · intro n hn
    simp [initializeSets, hn]
  · intro n set hset d hd hreached
    have hn := hg.reached_mem hreached
    have hdn := hg.reached_mem (hd.reached hreached)
    by_cases hroot : n = root
    · subst hroot
      simp only [initializeSets, hn, not_true_eq_false, if_false, if_true, Option.some.injEq] at hset
      rw [← hset, hd.eq_root]
      exact List.mem_singleton_self _
    · simp only [initializeSets, hn, not_true_eq_false, if_false, hroot, Option.some.injEq] at hset
      rw [← hset]
      exact List.mem_dedup.mpr hdn
  · intro n hn hnot
    have hroot : n ≠ root := by
      rintro rfl
      exact hnot .start
    simp [initializeSets, hn, hroot]

/-- What the sets of the nodes before a node have in common, and the node itself. -/
theorem FlowGraph.common_run (h : FlowInv E nodes root sets) (hn : Reached E root n) (hne : n ≠ root) :
    ∃ common, intersect sets (before n) = some common ∧ common.Nodup ∧
      ∀ x, x ∈ common ↔ ∀ p, E p n → ∀ set, sets p = some set → x ∈ set := by
  obtain ⟨u, -, he⟩ := hn.cases.resolve_left hne
  have hbefore : before n ≠ [] := List.ne_nil_of_mem ((hg.before_iff u n).mpr he)
  obtain ⟨common, hrun, hnodup, hmem⟩ := intersect_run sets hbefore fun p hp =>
    h.get p (hg.closed p n ((hg.before_iff p n).mp hp)).1
  exact ⟨common, hrun, hnodup, fun x => by simp [hmem, hg.before_iff]⟩

theorem FlowGraph.visitNode_inv (h : FlowInv E nodes root sets) (hn : Reached E root n)
    (hne : n ≠ root) : FlowInv E nodes root (visitNode before sets n).1 := by
  obtain ⟨common, hrun, hnodup, hmem⟩ := hg.common_run h hn hne
  rw [visitNode, hrun]
  dsimp only
  split
  · exact h
  dsimp only
  have hnodes := hg.reached_mem hn
  refine ⟨?_, ?_, ?_, ?_, ?_⟩
  · rw [Function.update_of_ne (Ne.symm hne)]
    exact h.start
  · intro m hm
    by_cases hmn : m = n
    · subst hmn
      exact ⟨_, Function.update_self .., hnodup.insert⟩
    · rw [Function.update_of_ne hmn]
      exact h.get m hm
  · intro m hm
    have hmn : m ≠ n := by
      rintro rfl
      exact hm hnodes
    rw [Function.update_of_ne hmn]
    exact h.missing m hm
  · intro m set hset d hd hm
    by_cases hmn : m = n
    · subst hmn
      rw [Function.update_self, Option.some.injEq] at hset
      rw [← hset, List.mem_insert_iff]
      by_cases hdm : d = m
      · exact .inl hdm
      · refine .inr ((hmem d).mpr fun p he set hp => ?_)
        by_cases hreached : Reached E root p
        · exact h.dominators p set hp d (hd.before hdm he) hreached
        · rw [h.unreached p (hg.closed p m he).1 hreached, Option.some.injEq] at hp
          rw [← hp, List.mem_dedup]
          exact hg.reached_mem (hd.reached hm)
    · rw [Function.update_of_ne hmn] at hset
      exact h.dominators m set hset d hd hm
  · intro m hm hnot
    have hmn : m ≠ n := by
      rintro rfl
      exact hnot hn
    rw [Function.update_of_ne hmn]
    exact h.unreached m hm hnot

theorem FlowGraph.foldl_inv (h : FlowInv E nodes root sets) {l : List Int64}
    (hl : ∀ n ∈ l, Reached E root n ∧ n ≠ root) (changed : Bool) :
    FlowInv E nodes root (l.foldl (visitNext before) (sets, changed)).1 := by
  induction l generalizing sets changed with
  | nil => exact h
  | cons n l ih =>
    rw [List.forall_mem_cons] at hl
    exact ih (hg.visitNode_inv h hl.1.1 hl.1.2) hl.2 _

theorem FlowGraph.mem_round (v : Int64) :
    v ∈ order.tail.filter (fun node => order.head? ≠ some node) ↔ Reached E root v ∧ v ≠ root := by
  obtain ⟨rest, rfl⟩ := hg.order_eq
  have horder := hg.order_iff v
  simp only [List.mem_cons] at horder
  simp only [List.tail_cons, List.head?_cons, List.mem_filter, ne_eq, Option.some.injEq,
    decide_not, Bool.not_eq_eq_eq_not, Bool.not_true, decide_eq_false_iff_not, ← horder]
  grind

theorem FlowGraph.visitNodes_inv (h : FlowInv E nodes root sets) :
    FlowInv E nodes root (visitNodes before sets order).1 :=
  hg.foldl_inv h (fun _ hn => (hg.mem_round _).mp hn) false

end Rounds

theorem visitNode_unchanged (h : (visitNode before sets n).2 = false) :
    (visitNode before sets n).1 = sets := by
  rw [visitNode] at h ⊢
  cases hc : intersect sets (before n) with
  | none => rfl
  | some common =>
    rw [hc] at h
    dsimp only at h ⊢
    split
    · rfl
    · rename_i hnew
      rw [if_neg hnew] at h
      cases h

/-- A round without a change has found every set as it should be. -/
theorem foldl_unchanged {l : List Int64} {changed : Bool}
    (h : (l.foldl (visitNext before) (sets, changed)).2 = false) :
    changed = false ∧ (l.foldl (visitNext before) (sets, changed)).1 = sets ∧
      ∀ n ∈ l, (visitNode before sets n).2 = false := by
  induction l generalizing sets changed with
  | nil => exact ⟨h, rfl, by simp⟩
  | cons n l ih =>
    rw [List.foldl_cons] at h ⊢
    change (l.foldl (visitNext before) ((visitNode before sets n).1,
      changed || (visitNode before sets n).2)).2 = false at h
    change _ ∧ (l.foldl (visitNext before) ((visitNode before sets n).1,
      changed || (visitNode before sets n).2)).1 = sets ∧ _
    obtain ⟨hchanged, hsame, hall⟩ := ih h
    rw [Bool.or_eq_false_iff] at hchanged
    have hsets := visitNode_unchanged hchanged.2
    rw [hsets] at hsame hall ⊢
    exact ⟨hchanged.1, hsame, List.forall_mem_cons.mpr ⟨hchanged.2, hall⟩⟩

/-- The sets of dominators, and all nodes for those that are not reached. -/
structure DominatorSets (E : Int64 → Int64 → Prop) (nodes : List Int64) (root : Int64)
    (sets : NodeSets) : Prop extends FlowInv E nodes root sets where
  exact : ∀ n set, Reached E root n → sets n = some set → ∀ d, d ∈ set ↔ Dominates E root d n

/-- Where no set changes any more, the sets hold dominators alone. -/
theorem FlowGraph.solved (hg : FlowGraph E before nodes root order) (h : FlowInv E nodes root sets)
    (hfix : (visitNodes before sets order).2 = false) : DominatorSets E nodes root sets := by
  obtain ⟨-, -, hround⟩ := foldl_unchanged hfix
  refine ⟨h, fun n set hn hset d => ⟨fun hd => ?_, fun hd => h.dominators n set hset d hd hn⟩⟩
  have hflow : d ∈ ({d | ∃ set, sets n = some set ∧ d ∈ set} : Set Int64) := ⟨set, hset, hd⟩
  refine dominates_of_flow (fun n => {d | ∃ set, sets n = some set ∧ d ∈ set}) ?_ ?_ hflow
  · rintro d ⟨set, hset, hd⟩
    rw [h.start, Option.some.injEq] at hset
    rw [← hset] at hd
    exact List.mem_singleton.mp hd
  · rintro u v hu he hne d ⟨set, hset, hd⟩
    have hv := hu.step he
    obtain ⟨common, hrun, -, hmem⟩ := hg.common_run h hv hne
    have hunchanged := hround v ((hg.mem_round v).mpr ⟨hv, hne⟩)
    rw [visitNode, hrun, hset] at hunchanged
    dsimp only at hunchanged
    split at hunchanged
    · rename_i hsame
      rw [Option.any_some, sameSet_iff] at hsame
      have hd := (hsame d).mpr hd
      rw [List.mem_insert_iff] at hd
      refine hd.imp_right fun hd => ?_
      obtain ⟨set', hset', -⟩ := h.get u (hg.closed u v he).1
      exact ⟨set', hset', (hmem d).mp hd u he set' hset'⟩
    · cases hunchanged

theorem FlowGraph.iterateSets_solved (hg : FlowGraph E before nodes root order)
    {failure : SqliteGraphError} {rounds : Nat} (h : FlowInv E nodes root sets)
    (hrun : iterateSets before order failure rounds sets = .ok sets') :
    DominatorSets E nodes root sets' := by
  induction rounds generalizing sets with
  | zero => cases hrun
  | succ rounds ih =>
    rw [iterateSets] at hrun
    dsimp only at hrun
    split at hrun
    · rename_i hfix
      cases hrun
      rw [Bool.not_eq_true'] at hfix
      obtain ⟨-, hsame, -⟩ := foldl_unchanged hfix
      rw [visitNodes, hsame]
      exact hg.solved h hfix
    · exact ih (hg.visitNodes_inv h) hrun

theorem iterateSets_error {failure e : SqliteGraphError} {rounds : Nat}
    (h : iterateSets before order failure rounds sets = .error e) : e = failure := by
  induction rounds generalizing sets with
  | zero =>
    cases h
    rfl
  | succ rounds ih =>
    rw [iterateSets] at h
    dsimp only at h
    split at h
    · cases h
    · exact ih h

section Extraction
variable {strict l : List Int64}

/-- All others are in the set of the candidate. -/
def Nearest (sets : NodeSets) (strict : List Int64) (candidate : Int64) : Prop :=
  ∃ set, sets candidate = some set ∧ ∀ other ∈ strict, other = candidate ∨ other ∈ set

theorem findImmediate_nearest (best : Option Int64) (maxSize : Nat)
    (h : ∃ i ∈ l, Nearest sets strict i) :
    ∃ i ∈ l, Nearest sets strict i ∧ findImmediate sets strict l best maxSize = some i := by
  induction l generalizing best maxSize with
  | nil => simp at h
  | cons candidate rest ih =>
    have hrest : ¬ Nearest sets strict candidate → ∀ best maxSize, ∃ i ∈ candidate :: rest,
        Nearest sets strict i ∧ findImmediate sets strict rest best maxSize = some i := by
      intro hnot best maxSize
      obtain ⟨i, hi, hnear, hrun⟩ := ih best maxSize
        (by simpa [hnot] using List.exists_mem_cons_iff .. |>.mp h)
      exact ⟨i, List.mem_cons_of_mem _ hi, hnear, hrun⟩
    rw [findImmediate]
    cases hset : sets candidate with
    | none =>
      refine hrest ?_ best maxSize
      rintro ⟨set, hsome, -⟩
      rw [hset] at hsome
      cases hsome
    | some set =>
      dsimp only
      split
      · rename_i hall
        refine ⟨candidate, List.mem_cons_self, ⟨set, hset, ?_⟩, rfl⟩
        simpa using hall
      · rename_i hall
        have hnot : ¬ Nearest sets strict candidate := by
          rintro ⟨set', hset', hothers⟩
          rw [hset, Option.some.injEq] at hset'
          subst hset'
          exact hall (by simpa using hothers)
        split
        · exact hrest hnot _ _
        · exact hrest hnot _ _

/-- The immediate dominator of a node that is reached is found in any order. -/
theorem DominatorSets.extract (h : DominatorSets E nodes root sets) (choices : Int64 → Nat → Nat)
    (hnodes : ∀ v, Reached E root v → v ∈ nodes) (hn : Reached E root n) (hne : n ≠ root) :
    ∃ i, extractImmediate choices sets root n = some (some i) ∧
      ImmediatelyDominates E root i n := by
  obtain ⟨set, hset, -⟩ := h.get n (hnodes n hn)
  have hstrict : ∀ d, d ∈ (drain (choices n) set).filter (· ≠ n) ↔ StrictlyDominates E root d n := by
    intro d
    simp only [List.mem_filter, (drain_perm (choices n) set).mem_iff, decide_eq_true_eq,
      h.exact n set hn hset, StrictlyDominates]
  have hdom : ∀ d ∈ (drain (choices n) set).filter (· ≠ n), Dominates E root d n :=
    fun d hd => ((hstrict d).mp hd).1
  have hroot : (drain (choices n) set).filter (· ≠ n) ≠ [] :=
    List.ne_nil_of_mem ((hstrict root).mpr ⟨.root_dominates, Ne.symm hne⟩)
  have hget : ∀ d ∈ (drain (choices n) set).filter (· ≠ n), ∃ set', sets d = some set' ∧
      ∀ x, x ∈ set' ↔ Dominates E root x d := by
    intro d hd
    have hreached := (hdom d hd).reached hn
    obtain ⟨set', hset', -⟩ := h.get d (hnodes d hreached)
    exact ⟨set', hset', h.exact d set' hreached hset'⟩
  obtain ⟨i, hi, hnearest⟩ := exists_nearest hroot hdom hn
  obtain ⟨seti, hseti, hmemi⟩ := hget i hi
  obtain ⟨j, hj, ⟨setj, hsetj, hothers⟩, hrun⟩ := findImmediate_nearest none 0
    ⟨i, hi, seti, hseti, fun other ho => .inr ((hmemi other).mpr (hnearest other ho))⟩
  refine ⟨j, ?_, (hstrict j).mp hj, fun c hc => ?_⟩
  · rw [extractImmediate, if_neg hne, hset]
    exact congrArg some hrun
  · rcases hothers c ((hstrict c).mpr hc) with rfl | hin
    · exact .refl
    · exact (h.exact j setj ((hdom j hj).reached hn) hsetj c).mp hin

end Extraction

end SqliteGraph.Algo
