import SqliteGraph.Algo.PathEnumeration

/-! Which paths the enumeration returns: every one that ends where it must, within the bounds. -/
namespace SqliteGraph.Algo
open Lib Sqlite

namespace PathEnumerationConfig
variable (config : PathEnumerationConfig)

def endsAt (path : List Int64) : Bool := path.getLast?.any fun node => config.isTerminal node path.length

def classified (path : List Int64) : EnumeratedPath :=
  ⟨path, config.classify (path.getLast?.getD 0) path⟩

end PathEnumerationConfig

def admittedAfter (pruning : Pruning) (path : List Int64) (successor : Int64) : Bool :=
  pruning.admits (path ++ [successor]) (path.filter pruning.isLoopHeader)

/-- The successors that the bounds leave. -/
def successorsOf (t : Tables) (config : PathEnumerationConfig) (path : List Int64) : List Int64 :=
  if config.endsAt path then []
  else ((path.getLast?.toList.flatMap (fetchOutgoing t)).filter
    fun successor => path.count successor < config.revisitCap)

def ended (config : PathEnumerationConfig) (path : List Int64) : List (List Int64) :=
  if config.endsAt path then [path] else []

/-- The paths that the search comes to, in its order. -/
def pathsBelow (t : Tables) (config : PathEnumerationConfig) (pruning : Pruning) :
    Nat → List Int64 → List (List Int64) :=
  pathTree (ended config) fun path => (successorsOf t config path).filter (admittedAfter pruning path)

section Run
variable {t : Tables} {config : PathEnumerationConfig} {pruning : Pruning} {s s' : Enumeration}
  {path ws : List Int64} {node w : Int64} {fuel : Nat}

/-- The path, the counts and the active loops belong together, and no path is over the limit. -/
structure Tracks (config : PathEnumerationConfig) (pruning : Pruning) (path : List Int64)
    (s : Enumeration) : Prop where
  currentPath : s.currentPath = path
  visited : ∀ v, s.visited v = path.count v
  loopStack : s.loopStack = path.filter pruning.isLoopHeader
  limit : s.allPaths.length ≤ config.maxPaths
  found : s.totalFound = s.allPaths.length
  stats : s.pathsPruned ≤ s.totalConsidered

theorem Tracks.enter (h : Tracks config pruning path s) (node : Int64) :
    Tracks config pruning (path ++ [node]) (s.enter pruning node) := by
  refine ⟨by rw [Enumeration.enter, h.currentPath], fun v => ?_, ?_, h.limit, h.found, h.stats⟩
  · by_cases hv : v = node
    · subst v
      simp [Enumeration.enter, h.visited]
    · simp [Enumeration.enter, Function.update_of_ne hv, h.visited, Ne.symm hv]
  · rw [List.filter_append, Enumeration.enter, h.loopStack]
    cases hheader : pruning.isLoopHeader node with
    | true => simp [hheader]
    | false => simp [hheader]

theorem Tracks.leave (h : Tracks config pruning (path ++ [node]) s) :
    Tracks config pruning path (s.leave pruning node) := by
  refine ⟨by simp [Enumeration.leave, h.currentPath], fun v => ?_, ?_, h.limit, h.found, h.stats⟩
  · by_cases hv : v = node
    · subst v
      simp [Enumeration.leave, h.visited]
    · simp [Enumeration.leave, Function.update_of_ne hv, h.visited, Ne.symm hv]
  · have hstack := h.loopStack
    rw [List.filter_append] at hstack
    cases hheader : pruning.isLoopHeader node with
    | true =>
      have hpushed : s.loopStack = path.filter pruning.isLoopHeader ++ [node] := by
        simpa [hheader] using hstack
      simp [Enumeration.leave, hheader, hpushed]
    | false =>
      have hsame : s.loopStack = path.filter pruning.isLoopHeader := by simpa [hheader] using hstack
      simp [Enumeration.leave, hheader, hsame]

/-- What a step of the search adds to the paths that are found, as far as the limit allows. -/
structure Adds (config : PathEnumerationConfig) (pruning : Pruning) (path : List Int64)
    (more : List (List Int64)) (s s' : Enumeration) : Prop where
  tracks : Tracks config pruning path s'
  allPaths : s'.allPaths = (s.allPaths ++ more.map config.classified).take config.maxPaths

theorem Adds.nothing (h : Tracks config pruning path s) (h' : Tracks config pruning path s')
    (heq : s'.allPaths = s.allPaths) : Adds config pruning path [] s s' := by
  refine ⟨h', ?_⟩
  rw [List.map_nil, List.append_nil, heq, List.take_of_length_le h.limit]

theorem Adds.trans {more more' : List (List Int64)} {s₁ s₂ s₃ : Enumeration}
    (h : Adds config pruning path more s₁ s₂) (h' : Adds config pruning path more' s₂ s₃) :
    Adds config pruning path (more ++ more') s₁ s₃ := by
  refine ⟨h'.tracks, ?_⟩
  rw [h'.allPaths, h.allPaths, take_append_take, List.map_append, List.append_assoc]

/-- Once there are enough paths nothing is added. -/
theorem Adds.full (h : Tracks config pruning path s) (hfull : config.maxPaths ≤ s.allPaths.length)
    (more : List (List Int64)) : Adds config pruning path more s s := by
  refine ⟨h, ?_⟩
  rw [List.take_append_of_le_length hfull, List.take_of_length_le h.limit]

theorem Tracks.record (h : Tracks config pruning path s) (hpath : path.getLast? = some node) :
    Adds config pruning path [path] s (s.record config.maxPaths ⟨path, config.classify node path⟩) := by
  rw [Enumeration.record]
  split
  case isTrue hlt =>
    have hclass : config.classified path = ⟨path, config.classify node path⟩ := by
      rw [PathEnumerationConfig.classified, hpath, Option.getD_some]
    refine ⟨⟨h.currentPath, h.visited, h.loopStack, ?_, ?_, h.stats⟩, ?_⟩
    · rw [List.length_append]
      exact hlt
    · rw [List.length_append]
      exact congrArg (· + 1) h.found
    · rw [List.map_singleton, hclass, List.take_of_length_le (by simpa using hlt)]
  case isFalse hle =>
    have hfull := Adds.full h (not_lt.mp hle) [path]
    exact ⟨⟨h.currentPath, h.visited, h.loopStack, h.limit, h.found, h.stats⟩, hfull.allPaths⟩

theorem Tracks.explore {explore : Int64 → Enumeration → Except SqliteGraphError Enumeration}
    {below : List (List Int64)} (h : Tracks config pruning path s)
    (hexplore : ∀ s, Tracks config pruning path s →
      ∃ s', explore w s = .ok s' ∧ Adds config pruning path below s s') :
    ∃ s', exploreSuccessor config pruning explore s w = .ok s' ∧ Adds config pruning path
      (if path.count w < config.revisitCap ∧ admittedAfter pruning path w then below else []) s s' := by
  have hadmits : pruning.admits (s.currentPath ++ [w]) s.loopStack = admittedAfter pruning path w := by
    rw [h.currentPath, h.loopStack, admittedAfter]
  rw [exploreSuccessor, h.visited, hadmits]
  by_cases hfull : config.maxPaths ≤ s.allPaths.length
  · rw [if_pos hfull]
    exact ⟨s, rfl, Adds.full h hfull _⟩
  rw [if_neg hfull]
  by_cases hcap : config.revisitCap ≤ path.count w
  · rw [if_pos hcap, if_neg fun hboth => absurd hcap (not_le.mpr hboth.1)]
    exact ⟨_, rfl, Adds.nothing h ⟨h.currentPath, h.visited, h.loopStack, h.limit, h.found, h.stats⟩ rfl⟩
  rw [if_neg hcap]
  by_cases hadmitted : admittedAfter pruning path w = true
  · rw [if_pos hadmitted, if_pos ⟨not_le.mp hcap, hadmitted⟩]
    obtain ⟨s', hrun, hadds⟩ := hexplore { s with totalConsidered := s.totalConsidered + 1 }
      ⟨h.currentPath, h.visited, h.loopStack, h.limit, h.found, h.stats.trans (Nat.le_succ _)⟩
    exact ⟨s', hrun, hadds.tracks, hadds.allPaths⟩
  · rw [if_neg hadmitted, if_neg fun hboth => hadmitted hboth.2]
    exact ⟨_, rfl, Adds.nothing h ⟨h.currentPath, h.visited, h.loopStack, h.limit, h.found,
      Nat.succ_le_succ h.stats⟩ rfl⟩

theorem Tracks.exploreAll {explore : Int64 → Enumeration → Except SqliteGraphError Enumeration}
    {below : Int64 → List (List Int64)} (h : Tracks config pruning path s)
    (hexplore : ∀ w ∈ ws, ∀ s, Tracks config pruning path s →
      ∃ s', explore w s = .ok s' ∧ Adds config pruning path (below w) s s') :
    ∃ s', ws.foldlM (exploreSuccessor config pruning explore) s = .ok s' ∧ Adds config pruning path
      ((ws.filter fun w => decide (path.count w < config.revisitCap ∧
        admittedAfter pruning path w)).flatMap below) s s' := by
  induction ws generalizing s with
  | nil => exact ⟨s, rfl, Adds.nothing h h rfl⟩
  | cons w ws ih =>
    obtain ⟨s₁, hrun₁, hadds₁⟩ := h.explore (hexplore w (.head ws))
    obtain ⟨s₂, hrun₂, hadds₂⟩ := ih hadds₁.tracks fun v hv => hexplore v (.tail w hv)
    refine ⟨s₂, ?_, ?_⟩
    · rw [List.foldlM_cons, hrun₁]
      exact hrun₂
    · have hboth := hadds₁.trans hadds₂
      rw [List.filter_cons]
      by_cases hw : path.count w < config.revisitCap ∧ admittedAfter pruning path w
      · rw [if_pos hw] at hboth
        rwa [if_pos (decide_eq_true hw), List.flatMap_cons]
      · rw [if_neg hw] at hboth
        rwa [if_neg (by simpa using hw)]

theorem Adds.leave {more : List (List Int64)} (h : Adds config pruning (path ++ [node]) more
    (s.enter pruning node) s') : Adds config pruning path more s (s'.leave pruning node) :=
  ⟨h.tracks.leave, h.allPaths⟩

/-- One call of the search, which leaves the path as it was. -/
theorem dfsWith_run (t : Tables) (h : Tracks config pruning path s) (hdepth : path.length ≤ config.maxDepth)
    (hfuel : config.maxDepth < fuel + path.length) : ∃ s', dfsWith t config pruning fuel node s = .ok s' ∧
      Adds config pruning path (pathsBelow t config pruning fuel (path ++ [node])) s s' := by
  induction fuel generalizing path node s with
  | zero => omega
  | succ fuel ih =>
    have henter := h.enter node
    have hlast : (path ++ [node]).getLast? = some node := List.getLast?_concat
    have hends : config.endsAt (path ++ [node]) = config.isTerminal node (path ++ [node]).length := by
      rw [PathEnumerationConfig.endsAt, hlast, Option.any_some]
    rw [dfsWith]
    simp only [henter.currentPath, ← hends]
    cases hterminal : config.endsAt (path ++ [node]) with
    | true =>
      refine ⟨_, rfl, ?_⟩
      have hbelow : pathsBelow t config pruning (fuel + 1) (path ++ [node]) = [path ++ [node]] := by
        rw [pathsBelow, pathTree, ended, if_pos hterminal, successorsOf, if_pos hterminal]
        rfl
      rw [hbelow]
      exact (henter.record hlast).leave
    | false =>
      have hshort : (path ++ [node]).length ≤ config.maxDepth := by
        rw [hends] at hterminal
        simp only [PathEnumerationConfig.isTerminal, Bool.or_eq_false_iff, decide_eq_false_iff_not] at hterminal
        omega
      have hlen : (path ++ [node]).length = path.length + 1 := by simp
      obtain ⟨s₁, hrun, hadds⟩ := @Tracks.exploreAll config pruning _ _ (fetchOutgoing t node) _
        (fun w => pathsBelow t config pruning fuel (path ++ [node] ++ [w])) henter
        fun w _ s hs => @ih s _ w hs hshort (by omega)
      refine ⟨s₁.leave pruning node, ?_, ?_⟩
      · simp only [Bool.false_eq_true, if_false, hrun]
        rfl
      · have hbelow : pathsBelow t config pruning (fuel + 1) (path ++ [node]) =
            ((fetchOutgoing t node).filter fun w => decide ((path ++ [node]).count w < config.revisitCap ∧
              admittedAfter pruning (path ++ [node]) w)).flatMap fun w =>
                pathsBelow t config pruning fuel (path ++ [node] ++ [w]) := by
          rw [pathsBelow, pathTree, ended, hterminal, successorsOf, hterminal, hlast]
          simp [List.filter_filter, Bool.and_comm]
        rw [hbelow]
        exact hadds.leave

theorem tracks_start : Tracks config pruning [] .start :=
  ⟨rfl, fun _ => rfl, rfl, Nat.zero_le _, rfl, le_rfl⟩

/-- What a search has found at its end. -/
structure Finds (t : Tables) (config : PathEnumerationConfig) (pruning : Pruning) (entry : Int64)
    (s : Enumeration) : Prop where
  found : s.totalFound = s.allPaths.length
  stats : s.pathsPruned ≤ s.totalConsidered
  allPaths : s.allPaths = ((pathsBelow t config pruning (config.maxDepth + 1) [entry]).map
    config.classified).take config.maxPaths

theorem dfsWith_start (t : Tables) (config : PathEnumerationConfig) (pruning : Pruning) (entry : Int64) :
    ∃ s, dfsWith t config pruning (config.maxDepth + 1) entry .start = .ok s ∧
      Finds t config pruning entry s := by
  obtain ⟨s, hrun, hadds⟩ := @dfsWith_run config pruning .start [] entry (config.maxDepth + 1) t
    tracks_start (Nat.zero_le _) (by simp)
  exact ⟨s, hrun, hadds.tracks.found, hadds.tracks.stats, hadds.allPaths⟩

end Run

/-- From the entry along edges to the first node where a path ends, with no node entered more often than
the cap lets it. -/
structure CompletePath (t : Tables) (config : PathEnumerationConfig) (entry : Int64) (path : List Int64) :
    Prop where
  head : path.head? = some entry
  chain : path.IsChain (Joined t)
  ends : config.endsAt path = true
  goesOn : ∀ pre post, path = pre ++ post → pre ≠ [] → post ≠ [] → config.endsAt pre = false
  capped : ∀ pre w post, path = pre ++ w :: post → pre ≠ [] → pre.count w < config.revisitCap

section Complete
variable {t : Tables} {config : PathEnumerationConfig} {pruning : Pruning} {entry w : Int64}
  {path ws : List Int64}

theorem mem_successorsOf : w ∈ successorsOf t config path ↔ config.endsAt path = false ∧
    (∃ u, path.getLast? = some u ∧ Joined t u w) ∧ path.count w < config.revisitCap := by
  rw [successorsOf]
  cases config.endsAt path with
  | true => simp
  | false =>
    cases path.getLast? with
    | none => simp
    | some u => simp [mem_fetchOutgoing]

theorem ranked_successors : Ranked (successorsOf t config) (fun path => path.length ≤ config.maxDepth + 1)
    fun path => config.maxDepth + 1 - path.length := by
  have hshort : ∀ p, ∀ w ∈ successorsOf t config p, p.length ≤ config.maxDepth := by
    intro p w hw
    obtain ⟨hends, ⟨u, hu, -⟩, -⟩ := mem_successorsOf.mp hw
    rw [PathEnumerationConfig.endsAt, hu, Option.any_some] at hends
    simp only [PathEnumerationConfig.isTerminal, Bool.or_eq_false_iff, decide_eq_false_iff_not] at hends
    omega
  constructor
  · intro p _ w hw
    have := hshort p w hw
    simp only [List.length_append, List.length_singleton]
    omega
  · intro p _ w hw
    have := hshort p w hw
    simp only [List.length_append, List.length_singleton]
    omega

theorem completePath_iff : CompletePath t config entry path ↔
    config.endsAt path = true ∧ GrowsTo (successorsOf t config) [entry] path := by
  rw [growsTo_iff]
  constructor
  · intro h
    obtain ⟨ws, rfl⟩ : ∃ ws, path = entry :: ws := by
      cases path with
      | nil => cases h.head
      | cons v ws =>
        obtain rfl : v = entry := Option.some.inj h.head
        exact ⟨ws, rfl⟩
    refine ⟨h.ends, ws, rfl, ?_⟩
    rintro pre w post rfl
    have hsplit : entry :: (pre ++ w :: post) = (entry :: pre) ++ w :: post := rfl
    refine mem_successorsOf.mpr ⟨h.goesOn (entry :: pre) (w :: post) hsplit (by simp) (by simp), ?_,
      h.capped (entry :: pre) w post hsplit (by simp)⟩
    obtain ⟨u, hu⟩ : ∃ u, (entry :: pre).getLast? = some u := ⟨_, List.getLast?_eq_some_getLast (by simp)⟩
    have hchain := h.chain
    rw [hsplit, List.isChain_append] at hchain
    exact ⟨u, hu, hchain.2.2 u hu w rfl⟩
  · rintro ⟨hends, ws, rfl, hws⟩
    have hsteps : ∀ pre w post, [entry] ++ ws = pre ++ w :: post → pre ≠ [] →
        w ∈ successorsOf t config pre := by
      intro pre w post hsplit hne
      obtain ⟨v, pre, rfl⟩ := List.exists_cons_of_ne_nil hne
      obtain ⟨rfl, hrest⟩ := List.cons.inj hsplit
      exact hws pre w post hrest
    refine ⟨rfl, ?_, hends, ?_, fun pre w post hsplit hne =>
      (mem_successorsOf.mp (hsteps pre w post hsplit hne)).2.2⟩
    · refine List.isChain_iff_forall_rel_of_append_cons_cons.mpr fun u w pre post hsplit => ?_
      have hstep := hsteps (pre ++ [u]) w post (by simpa using hsplit) (by simp)
      obtain ⟨-, ⟨x, hx, he⟩, -⟩ := mem_successorsOf.mp hstep
      obtain rfl : u = x := by simpa using hx
      exact he
    · intro pre post hsplit hne hpost
      obtain ⟨w, post, rfl⟩ := List.exists_cons_of_ne_nil hpost
      exact (mem_successorsOf.mp (hsteps pre w post hsplit hne)).1

/-- Each step after the first node was admitted. -/
def passes (pruning : Pruning) (path : List Int64) : Bool :=
  allowedFrom (admittedAfter pruning) (path.take 1) (path.drop 1)

theorem prefix_ended : ∀ p, ∀ q ∈ ended config p, q = p := by
  intro p q hq
  rw [ended] at hq
  split at hq
  · exact List.mem_singleton.mp hq
  · cases hq

theorem pathsBelow_unpruned (t : Tables) (config : PathEnumerationConfig) (fuel : Nat) (path : List Int64) :
    pathsBelow t config unpruned fuel path = pathTree (ended config) (successorsOf t config) fuel path := by
  have hall : ∀ p, (successorsOf t config p).filter (admittedAfter unpruned p) = successorsOf t config p :=
    fun p => List.filter_eq_self.mpr fun _ _ => rfl
  simp only [pathsBelow, hall]

theorem mem_pathsBelow_unpruned : path ∈ pathsBelow t config unpruned (config.maxDepth + 1) [entry] ↔
    CompletePath t config entry path := by
  rw [pathsBelow_unpruned, mem_pathTree ranked_successors (by simp) (by simp), completePath_iff]
  constructor
  · rintro ⟨r, hr, hq⟩
    obtain rfl := prefix_ended r path hq
    rw [ended] at hq
    split at hq
    · exact ⟨by assumption, hr⟩
    · cases hq
  · rintro ⟨hends, hgrows⟩
    exact ⟨path, hgrows, by simp [ended, hends]⟩

/-- The pruning takes away the paths that have a step which it does not admit. -/
theorem pathsBelow_pruned (t : Tables) (config : PathEnumerationConfig) (pruning : Pruning) (entry : Int64) :
    pathsBelow t config pruning (config.maxDepth + 1) [entry] =
      (pathsBelow t config unpruned (config.maxDepth + 1) [entry]).filter (passes pruning) := by
  rw [pathsBelow_unpruned, pathsBelow, pathTree_filter prefix_ended]
  refine List.filter_congr fun q hq => ?_
  obtain ⟨rest, rfl⟩ := prefix_of_mem_pathTree
    (fun p q hq => prefix_ended p q hq ▸ List.prefix_rfl) hq
  rfl

theorem classification_of_ends (hends : config.endsAt path = true) :
    (config.classified path).classification ≠ .infinite := by
  rw [PathEnumerationConfig.endsAt] at hends
  cases hlast : path.getLast? with
  | none => simp [hlast] at hends
  | some u =>
    simp only [hlast, Option.any_some, PathEnumerationConfig.isTerminal, Bool.or_eq_true,
      decide_eq_true_eq] at hends
    simp only [PathEnumerationConfig.classified, PathEnumerationConfig.classify, hlast, Option.getD_some]
    split_ifs <;> simp_all

end Complete

section Classes
variable {t : Tables} {config : PathEnumerationConfig} {pruning : Pruning} {entry : Int64}
  {s : Enumeration} {stats : Option PathEnumerationPruningStats}

/-- The paths are the ones found, class by class. -/
theorem paths_perm (s : Enumeration) (stats : Option PathEnumerationPruningStats) :
    (PathEnumerationResult.of s stats).paths.Perm s.allPaths := by
  simp only [PathEnumerationResult.of]
  induction s.allPaths with
  | nil => exact .nil
  | cons p paths ih =>
    have hcons : ∀ c, (p :: paths).filter (·.classification = c) = if p.classification = c then
        p :: paths.filter (·.classification = c) else paths.filter (·.classification = c) := by
      intro c
      by_cases hc : p.classification = c
      · simp [hc]
      · simp [hc]
    simp only [hcons, List.append_assoc] at ih ⊢
    cases hclass : p.classification with
    | normal =>
      simp only [reduceCtorEq, if_true, if_false]
      exact ih.cons p
    | error =>
      simp only [reduceCtorEq, if_true, if_false]
      exact List.perm_middle.trans (ih.cons p)
    | degenerate =>
      simp only [reduceCtorEq, if_true, if_false, List.cons_append]
      rw [← List.append_assoc] at ih ⊢
      exact List.perm_middle.trans (ih.cons p)
    | infinite =>
      simp only [reduceCtorEq, if_true, if_false]
      rw [← List.append_assoc, ← List.append_assoc] at ih ⊢
      exact List.perm_middle.trans (ih.cons p)

theorem Finds.sound (h : Finds t config pruning entry s) {p : EnumeratedPath} (hp : p ∈ s.allPaths) :
    CompletePath t config entry p.nodes ∧ passes pruning p.nodes = true ∧ p = config.classified p.nodes := by
  rw [h.allPaths] at hp
  obtain ⟨path, hpath, rfl⟩ := List.mem_map.mp (List.mem_of_mem_take hp)
  rw [pathsBelow_pruned, List.mem_filter] at hpath
  exact ⟨mem_pathsBelow_unpruned.mp hpath.1, hpath.2, rfl⟩

theorem Finds.infinite (h : Finds t config pruning entry s) :
    (PathEnumerationResult.of s stats).infinitePaths = [] := by
  simp only [PathEnumerationResult.of]
  refine List.filter_eq_nil_iff.mpr fun p hp => ?_
  obtain ⟨hcomplete, -, hclass⟩ := h.sound hp
  rw [hclass]
  simpa using classification_of_ends hcomplete.ends

theorem Finds.length (h : Finds t config pruning entry s) :
    (PathEnumerationResult.of s stats).totalPathsFound =
      (PathEnumerationResult.of s stats).paths.length := by
  rw [(paths_perm s stats).length_eq]
  exact h.found

/-- Below the limit nothing has been cut off. -/
theorem Finds.all (h : Finds t config pruning entry s)
    (hlt : (PathEnumerationResult.of s stats).paths.length < config.maxPaths) :
    s.allPaths = (pathsBelow t config pruning (config.maxDepth + 1) [entry]).map config.classified := by
  rw [(paths_perm s stats).length_eq, h.allPaths, List.length_take] at hlt
  rw [h.allPaths, List.take_of_length_le (by omega)]

/-- A pruned search next to the plain one. -/
theorem Finds.pruned {s' : Enumeration} (h : Finds t config unpruned entry s)
    (h' : Finds t config pruning entry s')
    (hlt : (PathEnumerationResult.of s stats).paths.length < config.maxPaths) :
    s'.allPaths = s.allPaths.filter fun p => passes pruning p.nodes := by
  have hall := h.all hlt
  have hcut : ((pathsBelow t config pruning (config.maxDepth + 1) [entry]).map config.classified).length <
      config.maxPaths := by
    have hle := List.length_filter_le (passes pruning) (pathsBelow t config unpruned (config.maxDepth + 1) [entry])
    rw [(paths_perm s stats).length_eq, hall, List.length_map] at hlt
    rw [List.length_map, pathsBelow_pruned]
    omega
  rw [h'.allPaths, List.take_of_length_le hcut.le, hall, pathsBelow_pruned, List.filter_map]
  rfl

end Classes

/-- Below the limit the pruned search finds, class by class and in the same order, the paths of the plain
one whose steps the check admits; without a check it finds all of them. -/
theorem enumeratePathsWithDominance_exact (t : Tables) (entry : Int64) (domResult : DominatorResult)
    (cdResult : ControlDependenceResult) (loopsResult : NaturalLoopsResult)
    (config : PathEnumerationDominanceConfig) :
    let pruning := constrained domResult cdResult loopsResult config
    ∃ r r' stats, enumeratePaths t entry config.base = .ok r ∧
      enumeratePathsWithDominance t entry domResult cdResult loopsResult config = .ok r' ∧
      r'.pruningStats = some stats ∧ 0 ≤ stats.reductionRatio ∧ stats.reductionRatio ≤ 1 ∧
      r'.infinitePaths = [] ∧
      (∀ p ∈ r'.paths, CompletePath t config.base entry p.nodes ∧ passes pruning p.nodes = true ∧
        p = config.base.classified p.nodes) ∧
      (r.paths.length < config.base.maxPaths →
        r'.normalPaths = r.normalPaths.filter (fun p => passes pruning p.nodes) ∧
        r'.errorPaths = r.errorPaths.filter (fun p => passes pruning p.nodes) ∧
        r'.degeneratePaths = r.degeneratePaths.filter (fun p => passes pruning p.nodes)) ∧
      (config.useDominancePruning = false → config.useControlDependencePruning = false →
        config.useLoopConstraintPruning = false → r'.paths = r.paths) := by
  intro pruning
  obtain ⟨s, hrun, hfinds⟩ := dfsWith_start t config.base unpruned entry
  obtain ⟨s', hrun', hfinds'⟩ := dfsWith_start t config.base pruning entry
  have hperm' := paths_perm s' (some s'.stats)
  refine ⟨.of s none, .of s' (some s'.stats), s'.stats, ?_, ?_, rfl, ?_, ?_, hfinds'.infinite, ?_, ?_, ?_⟩
  · rw [enumeratePaths, dfsEnumerate, hrun]
    rfl
  · rw [enumeratePathsWithDominance, dfsWithConstraints, hrun']
    rfl
  · rw [Enumeration.stats]
    split
    · positivity
    · exact le_rfl
  · rw [Enumeration.stats]
    split
    case isTrue hpos =>
      have hle : (s'.pathsPruned : ℚ) ≤ s'.totalConsidered := Nat.cast_le.mpr hfinds'.stats
      exact div_le_one_of_le₀ hle (Nat.cast_nonneg _)
    case isFalse => exact zero_le_one
  · exact fun p hp => hfinds'.sound (hperm'.mem_iff.mp hp)
  · intro hlt
    have hpruned := hfinds.pruned hfinds' hlt
    simp only [PathEnumerationResult.of, hpruned, List.filter_filter, Bool.and_comm]
    exact ⟨trivial, trivial, trivial⟩
  · intro hdom hcontrol hloop
    have hsame : ∀ path successor, admittedAfter pruning path successor = true := by
      intro path successor
      simp only [pruning, admittedAfter, constrained, hdom, hcontrol, hloop, Bool.false_eq_true, if_false]
    have hbelow : pathsBelow t config.base pruning (config.base.maxDepth + 1) [entry] =
        pathsBelow t config.base unpruned (config.base.maxDepth + 1) [entry] := by
      have hall : ∀ path l, List.filter (admittedAfter pruning path) l = l :=
        fun path l => List.filter_eq_self.mpr fun successor _ => hsame path successor
      rw [pathsBelow_unpruned]
      simp only [pathsBelow, hall]
    simp only [PathEnumerationResult.of, hfinds.allPaths, hfinds'.allPaths, hbelow]

end SqliteGraph.Algo
