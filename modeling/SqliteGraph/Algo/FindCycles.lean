import SqliteGraph.Algo.CondensedGraph
import SqliteGraph.Lib.PathTree

/-! Cycles up to a limit, by a search from each node with the paths on a stack. -/
namespace SqliteGraph.Algo
open Lib Sqlite

/-- What one search leaves: the cycles found so far, and whether the limit has been reached. -/
structure Harvest where
  cycles : List (List Int64)
  stopped : Bool

/-- The neighbors of the last node of a path: a cycle, or one more path on the stack, whose top is its
head. -/
def scanNeighbors (start : Int64) (limit maxLen : Nat) (path : List Int64) :
    List Int64 → List (List Int64) → List (List Int64) → List (List Int64) × Harvest
  | [], stack, cycles => (stack, ⟨cycles, false⟩)
  | next :: neighbors, stack, cycles =>
    if next = start ∧ 1 < path.length then
      let cycles := cycles ++ [path ++ [start]]
      if limit ≤ cycles.length then (stack, ⟨cycles, true⟩)
      else scanNeighbors start limit maxLen path neighbors stack cycles
    else if next ∈ path then scanNeighbors start limit maxLen path neighbors stack cycles
    else if maxLen < path.length + 1 then scanNeighbors start limit maxLen path neighbors stack cycles
    else scanNeighbors start limit maxLen path neighbors ((path ++ [next]) :: stack) cycles

/-- An entry of the stack is a path; its node is the last of it. -/
def cycleLoop (t : Tables) (start : Int64) (limit maxLen : Nat) :
    Nat → List (List Int64) → List (List Int64) → Except SqliteGraphError Harvest
  | _, [], cycles => .ok ⟨cycles, false⟩
  | 0, _ :: _, _ => .error .outOfFuel
  | fuel + 1, path :: stack, cycles =>
    let (stack, harvest) := scanNeighbors start limit maxLen path
      (fetchOutgoing t (path.getLast?.getD start)) stack cycles
    if harvest.stopped then .ok harvest
    else cycleLoop t start limit maxLen fuel stack harvest.cycles

def cyclesFrom (t : Tables) (limit maxLen fuel : Nat) :
    List Int64 → List (List Int64) → Except SqliteGraphError (List (List Int64))
  | [], cycles => .ok cycles
  | start :: ids, cycles => do
    let harvest ← cycleLoop t start limit maxLen fuel [[start]] cycles
    if harvest.stopped then return harvest.cycles
    else cyclesFrom t limit maxLen fuel ids harvest.cycles

/-- The index of the first of the least elements. -/
def minIndex (l : List Int64) : Nat := l.findIdx fun v => decide (∀ w ∈ l, v ≤ w)

def normalizeCycles (cycles : List (List Int64)) : List (List Int64) :=
  (cycles.map fun cycle => cycle.rotate (minIndex cycle)).mergeSort fun c d => decide (c ≤ d)

def findCyclesLimited (t : Tables) (fuel limit : Nat) : Except SqliteGraphError (List (List Int64)) :=
  if limit = 0 then .ok []
  else do
    let cycles ← cyclesFrom t limit t.entities.length fuel t.entities []
    return normalizeCycles cycles

section Stack
variable {t : Tables} {start w : Int64} {limit maxLen : Nat} {path neighbors : List Int64}
  {stack cycles found : List (List Int64)}

def closes (start : Int64) (path : List Int64) (next : Int64) : Bool := decide (next = start ∧ 1 < path.length)

/-- The neighbors that the path goes on to. -/
def opens (start : Int64) (maxLen : Nat) (path : List Int64) (next : Int64) : Bool :=
  decide (closes start path next = false ∧ next ∉ path ∧ path.length + 1 ≤ maxLen)

/-- The search goes on with what has been found, unless that is enough. -/
def harvested (limit : Nat) (found : List (List Int64)) : Harvest :=
  ⟨found.take limit, decide (limit ≤ found.length)⟩

theorem harvested_full {c : List Int64} {rest : List (List Int64)} (hlt : cycles.length < limit)
    (hfull : limit ≤ (cycles ++ [c]).length) :
    harvested limit (cycles ++ c :: rest) = ⟨cycles ++ [c], true⟩ := by
  have hlen : limit = (cycles ++ [c]).length := by
    rw [List.length_append, List.length_singleton] at hfull ⊢
    omega
  rw [List.append_cons, harvested, hlen, List.take_left]
  simp

theorem scanNeighbors_run (hlt : cycles.length < limit) :
    (scanNeighbors start limit maxLen path neighbors stack cycles).2 =
      harvested limit (cycles ++ (neighbors.filter (closes start path)).map fun _ => path ++ [start]) ∧
    ((scanNeighbors start limit maxLen path neighbors stack cycles).2.stopped = false →
      (scanNeighbors start limit maxLen path neighbors stack cycles).1 =
        (neighbors.filter (opens start maxLen path)).reverse.map (fun w => path ++ [w]) ++ stack) := by
  induction neighbors generalizing stack cycles with
  | nil =>
    refine ⟨?_, fun _ => rfl⟩
    rw [scanNeighbors, harvested, decide_eq_false (by simpa using hlt), List.take_of_length_le (by simpa using hlt.le)]
    simp
  | cons next neighbors ih =>
    rw [scanNeighbors]
    by_cases hclose : next = start ∧ 1 < path.length
    · have hcloses : closes start path next = true := decide_eq_true hclose
      have hopens : opens start maxLen path next = false := by simp [opens, hcloses]
      simp only [if_pos hclose, List.filter_cons, hcloses, hopens, if_true, Bool.false_eq_true, if_false,
        List.map_cons]
      by_cases hfull : limit ≤ (cycles ++ [path ++ [start]]).length
      · rw [if_pos hfull]
        refine ⟨?_, by simp⟩
        exact (harvested_full hlt hfull).symm
      · rw [if_neg hfull]
        have hrest := @ih stack (cycles ++ [path ++ [start]]) (not_le.mp hfull)
        rw [List.append_assoc, List.singleton_append] at hrest
        exact hrest
    · have hcloses : closes start path next = false := decide_eq_false hclose
      simp only [if_neg hclose, List.filter_cons, hcloses, Bool.false_eq_true, if_false]
      by_cases hin : next ∈ path
      · have hopens : opens start maxLen path next = false := by simp [opens, hin]
        simp only [if_pos hin, hopens, Bool.false_eq_true, if_false]
        exact ih hlt
      · by_cases hlong : maxLen < path.length + 1
        · have hopens : opens start maxLen path next = false := by
            simp only [opens, decide_eq_false_iff_not]
            omega
          simp only [if_neg hin, if_pos hlong, hopens, Bool.false_eq_true, if_false]
          exact ih hlt
        · have hopens : opens start maxLen path next = true :=
            decide_eq_true ⟨hcloses, hin, not_lt.mp hlong⟩
          simp only [if_neg hin, if_neg hlong, hopens, if_true]
          obtain ⟨hharvest, hstack⟩ := @ih ((path ++ [next]) :: stack) cycles hlt
          refine ⟨hharvest, fun hgoes => ?_⟩
          rw [hstack hgoes]
          simp

def cycleSteps (t : Tables) (start : Int64) (maxLen : Nat) (path : List Int64) : List Int64 :=
  ((fetchOutgoing t (path.getLast?.getD start)).filter (opens start maxLen path)).reverse

def cyclesAt (t : Tables) (start : Int64) (path : List Int64) : List (List Int64) :=
  ((fetchOutgoing t (path.getLast?.getD start)).filter (closes start path)).map fun _ => path ++ [start]

def resume (t : Tables) (start : Int64) (limit maxLen fuel : Nat) (stack found : List (List Int64)) :
    Except SqliteGraphError Harvest :=
  if limit ≤ found.length then .ok (harvested limit found)
  else cycleLoop t start limit maxLen fuel stack found

theorem harvested_append (hfull : limit ≤ found.length) (more : List (List Int64)) :
    harvested limit (found ++ more) = harvested limit found := by
  have hfull' : limit ≤ (found ++ more).length := by
    rw [List.length_append]
    omega
  rw [harvested, harvested, List.take_append_of_le_length hfull, decide_eq_true hfull, decide_eq_true hfull']

theorem resume_full (hfull : limit ≤ found.length) (fuel : Nat) (more : List (List Int64)) :
    resume t start limit maxLen fuel stack (found ++ more) = .ok (harvested limit found) := by
  have hfull' : limit ≤ (found ++ more).length := by
    rw [List.length_append]
    omega
  rw [resume, if_pos hfull', harvested_append hfull]

theorem cycleLoop_step (hlt : cycles.length < limit) (fuel : Nat) :
    cycleLoop t start limit maxLen (fuel + 1) (path :: stack) cycles = resume t start limit maxLen fuel
      ((cycleSteps t start maxLen path).map (fun w => path ++ [w]) ++ stack)
      (cycles ++ cyclesAt t start path) := by
  obtain ⟨hharvest, hstack⟩ := @scanNeighbors_run start limit maxLen path
    (fetchOutgoing t (path.getLast?.getD start)) stack cycles hlt
  rw [cycleLoop, resume, cyclesAt]
  simp only [hharvest, harvested] at hstack ⊢
  by_cases hfull : limit ≤ (cycles ++ ((fetchOutgoing t (path.getLast?.getD start)).filter
      (closes start path)).map fun _ => path ++ [start]).length
  · rw [if_pos hfull, if_pos (decide_eq_true hfull)]
  · rw [if_neg hfull, if_neg (by simpa using hfull), hstack (decide_eq_false hfull),
      List.take_of_length_le (not_le.mp hfull).le, cycleSteps]

/-- With fuel for it the loop gets all that a path on the stack leads to, and goes on below it. -/
def Unwinds (t : Tables) (start : Int64) (limit maxLen : Nat) (paths found : List (List Int64)) : Prop :=
  ∃ n, ∀ fuel stack cycles, cycles.length < limit →
    cycleLoop t start limit maxLen (fuel + n) (paths ++ stack) cycles =
      resume t start limit maxLen fuel stack (cycles ++ found)

theorem unwinds_nil : Unwinds t start limit maxLen [] [] := by
  refine ⟨0, fun fuel stack cycles hlt => ?_⟩
  rw [resume, List.append_nil, if_neg (not_le.mpr hlt)]
  rfl

theorem Unwinds.append {paths paths' found' : List (List Int64)}
    (h : Unwinds t start limit maxLen paths found) (h' : Unwinds t start limit maxLen paths' found') :
    Unwinds t start limit maxLen (paths ++ paths') (found ++ found') := by
  obtain ⟨n, hn⟩ := h
  obtain ⟨n', hn'⟩ := h'
  refine ⟨n' + n, fun fuel stack cycles hlt => ?_⟩
  rw [← Nat.add_assoc, List.append_assoc, hn _ _ _ hlt, ← List.append_assoc cycles]
  by_cases hfull : limit ≤ (cycles ++ found).length
  · rw [resume_full hfull, resume, if_pos hfull]
  · rw [resume, if_neg hfull, hn' _ _ _ (not_le.mp hfull)]

theorem unwinds_flatMap {T : List Int64 → List (List Int64)} {paths : List (List Int64)}
    (h : ∀ path ∈ paths, Unwinds t start limit maxLen [path] (T path)) :
    Unwinds t start limit maxLen paths (paths.flatMap T) := by
  induction paths with
  | nil => exact unwinds_nil
  | cons path paths ih =>
    rw [List.flatMap_cons]
    exact (h path (.head paths)).append (ih fun q hq => h q (.tail path hq))

theorem unwinds_tree {Good : List Int64 → Prop} {rank : List Int64 → Nat} {depth : Nat}
    (h : Ranked (cycleSteps t start maxLen) Good rank) (hpath : Good path) (hdepth : rank path < depth) :
    Unwinds t start limit maxLen [path]
      (pathTree (cyclesAt t start) (cycleSteps t start maxLen) depth path) := by
  induction depth generalizing path with
  | zero => omega
  | succ depth ih =>
    have hbelow : Unwinds t start limit maxLen
        ((cycleSteps t start maxLen path).map fun w => path ++ [w])
        (((cycleSteps t start maxLen path).map fun w => path ++ [w]).flatMap
          (pathTree (cyclesAt t start) (cycleSteps t start maxLen) depth)) := by
      refine unwinds_flatMap fun q hq => ?_
      obtain ⟨w, hw, rfl⟩ := List.mem_map.mp hq
      have := h.falls path hpath w hw
      exact ih (h.good path hpath w hw) (by omega)
    obtain ⟨n, hn⟩ := hbelow
    refine ⟨n + 1, fun fuel stack cycles hlt => ?_⟩
    rw [← Nat.add_assoc, List.singleton_append, cycleLoop_step hlt, pathTree, ← List.append_assoc cycles,
      ← List.flatMap_map (fun w => path ++ [w])]
    by_cases hfull : limit ≤ (cycles ++ cyclesAt t start path).length
    · rw [resume_full hfull, resume, if_pos hfull]
    · rw [resume, if_neg hfull, hn _ _ _ (not_le.mp hfull)]

end Stack

/-- A cycle of more than one node, written once around from its start. -/
structure SimpleCycle (t : Tables) (start : Int64) (path : List Int64) : Prop where
  head : path.head? = some start
  chain : path.IsChain (Joined t)
  nodup : path.Nodup
  length : 1 < path.length
  closed : ∃ u, path.getLast? = some u ∧ Joined t u start

section Cycles
variable {g : FiniteGraph} {start w : Int64} {limit : Nat} {path c ids : List Int64}
  {cycles : List (List Int64)}

structure SimplePath (g : FiniteGraph) (start : Int64) (path : List Int64) : Prop where
  head : path.head? = some start
  nodup : path.Nodup
  mem : ∀ v ∈ path, v ∈ g.entities

theorem SimplePath.length_le (h : SimplePath g start path) : path.length ≤ g.entities.length :=
  (h.nodup.subperm h.mem).length_le

theorem mem_cycleSteps : w ∈ cycleSteps g.toTables start g.entities.length path ↔
    Joined g.toTables (path.getLast?.getD start) w ∧ ¬ (w = start ∧ 1 < path.length) ∧ w ∉ path ∧
      path.length + 1 ≤ g.entities.length := by
  simp only [cycleSteps, opens, closes, List.mem_reverse, List.mem_filter, mem_fetchOutgoing,
    decide_eq_true_eq, decide_eq_false_iff_not]

theorem mem_cyclesAt : c ∈ cyclesAt g.toTables start path ↔
    Joined g.toTables (path.getLast?.getD start) start ∧ 1 < path.length ∧ c = path ++ [start] := by
  simp only [cyclesAt, closes, List.mem_map, List.mem_filter, decide_eq_true_eq, mem_fetchOutgoing]
  constructor
  · rintro ⟨w, ⟨he, rfl, hlen⟩, rfl⟩
    exact ⟨he, hlen, rfl⟩
  · rintro ⟨he, hlen, rfl⟩
    exact ⟨start, ⟨he, rfl, hlen⟩, rfl⟩

theorem SimplePath.snoc (h : SimplePath g start path) (hout : w ∉ path) (hw : w ∈ g.entities) :
    SimplePath g start (path ++ [w]) := by
  refine ⟨?_, ?_, ?_⟩
  · rw [List.head?_append, h.head]
    rfl
  · exact List.nodup_append.mpr ⟨h.nodup, List.nodup_singleton w, by
      rintro v hv x hx rfl
      exact hout (List.mem_singleton.mp hx ▸ hv)⟩
  · intro v hv
    rcases List.mem_append.mp hv with hv | hv
    · exact h.mem v hv
    · exact List.mem_singleton.mp hv ▸ hw

theorem ranked_cycleSteps : Ranked (cycleSteps g.toTables start g.entities.length) (SimplePath g start)
    fun path => g.entities.length - path.length := by
  constructor
  · intro p hp w hw
    obtain ⟨he, -, hout, -⟩ := mem_cycleSteps.mp hw
    exact hp.snoc hout (g.joined_mem he).2
  · intro p hp w hw
    obtain ⟨-, -, -, hlen⟩ := mem_cycleSteps.mp hw
    simp only [List.length_append, List.length_singleton]
    omega

theorem chain_mem (hstart : start ∈ g.entities) (h : (start :: path).IsChain (Joined g.toTables)) :
    ∀ v ∈ start :: path, v ∈ g.entities := by
  induction path generalizing start with
  | nil => simpa using hstart
  | cons w path ih =>
    obtain ⟨he, hrest⟩ := List.isChain_cons_cons.mp h
    exact List.forall_mem_cons.mpr ⟨hstart, ih (g.joined_mem he).2 hrest⟩

/-- The search from a node grows the simple paths from it. -/
theorem growsTo_cycleSteps (hstart : start ∈ g.entities) :
    GrowsTo (cycleSteps g.toTables start g.entities.length) [start] path ↔
      path.head? = some start ∧ path.IsChain (Joined g.toTables) ∧ path.Nodup := by
  rw [growsTo_iff]
  constructor
  · rintro ⟨ws, rfl, hws⟩
    induction ws using List.reverseRecOn with
    | nil => exact ⟨rfl, .singleton start, List.nodup_singleton start⟩
    | append_singleton ws w ih =>
      obtain ⟨hhead, hchain, hnd⟩ := ih fun pre v post hsplit => hws pre v (post ++ [w]) (by simp [hsplit])
      obtain ⟨he, -, hout, -⟩ := mem_cycleSteps.mp (hws ws w [] rfl)
      refine ⟨rfl, ?_, ?_⟩
      · rw [← List.append_assoc]
        refine hchain.append (.singleton w) fun x hx y hy => ?_
        obtain rfl : w = y := Option.some.inj hy
        rw [Option.mem_def] at hx
        rwa [hx, Option.getD_some] at he
      · rw [← List.append_assoc, List.nodup_append]
        refine ⟨hnd, List.nodup_singleton w, ?_⟩
        rintro v hv x hx rfl
        exact hout (List.mem_singleton.mp hx ▸ hv)
  · rintro ⟨hhead, hchain, hnd⟩
    obtain ⟨v, ws, rfl⟩ : ∃ v ws, path = v :: ws := by
      cases path with
      | nil => cases hhead
      | cons v ws => exact ⟨v, ws, rfl⟩
    obtain rfl : v = start := Option.some.inj hhead
    refine ⟨ws, rfl, ?_⟩
    rintro pre w post rfl
    rw [List.singleton_append, ← List.cons_append] at *
    obtain ⟨u, hu⟩ : ∃ u, (v :: pre).getLast? = some u := ⟨_, List.getLast?_eq_some_getLast (by simp)⟩
    have hsplit := List.isChain_append.mp hchain
    have he : Joined g.toTables u w := hsplit.2.2 u hu w rfl
    have hout : w ∉ v :: pre := fun hin => List.disjoint_of_nodup_append hnd hin (.head post)
    have hne : w ≠ v := fun heq => hout (heq ▸ .head pre)
    have hmem : ∀ x ∈ v :: pre ++ w :: post, x ∈ g.entities := by
      rw [List.cons_append] at hchain ⊢
      exact chain_mem hstart hchain
    have hlen := (hnd.subperm hmem).length_le
    simp only [List.length_append, List.length_cons] at hlen
    refine mem_cycleSteps.mpr ⟨by rw [hu, Option.getD_some]; exact he, fun h => hne h.1, hout, ?_⟩
    simp only [List.length_cons]
    omega

def cyclesThrough (g : FiniteGraph) (start : Int64) : List (List Int64) :=
  pathTree (cyclesAt g.toTables start) (cycleSteps g.toTables start g.entities.length)
    g.entities.length [start]

theorem mem_cyclesThrough (hstart : start ∈ g.entities) :
    c ∈ cyclesThrough g start ↔ ∃ path, SimpleCycle g.toTables start path ∧ c = path ++ [start] := by
  have hsimple : SimplePath g start [start] := ⟨rfl, List.nodup_singleton start, by simpa using hstart⟩
  have hpos : g.entities.length - [start].length < g.entities.length := by
    have := List.length_pos_of_mem hstart
    simp only [List.length_singleton]
    omega
  rw [cyclesThrough, mem_pathTree ranked_cycleSteps hsimple hpos]
  constructor
  · rintro ⟨r, hr, hc⟩
    obtain ⟨hhead, hchain, hnd⟩ := (growsTo_cycleSteps hstart).mp hr
    obtain ⟨he, hlen, rfl⟩ := mem_cyclesAt.mp hc
    have hne : r ≠ [] := List.ne_nil_of_length_pos (by omega)
    rw [List.getLast?_eq_some_getLast hne, Option.getD_some] at he
    exact ⟨r, ⟨hhead, hchain, hnd, hlen, _, List.getLast?_eq_some_getLast hne, he⟩, rfl⟩
  · rintro ⟨path, h, rfl⟩
    obtain ⟨u, hu, he⟩ := h.closed
    refine ⟨path, (growsTo_cycleSteps hstart).mpr ⟨h.head, h.chain, h.nodup⟩, mem_cyclesAt.mpr ⟨?_, h.length, rfl⟩⟩
    rw [hu, Option.getD_some]
    exact he

theorem SimpleCycle.start_mem (h : SimpleCycle g.toTables start path) : start ∈ g.entities := by
  obtain ⟨u, -, he⟩ := h.closed
  exact (g.joined_mem he).2

theorem cyclesFrom_run (hids : ∀ start ∈ ids, start ∈ g.entities) (hlt : cycles.length < limit) :
    ∃ n, ∀ fuel ≥ n, cyclesFrom g.toTables limit g.entities.length fuel ids cycles =
      .ok ((cycles ++ ids.flatMap (cyclesThrough g)).take limit) := by
  induction ids generalizing cycles with
  | nil =>
    refine ⟨0, fun fuel _ => ?_⟩
    rw [cyclesFrom, List.flatMap_nil, List.append_nil, List.take_of_length_le hlt.le]
  | cons start ids ih =>
    have hstart := hids start (.head ids)
    have hsimple : SimplePath g start [start] := ⟨rfl, List.nodup_singleton start, by simpa using hstart⟩
    have hpos : g.entities.length - [start].length < g.entities.length := by
      have := List.length_pos_of_mem hstart
      simp only [List.length_singleton]
      omega
    obtain ⟨n, hn⟩ := @unwinds_tree g.toTables start limit g.entities.length [start] _ _ _
      ranked_cycleSteps hsimple hpos
    have hloop : ∀ fuel, n ≤ fuel → cycleLoop g.toTables start limit g.entities.length fuel [[start]] cycles =
        .ok (harvested limit (cycles ++ cyclesThrough g start)) := by
      intro fuel hfuel
      have hrun := hn (fuel - n) [] cycles hlt
      rw [Nat.sub_add_cancel hfuel, List.append_nil, resume] at hrun
      rw [hrun, cyclesThrough]
      split
      case isTrue => rfl
      case isFalse hfew =>
        rw [cycleLoop, harvested, List.take_of_length_le (not_le.mp hfew).le, decide_eq_false hfew]
    by_cases hfull : limit ≤ (cycles ++ cyclesThrough g start).length
    · refine ⟨n, fun fuel hfuel => ?_⟩
      rw [cyclesFrom, hloop fuel hfuel, List.flatMap_cons, ← List.append_assoc,
        List.take_append_of_le_length hfull]
      simp only [bind, Except.bind, harvested, decide_eq_true hfull, if_true]
      rfl
    · obtain ⟨n', hn'⟩ := @ih (cycles ++ cyclesThrough g start) (fun v hv => hids v (.tail start hv))
        (not_le.mp hfull)
      refine ⟨max n n', fun fuel hfuel => ?_⟩
      rw [cyclesFrom, hloop fuel (by omega), List.flatMap_cons, ← List.append_assoc]
      simp only [bind, Except.bind, harvested, decide_eq_false hfull, Bool.false_eq_true, if_false,
        List.take_of_length_le (not_le.mp hfull).le]
      exact hn' fuel (by omega)

/-- A cycle as it is returned. -/
def normalized (cycle : List Int64) : List Int64 := cycle.rotate (minIndex cycle)

theorem mem_normalizeCycles : c ∈ normalizeCycles cycles ↔ ∃ cycle ∈ cycles, normalized cycle = c := by
  rw [normalizeCycles, (List.mergeSort_perm _ _).mem_iff, List.mem_map]
  rfl

theorem length_normalizeCycles (cycles : List (List Int64)) :
    (normalizeCycles cycles).length = cycles.length := by
  rw [normalizeCycles, (List.mergeSort_perm _ _).length_eq, List.length_map]

theorem exists_least (hne : c ≠ []) : ∃ v ∈ c, ∀ w ∈ c, v ≤ w := by
  obtain ⟨v, hv, hle⟩ := c.toFinset.exists_min_image id (List.toFinset_nonempty_iff c |>.mpr hne)
  exact ⟨v, List.mem_toFinset.mp hv, fun w hw => hle w (List.mem_toFinset.mpr hw)⟩

theorem rotate_ends {l : List Int64} {i : Nat} (hpos : 0 < i) (hi : i < l.length) :
    (l.rotate i).head? = some l[i] ∧ (l.rotate i).getLast? = some l[i - 1] := by
  rw [List.rotate_eq_drop_append_take hi.le]
  constructor
  · rw [List.head?_append, List.head?_drop, List.getElem?_eq_getElem hi]
    rfl
  · rw [List.getLast?_append, List.getLast?_take, if_neg (by omega), List.getElem?_eq_getElem (by omega)]
    rfl

/-- Only from its least node is a cycle returned with the same node at both ends. -/
theorem normalized_closed (h : SimpleCycle g.toTables start path) :
    (normalized (path ++ [start])).head? = (normalized (path ++ [start])).getLast? ↔
      ∀ v ∈ path, start ≤ v := by
  have hpath : path ≠ [] := List.ne_nil_of_length_pos (by have := h.length; omega)
  have hin : start ∈ path := List.mem_of_head? h.head
  have hfirst : (path ++ [start])[0]? = some start := by
    rw [← List.head?_eq_getElem?, List.head?_append, h.head]
    rfl
  have hleast : (∀ v ∈ path, start ≤ v) ↔ ∀ v ∈ path ++ [start], start ≤ v := by
    rw [List.forall_mem_append]
    exact ⟨fun hall => ⟨hall, by simp⟩, And.left⟩
  obtain ⟨least, hmem, hle⟩ := @exists_least (path ++ [start]) (by simp)
  have hlt : minIndex (path ++ [start]) < (path ++ [start]).length :=
    List.findIdx_lt_length_of_exists ⟨least, hmem, decide_eq_true hle⟩
  have hfound : ∀ w ∈ path ++ [start], (path ++ [start])[minIndex (path ++ [start])] ≤ w :=
    of_decide_eq_true (@List.findIdx_getElem _ (fun v => decide (∀ w ∈ path ++ [start], v ≤ w)) _ hlt)
  rw [hleast, normalized]
  by_cases hzero : minIndex (path ++ [start]) = 0
  · refine iff_of_true ?_ ?_
    · rw [hzero, List.rotate_zero, List.getLast?_concat, List.head?_eq_getElem?, hfirst]
    · have hstart : (path ++ [start])[minIndex (path ++ [start])] = start := by
        rw [← Option.some_inj, ← List.getElem?_eq_getElem, hzero, hfirst]
      rwa [hstart] at hfound
  · have hbefore : ¬ ∀ v ∈ path ++ [start], start ≤ v := fun hall => by
      have hnot := @List.not_of_lt_findIdx _ (fun v => decide (∀ w ∈ path ++ [start], v ≤ w))
        (path ++ [start]) 0 (Nat.pos_of_ne_zero hzero)
      rw [List.getElem?_eq_some_iff.mp hfirst |>.2] at hnot
      exact of_decide_eq_false hnot hall
    refine iff_of_false ?_ hbefore
    obtain ⟨hhead, hlast⟩ := rotate_ends (Nat.pos_of_ne_zero hzero) hlt
    rw [hhead, hlast, Option.some_inj]
    have hshort : minIndex (path ++ [start]) < path.length := by
      rw [List.length_append, List.length_singleton] at hlt
      by_contra hge
      have hlast : (path ++ [start])[minIndex (path ++ [start])]? = some start := by
        rw [show minIndex (path ++ [start]) = path.length by omega, List.getElem?_concat_length]
      rw [List.getElem?_eq_some_iff.mp hlast |>.2] at hfound
      exact hbefore hfound
    rw [List.getElem_append_left hshort, List.getElem_append_left (by omega), h.nodup.getElem_inj_iff]
    omega

end Cycles

/-- Below the limit every cycle of more than one node is found from each of its nodes, and nothing else;
the list is empty only when there is none or the limit is zero. -/
theorem findCyclesLimited_exact (g : FiniteGraph) (limit : Nat) : ∃ n, ∀ fuel ≥ n, ∃ cycles,
    findCyclesLimited g.toTables fuel limit = .ok cycles ∧ cycles.length ≤ limit ∧
      cycles.Pairwise (· ≤ ·) ∧
      (∀ c ∈ cycles, ∃ start path, SimpleCycle g.toTables start path ∧ c = normalized (path ++ [start]) ∧
        (c.head? = c.getLast? ↔ ∀ v ∈ path, start ≤ v)) ∧
      (cycles.length < limit → ∀ start path, SimpleCycle g.toTables start path →
        normalized (path ++ [start]) ∈ cycles) ∧
      (cycles = [] ↔ limit = 0 ∨ ∀ start path, ¬ SimpleCycle g.toTables start path) := by
  by_cases hlimit : limit = 0
  · refine ⟨0, fun fuel _ => ⟨[], by rw [findCyclesLimited, if_pos hlimit], Nat.zero_le _, .nil, by simp,
      by simp [hlimit], by simp [hlimit]⟩⟩
  obtain ⟨n, hn⟩ := @cyclesFrom_run g limit g.entities [] (fun v hv => hv) (by simpa using Nat.pos_of_ne_zero hlimit)
  rw [List.nil_append] at hn
  have hmem : ∀ c, c ∈ g.entities.flatMap (cyclesThrough g) ↔
      ∃ start path, SimpleCycle g.toTables start path ∧ c = path ++ [start] := by
    intro c
    rw [List.mem_flatMap]
    constructor
    · rintro ⟨start, hstart, hc⟩
      obtain ⟨path, hpath, rfl⟩ := (mem_cyclesThrough hstart).mp hc
      exact ⟨start, path, hpath, rfl⟩
    · rintro ⟨start, path, hpath, rfl⟩
      exact ⟨start, hpath.start_mem, (mem_cyclesThrough hpath.start_mem).mpr ⟨path, hpath, rfl⟩⟩
  generalize g.entities.flatMap (cyclesThrough g) = all at hn hmem
  refine ⟨n, fun fuel hfuel => ⟨normalizeCycles (all.take limit), ?_, ?_, ?_, ?_, ?_, ?_⟩⟩
  · rw [findCyclesLimited, if_neg hlimit, hn fuel hfuel]
    rfl
  · rw [length_normalizeCycles]
    exact List.length_take_le _ _
  · have hsorted := @List.pairwise_mergeSort _ (fun c d : List Int64 => decide (c ≤ d))
      (fun a b c hab hbc => decide_eq_true (le_trans (of_decide_eq_true hab) (of_decide_eq_true hbc)))
      (fun a b => by simpa using le_total a b)
      ((all.take limit).map normalized)
    exact hsorted.imp fun hle => of_decide_eq_true hle
  · intro c hc
    obtain ⟨cycle, hcycle, rfl⟩ := mem_normalizeCycles.mp hc
    obtain ⟨start, path, hpath, rfl⟩ := (hmem cycle).mp (List.mem_of_mem_take hcycle)
    exact ⟨start, path, hpath, rfl, normalized_closed hpath⟩
  · intro hlt start path hpath
    rw [length_normalizeCycles, List.length_take] at hlt
    refine mem_normalizeCycles.mpr ⟨path ++ [start], ?_, rfl⟩
    rw [List.take_of_length_le (by omega)]
    exact (hmem _).mpr ⟨start, path, hpath, rfl⟩
  · rw [← List.length_eq_zero_iff, length_normalizeCycles, List.length_eq_zero_iff, List.take_eq_nil_iff]
    refine or_congr Iff.rfl ?_
    constructor
    · rintro rfl start path hpath
      exact absurd ((hmem _).mpr ⟨start, path, hpath, rfl⟩) (by simp)
    · intro hnone
      refine List.eq_nil_iff_forall_not_mem.mpr fun c hc => ?_
      obtain ⟨start, path, hpath, -⟩ := (hmem c).mp hc
      exact hnone start path hpath

end SqliteGraph.Algo
