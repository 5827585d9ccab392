import SqliteGraph.Lib.Cycles

/-! Depth-first search that colors the nodes: a neighbor that is still open closes a cycle. -/
namespace SqliteGraph.Lib

/-- Not met yet, on the way to the node in hand, or left for good. -/
inductive Color
  | white
  | gray
  | black
  deriving DecidableEq, Repr

section Search
variable {V : Type}

/-- The white neighbors go on the stack; there is no stack if one is gray. -/
def pushWhite (color : V → Color) : List V → List (V × Bool) → Option (List (V × Bool))
  | [], stack => some stack
  | w :: ws, stack =>
    match color w with
    | .white => pushWhite color ws ((w, false) :: stack)
    | .gray => none
    | .black => pushWhite color ws stack

variable [DecidableEq V]

/-- The search from a stack: without fuel nothing, else the colors unless there is a cycle. -/
def colorLoop (next : V → List V) :
    Nat → (V → Color) → List (V × Bool) → Option (Option (V → Color))
  | _, color, [] => some (some color)
  | 0, _, _ :: _ => none
  | fuel + 1, color, (node, true) :: stack =>
    colorLoop next fuel (Function.update color node .black) stack
  | fuel + 1, color, (node, false) :: stack =>
    if color node = .white then
      match pushWhite (Function.update color node .gray) (next node) ((node, true) :: stack) with
      | none => some none
      | some stack => colorLoop next fuel (Function.update color node .gray) stack
    else colorLoop next fuel color stack

/-- A search from each node that is still white. -/
def colorStarts (next : V → List V) (fuel : Nat) :
    (V → Color) → List V → Option (Option (V → Color))
  | color, [] => some (some color)
  | color, start :: starts =>
    if color start = .white then
      match colorLoop next fuel color [(start, false)] with
      | some (some color) => colorStarts next fuel color starts
      | found => found
    else colorStarts next fuel color starts

end Search

variable {V : Type} {next : V → List V} {color color' : V → Color} {stack rest : List (V × Bool)}
  {above above' ws starts : List V} {node u v w : V} {done : Bool}
  {found : Option (V → Color)}

/-- No node is open, and those that were left are closed under neighbors and on no cycle. -/
structure Colored (next : V → List V) (color : V → Color) : Prop where
  closed : ∀ v, color v = .black → ∀ w ∈ next v, color w = .black
  acyclic : ∀ v, color v = .black → ¬ OnCycle next v

/-- The open node nearest to the top of the stack. -/
def firstOpen (stack : List (V × Bool)) : Option V := (stack.find? (·.2)).map Prod.fst

/-- Each entry is a neighbor of the open node below it. -/
def Linked (next : V → List V) : List (V × Bool) → Prop
  | [] => True
  | (v, _) :: rest => (∀ u, firstOpen rest = some u → v ∈ next u) ∧ Linked next rest

/-- The neighbors of an open node are black or on the stack above it. -/
def Covered (next : V → List V) (color : V → Color) : List V → List (V × Bool) → Prop
  | _, [] => True
  | above, (v, done) :: rest =>
    (done = true → ∀ w ∈ next v, color w = .black ∨ w ∈ above) ∧
      Covered next color (v :: above) rest

/-- The open entries are the gray nodes, the way from the start to the node in hand. -/
structure DepthInv (next : V → List V) (color : V → Color) (stack : List (V × Bool)) : Prop
    extends Colored next color where
  gray : ∀ v, color v = .gray ↔ (v, true) ∈ stack
  apart : stack.Pairwise fun a b => b.2 = true → a.1 ≠ b.1
  linked : Linked next stack
  covered : Covered next color [] stack

/-- From an open node there is a way to all entries above it. -/
theorem reaches_of_firstOpen (hfirst : ∀ x, firstOpen rest = some x → Arc next x v)
    (hrest : Linked next rest) (hu : (u, true) ∈ rest) : Relation.TransGen (Arc next) u v := by
  induction rest generalizing v with
  | nil => cases hu
  | cons x rest ih =>
    obtain ⟨x, opened⟩ := x
    cases opened with
    | false =>
      have hu' : (u, true) ∈ rest := by simpa using hu
      exact ih hfirst hrest.2 hu'
    | true =>
      have harc : Arc next x v := hfirst x rfl
      rcases List.mem_cons.mp hu with heq | hu
      · cases heq
        exact .single harc
      · exact (ih hrest.1 hrest.2 hu).tail harc

theorem Covered.mono (h : Covered next color above stack)
    (hkeep : ∀ w, color w = .black ∨ w ∈ above → color' w = .black ∨ w ∈ above') :
    Covered next color' above' stack := by
  induction stack generalizing above above' with
  | nil => trivial
  | cons x rest ih =>
    refine ⟨fun hx w hw => hkeep w (h.1 hx w hw), ih h.2 fun w hw => ?_⟩
    simp only [List.mem_cons] at hw ⊢
    rcases hw with hw | rfl | hw
    · exact (hkeep w (.inl hw)).imp_right .inr
    · exact .inr (.inl rfl)
    · exact (hkeep w (.inr hw)).imp_right .inr

theorem covered_push : Covered next color above (ws.map (·, false) ++ stack) ↔
    Covered next color (ws.reverse ++ above) stack := by
  induction ws generalizing above with
  | nil => rfl
  | cons w ws ih => simp [Covered, ih]

theorem linked_push (hws : ∀ w ∈ ws, w ∈ next node) (h : Linked next ((node, true) :: rest)) :
    Linked next (ws.map (·, false) ++ (node, true) :: rest) := by
  induction ws with
  | nil => exact h
  | cons w ws ih =>
    rw [List.forall_mem_cons] at hws
    refine ⟨fun u hu => ?_, ih hws.2⟩
    have hfirst : firstOpen (ws.map (·, false) ++ (node, true) :: rest) = some node := by
      rw [firstOpen, List.find?_append, List.find?_eq_none.mpr (by simp)]
      rfl
    replace hu := hfirst.symm.trans hu
    cases hu
    exact hws.1

theorem pushWhite_none (h : pushWhite color ws stack = none) : ∃ w ∈ ws, color w = .gray := by
  induction ws generalizing stack with
  | nil => cases h
  | cons w ws ih =>
    rw [pushWhite] at h
    rcases hw : color w with _ | _ | _ <;> simp only [hw] at h
    · obtain ⟨x, hx, hg⟩ := ih h
      exact ⟨x, List.mem_cons_of_mem _ hx, hg⟩
    · exact ⟨w, List.mem_cons_self, hw⟩
    · obtain ⟨x, hx, hg⟩ := ih h
      exact ⟨x, List.mem_cons_of_mem _ hx, hg⟩

/-- The stack after a scan that met no open node. -/
theorem pushWhite_some {stack' : List (V × Bool)} (h : pushWhite color ws stack = some stack') :
    ∃ new : List V, stack' = new.map (·, false) ++ stack ∧ new.length ≤ ws.length ∧
      (∀ w ∈ new, w ∈ ws ∧ color w = .white) ∧
      ∀ w ∈ ws, color w = .black ∨ w ∈ new := by
  induction ws generalizing stack with
  | nil =>
    cases h
    exact ⟨[], rfl, Nat.le_refl _, by simp, by simp⟩
  | cons w ws ih =>
    rw [pushWhite] at h
    rcases hw : color w with _ | _ | _ <;> simp only [hw] at h
    · obtain ⟨new, rfl, hlen, hnew, hws⟩ := ih h
      refine ⟨new ++ [w], by simp, by simpa using hlen, ?_, ?_⟩
      · intro x hx
        rcases List.mem_append.mp hx with hx | hx
        · exact ⟨List.mem_cons_of_mem _ (hnew x hx).1, (hnew x hx).2⟩
        · obtain rfl := List.mem_singleton.mp hx
          exact ⟨List.mem_cons_self, hw⟩
      · intro x hx
        rcases List.mem_cons.mp hx with rfl | hx
        · exact .inr (by simp)
        · exact (hws x hx).imp_right fun hm => List.mem_append_left _ hm
    · cases h
    · obtain ⟨new, rfl, hlen, hnew, hws⟩ := ih h
      refine ⟨new, rfl, by simp only [List.length_cons]; omega, ?_, ?_⟩
      · intro x hx
        exact ⟨List.mem_cons_of_mem _ (hnew x hx).1, (hnew x hx).2⟩
      · intro x hx
        rcases List.mem_cons.mp hx with rfl | hx
        · exact .inl hw
        · exact hws x hx

namespace DepthInv

/-- An entry whose node was searched in the meantime is dropped. -/
theorem skip (h : DepthInv next color ((node, false) :: rest)) (hne : color node ≠ .white) :
    DepthInv next color rest := by
  have hapart := List.pairwise_cons.mp h.apart
  have hblack : color node = .black := by
    cases hc : color node with
    | white => exact absurd hc hne
    | black => rfl
    | gray =>
      have hmem : (node, true) ∈ rest := by simpa using (h.gray node).mp hc
      exact absurd rfl (hapart.1 (node, true) hmem rfl)
  refine ⟨h.toColored, fun v => ?_, hapart.2, h.linked.2, h.covered.2.mono fun w hw => .inl ?_⟩
  · rw [h.gray v]
    simp
  · rcases hw with hw | hw
    · exact hw
    · rw [List.mem_singleton.mp hw, hblack]

end DepthInv

/-- The rounds that are left: one for each entry, and those that each white node still causes. -/
def searchWork (next : V → List V) (all : Finset V) (color : V → Color)
    (stack : List (V × Bool)) : Nat :=
  stack.length + ∑ v ∈ all with color v = .white, ((next v).length + 1)

variable {all : Finset V} {fuel : Nat}

theorem searchWork_skip (next : V → List V) (all : Finset V) (color : V → Color) (node : V) (done : Bool)
    (rest : List (V × Bool)) :
    searchWork next all color rest + 1 = searchWork next all color ((node, done) :: rest) := by
  simp only [searchWork, List.length_cons]
  omega

/-- What a search reports: a cycle, or the colors it ends with. -/
structure Searched (next : V → List V) (color : V → Color) (starts : List V)
    (found : Option (V → Color)) : Prop where
  cyclic : found = none → ∃ v, OnCycle next v
  colored : ∀ color', found = some color' → DepthInv next color' []
  kept : ∀ color', found = some color' → ∀ v, color v ≠ .white → color' v ≠ .white
  reached : ∀ color', found = some color' → ∀ v ∈ starts, color' v ≠ .white

theorem Searched.of_step (h : Searched next color' (stack.map Prod.fst) found)
    (hkeep : ∀ v, color v ≠ .white → color' v ≠ .white)
    (hmet : ∀ v ∈ starts, color' v ≠ .white ∨ v ∈ stack.map Prod.fst) :
    Searched next color starts found where
  cyclic := h.cyclic
  colored := h.colored
  kept c hc v hv := h.kept c hc v (hkeep v hv)
  reached c hc v hv := (hmet v hv).elim (h.kept c hc v) (h.reached c hc v)

theorem searchWork_start : searchWork next all color [(v, false)] ≤
    1 + ∑ v ∈ all, ((next v).length + 1) := by
  simp only [searchWork, List.length_singleton]
  gcongr
  exact Finset.filter_subset _ _

theorem depthInv_start (h : DepthInv next color []) :
    DepthInv next color [(v, false)] := by
  refine ⟨h.toColored, fun w => ?_, List.pairwise_singleton _ _, ⟨by simp [firstOpen], trivial⟩,
    ⟨by simp, trivial⟩⟩
  rw [h.gray w]
  simp

section Steps
variable [DecidableEq V]

namespace DepthInv

/-- The node in hand is left: all its neighbors were left before it. -/
theorem leave (h : DepthInv next color ((node, true) :: rest)) :
    DepthInv next (Function.update color node .black) rest := by
  have hgray : color node = .gray := (h.gray node).mpr List.mem_cons_self
  have hnext : ∀ w ∈ next node, color w = .black := by
    intro w hw
    simpa using h.covered.1 rfl w hw
  have hapart := List.pairwise_cons.mp h.apart
  have hout : (node, true) ∉ rest := fun hmem => hapart.1 _ hmem rfl rfl
  have hblack : ∀ v, color v = .black → Function.update color node .black v = .black := by
    intro v hv
    rw [Function.update_apply]
    split <;> simp [hv]
  have hstay : ∀ {x y}, color x = .black → Relation.ReflTransGen (Arc next) x y →
      color y = .black := by
    intro x y hx hxy
    induction hxy with
    | refl => exact hx
    | tail _ hyz ih => exact h.closed _ ih _ hyz
  refine ⟨⟨?_, ?_⟩, ?_, hapart.2, h.linked.2, ?_⟩
  · intro v hv w hw
    by_cases hvn : v = node
    · subst v
      exact hblack w (hnext w hw)
    · rw [Function.update_of_ne hvn] at hv
      exact hblack w (h.closed v hv w hw)
  · intro v hv hcycle
    by_cases hvn : v = node
    · subst v
      obtain ⟨w, hw, hback⟩ := Relation.TransGen.head'_iff.mp hcycle
      have := hstay (hnext w hw) hback
      rw [hgray] at this
      cases this
    · rw [Function.update_of_ne hvn] at hv
      exact h.acyclic v hv hcycle
  · intro v
    by_cases hvn : v = node
    · subst v
      simp [hout]
    · rw [Function.update_of_ne hvn, h.gray v]
      simp [hvn]
  · refine h.covered.2.mono fun w hw => .inl ?_
    rcases hw with hw | hw
    · exact hblack w hw
    · rw [List.mem_singleton.mp hw, Function.update_self]

/-- A neighbor that is open closes a cycle. -/
theorem cycle (h : DepthInv next color ((node, false) :: rest)) (hw : w ∈ next node)
    (hgray : Function.update color node .gray w = .gray) : OnCycle next w := by
  by_cases hwn : w = node
  · subst w
    exact .single hw
  · rw [Function.update_of_ne hwn] at hgray
    have hmem : (w, true) ∈ rest := by simpa using (h.gray w).mp hgray
    exact (reaches_of_firstOpen h.linked.1 h.linked.2 hmem).tail hw

/-- The node is opened, and its white neighbors wait above it. -/
theorem expand {new : List V} (h : DepthInv next color ((node, false) :: rest))
    (hwhite : color node = .white)
    (hnew : ∀ w ∈ new, w ∈ next node ∧ Function.update color node .gray w = .white)
    (hall : ∀ w ∈ next node, Function.update color node .gray w = .black ∨ w ∈ new) :
    DepthInv next (Function.update color node .gray) (new.map (·, false) ++ (node, true) :: rest) := by
  have hapart := List.pairwise_cons.mp h.apart
  have hblack : ∀ v, Function.update color node .gray v = .black ↔ color v = .black := by
    intro v
    by_cases hvn : v = node
    · subst v
      simp [hwhite]
    · rw [Function.update_of_ne hvn]
  have hgray : ∀ v, Function.update color node .gray v = .gray ↔ (v, true) ∈ (node, true) :: rest := by
    intro v
    by_cases hvn : v = node
    · subst v
      simp
    · rw [Function.update_of_ne hvn, h.gray v]
      simp [hvn]
  refine ⟨⟨?_, ?_⟩, ?_, ?_, linked_push (fun w hw => (hnew w hw).1) h.linked, ?_⟩
  · intro v hv w hw
    exact (hblack w).mpr (h.closed v ((hblack v).mp hv) w hw)
  · intro v hv
    exact h.acyclic v ((hblack v).mp hv)
  · intro v
    rw [hgray v]
    simp
  · refine List.pairwise_append.mpr ⟨?_, ?_, ?_⟩
    · refine List.pairwise_map.mpr (List.pairwise_of_forall fun _ _ hb => ?_)
      cases hb
    · refine List.pairwise_cons.mpr ⟨?_, hapart.2⟩
      rintro ⟨b, _⟩ hb rfl rfl
      have := (h.gray node).mpr (List.mem_cons_of_mem _ hb)
      rw [hwhite] at this
      cases this
    · rintro a ha ⟨b, _⟩ hb rfl rfl
      obtain ⟨w, hw, rfl⟩ := List.mem_map.mp ha
      have := (hgray w).mpr hb
      rw [(hnew w hw).2] at this
      cases this
  · refine covered_push.mpr ⟨fun _ w hw => ?_, ?_⟩
    · simpa using hall w hw
    · refine h.covered.2.mono fun w hw => ?_
      rcases hw with hw | hw
      · exact .inl ((hblack w).mpr hw)
      · rw [List.mem_singleton.mp hw]
        exact .inr List.mem_cons_self

end DepthInv

theorem searchWork_leave (next : V → List V) (all : Finset V) (rest : List (V × Bool)) (hne : color node ≠ .white) :
    searchWork next all (Function.update color node .black) rest + 1 =
      searchWork next all color ((node, true) :: rest) := by
  have hwhite : ∀ v, Function.update color node .black v = .white ↔ color v = .white := by
    intro v
    by_cases hvn : v = node
    · subst v
      simp [hne]
    · rw [Function.update_of_ne hvn]
  simp only [searchWork, hwhite, List.length_cons]
  omega

theorem searchWork_expand (rest : List (V × Bool)) {new : List V} (hmem : node ∈ all) (hwhite : color node = .white)
    (hlen : new.length ≤ (next node).length) :
    searchWork next all (Function.update color node .gray)
        (new.map (·, false) ++ (node, true) :: rest) + 1 ≤
      searchWork next all color ((node, false) :: rest) := by
  have hfilter : all.filter (Function.update color node .gray · = .white) =
      (all.filter (color · = .white)).erase node := by
    ext v
    by_cases hvn : v = node
    · subst v
      simp
    · simp [hvn]
  have hnode : node ∈ all.filter (color · = .white) := Finset.mem_filter.mpr ⟨hmem, hwhite⟩
  have hsum := Finset.add_sum_erase _ (fun v => (next v).length + 1) hnode
  simp only [searchWork, hfilter, List.length_append, List.length_map, List.length_cons]
  omega

theorem colorLoop_searched (hclosed : ∀ v ∈ all, ∀ w ∈ next v, w ∈ all)
    (h : DepthInv next color stack) (hstack : ∀ x ∈ stack, x.1 ∈ all)
    (hfuel : searchWork next all color stack ≤ fuel) :
    ∃ found, colorLoop next fuel color stack = some found ∧
      Searched next color (stack.map Prod.fst) found := by
  induction fuel generalizing color stack with
  | zero =>
    cases stack with
    | nil => exact ⟨some color, rfl, by simp, by rintro _ ⟨⟩; exact h, by rintro _ ⟨⟩ v hv; exact hv,
        by simp⟩
    | cons x rest =>
      simp only [searchWork, List.length_cons] at hfuel
      omega
  | succ fuel ih =>
    rcases stack with _ | ⟨⟨node, _ | _⟩, rest⟩
    · exact ⟨some color, rfl, by simp, by rintro _ ⟨⟩; exact h, by rintro _ ⟨⟩ v hv; exact hv,
        by simp⟩
    · have hmem : node ∈ all := hstack _ List.mem_cons_self
      have hrest : ∀ x ∈ rest, x.1 ∈ all := fun x hx => hstack x (List.mem_cons_of_mem _ hx)
      rw [colorLoop]
      by_cases hwhite : color node = .white
      · rw [if_pos hwhite]
        rcases hpush : pushWhite (Function.update color node .gray) (next node)
          ((node, true) :: rest) with _ | stack
        · obtain ⟨w, hw, hgray⟩ := pushWhite_none hpush
          exact ⟨none, rfl, fun _ => ⟨w, h.cycle hw hgray⟩, by simp, by simp, by simp⟩
        · obtain ⟨new, rfl, hlen, hnew, hall⟩ := pushWhite_some hpush
          have hwork := searchWork_expand rest hmem hwhite hlen
          obtain ⟨found, hrun, hfound⟩ := ih (h.expand hwhite hnew hall) (by
            intro x hx
            rcases List.mem_append.mp hx with hx | hx
            · obtain ⟨w, hw, rfl⟩ := List.mem_map.mp hx
              exact hclosed node hmem w (hnew w hw).1
            · rcases List.mem_cons.mp hx with rfl | hx
              · exact hmem
              · exact hrest x hx) (by omega)
          refine ⟨found, hrun, hfound.of_step ?_ fun v hv => .inr ?_⟩
          · intro v hv
            rw [Function.update_apply]
            split <;> simp [hv]
          · simp only [List.map_cons, List.mem_cons, List.map_append, List.mem_append] at hv ⊢
            exact .inr hv
      · rw [if_neg hwhite]
        have hwork := searchWork_skip next all color node false rest
        obtain ⟨found, hrun, hfound⟩ := ih (h.skip hwhite) hrest (by omega)
        refine ⟨found, hrun, hfound.of_step (fun _ hv => hv) fun v hv => ?_⟩
        rcases List.mem_cons.mp hv with rfl | hv
        · exact .inl hwhite
        · exact .inr hv
    · have hgray : color node = .gray := (h.gray node).mpr List.mem_cons_self
      have hwork := searchWork_leave next all rest
        (hgray ▸ by decide : color node ≠ .white)
      obtain ⟨found, hrun, hfound⟩ := ih h.leave
        (fun x hx => hstack x (List.mem_cons_of_mem _ hx)) (by omega)
      refine ⟨found, hrun, hfound.of_step ?_ fun v hv => ?_⟩
      · intro v hv
        rw [Function.update_apply]
        split <;> simp [hv]
      · rcases List.mem_cons.mp hv with rfl | hv
        · exact .inl (by simp)
        · exact .inr hv

theorem colorStarts_searched (hclosed : ∀ v ∈ all, ∀ w ∈ next v, w ∈ all)
    (h : DepthInv next color []) (hstarts : ∀ v ∈ starts, v ∈ all)
    (hfuel : 1 + ∑ v ∈ all, ((next v).length + 1) ≤ fuel) :
    ∃ found, colorStarts next fuel color starts = some found ∧
      Searched next color starts found := by
  induction starts generalizing color with
  | nil => exact ⟨some color, rfl, by simp, by rintro _ ⟨⟩; exact h, by rintro _ ⟨⟩ v hv; exact hv,
      by simp⟩
  | cons start starts ih =>
    rw [List.forall_mem_cons] at hstarts
    rw [colorStarts]
    by_cases hwhite : color start = .white
    · rw [if_pos hwhite]
      obtain ⟨found, hrun, hfound⟩ := colorLoop_searched hclosed (depthInv_start h)
        (by simpa using hstarts.1) (searchWork_start.trans hfuel)
      rw [hrun]
      cases found with
      | none => exact ⟨none, rfl, hfound.cyclic, by simp, by simp, by simp⟩
      | some color' =>
        obtain ⟨found', hrun', hfound'⟩ := ih (hfound.colored _ rfl) hstarts.2
        refine ⟨found', hrun', hfound'.cyclic, hfound'.colored, ?_, ?_⟩
        · intro c hc v hv
          exact hfound'.kept c hc v (hfound.kept _ rfl v hv)
        · intro c hc v hv
          rcases List.mem_cons.mp hv with rfl | hv
          · exact hfound'.kept c hc v (hfound.reached _ rfl v (by simp))
          · exact hfound'.reached c hc v hv
    · rw [if_neg hwhite]
      obtain ⟨found, hrun, hfound⟩ := ih h hstarts.2
      refine ⟨found, hrun, hfound.cyclic, hfound.colored, hfound.kept, fun c hc v hv => ?_⟩
      rcases List.mem_cons.mp hv with rfl | hv
      · exact hfound.kept c hc v hwhite
      · exact hfound.reached c hc v hv

/-- A search from all nodes with neighbors tells whether there is a cycle. -/
theorem colorStarts_iff (hclosed : ∀ v ∈ all, ∀ w ∈ next v, w ∈ all)
    (hall : ∀ v, next v ≠ [] → v ∈ starts) (hstarts : ∀ v ∈ starts, v ∈ all)
    (hfuel : 1 + ∑ v ∈ all, ((next v).length + 1) ≤ fuel) :
    ∃ found, colorStarts next fuel (fun _ => .white) starts = some found ∧
      (found = none ↔ ∃ v, OnCycle next v) := by
  have hstart : DepthInv next (fun _ => .white) [] :=
    ⟨⟨by simp, by simp⟩, by simp, .nil, trivial, trivial⟩
  obtain ⟨found, hrun, hfound⟩ := colorStarts_searched hclosed hstart hstarts hfuel
  refine ⟨found, hrun, hfound.cyclic, ?_⟩
  rintro ⟨v, hv⟩
  by_contra hsome
  obtain ⟨color, rfl⟩ := Option.ne_none_iff_exists'.mp hsome
  have hinv := hfound.colored color rfl
  obtain ⟨w, hw, -⟩ := Relation.TransGen.head'_iff.mp hv
  have hmem : v ∈ starts := hall v (List.ne_nil_of_mem hw)
  have hne := hfound.reached color rfl v hmem
  cases hc : color v with
  | white => exact hne hc
  | gray => cases (hinv.gray v).mp hc
  | black => exact hinv.acyclic v hc hv

end Steps

end SqliteGraph.Lib
