import SqliteGraph.V3.BTreeLookup

/-! Splitting a full page: both halves are wide, roomy subtrees over the two parts of the range. -/
namespace SqliteGraph.V3
open Lib

variable {view view' : Nat → Option IndexPage} {h m lo hi mid first next p c d u sep : Nat}
  {es : List (Nat × Nat)} {ps : List Nat}

namespace IndexPage

def needsSplit (page : IndexPage) : Bool := page.needsSplitInternal || page.needsSplitLeaf

/-- What a split makes of a full page: its lower half, the separator, and the new sibling `d`. -/
def halves (d : Nat) (r : Bool) : IndexPage → Option (IndexPage × Nat × IndexPage)
  | internal p keys children _ =>
    let splitIdx := (keys.length - 1) / 2
    keys[splitIdx]?.map fun sep =>
      (internal p (keys.take splitIdx) (children.take (splitIdx + 1)) false, sep,
        internal d (keys.drop (splitIdx + 1)) (children.drop (splitIdx + 1)) false)
  | leaf p entries nextLeaf _ =>
    let splitIdx := entries.length / 2
    entries[splitIdx]?.map fun sep =>
      (leaf p (entries.take splitIdx) d r, sep.1, leaf d (entries.drop splitIdx) nextLeaf false)

end IndexPage

theorem Sub.page (hs : Sub view h m lo hi first next p es ps) :
    ∃ pg, view p = some pg ∧ pg.pageId = p := by
  cases h with
  | zero =>
    obtain ⟨r, hr⟩ := LeafRep.page hs
    exact ⟨_, hr, rfl⟩
  | succ h =>
    obtain ⟨_, _, _, _, hr, _⟩ := NodeRep.rep hs
    exact ⟨_, hr, rfl⟩

theorem Sub.root_fits {pg : IndexPage} (hs : Sub view h m lo hi first next p es ps)
    (hhi : hi ≤ keySpace) (hps : ∀ q ∈ ps, ValidPage q) (hpg : view p = some pg) :
    pg.Fits := by
  have hp := hps p hs.page_mem
  cases h with
  | zero =>
    obtain ⟨r, hr⟩ := LeafRep.page hs
    cases hpg.symm.trans hr
    refine ⟨hp.1, hp.lt, LeafRep.length hs, ?_, LeafRep.next_lt hs⟩
    intro e he
    exact ⟨lt_of_lt_of_le (LeafRep.range hs e he).2 hhi, LeafRep.values hs e he⟩
  | succ h =>
    obtain ⟨keys, items, below, r, hr, hk, hl, _, rfl, hseg⟩ := NodeRep.rep hs
    cases hpg.symm.trans hr
    have hlen := congrArg List.length hk
    simp only [List.length_append, List.length_cons, List.length_nil, List.length_map] at hlen
    refine ⟨hp.1, hp.lt, hl, by simp [← hlen], ?_, ?_⟩
    · intro k hmem
      have hsort := hk ▸ Seg.uppers_sorted hseg Sub.lt
      have hlt := (List.pairwise_append.mp hsort).2.2 k hmem hi List.mem_cons_self
      exact lt_of_lt_of_le hlt hhi
    · intro c hmem
      obtain ⟨⟨c, u⟩, hi', rfl⟩ := List.mem_map.mp hmem
      have hc := Seg.mem_places hseg hi' Sub.page_mem
      exact (hps c (List.mem_cons_of_mem _ hc)).lt

/-- Every page of the tree is where it says it is, and fits its byte format. -/
theorem Sub.fits (hs : Sub view h m lo hi first next p es ps)
    (hhi : hi ≤ keySpace) (hps : ∀ q ∈ ps, ValidPage q) :
    ∀ q ∈ ps, ∃ pg, view q = some pg ∧ pg.pageId = q ∧ pg.Fits := by
  have hroot : ∃ pg, view p = some pg ∧ pg.pageId = p ∧ pg.Fits := by
    obtain ⟨pg, hpg, hid⟩ := hs.page
    exact ⟨pg, hpg, hid, hs.root_fits hhi hps hpg⟩
  induction h generalizing m lo hi first next p es ps with
  | zero =>
    intro q hq
    rw [LeafRep.pages_eq hs, List.mem_singleton] at hq
    exact hq ▸ hroot
  | succ h ih =>
    obtain ⟨_, _, below, _, _, _, _, _, rfl, hseg⟩ := NodeRep.rep hs
    have hbelow := hseg.forall_places (P := fun q => ∃ pg, view q = some pg ∧ pg.pageId = q ∧
      pg.Fits) Sub.lt (by
        intro lo' hi' first next c es qs hsub hle hmem
        have hqs : ∀ q ∈ qs, ValidPage q := fun q hq => hps q (List.mem_cons_of_mem _ (hmem q hq))
        obtain ⟨pg, hpg, hid⟩ := hsub.page
        exact ih hsub (hle.trans hhi) hqs
          ⟨pg, hpg, hid, hsub.root_fits (hle.trans hhi) hqs hpg⟩)
    intro q hq
    rcases List.mem_cons.mp hq with rfl | hq
    · exact hroot
    · exact hbelow q hq

/-- The pages written by a split, and everything else below the page as it was. -/
structure SplitView (view view' : Nat → Option IndexPage) (c d : Nat) (ps : List Nat)
    (lower upper : IndexPage) : Prop where
  lower : view' c = some lower
  upper : view' d = some upper
  frame : ∀ q ∈ ps, q ≠ c → ∀ pg, view q = some pg → view' q = some pg

theorem LeafRep.split {r r' : Bool} (hs : LeafRep view m lo hi first next p es ps)
    (hfull : es.length = maxEntries) {e : Nat × Nat} (he : es[maxEntries / 2]? = some e)
    (hd : d < keySpace)
    (hv : SplitView view view' p d ps (.leaf p (es.take (maxEntries / 2)) d r)
      (.leaf d (es.drop (maxEntries / 2)) next r')) :
    Seg (Sub view' 0 minFanout) lo hi first next [(p, e.1), (d, hi)] es [p, d] := by
  have hsort := hs.sorted
  have hmid : maxEntries / 2 < es.length := by rw [hfull]; decide
  have hcons : es.drop (maxEntries / 2) = e :: es.drop (maxEntries / 2 + 1) := by
    rw [List.getElem?_eq_getElem hmid, Option.some.injEq] at he
    rw [List.drop_eq_getElem_cons hmid, he]
  rw [← List.take_append_drop (maxEntries / 2) es] at hsort
  obtain ⟨hsl, hsu, hlu⟩ := sorted_append.mp hsort
  have htake : ∀ x ∈ es.take (maxEntries / 2), lo ≤ x.1 ∧ x.1 < e.1 := fun x hx =>
    ⟨(hs.range x (List.mem_of_mem_take hx)).1, hlu x hx e (hcons ▸ List.mem_cons_self)⟩
  have hdrop : ∀ x ∈ es.drop (maxEntries / 2), e.1 ≤ x.1 ∧ x.1 < hi := by
    intro x hx
    refine ⟨?_, (hs.range x (List.mem_of_mem_drop hx)).2⟩
    rw [hcons] at hx hsu
    rcases List.mem_cons.mp hx with rfl | hx
    · exact le_refl _
    · exact ((List.pairwise_cons.mp hsu).1 x hx).le
  have he' := hs.range e (List.mem_of_getElem? he)
  have hwl := length_le_of_sorted hsl htake he'.1
  have hwu := length_le_of_sorted hsu hdrop he'.2.le
  rw [List.length_take, hfull] at hwl
  rw [List.length_drop, hfull] at hwu
  have hlower : Sub view' 0 minFanout lo e.1 p d p (es.take (maxEntries / 2)) [p] :=
    { first_eq := rfl, pages_eq := rfl, page := ⟨r, hv.lower⟩, sorted := hsl, range := htake
      values := fun x hx => hs.values x (List.mem_of_mem_take hx)
      length := by rw [List.length_take]; exact le_trans (min_le_right _ _) hs.length
      next_lt := hd, width := hwl }
  have hupper : Sub view' 0 minFanout e.1 hi d next d (es.drop (maxEntries / 2)) [d] :=
    { first_eq := rfl, pages_eq := rfl, page := ⟨r', hv.upper⟩, sorted := hsu, range := hdrop
      values := fun x hx => hs.values x (List.mem_of_mem_drop hx)
      length := by rw [List.length_drop]; exact le_trans (Nat.sub_le _ _) hs.length
      next_lt := hs.next_lt, width := hwu }
  have hseg := Seg.cons hlower (Seg.single hupper)
  rw [List.take_append_drop] at hseg
  rw [hs.first_eq]
  exact hseg

/-- The item at the splitting point closes the lower half; its bound becomes the separator. -/
theorem split_items {keys : List Nat} {items : List (Nat × Nat)}
    (hk : keys ++ [hi] = items.map Prod.snd) {i : Nat} (hsep : keys[i]? = some sep) :
    (items.take (i + 1)).map Prod.snd = keys.take i ++ [sep] ∧
      (items.drop (i + 1)).map Prod.snd = keys.drop (i + 1) ++ [hi] := by
  have hi' : i + 1 ≤ keys.length := (List.getElem?_eq_some_iff.mp hsep).1
  have hget : keys[i] = sep := (List.getElem?_eq_some_iff.mp hsep).2
  constructor
  · rw [List.map_take, ← hk, List.take_append_of_le_length hi', 
      List.take_succ_eq_append_getElem hi', hget]
  · rw [List.map_drop, ← hk, List.drop_append_of_le_length hi']

theorem NodeRep.split {keys children : List Nat} {r : Bool}
    (hs : Sub view (h + 1) m lo hi first next p es ps)
    (hpage : view p = some (.internal p keys children r)) (hfull : keys.length = maxKeys)
    (hsep : keys[minKeys]? = some sep)
    (hv : SplitView view view' p d ps
      (.internal p (keys.take minKeys) (children.take (minKeys + 1)) false)
      (.internal d (keys.drop (minKeys + 1)) (children.drop (minKeys + 1)) false))
    (hnd : ps.Nodup) :
    ∃ ps', Seg (Sub view' (h + 1) minFanout) lo hi first next [(p, sep), (d, hi)] es ps' ∧
      ps'.Perm (d :: ps) := by
  obtain ⟨keys', items, below, r', hr, hk, _, _, rfl, hseg⟩ := NodeRep.rep hs
  cases hpage.symm.trans hr
  have hlen := congrArg List.length hk
  simp only [List.length_append, List.length_cons, List.length_nil, List.length_map, hfull]
    at hlen
  obtain ⟨hkl, hku⟩ := split_items hk hsep
  rw [← List.take_append_drop (minKeys + 1) items] at hseg
  obtain ⟨mid, link, es₁, es₂, ps₁, ps₂, hsl, hsu, rfl, rfl⟩ := Seg.split hseg
  obtain rfl := Seg.hi_eq hsl hkl
  have hp : p ∉ ps₁ ++ ps₂ := (List.nodup_cons.mp hnd).1
  have hframe : ∀ q ∈ ps₁ ++ ps₂, ∀ pg, view q = some pg → view' q = some pg := fun q hq =>
    hv.frame q (List.mem_cons_of_mem _ hq) (fun he => hp (he ▸ hq))
  have hmove : ∀ {lo hi first next c es qs}, Sub view h minFanout lo hi first next c es qs →
      (∀ q ∈ qs, q ∈ ps₁ ++ ps₂) → Sub view' h minFanout lo hi first next c es qs :=
    fun hsub hq => hsub.frame (fun q hmem => hframe q (hq q hmem))
  have hlower : Sub view' (h + 1) minFanout lo sep first link p es₁ (p :: ps₁) := by
    refine ⟨keys.take minKeys, items.take (minKeys + 1), ps₁, false, ?_, hkl.symm, ?_, ?_, rfl,
      hsl.imp (fun q hq => List.mem_append_left _ hq) hmove⟩
    · rw [hv.lower, List.map_take]
    · rw [List.length_take, hfull]; decide
    · rw [List.length_take, ← hlen]; decide
  have hupper : Sub view' (h + 1) minFanout sep hi link next d es₂ (d :: ps₂) := by
    refine ⟨keys.drop (minKeys + 1), items.drop (minKeys + 1), ps₂, false, ?_, hku.symm, ?_, ?_,
      rfl, hsu.imp (fun q hq => List.mem_append_right _ hq) hmove⟩
    · rw [hv.upper, List.map_drop]
    · rw [List.length_drop, hfull]; decide
    · rw [List.length_drop, ← hlen]; decide
  refine ⟨_, by simpa only [List.append_nil] using Seg.cons hlower (Seg.single hupper), ?_⟩
  have hmiddle : (p :: ps₁ ++ d :: ps₂).Perm (d :: (p :: ps₁ ++ ps₂)) := List.perm_middle
  exact hmiddle

/-- A full page can be split; both halves have room again. -/
theorem Sub.halves {pg : IndexPage} (hs : Sub view h m lo hi first next p es ps)
    (hpg : view p = some pg) (hfull : pg.needsSplit = true) (hnd : ps.Nodup) (hd : d < keySpace)
    (r : Bool) :
    ∃ lower sep upper, pg.halves d r = some (lower, sep, upper) ∧
      lower.pageId = p ∧ upper.pageId = d ∧ lower.needsSplit = false ∧ upper.needsSplit = false ∧
      ∀ {view'}, SplitView view view' p d ps lower upper →
        ∃ ps', Seg (Sub view' h minFanout) lo hi first next [(p, sep), (d, hi)] es ps' ∧
          ps'.Perm (d :: ps) := by
  cases h with
  | zero =>
    obtain ⟨r', hr⟩ := LeafRep.page hs
    cases hpg.symm.trans hr
    have hlen : es.length = maxEntries := by
      have := LeafRep.length hs
      simp only [IndexPage.needsSplit, IndexPage.needsSplitInternal, IndexPage.needsSplitLeaf,
        Bool.false_or, decide_eq_true_eq] at hfull
      omega
    obtain ⟨e, he⟩ : ∃ e, es[maxEntries / 2]? = some e :=
      ⟨_, List.getElem?_eq_getElem (by rw [hlen]; decide)⟩
    refine ⟨.leaf p (es.take (maxEntries / 2)) d r, e.1,
      .leaf d (es.drop (maxEntries / 2)) next false, by simp [IndexPage.halves, hlen, he], rfl, rfl,
      ?_, ?_, ?_⟩
    · simp [IndexPage.needsSplit, IndexPage.needsSplitInternal, IndexPage.needsSplitLeaf, hlen,
        maxEntries]
    · simp [IndexPage.needsSplit, IndexPage.needsSplitInternal, IndexPage.needsSplitLeaf, hlen,
        maxEntries]
    · intro view' hv
      refine ⟨[p, d], LeafRep.split hs hlen he hd hv, ?_⟩
      rw [LeafRep.pages_eq hs]
      exact List.Perm.swap d p []
  | succ h =>
    obtain ⟨keys, items, _, r', hr, _, hl, _⟩ := NodeRep.rep hs
    cases hpg.symm.trans hr
    have hlen : keys.length = maxKeys := by
      simp only [IndexPage.needsSplit, IndexPage.needsSplitInternal, IndexPage.needsSplitLeaf,
        Bool.or_false, decide_eq_true_eq] at hfull
      omega
    have hidx : (keys.length - 1) / 2 = minKeys := by rw [hlen]; decide
    obtain ⟨sep, hsep⟩ : ∃ sep, keys[minKeys]? = some sep :=
      ⟨_, List.getElem?_eq_getElem (by rw [hlen]; decide)⟩
    refine ⟨.internal p (keys.take minKeys) ((items.map Prod.fst).take (minKeys + 1)) false, sep,
      .internal d (keys.drop (minKeys + 1)) ((items.map Prod.fst).drop (minKeys + 1)) false,
      by simp [IndexPage.halves, hidx, hsep], rfl, rfl, ?_, ?_, ?_⟩
    · simp [IndexPage.needsSplit, IndexPage.needsSplitInternal, IndexPage.needsSplitLeaf, hlen,
        maxKeys, minKeys]
    · simp [IndexPage.needsSplit, IndexPage.needsSplitInternal, IndexPage.needsSplitLeaf, hlen,
        maxKeys, minKeys]
    · exact fun hv => NodeRep.split hs hpg hlen hsep hv hnd

theorem insertIdx_append {α : Type} (pre post : List α) (a : α) :
    (pre ++ post).insertIdx pre.length a = pre ++ a :: post := by
  induction pre with
  | nil => rfl
  | cons b pre ih => simp [ih]

theorem insertIdx_keys {keys pre : List Nat} {post : List Nat}
    (hk : keys ++ [hi] = pre ++ u :: post) :
    keys.insertIdx pre.length sep ++ [hi] = pre ++ sep :: u :: post := by
  induction pre generalizing keys with
  | nil => simpa using hk
  | cons b pre ih =>
    cases keys with
    | nil => simp at hk
    | cons k keys =>
      simp only [List.cons_append, List.cons.injEq] at hk
      simp [hk.1, ih hk.2]

/-- The view after a child split: both halves and the parent are in place. -/
def splitView (view : Nat → Option IndexPage) (lower upper parent : IndexPage) :
    Nat → Option IndexPage :=
  Function.update (Function.update (Function.update view lower.pageId (some lower))
    upper.pageId (some upper)) parent.pageId (some parent)

section SplitView
variable {lower upper parent : IndexPage} {q : Nat}

theorem splitView_parent : splitView view lower upper parent parent.pageId = some parent :=
  Function.update_self ..

theorem splitView_upper (h₁ : upper.pageId ≠ parent.pageId) :
    splitView view lower upper parent upper.pageId = some upper := by
  rw [splitView, Function.update_of_ne h₁, Function.update_self]

theorem splitView_lower (h₁ : lower.pageId ≠ parent.pageId) (h₂ : lower.pageId ≠ upper.pageId) :
    splitView view lower upper parent lower.pageId = some lower := by
  rw [splitView, Function.update_of_ne h₁, Function.update_of_ne h₂, Function.update_self]

theorem splitView_of_ne (h₁ : q ≠ lower.pageId)
    (h₂ : q ≠ upper.pageId) (h₃ : q ≠ parent.pageId) :
    splitView view lower upper parent q = view q := by
  simp only [splitView, Function.update_of_ne h₃, Function.update_of_ne h₂,
    Function.update_of_ne h₁]

end SplitView

/-- Put new items in the place of one child; the children beside it keep their pages. -/
theorem Seg.replace {a f n : Nat} {pre mids post : List (Nat × Nat)}
    {es₁ es₂ es₃ : List (Nat × Nat)} {ps₁ qs ps₃ : List Nat}
    (h₁ : Seg (Sub view h minFanout) lo a first f pre es₁ ps₁)
    (h₂ : Seg (Sub view' h minFanout) a u f n mids es₂ qs)
    (h₃ : Seg (Sub view h minFanout) u hi n next post es₃ ps₃)
    (hf : ∀ q ∈ ps₁ ++ ps₃, ∀ pg, view q = some pg → view' q = some pg) :
    Seg (Sub view' h minFanout) lo hi first next (pre ++ (mids ++ post)) (es₁ ++ (es₂ ++ es₃))
      (ps₁ ++ (qs ++ ps₃)) := by
  have h₁' : Seg (Sub view' h minFanout) lo a first f pre es₁ ps₁ :=
    h₁.imp (Q := fun q => ∀ pg, view q = some pg → view' q = some pg) (fun q hq => hf q (List.mem_append_left _ hq))
      (fun hsub hq => hsub.frame hq)
  have h₃' : Seg (Sub view' h minFanout) u hi n next post es₃ ps₃ :=
    h₃.imp (Q := fun q => ∀ pg, view q = some pg → view' q = some pg) (fun q hq => hf q (List.mem_append_right _ hq))
      (fun hsub hq => hsub.frame hq)
  exact h₁'.append (h₂.append h₃')

/-- After a split the key goes right of the separator exactly when it is not below it. -/
theorem findChildIndex_split {keys : List Nat} {pre post : List (Nat × Nat)} {key : Nat}
    (hk : keys ++ [hi] = (pre ++ ([(c, sep), (d, u)] ++ post)).map Prod.snd)
    (hsort : ((pre ++ ([(c, sep), (d, u)] ++ post)).map Prod.snd).Pairwise (· < ·))
    (hpre : ∀ i ∈ pre, i.2 ≤ key) (hu : key < u) :
    IndexPage.findChildIndex keys key = if sep ≤ key then pre.length + 1 else pre.length := by
  split
  · rename_i hle
    have hsplit : pre ++ ([(c, sep), (d, u)] ++ post) = (pre ++ [(c, sep)]) ++ (d, u) :: post := by
      simp
    rw [hsplit] at hk hsort
    have hpre' : ∀ i ∈ pre ++ [(c, sep)], i.2 ≤ key := by
      intro i hi
      rcases List.mem_append.mp hi with hi | hi
      · exact hpre i hi
      · rw [List.mem_singleton.mp hi]
        exact hle
    rw [IndexPage.findChildIndex_focus hk hsort hpre' hu, List.length_append, List.length_singleton]
  · rename_i hlt
    exact IndexPage.findChildIndex_focus hk hsort hpre (Nat.lt_of_not_le hlt)

/-- Splitting the full child that the key leads to keeps the contents, makes one page more, and
leaves the key a child with room. -/
theorem Sub.splitChild {keys children : List Nat} {r : Bool} {pg : IndexPage} {key : Nat}
    (hs : Sub view (h + 1) m lo hi first next p es ps) (hnd : ps.Nodup)
    (hpage : view p = some (.internal p keys children r)) (hroom : keys.length < maxKeys)
    (hlo : lo ≤ key) (hhi : key < hi)
    (hchild : children[IndexPage.findChildIndex keys key]? = some c)
    (hpg : view c = some pg) (hfull : pg.needsSplit = true) (hd : d ∉ ps) (hdk : d < keySpace) :
    ∃ lower sep upper keys' children' ps' c' pg',
      pg.halves d false = some (lower, sep, upper) ∧
      (∀ page ∈ [lower, upper, .internal p keys' children' r], page.pageId ∈ d :: ps ∧
        splitView view lower upper (.internal p keys' children' r) page.pageId = some page) ∧
      BTreeManager.parentWithChild (.internal p keys children r)
        (IndexPage.findChildIndex keys key) sep d = .internal p keys' children' r ∧
      Sub (splitView view lower upper (.internal p keys' children' r)) (h + 1) m lo hi first next p
        es ps' ∧ ps'.Perm (d :: ps) ∧
      IndexPage.findChildIndex keys' key = (if sep ≤ key then
        IndexPage.findChildIndex keys key + 1 else IndexPage.findChildIndex keys key) ∧
      children'[IndexPage.findChildIndex keys' key]? = some c' ∧
      splitView view lower upper (.internal p keys' children' r) c' = some pg' ∧
      pg'.needsSplit = false := by
  obtain ⟨keys₀, items, below, r₀, hr, hk, hl, hm, rfl, hseg⟩ := NodeRep.rep hs
  cases hpage.symm.trans hr
  obtain ⟨pre, c₀, u, post, a, f, n, es₁, es₂, es₃, ps₁, ps₂, ps₃, rfl, h₁, h₂, h₃, rfl, rfl,
    ha, hu, _, _, hidx, hc₀⟩ := child_focus hk hseg hlo hhi
  rw [hidx] at hchild ⊢
  obtain rfl : c₀ = c := Option.some.inj (hc₀.symm.trans hchild)
  have hc := h₂.page_mem
  simp only [List.nodup_cons, List.nodup_append, List.mem_append, not_or] at hnd
  obtain ⟨hp, -, ⟨hnd₂, -, hdisj₃⟩, hdisj₁⟩ := hnd
  simp only [List.mem_cons, List.mem_append, not_or] at hd
  obtain ⟨lower, sep, upper, hh, hlid, huid, hlroom, huroom, hsplit⟩ :=
    h₂.halves hpg hfull hnd₂ hdk false
  -- the parent with the separator and the new child put in
  obtain ⟨parent, hparent⟩ : ∃ parent, parent = IndexPage.internal p
    (keys.insertIdx pre.length sep)
    (((pre ++ (c₀, u) :: post).map Prod.fst).insertIdx (pre.length + 1) d) r := ⟨_, rfl⟩
  have hpid : parent.pageId = p := by rw [hparent, IndexPage.pageId_internal]
  have hcp : c₀ ≠ p := fun he => hp.2.1 (he ▸ hc)
  have hdc : c₀ ≠ d := fun he => hd.2.2.1 (he ▸ hc)
  have hvc : splitView view lower upper parent c₀ = some lower := by
    rw [← hlid]
    exact splitView_lower (by rw [hlid, hpid]; exact hcp) (by rw [hlid, huid]; exact hdc)
  have hvd : splitView view lower upper parent d = some upper := by
    rw [← huid]
    exact splitView_upper (by rw [huid, hpid]; exact hd.1)
  have hvp : splitView view lower upper parent p = some parent := hpid ▸ splitView_parent
  have hframe : ∀ q, q ≠ c₀ → q ≠ d → q ≠ p → ∀ pg, view q = some pg →
      splitView view lower upper parent q = some pg := fun q h₁ h₂ h₃ pg hq =>
    (splitView_of_ne (hlid.symm ▸ h₁) (huid.symm ▸ h₂) (hpid.symm ▸ h₃)).trans hq
  obtain ⟨ps', hseg', hperm⟩ := hsplit ⟨hvc, hvd, fun q hq hne =>
    hframe q hne (fun he => hd.2.2.1 (he ▸ hq)) (fun he => hp.2.1 (he ▸ hq))⟩
  have hsegs := Seg.replace h₁ hseg' h₃ (by
    intro q hq
    rcases List.mem_append.mp hq with hq | hq
    · exact hframe q (fun he => hdisj₁ q hq q (Or.inl (he ▸ hc)) rfl)
        (fun he => hd.2.1 (he ▸ hq)) (fun he => hp.1 (he ▸ hq))
    · exact hframe q (fun he => hdisj₃ q (he ▸ hc) q hq rfl)
        (fun he => hd.2.2.2 (he ▸ hq)) (fun he => hp.2.2 (he ▸ hq)))
  have hk' : keys.insertIdx pre.length sep ++ [hi] =
      (pre ++ ([(c₀, sep), (d, u)] ++ post)).map Prod.snd := by
    have hk₀ : keys ++ [hi] = pre.map Prod.snd ++ u :: post.map Prod.snd := hk.trans (by simp)
    simpa using insertIdx_keys hk₀
  have hchildren : ((pre ++ (c₀, u) :: post).map Prod.fst).insertIdx (pre.length + 1) d =
      (pre ++ ([(c₀, sep), (d, u)] ++ post)).map Prod.fst := by
    have := insertIdx_append (pre.map Prod.fst ++ [c₀]) (post.map Prod.fst) d
    simpa using this
  have hidx' := findChildIndex_split hk' (hsegs.uppers_sorted Sub.lt)
    (fun i hi => (h₁.lt_upper Sub.lt i hi).2.trans ha) hu
  rw [hchildren] at hparent
  refine ⟨lower, sep, upper, _, _, p :: (ps₁ ++ (ps' ++ ps₃)), if sep ≤ key then d else c₀,
    if sep ≤ key then upper else lower, hh, ?_,
    congrArg (IndexPage.internal p (keys.insertIdx pre.length sep) · r) hchildren,
    ?_, ?_, hidx', ?_, ?_, ?_⟩
  · rw [← hparent]
    intro page hmem
    simp only [List.mem_cons, List.not_mem_nil, or_false] at hmem
    rcases hmem with rfl | rfl | rfl
    · exact ⟨by simp [hlid, hc], hlid.symm ▸ hvc⟩
    · exact ⟨by simp [huid], huid.symm ▸ hvd⟩
    · exact ⟨by simp [hpid], hpid.symm ▸ hvp⟩
  · refine ⟨_, _, _, r, hparent ▸ hvp, hk', ?_, ?_,
      rfl, hparent ▸ hsegs⟩
    · have := List.length_insertIdx_le_succ (l := keys) (x := sep) (i := pre.length)
      omega
    · simp only [List.length_append, List.length_cons] at hm ⊢
      omega
  · have h₁ := (hperm.append_right ps₃).append_left ps₁
    have h₂ : (ps₁ ++ (d :: ps₂ ++ ps₃)).Perm (d :: (ps₁ ++ (ps₂ ++ ps₃))) := List.perm_middle
    exact ((h₁.trans h₂).cons p).trans (List.Perm.swap d p _)
  · rw [hidx']
    split <;> simp
  · rw [← hparent]
    split
    · exact hvd
    · exact hvc
  · split
    · exact huroom
    · exact hlroom

/-- Splitting a full root puts one page with two children above it. -/
theorem Sub.splitRoot {pg : IndexPage} {n : Nat} (hs : Sub view h m lo hi first next p es ps)
    (hnd : ps.Nodup) (hpg : view p = some pg) (hfull : pg.needsSplit = true)
    (hd : d ∉ ps) (hn : n ∉ ps) (hdn : d ≠ n) (hdk : d < keySpace) :
    ∃ lower sep upper ps', pg.halves d true = some (lower, sep, upper) ∧
      (∀ page ∈ [lower, upper, .internal n [sep] [p, d] true], page.pageId ∈ n :: d :: ps ∧
        splitView view lower upper (.internal n [sep] [p, d] true) page.pageId = some page) ∧
      Sub (splitView view lower upper (.internal n [sep] [p, d] true)) (h + 1) 2 lo hi first next n
        es ps' ∧ ps'.Perm (n :: d :: ps) := by
  obtain ⟨lower, sep, upper, hh, hlid, huid, -, -, hsplit⟩ := hs.halves hpg hfull hnd hdk true
  have hp := hs.page_mem
  obtain ⟨root, hroot⟩ : ∃ root, root = IndexPage.internal n [sep] [p, d] true := ⟨_, rfl⟩
  have hrid : root.pageId = n := by rw [hroot, IndexPage.pageId_internal]
  have hpn : p ≠ n := fun he => hn (he ▸ hp)
  have hpd : p ≠ d := fun he => hd (he ▸ hp)
  have hvp : splitView view lower upper root lower.pageId = some lower :=
    splitView_lower (by rw [hlid, hrid]; exact hpn) (by rw [hlid, huid]; exact hpd)
  have hvd : splitView view lower upper root upper.pageId = some upper :=
    splitView_upper (by rw [huid, hrid]; exact hdn)
  have hvn : splitView view lower upper root root.pageId = some root := splitView_parent
  obtain ⟨ps', hseg, hperm⟩ := hsplit ⟨hlid ▸ hvp, huid ▸ hvd, fun q hq hne pg hpg =>
    (splitView_of_ne (hlid.symm ▸ hne) (huid.symm ▸ fun he => hd (he ▸ hq))
      (hrid.symm ▸ fun he => hn (he ▸ hq))).trans hpg⟩
  refine ⟨lower, sep, upper, n :: ps', hh, ?_, ?_, hperm.cons n⟩
  · rw [← hroot]
    intro page hmem
    simp only [List.mem_cons, List.not_mem_nil, or_false] at hmem
    rcases hmem with rfl | rfl | rfl
    · exact ⟨by simp [hlid, hp], hvp⟩
    · exact ⟨by simp [huid], hvd⟩
    · exact ⟨by simp [hrid], hvn⟩
  · rw [← hroot]
    exact ⟨[sep], [(p, sep), (d, hi)], ps', true, by rw [← hrid, hvn, hroot]; rfl, rfl,
      by simp [maxKeys], by simp, rfl, hseg⟩

end SqliteGraph.V3
