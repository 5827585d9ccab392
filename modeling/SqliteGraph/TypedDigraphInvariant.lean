import SqliteGraph.TypedDigraph

/-! What every run of operations keeps of the graph with reusable slots. -/
namespace SqliteGraph
open Lib

namespace TypedDiGraph
variable {N E : Type} {g g' : TypedDiGraph N E} {e i : Nat} {entry : EdgeEntry E}

/-- The edges agree with both adjacency lists and with the stack of free edge slots. -/
structure Links (g : TypedDiGraph N E) : Prop where
  slots : Slab g.edges g.freeEdgeSlots g.edgeCount
  outgoing : Mirrors g.edges g.adjOut EdgeEntry.fromNode EdgeEntry.toNode
  incoming : Mirrors g.edges g.adjIn EdgeEntry.toNode EdgeEntry.fromNode
  lengthOut : g.adjOut.length = g.nodes.length
  lengthIn : g.adjIn.length = g.nodes.length
  range : ∀ (e : Nat) entry, g.edges[e]? = some (some entry) →
    entry.fromNode < g.nodes.length ∧ entry.toNode < g.nodes.length ∧ entry.weight.isSome

/-- A graph whose lists, stacks and counts all agree, and whose edges join nodes that are there. -/
structure Wf (g : TypedDiGraph N E) : Prop extends Links g where
  nodes : Slab g.nodes g.freeNodeSlots g.nodeCount
  live : ∀ (e : Nat) entry, g.edges[e]? = some (some entry) →
    g.containsNode entry.fromNode ∧ g.containsNode entry.toNode

theorem wf_new : (new : TypedDiGraph N E).Wf := by
  refine ⟨⟨.empty, ?_, ?_, rfl, rfl, ?_⟩, .empty, ?_⟩
  all_goals simp [new, Mirrors]

theorem containsNode_iff : g.containsNode i ↔ ∃ w, g.nodes[i]? = some (some w) := by
  rw [containsNode, Option.isSome_iff_exists]
  simp [Option.join_eq_some_iff]

theorem containsNode_lt (h : g.containsNode i) : i < g.nodes.length := by
  obtain ⟨w, hw⟩ := containsNode_iff.mp h
  exact (List.getElem?_eq_some_iff.mp hw).1

/-- The graph after the edge in a slot is taken out. -/
def dropEdge (g : TypedDiGraph N E) (e : Nat) (entry : EdgeEntry E) : TypedDiGraph N E :=
  { g with
    edges := g.edges.set e none
    adjOut := g.adjOut.modify entry.fromNode (·.filter (·.1 ≠ e))
    adjIn := g.adjIn.modify entry.toNode (·.filter (·.1 ≠ e))
    edgeCount := g.edgeCount - 1
    freeEdgeSlots := e :: g.freeEdgeSlots }

theorem getElem?_set_none {e' : Nat} {b : EdgeEntry E} :
    (g.edges.set e none)[e']? = some (some b) ↔ g.edges[e']? = some (some b) ∧ e' ≠ e := by
  rw [List.getElem?_set]
  split
  · subst e'
    split <;> simp
  · rename_i he
    simp [Ne.symm he]

namespace Links

theorem removeEdgeFromAdj (h : Links g) (he : g.edges[e]? = some (some entry)) :
    TypedDiGraph.removeEdgeFromAdj { g with edges := g.edges.set e none } e entry.fromNode
        entry.toNode =
      .ok { g with
        edges := g.edges.set e none
        adjOut := g.adjOut.modify entry.fromNode (·.filter (·.1 ≠ e))
        adjIn := g.adjIn.modify entry.toNode (·.filter (·.1 ≠ e)) } := by
  obtain ⟨hfrom, hto, -⟩ := h.range e entry he
  rw [TypedDiGraph.removeEdgeFromAdj, modifyAt_ok (by rwa [h.lengthOut]),
    modifyAt_ok (by rwa [h.lengthIn])]
  rfl

theorem dropEdge (h : Links g) (he : g.edges[e]? = some (some entry)) :
    Links (g.dropEdge e entry) := by
  refine ⟨h.slots.take he, h.outgoing.unlink he, h.incoming.unlink he, ?_, ?_, ?_⟩
  · exact (List.length_modify ..).trans h.lengthOut
  · exact (List.length_modify ..).trans h.lengthIn
  · intro e' b hb
    exact h.range e' b (getElem?_set_none.mp hb).1

/-- An edge slot that exists can be emptied, whether or not an edge is in it. -/
theorem removeEdgeRaw (h : Links g) (he : e < g.edges.length) :
    ∃ g', g.removeEdgeRaw e = .ok g' ∧ Links g' ∧ g'.edges = g.edges.set e none ∧
      g'.nodes = g.nodes ∧ g'.freeNodeSlots = g.freeNodeSlots ∧ g'.nodeCount = g.nodeCount := by
  rcases hs : g.edges[e]? with _ | _ | entry
  · rw [List.getElem?_eq_none_iff] at hs
    omega
  · refine ⟨g, by rw [TypedDiGraph.removeEdgeRaw, hs], h, ?_, rfl, rfl, rfl⟩
    rw [List.getElem?_eq_getElem he, Option.some.injEq] at hs
    rw [← hs, List.set_getElem_self]
  · refine ⟨g.dropEdge e entry, ?_, h.dropEdge hs, rfl, rfl, rfl, rfl⟩
    rw [TypedDiGraph.removeEdgeRaw, hs]
    simp only [h.removeEdgeFromAdj hs]
    rfl

/-- Emptying slots one after the other leaves the other edges and all nodes as they were. -/
theorem removeEdges {es : List Nat} (h : Links g) (hes : ∀ e ∈ es, e < g.edges.length) :
    ∃ g', es.foldlM TypedDiGraph.removeEdgeRaw g = .ok g' ∧ Links g' ∧
      (∀ (e : Nat) b, g'.edges[e]? = some (some b) ↔ g.edges[e]? = some (some b) ∧ e ∉ es) ∧
      g'.edges.length = g.edges.length ∧
      g'.nodes = g.nodes ∧ g'.freeNodeSlots = g.freeNodeSlots ∧ g'.nodeCount = g.nodeCount := by
  induction es generalizing g with
  | nil => exact ⟨g, rfl, h, by simp, rfl, rfl, rfl, rfl⟩
  | cons e es ih =>
    rw [List.forall_mem_cons] at hes
    obtain ⟨g₁, hg₁, h₁, he₁, hn₁, hf₁, hc₁⟩ := h.removeEdgeRaw hes.1
    have hlen : g₁.edges.length = g.edges.length := by rw [he₁, List.length_set]
    obtain ⟨g₂, hg₂, h₂, he₂, hl₂, hn₂, hf₂, hc₂⟩ := ih h₁ (by rw [hlen]; exact hes.2)
    refine ⟨g₂, ?_, h₂, ?_, hl₂.trans hlen, hn₂.trans hn₁, hf₂.trans hf₁, hc₂.trans hc₁⟩
    · rw [List.foldlM_cons, hg₁]
      exact hg₂
    · intro e' b
      rw [he₂, he₁, getElem?_set_none, List.mem_cons]
      tauto

/-- All edges that one end's list of a node names are taken out, and those are the edges there. -/
theorem drain {adj : List (List (Nat × Nat))} {here there : EdgeEntry E → Nat} (h : Links g)
    (hm : Mirrors g.edges adj here there) (hi : i < adj.length) :
    ∃ es g', edgesAt adj i = .ok es ∧ es.foldlM TypedDiGraph.removeEdgeRaw g = .ok g' ∧ Links g' ∧
      (∀ (e : Nat) b, g'.edges[e]? = some (some b) ↔ g.edges[e]? = some (some b) ∧ here b ≠ i) ∧
      g'.nodes = g.nodes ∧ g'.freeNodeSlots = g.freeNodeSlots ∧ g'.nodeCount = g.nodeCount := by
  have hl : adj[i]? = some adj[i] := List.getElem?_eq_getElem hi
  have hmem : ∀ e, e ∈ adj[i].map Prod.fst ↔ ∃ b, g.edges[e]? = some (some b) ∧ here b = i := by
    intro e
    rw [List.mem_map]
    constructor
    · rintro ⟨⟨e, t⟩, het, rfl⟩
      obtain ⟨b, hb, hbi, -⟩ := ((hm i _ hl).2 e t).mp het
      exact ⟨b, hb, hbi⟩
    · rintro ⟨b, hb, hbi⟩
      exact ⟨(e, there b), ((hm i _ hl).2 e _).mpr ⟨b, hb, hbi, rfl⟩, rfl⟩
  have hlt : ∀ e ∈ adj[i].map Prod.fst, e < g.edges.length := by
    intro e he
    obtain ⟨b, hb, -⟩ := (hmem e).mp he
    exact (List.getElem?_eq_some_iff.mp hb).1
  obtain ⟨g', hg', h', he', -, hn', hf', hc'⟩ := h.removeEdges hlt
  refine ⟨_, g', by rw [edgesAt, hl], hg', h', ?_, hn', hf', hc'⟩
  intro e b
  rw [he', hmem]
  constructor
  · rintro ⟨hb, hno⟩
    exact ⟨hb, fun hbi => hno ⟨b, hb, hbi⟩⟩
  · rintro ⟨hb, hne⟩
    refine ⟨hb, ?_⟩
    rintro ⟨b', hb', hbi⟩
    rw [hb] at hb'
    cases hb'
    exact hne hbi

theorem clearOut (h : Links g) (hi : ∀ (e : Nat) b, g.edges[e]? = some (some b) → b.fromNode ≠ i) :
    Links { g with adjOut := g.adjOut.set i [] } :=
  ⟨h.slots, h.outgoing.clear hi, h.incoming, List.length_set.trans h.lengthOut, h.lengthIn,
    h.range⟩

theorem clearIn (h : Links g) (hi : ∀ (e : Nat) b, g.edges[e]? = some (some b) → b.toNode ≠ i) :
    Links { g with adjIn := g.adjIn.set i [] } :=
  ⟨h.slots, h.outgoing, h.incoming.clear hi, h.lengthOut, List.length_set.trans h.lengthIn,
    h.range⟩

/-- Nodes may change as long as their number of slots stays. -/
theorem withNodes (h : Links g) {nodes : List (Option N)} {free : List Nat} {count : Nat}
    (hlen : nodes.length = g.nodes.length) :
    Links { g with nodes := nodes, freeNodeSlots := free, nodeCount := count } :=
  ⟨h.slots, h.outgoing, h.incoming, h.lengthOut.trans hlen.symm, h.lengthIn.trans hlen.symm,
    fun e entry he => by rw [hlen]; exact h.range e entry he⟩

end Links

namespace Wf

/-- Edges keep their ends as long as no node goes away. -/
theorem live_of (h : Wf g) {nodes : List (Option N)}
    (hkeep : ∀ (i : Nat) w, g.nodes[i]? = some (some w) → ∃ w', nodes[i]? = some (some w')) :
    ∀ (e : Nat) entry, g.edges[e]? = some (some entry) →
      (nodes[entry.fromNode]?.join).isSome ∧ (nodes[entry.toNode]?.join).isSome := by
  have hstay : ∀ i, g.containsNode i → (nodes[i]?.join).isSome := by
    intro i hi
    obtain ⟨w, hw⟩ := containsNode_iff.mp hi
    obtain ⟨w', hw'⟩ := hkeep i w hw
    rw [hw']
    rfl
  intro e entry he
  exact ⟨hstay _ (h.live e entry he).1, hstay _ (h.live e entry he).2⟩

theorem pushNode (h : Wf g) (hf : g.freeNodeSlots = []) (weight : N) :
    Wf { g with
      nodes := g.nodes ++ [some weight]
      adjOut := g.adjOut ++ [[]]
      adjIn := g.adjIn ++ [[]]
      nodeCount := g.nodeCount + 1 } := by
  refine ⟨⟨h.slots, ?_, ?_, by simp [h.lengthOut], by simp [h.lengthIn], ?_⟩, ?_, ?_⟩
  · refine h.outgoing.grow fun e b hb => ?_
    rw [h.lengthOut]
    exact (h.range e b hb).1
  · refine h.incoming.grow fun e b hb => ?_
    rw [h.lengthIn]
    exact (h.range e b hb).2.1
  · intro e b hb
    obtain ⟨hfrom, hto, hw⟩ := h.range e b hb
    simp only [List.length_append, List.length_singleton]
    exact ⟨by omega, by omega, hw⟩
  · have hn := h.nodes
    rw [hf] at hn ⊢
    exact hn.push
  · refine h.live_of fun i w hw => ⟨w, ?_⟩
    rwa [List.getElem?_append_left (List.getElem?_eq_some_iff.mp hw).1]

theorem reuseNode (h : Wf g) {slot : Nat} {rest : List Nat} (hf : g.freeNodeSlots = slot :: rest)
    (weight : N) :
    Wf { g with
      nodes := g.nodes.set slot (some weight)
      freeNodeSlots := rest
      nodeCount := g.nodeCount + 1 } := by
  have hn := h.nodes
  rw [hf] at hn
  have hlt := hn.lt_length List.mem_cons_self
  refine ⟨h.toLinks.withNodes List.length_set, hn.reuse, h.live_of fun i w hw => ?_⟩
  by_cases hi : slot = i
  · exact ⟨weight, by rw [hi, List.getElem?_set_self (hi ▸ hlt)]⟩
  · exact ⟨w, by rwa [List.getElem?_set_ne hi]⟩

theorem addNode (h : Wf g) (weight : N) : ∃ idx g', g.addNode weight = .ok (idx, g') ∧ Wf g' := by
  rcases hf : g.freeNodeSlots with _ | ⟨slot, rest⟩
  · have hw := h.pushNode hf weight
    rw [hf] at hw
    refine ⟨g.nodes.length, _, ?_, hw⟩
    rw [TypedDiGraph.addNode, hf]
  · have hn := h.nodes
    rw [hf] at hn
    refine ⟨slot, _, ?_, h.reuseNode hf weight⟩
    rw [TypedDiGraph.addNode, hf]
    simp only [setAt_ok (hn.lt_length List.mem_cons_self)]
    rfl

/-- An edge put into a slot that was vacant or is new. -/
theorem linkEdge (h : Wf g) {fromNode toNode slot : Nat} {weight : E} {free : List Nat}
    {edges : List (Option (EdgeEntry E))} (hfrom : g.containsNode fromNode)
    (hto : g.containsNode toNode) (hvac : ∀ b, g.edges[slot]? ≠ some (some b))
    (hnew : edges[slot]? = some (some ⟨fromNode, toNode, some weight⟩))
    (hold : ∀ e b, e ≠ slot → (edges[e]? = some (some b) ↔ g.edges[e]? = some (some b)))
    (hs : Slab edges free (g.edgeCount + 1)) :
    Wf { g with
      edges := edges
      adjOut := g.adjOut.modify fromNode (· ++ [(slot, toNode)])
      adjIn := g.adjIn.modify toNode (· ++ [(slot, fromNode)])
      freeEdgeSlots := free
      edgeCount := g.edgeCount + 1 } := by
  have hcase : ∀ (P : EdgeEntry E → Prop), P ⟨fromNode, toNode, some weight⟩ →
      (∀ (e : Nat) b, g.edges[e]? = some (some b) → P b) →
      ∀ (e : Nat) b, edges[e]? = some (some b) → P b := by
    intro P hentry hrest e b hb
    by_cases he : e = slot
    · subst e
      rw [hnew] at hb
      cases hb
      exact hentry
    · exact hrest e b ((hold e b he).mp hb)
  refine ⟨⟨hs, h.outgoing.link hvac hnew hold, h.incoming.link hvac hnew hold, ?_, ?_, ?_⟩,
    h.nodes, ?_⟩
  · exact (List.length_modify ..).trans h.lengthOut
  · exact (List.length_modify ..).trans h.lengthIn
  · exact hcase _ ⟨containsNode_lt hfrom, containsNode_lt hto, rfl⟩ h.range
  · exact hcase _ ⟨hfrom, hto⟩ h.live

/-- An edge is added exactly between nodes that are there. -/
theorem addEdge (h : Wf g) {fromNode toNode : Nat} (hfrom : g.containsNode fromNode)
    (hto : g.containsNode toNode) (weight : E) :
    ∃ idx g', g.addEdge fromNode toNode weight = .ok (idx, g') ∧ Wf g' := by
  have hout : fromNode < g.adjOut.length := by
    rw [h.lengthOut]
    exact containsNode_lt hfrom
  have hin : toNode < g.adjIn.length := by
    rw [h.lengthIn]
    exact containsNode_lt hto
  have hs := h.slots
  rcases hf : g.freeEdgeSlots with _ | ⟨slot, rest⟩
  · rw [hf] at hs
    have hvac : ∀ b, g.edges[g.edges.length]? ≠ some (some b) := by simp
    have hold : ∀ (e : Nat) b, e ≠ g.edges.length →
        ((g.edges ++ [some ⟨fromNode, toNode, some weight⟩])[e]? = some (some b) ↔
          g.edges[e]? = some (some b)) := by
      intro e b he
      rcases Nat.lt_or_ge e g.edges.length with hlt | hge
      · rw [List.getElem?_append_left hlt]
      · rw [List.getElem?_eq_none (by simp; omega), List.getElem?_eq_none hge]
    have hw := h.linkEdge hfrom hto hvac List.getElem?_concat_length hold hs.push
    refine ⟨g.edges.length, _, ?_, hw⟩
    rw [TypedDiGraph.addEdge, hfrom, hto, hf]
    simp only [modifyAt_ok hout, modifyAt_ok hin]
    rfl
  · rw [hf] at hs
    have hlt := hs.lt_length List.mem_cons_self
    have hvac : g.edges[slot]? = some none := (hs.mem_free slot).mp List.mem_cons_self
    have hw := h.linkEdge hfrom hto (by simp [hvac]) (List.getElem?_set_self hlt)
      (fun e b he => by rw [List.getElem?_set_ne (Ne.symm he)])
      (hs.reuse (a := ⟨fromNode, toNode, some weight⟩))
    refine ⟨slot, _, ?_, hw⟩
    rw [TypedDiGraph.addEdge, hfrom, hto, hf]
    simp only [setAt_ok hlt, modifyAt_ok hout, modifyAt_ok hin]
    rfl

/-- Only an index beyond every slot makes the removal of an edge panic. -/
theorem removeEdge (h : Wf g) (he : e < g.edges.length) :
    ∃ w g', g.removeEdge e = .ok (w, g') ∧ Wf g' := by
  rcases hs : g.edges[e]? with _ | _ | entry
  · rw [List.getElem?_eq_none_iff] at hs
    omega
  · exact ⟨none, g, by rw [TypedDiGraph.removeEdge, hs], h⟩
  · obtain ⟨w, hw⟩ := Option.isSome_iff_exists.mp (h.range e entry hs).2.2
    refine ⟨some w, g.dropEdge e entry, ?_, h.toLinks.dropEdge hs, h.nodes, ?_⟩
    · rw [TypedDiGraph.removeEdge, hs]
      simp only [h.toLinks.removeEdgeFromAdj hs, hw]
      rfl
    · intro e' b hb
      exact h.live e' b (getElem?_set_none.mp hb).1

/-- The edges at a node are taken out in both directions, and with them nothing else. -/
theorem drainNode (h : Links g) (hi : i < g.nodes.length) :
    ∃ outs g₁ ins g₂, edgesAt g.adjOut i = .ok outs ∧
      outs.foldlM TypedDiGraph.removeEdgeRaw g = .ok g₁ ∧
      setAt g₁.adjOut i [] = .ok (g₁.adjOut.set i []) ∧ edgesAt g₁.adjIn i = .ok ins ∧
      ins.foldlM TypedDiGraph.removeEdgeRaw { g₁ with adjOut := g₁.adjOut.set i [] } = .ok g₂ ∧
      setAt g₂.adjIn i [] = .ok (g₂.adjIn.set i []) ∧
      Links { g₂ with adjIn := g₂.adjIn.set i [] } ∧
      (∀ (e : Nat) b, g₂.edges[e]? = some (some b) ↔
        g.edges[e]? = some (some b) ∧ b.fromNode ≠ i ∧ b.toNode ≠ i) ∧
      g₂.nodes = g.nodes ∧ g₂.freeNodeSlots = g.freeNodeSlots ∧ g₂.nodeCount = g.nodeCount := by
  obtain ⟨outs, g₁, houts, hg₁, h₁, he₁, hn₁, hf₁, hc₁⟩ := h.drain h.outgoing (h.lengthOut ▸ hi)
  have hi₁ : i < g₁.nodes.length := hn₁ ▸ hi
  have hclear := h₁.clearOut fun e b hb => ((he₁ e b).mp hb).2
  obtain ⟨ins, g₂, hins, hg₂, h₂, he₂, hn₂, hf₂, hc₂⟩ :=
    hclear.drain hclear.incoming (hclear.lengthIn ▸ hi₁)
  have hi₂ : i < g₂.nodes.length := hn₂ ▸ hi₁
  refine ⟨outs, g₁, ins, g₂, houts, hg₁, setAt_ok (h₁.lengthOut ▸ hi₁), hins, hg₂,
    setAt_ok (h₂.lengthIn ▸ hi₂), h₂.clearIn fun e b hb => ((he₂ e b).mp hb).2, ?_,
    hn₂.trans hn₁, hf₂.trans hf₁, hc₂.trans hc₁⟩
  intro e b
  rw [he₂, he₁, and_assoc]

/-- A node goes with all edges at it, and its slot becomes free. -/
theorem removeNode (h : Wf g) (i : Nat) : ∃ w g', g.removeNode i = .ok (w, g') ∧ Wf g' := by
  rcases hs : g.nodes[i]? with _ | _ | weight
  · exact ⟨none, g, by rw [TypedDiGraph.removeNode, hs], h⟩
  · exact ⟨none, g, by rw [TypedDiGraph.removeNode, hs], h⟩
  · have hi := (List.getElem?_eq_some_iff.mp hs).1
    let g₀ : TypedDiGraph N E :=
      { g with nodes := g.nodes.set i none, nodeCount := g.nodeCount - 1 }
    have hlen : g₀.nodes.length = g.nodes.length := List.length_set
    have h₀ : Links g₀ := h.toLinks.withNodes hlen
    obtain ⟨outs, g₁, ins, g₂, houts, hg₁, hset₁, hins, hg₂, hset₂, h₂, he₂, hn₂, hf₂, hc₂⟩ :=
      drainNode h₀ (hlen ▸ hi)
    refine ⟨some weight, { g₂ with
      adjIn := g₂.adjIn.set i [], freeNodeSlots := i :: g₂.freeNodeSlots }, ?_,
      h₂.withNodes rfl, ?_, ?_⟩
    · rw [TypedDiGraph.removeNode, hs]
      simp only [g₀] at houts hg₁
      simp only [houts, bind, Except.bind] 
      rw [hg₁]
      simp only [hset₁, hins]
      rw [hg₂]
      simp only [hset₂]
      rfl
    · simp only [hn₂, hf₂, hc₂]
      exact h.nodes.take hs
    · intro e b hb
      obtain ⟨hb, hfrom, hto⟩ := (he₂ e b).mp hb
      obtain ⟨hf, ht⟩ := h.live e b hb
      have hkeep : ∀ j, j ≠ i → g.containsNode j → ((g₂.nodes[j]?).join).isSome := by
        intro j hj hc
        rw [hn₂, List.getElem?_set_ne (Ne.symm hj)]
        exact hc
      exact ⟨hkeep _ hfrom hf, hkeep _ hto ht⟩

theorem apply (h : Wf g) {op : Operation N E} (hop : g.Allowed op) :
    ∃ g', g.apply op = .ok g' ∧ Wf g' := by
  cases op with
  | addNode weight =>
    obtain ⟨idx, g', hg', hw⟩ := h.addNode weight
    exact ⟨g', by rw [TypedDiGraph.apply, hg']; rfl, hw⟩
  | addEdge fromNode toNode weight =>
    obtain ⟨idx, g', hg', hw⟩ := h.addEdge hop.1 hop.2 weight
    exact ⟨g', by rw [TypedDiGraph.apply, hg']; rfl, hw⟩
  | removeNode idx =>
    obtain ⟨w, g', hg', hw⟩ := h.removeNode idx
    exact ⟨g', by rw [TypedDiGraph.apply, hg']; rfl, hw⟩
  | removeEdge idx =>
    obtain ⟨w, g', hg', hw⟩ := h.removeEdge hop
    exact ⟨g', by rw [TypedDiGraph.apply, hg']; rfl, hw⟩

end Wf

/-- The assertions stop every other call. -/
theorem allowed_of_apply {op : Operation N E} (h : g.apply op = .ok g') : g.Allowed op := by
  cases op with
  | addNode weight => trivial
  | removeNode idx => trivial
  | addEdge fromNode toNode weight =>
    rw [apply, addEdge] at h
    split at h
    · cases h
    · split at h
      · cases h
      · rename_i hfrom hto
        exact ⟨by simpa using hfrom, by simpa using hto⟩
  | removeEdge idx =>
    by_contra hlt
    have hge : g.edges.length ≤ idx := Nat.le_of_not_lt hlt
    rw [apply, removeEdge, List.getElem?_eq_none hge] at h
    cases h

theorem reaches_wf (h : Reaches g) : g.Wf := by
  induction h with
  | new => exact wf_new
  | step _ hop ih =>
    obtain ⟨g', hg', hw⟩ := ih.apply (allowed_of_apply hop)
    rw [hop] at hg'
    cases hg'
    exact hw

/-- Every run keeps the representation, and no operation panics but by the code's assertions. -/
theorem representation (h : Reaches g) :
    g.Wf ∧ ∀ op, g.Allowed op → ∃ g', g.apply op = .ok g' := by
  have hw := reaches_wf h
  refine ⟨hw, fun op hop => ?_⟩
  obtain ⟨g', hg', -⟩ := hw.apply hop
  exact ⟨g', hg'⟩

theorem representation_loopRemoved :
    (⟨[none], [none], [[]], [[]], [0], [0], 0, 0⟩ : TypedDiGraph Unit Unit).Wf :=
  have hnode : Reaches (⟨[some ()], [], [[]], [[]], [], [], 1, 0⟩ : TypedDiGraph Unit Unit) :=
    .step .new (rfl : apply _ (.addNode ()) = _)
  have hloop : Reaches (⟨[some ()], [some ⟨0, 0, some ()⟩], [[(0, 0)]], [[(0, 0)]], [], [], 1, 1⟩ :
    TypedDiGraph Unit Unit) := .step hnode (rfl : apply _ (.addEdge 0 0 ()) = _)
  (representation (.step hloop (rfl : apply _ (.removeNode 0) = _))).1

end TypedDiGraph

end SqliteGraph
