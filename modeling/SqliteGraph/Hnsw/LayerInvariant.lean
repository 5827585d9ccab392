import SqliteGraph.Hnsw.Index

/-! What each operation keeps of a layer: its shape, its bound, and the marks for the next save. -/
namespace SqliteGraph.Hnsw
open Lib

namespace HnswLayer
variable {layer base middle : HnswLayer} {deleted : Set Nat} {n u v : Nat} {connections : List Nat}

def Live (layer : HnswLayer) (deleted : Set Nat) (n : Nat) : Prop := n ∈ layer.nodes ∧ n ∉ deleted

/-- Connections run between live nodes, and entry points are live and distinct. -/
structure WellFormed (layer : HnswLayer) (deleted : Set Nat) : Prop where
  source : ∀ u v, layer.Links u v → layer.Live deleted u
  target : ∀ u v, layer.Links u v → layer.Live deleted v
  irreflexive : ∀ u, ¬ layer.Links u u
  distinct : ∀ u, (layer.linked u).Nodup
  entryLive : ∀ e ∈ layer.entryPoints, layer.Live deleted e
  entryDistinct : layer.entryPoints.Nodup
  deletedNodes : ∀ n ∈ deleted, n ∈ layer.nodes

theorem WellFormed.clearDirty (h : layer.WellFormed deleted) : layer.clearDirty.WellFormed deleted :=
  ⟨h.source, h.target, h.irreflexive, h.distinct, h.entryLive, h.entryDistinct, h.deletedNodes⟩

/-- The most connections that a node may have. -/
def bound (layer : HnswLayer) : Nat := max (2 * layer.maxConnections) 32

def Bounded (layer : HnswLayer) : Prop := ∀ u, (layer.linked u).length ≤ layer.bound

/-- Nothing is taken from the layer, and what differs is marked. -/
structure Grows (base layer : HnswLayer) : Prop where
  nodes : ∀ n ∈ base.nodes, n ∈ layer.nodes
  marks : base.dirtyNodes ⊆ layer.dirtyNodes
  kept : ∀ n, n ∉ layer.dirtyNodes → layer.linked n = base.linked n
  maxConnections : layer.maxConnections = base.maxConnections

namespace Grows

theorem refl : Grows layer layer := ⟨fun _ h => h, subset_rfl, fun _ _ => rfl, rfl⟩

theorem trans (h : Grows base middle) (h' : Grows middle layer) : Grows base layer where
  nodes n hn := h'.nodes n (h.nodes n hn)
  marks := h.marks.trans h'.marks
  kept n hn := (h'.kept n hn).trans (h.kept n fun hmark => hn (h'.marks hmark))
  maxConnections := h'.maxConnections.trans h.maxConnections

theorem bound (h : Grows base layer) : layer.bound = base.bound := by
  rw [HnswLayer.bound, HnswLayer.bound, h.maxConnections]

theorem live (h : Grows base layer) (hn : base.Live deleted n) : layer.Live deleted n :=
  ⟨h.nodes n hn.1, hn.2⟩

theorem setConnections : Grows layer (layer.setConnections n connections) where
  nodes m hm := mem_setConnections.mpr (.inr hm)
  marks := Finset.subset_insert _ _
  kept m hm := by
    have hne : m ≠ n := fun h => hm (h ▸ Finset.mem_insert_self _ _)
    rw [linked_setConnections, if_neg hne]
  maxConnections := rfl

end Grows

theorem WellFormed.new (level base : Nat) : (new level base).WellFormed ∅ where
  source _ _ h := nomatch h
  target _ _ h := nomatch h
  irreflexive _ h := nomatch h
  distinct _ := List.nodup_nil
  entryLive _ he := nomatch he
  entryDistinct := List.nodup_nil
  deletedNodes _ hn := nomatch hn

theorem links_setConnections : (layer.setConnections n connections).Links u v ↔
    if u = n then v ∈ connections else layer.Links u v := by
  rw [Links, linked_setConnections]
  split <;> rfl

theorem live_setConnections (hn : n ∈ layer.nodes) :
    (layer.setConnections n connections).Live deleted v ↔ layer.Live deleted v := by
  rw [Live, mem_setConnections, Live]
  constructor
  · rintro ⟨rfl | hv, hdel⟩
    · exact ⟨hn, hdel⟩
    · exact ⟨hv, hdel⟩
  · rintro ⟨hv, hdel⟩
    exact ⟨.inr hv, hdel⟩

/-- A live node may be given any live nodes but itself. -/
theorem WellFormed.setConnections (h : layer.WellFormed deleted) (hn : layer.Live deleted n)
    (hdistinct : connections.Nodup) (hlive : ∀ v ∈ connections, layer.Live deleted v)
    (hself : n ∉ connections) : (layer.setConnections n connections).WellFormed deleted where
  source u v hlink := by
    rw [live_setConnections hn.1]
    rw [links_setConnections] at hlink
    split at hlink
    · rename_i he
      exact he ▸ hn
    · exact h.source u v hlink
  target u v hlink := by
    rw [live_setConnections hn.1]
    rw [links_setConnections] at hlink
    split at hlink
    · exact hlive v hlink
    · exact h.target u v hlink
  irreflexive u hlink := by
    rw [links_setConnections] at hlink
    split at hlink
    · rename_i he
      exact hself (he ▸ hlink)
    · exact h.irreflexive u hlink
  distinct u := by
    rw [linked_setConnections]
    split
    · exact hdistinct
    · exact h.distinct u
  entryLive e he := (live_setConnections hn.1).mpr (h.entryLive e he)
  entryDistinct := h.entryDistinct
  deletedNodes m hm := mem_setConnections.mpr (.inr (h.deletedNodes m hm))

section Prune
variable {D : Type} [LinearOrder D] {distances : Nat → Option D}

/-- Sorting a part of the connections neither adds nor repeats one. -/
theorem byDistance_subperm : List.Subperm (byDistance distances connections) connections := by
  have hsub : ((connections.filterMap fun id => (distances id).map (id, ·)).map Prod.fst).Sublist
      connections := by
    induction connections with
    | nil => exact .slnil
    | cons c connections ih =>
      rw [List.filterMap_cons]
      cases hd : (distances c).map (c, ·) with
      | none => exact ih.cons c
      | some p =>
        obtain ⟨d, -, rfl⟩ := Option.map_eq_some_iff.mp hd
        exact ih.cons_cons c
  rw [byDistance]
  exact ((List.perm_insertionSort _ _).map _).subperm.trans hsub.subperm

variable (layer n distances) in
/-- A node that is cut back keeps some of its connections, and at most `maxConnections`. -/
theorem prune_cases : layer.pruneConnectionsByDistance n distances = layer ∧
      (layer.linked n).length ≤ layer.maxConnections ∨
    ∃ kept, layer.pruneConnectionsByDistance n distances = layer.setConnections n kept ∧
      n ∈ layer.nodes ∧ List.Subperm kept (layer.linked n) ∧ kept.length ≤ layer.maxConnections := by
  rw [pruneConnectionsByDistance, linked]
  cases hn : layer.nodes.lookup n with
  | none => exact .inl ⟨rfl, Nat.zero_le _⟩
  | some connections =>
    dsimp only [Option.getD_some]
    by_cases hlen : layer.maxConnections < connections.length
    · rw [if_pos hlen]
      refine .inr ⟨_, rfl, ?_, (List.take_sublist _ _).subperm.trans byDistance_subperm, ?_⟩
      · rw [← AList.lookup_isSome, hn]
        rfl
      · exact List.length_take_le _ _
    · rw [if_neg hlen]
      exact .inl ⟨rfl, by omega⟩

theorem Grows.prune : Grows layer (layer.pruneConnectionsByDistance n distances) := by
  rcases prune_cases layer n distances with ⟨h, -⟩ | ⟨_, h, -, -, -⟩
  · rw [h]
    exact .refl
  · rw [h]
    exact .setConnections

end Prune

section AddNode

/-- A new node has no connections, and is an entry point while there is room for one. -/
theorem addNode_cases {layer' : HnswLayer} (hok : layer.addNode n = .ok layer') :
    n ∉ layer.nodes ∧ layer'.nodes = layer.nodes.insert n [] ∧
      layer'.dirtyNodes = insert n layer.dirtyNodes ∧ layer'.maxConnections = layer.maxConnections ∧
      layer'.entryPoints =
        if layer.entryPoints.length < layer.maxConnections then layer.entryPoints ++ [n]
        else layer.entryPoints := by
  by_cases hn : n ∈ layer.nodes
  · rw [addNode, if_pos (containsNode_iff.mpr hn)] at hok
    cases hok
  · rw [addNode_ok hn] at hok
    cases hok
    exact ⟨hn, rfl, rfl, rfl, rfl⟩

variable {added : HnswLayer}

theorem linked_addNode (hok : layer.addNode n = .ok added) : added.linked u = layer.linked u := by
  obtain ⟨hn, hnodes, -, -, -⟩ := addNode_cases hok
  rw [linked, linked, hnodes]
  by_cases he : u = n
  · have hnone : layer.nodes.lookup n = none := AList.lookup_eq_none.mpr hn
    rw [he, AList.lookup_insert, hnone]
    rfl
  · rw [AList.lookup_insert_ne he]

theorem mem_addNode (hok : layer.addNode n = .ok added) : v ∈ added.nodes ↔ v = n ∨ v ∈ layer.nodes := by
  obtain ⟨-, hnodes, -, -, -⟩ := addNode_cases hok
  rw [hnodes, AList.mem_insert]

theorem Grows.addNode (hok : layer.addNode n = .ok added) : Grows layer added where
  nodes m hm := (mem_addNode hok).mpr (.inr hm)
  marks := by
    rw [(addNode_cases hok).2.2.1]
    exact Finset.subset_insert _ _
  kept m _ := linked_addNode hok
  maxConnections := (addNode_cases hok).2.2.2.1

theorem Bounded.addNode (h : layer.Bounded) (hok : layer.addNode n = .ok added) : added.Bounded := by
  intro u
  rw [linked_addNode hok, (Grows.addNode hok).bound]
  exact h u

theorem WellFormed.addNode (h : layer.WellFormed deleted) (hok : layer.addNode n = .ok added) :
    added.WellFormed deleted ∧ added.Live deleted n ∧ added.linked n = [] := by
  obtain ⟨hn, -, -, -, hentry⟩ := addNode_cases hok
  have hgrows := Grows.addNode hok
  have hlinks : ∀ u v, added.Links u v ↔ layer.Links u v := fun u v => by
    rw [Links, linked_addNode hok, Links]
  have hlive : added.Live deleted n :=
    ⟨(mem_addNode hok).mpr (.inl rfl), fun hdel => hn (h.deletedNodes n hdel)⟩
  refine ⟨⟨?_, ?_, ?_, ?_, ?_, ?_, ?_⟩, hlive, ?_⟩
  · exact fun u v hlink => hgrows.live (h.source u v ((hlinks u v).mp hlink))
  · exact fun u v hlink => hgrows.live (h.target u v ((hlinks u v).mp hlink))
  · exact fun u hlink => h.irreflexive u ((hlinks u u).mp hlink)
  · intro u
    rw [linked_addNode hok]
    exact h.distinct u
  · intro e he
    rw [hentry] at he
    split at he
    · rcases List.mem_append.mp he with he | he
      · exact hgrows.live (h.entryLive e he)
      · rw [List.mem_singleton.mp he]
        exact hlive
    · exact hgrows.live (h.entryLive e he)
  · rw [hentry]
    split
    · rw [List.nodup_append']
      refine ⟨h.entryDistinct, List.nodup_singleton n, ?_⟩
      intro e he hen
      rw [List.mem_singleton.mp hen] at he
      exact hn (h.entryLive n he).1
    · exact h.entryDistinct
  · exact fun m hm => hgrows.nodes m (h.deletedNodes m hm)
  · rw [linked_addNode hok, linked, AList.lookup_eq_none.mpr hn]
    rfl

end AddNode

section RemoveNode

theorem links_removeNode (hn : n ∈ layer.nodes) :
    (layer.removeNode n).Links u v ↔ layer.Links u v ∧ u ≠ n ∧ v ≠ n := by
  rw [Links, linked_removeNode hn, Links]
  split
  · rename_i he
    simp [he]
  · rename_i he
    simp [he]

theorem mem_entryPoints_removeNode (hn : n ∈ layer.nodes) :
    v ∈ (layer.removeNode n).entryPoints ↔ v ∈ layer.entryPoints ∧ v ≠ n := by
  rw [removeNode, if_neg (by simp [containsNode_iff, hn]), List.mem_filter, decide_eq_true_eq]

/-- The node and all that were connected to it are marked. -/
theorem Grows.removeNode : Grows layer (layer.removeNode n) := by
  by_cases hn : n ∈ layer.nodes
  · have hdirty : (layer.removeNode n).dirtyNodes = insert n layer.dirtyNodes ∪
        (layer.nodes.keys.filter fun id => id ≠ n ∧ n ∈ layer.linked id).toFinset := by
      rw [HnswLayer.removeNode, if_neg (by simp [containsNode_iff, hn])]
    refine ⟨fun m hm => mem_removeNode.mpr hm, ?_, ?_, ?_⟩
    · rw [hdirty]
      exact (Finset.subset_insert _ _).trans Finset.subset_union_left
    · intro m hm
      rw [hdirty, Finset.mem_union, not_or, Finset.mem_insert, not_or] at hm
      obtain ⟨⟨hne, -⟩, hother⟩ := hm
      rw [linked_removeNode hn, if_neg hne, List.filter_eq_self]
      intro v hv
      rw [decide_eq_true_eq]
      rintro rfl
      apply hother
      rw [List.mem_toFinset, List.mem_filter, decide_eq_true_eq]
      exact ⟨AList.mem_keys.mp (mem_of_linked hv), hne, hv⟩
    · rw [HnswLayer.removeNode, if_neg (by simp [containsNode_iff, hn])]
  · rw [removeNode_of_notMem hn]
    exact .refl

theorem linked_removeNode_sublist : ((layer.removeNode n).linked u).Sublist (layer.linked u) := by
  by_cases hn : n ∈ layer.nodes
  · rw [linked_removeNode hn]
    split
    · exact List.nil_sublist _
    · exact List.filter_sublist
  · rw [removeNode_of_notMem hn]

theorem Bounded.removeNode (h : layer.Bounded) : (layer.removeNode n).Bounded := by
  intro u
  have hgrows : Grows layer (layer.removeNode n) := .removeNode
  rw [hgrows.bound]
  exact linked_removeNode_sublist.length_le.trans (h u)

/-- The removed node joins the deleted ones. -/
theorem WellFormed.removeNode (h : layer.WellFormed deleted) (hn : n ∈ layer.nodes) :
    (layer.removeNode n).WellFormed (insert n deleted) := by
  have hlive : ∀ m, layer.Live deleted m → m ≠ n → (layer.removeNode n).Live (insert n deleted) m := by
    rintro m ⟨hm, hdel⟩ hne
    refine ⟨mem_removeNode.mpr hm, ?_⟩
    rintro (he | hmem)
    · exact hne he
    · exact hdel hmem
  refine ⟨?_, ?_, ?_, ?_, ?_, ?_, ?_⟩
  · intro u v hlink
    obtain ⟨hlink, hu, -⟩ := (links_removeNode hn).mp hlink
    exact hlive u (h.source u v hlink) hu
  · intro u v hlink
    obtain ⟨hlink, -, hv⟩ := (links_removeNode hn).mp hlink
    exact hlive v (h.target u v hlink) hv
  · exact fun u hlink => h.irreflexive u ((links_removeNode hn).mp hlink).1
  · exact fun u => (h.distinct u).sublist linked_removeNode_sublist
  · intro e he
    obtain ⟨he, hne⟩ := (mem_entryPoints_removeNode hn).mp he
    exact hlive e (h.entryLive e he) hne
  · rw [HnswLayer.removeNode, if_neg (by simp [containsNode_iff, hn])]
    exact h.entryDistinct.sublist List.filter_sublist
  · rintro m (rfl | hm)
    · exact mem_removeNode.mpr hn
    · exact mem_removeNode.mpr (h.deletedNodes m hm)

end RemoveNode

section Connect
variable {D : Type} [LinearOrder D] {distances : Nat → Option D} {node : Nat}

/-- Only connections change. -/
structure Rewires (base layer : HnswLayer) : Prop extends Grows base layer where
  sameNodes : ∀ n, n ∈ layer.nodes ↔ n ∈ base.nodes
  entryPoints : layer.entryPoints = base.entryPoints

theorem Rewires.refl : Rewires layer layer := ⟨.refl, fun _ => Iff.rfl, rfl⟩

theorem Rewires.live_iff (h : Rewires base layer) : layer.Live deleted n ↔ base.Live deleted n := by
  rw [Live, h.sameNodes, Live]

theorem Rewires.setConnections (h : Rewires base layer) (hn : n ∈ layer.nodes) :
    Rewires base (layer.setConnections n connections) where
  toGrows := h.toGrows.trans .setConnections
  sameNodes m := by
    rw [mem_setConnections, h.sameNodes]
    constructor
    · rintro (rfl | hm)
      · exact (h.sameNodes m).mp hn
      · exact hm
    · exact .inr
  entryPoints := h.entryPoints

theorem Rewires.prune (h : Rewires base layer) :
    Rewires base (layer.pruneConnectionsByDistance n distances) := by
  rcases prune_cases layer n distances with ⟨he, -⟩ | ⟨_, he, hn, -, -⟩
  · rw [he]
    exact h
  · rw [he]
    exact h.setConnections hn

theorem WellFormed.prune (h : layer.WellFormed deleted) (hn : layer.Live deleted n) :
    (layer.pruneConnectionsByDistance n distances).WellFormed deleted := by
  rcases prune_cases layer n distances with
    ⟨he, -⟩ | ⟨kept, he, -, hkept, -⟩
  · rw [he]
    exact h
  · rw [he]
    refine h.setConnections hn ?_ (fun v hv => h.target n v (hkept.subset hv)) ?_
    · obtain ⟨l, hperm, hsub⟩ := hkept
      exact hperm.nodup_iff.mp ((h.distinct n).sublist hsub)
    · exact fun hself => h.irreflexive n (hkept.subset hself)

theorem length_prune : ((layer.pruneConnectionsByDistance n distances).linked u).length ≤
    if u = n then layer.maxConnections else (layer.linked u).length := by
  rcases prune_cases layer n distances with
    ⟨he, hlen⟩ | ⟨kept, he, -, -, hlen⟩
  · rw [he]
    split
    · rename_i hu
      exact hu ▸ hlen
    · exact le_rfl
  · rw [he, linked_setConnections]
    split
    · exact hlen
    · exact le_rfl

theorem maxConnections_le_bound : layer.maxConnections ≤ layer.bound := by
  rw [bound]
  omega

/-- Only the node that is cut back may have had too many connections. -/
theorem bounded_prune (h : ∀ u, u ≠ n → (layer.linked u).length ≤ layer.bound) :
    (layer.pruneConnectionsByDistance n distances).Bounded := by
  intro u
  have hgrows : Grows layer (layer.pruneConnectionsByDistance n distances) := .prune
  rw [hgrows.bound]
  refine length_prune.trans ?_
  split
  · exact maxConnections_le_bound
  · rename_i hu
    exact h u hu

theorem connect_run (hu : u ∈ layer.nodes) (hv : v ∈ layer.nodes) (hne : u ≠ v) :
    connect u v layer = (.ok (), layer.setConnections u ((layer.linked u).insert v)) := by
  rw [connect, StoreM.get_bind_run, addOneWayConnection, if_neg hne, if_neg, if_neg]
  · rfl
  · rw [containsNode_iff.mpr hv]
    decide
  · rw [containsNode_iff.mpr hu]
    decide

theorem WellFormed.connect (h : layer.WellFormed deleted) (hu : layer.Live deleted u)
    (hv : layer.Live deleted v) (hne : u ≠ v) :
    (layer.setConnections u ((layer.linked u).insert v)).WellFormed deleted := by
  apply h.setConnections hu
  · exact (h.distinct u).insert
  · intro w hw
    rcases List.mem_insert_iff.mp hw with rfl | hw
    · exact hv
    · exact h.target u w hw
  · intro hself
    rcases List.mem_insert_iff.mp hself with he | hlink
    · exact hne he
    · exact h.irreflexive u hlink

/-- While the new node is connected, only it may have too many connections. -/
structure Forward (base : HnswLayer) (deleted : Set Nat) (node : Nat) (layer : HnswLayer) : Prop where
  wellFormed : layer.WellFormed deleted
  rewires : Rewires base layer
  others : ∀ u, u ≠ node → (layer.linked u).length ≤ layer.bound

theorem forward_returns (hnode : base.Live deleted node) (hv : base.Live deleted v) :
    StoreM.Returns (Forward base deleted node) (if v = node then pure () else connect node v)
      fun _ => True := by
  split
  · exact StoreM.Returns.pure trivial
  · rename_i hne
    intro layer h
    have hnode' := h.rewires.live_iff.mpr hnode
    have hv' := h.rewires.live_iff.mpr hv
    rw [connect_run hnode'.1 hv'.1 (Ne.symm hne)]
    refine ⟨(), rfl, ⟨h.wellFormed.connect hnode' hv' (Ne.symm hne), h.rewires.setConnections hnode'.1,
      fun u hu => ?_⟩, trivial⟩
    rw [linked_setConnections, if_neg hu]
    exact h.others u hu

/-- While the neighbors are connected back, no node has too many connections. -/
structure Backward (base : HnswLayer) (deleted : Set Nat) (layer : HnswLayer) : Prop where
  wellFormed : layer.WellFormed deleted
  rewires : Rewires base layer
  bounded : layer.Bounded

theorem connectBack_returns (hnode : base.Live deleted node) (hv : base.Live deleted v) :
    StoreM.Returns (Backward base deleted)
      (if v = node then pure () else connectBack node base.maxConnections v) fun _ => True := by
  split
  · exact StoreM.Returns.pure trivial
  · rename_i hne
    intro layer h
    have hnode' := h.rewires.live_iff.mpr hnode
    have hv' := h.rewires.live_iff.mpr hv
    have hwf := h.wellFormed.connect hv' hnode' hne
    have hrewires : Rewires base (layer.setConnections v ((layer.linked v).insert node)) :=
      h.rewires.setConnections hv'.1
    have hget : (layer.setConnections v ((layer.linked v).insert node)).getConnections v =
        .ok ((layer.linked v).insert node) := by
      rw [getConnections, HnswLayer.setConnections, AList.lookup_insert]
    rw [connectBack, StoreM.bind_ok _ (connect_run hv'.1 hnode'.1 hne), StoreM.get_bind_run, hget]
    dsimp only
    have hothers : ∀ u, u ≠ v → ((layer.setConnections v ((layer.linked v).insert node)).linked u).length ≤
        (layer.setConnections v ((layer.linked v).insert node)).bound := by
      intro u hu
      rw [linked_setConnections, if_neg hu]
      exact h.bounded u
    split
    · rw [StoreM.modify_run]
      exact ⟨(), rfl, ⟨hwf.prune ((live_setConnections hv'.1).mpr hv'), hrewires.prune,
        bounded_prune hothers⟩, trivial⟩
    · rename_i hlen
      rw [StoreM.pure_run]
      refine ⟨(), rfl, ⟨hwf, hrewires, fun u => ?_⟩, trivial⟩
      by_cases hu : u = v
      · rw [linked_setConnections, if_pos hu, hrewires.bound, bound]
        omega
      · exact hothers u hu

theorem connectNode_run {known : AList fun _ : Nat => D} {orders : LayerOrders}
    (hwf : base.WellFormed deleted) (hbounded : base.Bounded) (hnode : base.Live deleted node)
    (hlive : ∀ v ∈ known.keys, base.Live deleted v) :
    ∃ layer, connectNode node known orders base = (.ok (), layer) ∧ Backward base deleted layer := by
  have hforward : Forward base deleted node base := ⟨hwf, .refl, fun u _ => hbounded u⟩
  obtain ⟨_, hres₁, h₁, -⟩ := StoreM.Returns.forM (l := drain orders.forward known.keys)
    (fun v hv => forward_returns hnode (hlive v ((drain_perm _ _).mem_iff.mp hv))) base hforward
  obtain ⟨layer₁, hrun₁⟩ : ∃ layer₁, ((drain orders.forward known.keys).forM fun v =>
      if v = node then pure () else connect node v) base = (.ok (), layer₁) := ⟨_, Prod.ext hres₁ rfl⟩
  rw [hrun₁] at h₁
  have hback : Backward base deleted (layer₁.pruneConnectionsByDistance node fun id => known.lookup id) :=
    ⟨h₁.wellFormed.prune (h₁.rewires.live_iff.mpr hnode), h₁.rewires.prune, bounded_prune h₁.others⟩
  obtain ⟨_, hres₂, h₂, -⟩ := StoreM.Returns.forM (l := drain orders.reverse known.keys)
    (fun v hv => connectBack_returns hnode (hlive v ((drain_perm _ _).mem_iff.mp hv))) _ hback
  refine ⟨_, ?_, h₂⟩
  rw [connectNode, StoreM.get_bind_run, StoreM.bind_ok _ hrun₁, StoreM.modify_bind_run]
  exact Prod.ext hres₂ rfl

end Connect

end HnswLayer

end SqliteGraph.Hnsw
