import SqliteGraph.Hnsw.LayerInvariant

/-! What the insertion of a node does to the layers of the index. -/
namespace SqliteGraph.Hnsw
open Lib

theorem mem_nearestDistances {D : Type} {m n : Nat} {result : SearchResult D}
    (h : n ∈ nearestDistances m result) : n ∈ result.neighbors := by
  have hfold : ∀ (l : List (Nat × D)) (known : AList fun _ : Nat => D),
      n ∈ l.foldl (fun known n => known.insert n.1 n.2) known → n ∈ known ∨ ∃ d, (n, d) ∈ l := by
    intro l
    induction l with
    | nil => exact fun _ h => .inl h
    | cons p l ih =>
      intro known h
      rcases ih _ h with h | ⟨d, h⟩
      · rcases (AList.mem_insert _).mp h with rfl | h
        · exact .inr ⟨p.2, .head _⟩
        · exact .inl h
      · exact .inr ⟨d, .tail _ h⟩
  rcases hfold _ _ h with h | ⟨d, h⟩
  · exact absurd h (AList.notMem_empty n)
  · exact (List.of_mem_zip (List.mem_of_mem_take h)).1

namespace HnswIndex
variable {F M S D : Type} [LinearOrder D] {distance : List F → List F → D} {index : HnswIndex F S}
  {layer : HnswLayer} {deleted : Set Nat} {vectorId nodeId level : Nat} {orders : LayerOrders}

/-- The index with one layer replaced. -/
def setLayer (index : HnswIndex F S) (level : Nat) (layer : HnswLayer) : HnswIndex F S :=
  { index with layers := index.layers.set level layer }

theorem setLayer_self (h : index.layers[level]? = some layer) : index.setLayer level layer = index := by
  obtain ⟨hlt, rfl⟩ := List.getElem?_eq_some_iff.mp h
  rw [setLayer, List.set_getElem_self]

theorem getElem?_setLayer (h : index.layers[level]? = some layer) (added : HnswLayer) :
    (index.setLayer level added).layers[level]? = some added := by
  obtain ⟨hlt, -⟩ := List.getElem?_eq_some_iff.mp h
  rw [setLayer, List.getElem?_set_self hlt]

theorem setLayer_setLayer (first second : HnswLayer) :
    (index.setLayer level first).setLayer level second = index.setLayer level second := by
  rw [setLayer, setLayer, setLayer, List.set_set]

theorem onLayer_run {α : Type} (h : index.layers[level]? = some layer) (x : StoreM HnswLayer HnswError α) :
    onLayer level x index = ((x layer).1, index.setLayer level (x layer).2) := by
  rw [onLayer, h]
  rfl

variable (distance vectorId orders) in
/-- The neighbors that a search finds are live when it starts from none that are deleted. -/
theorem linkNode_spec (hlayer : index.layers[level]? = some layer) (hwf : layer.WellFormed deleted)
    (hbounded : layer.Bounded) (hnode : layer.Live deleted nodeId)
    (hstart : ∀ ids, index.localEntryPoints level = .ok ids → ∀ e ∈ ids, e ∉ deleted) :
    ∃ layer', (linkNode distance vectorId nodeId level orders index).2 = index.setLayer level layer' ∧
      layer.Backward deleted layer' := by
  have hsame : ∃ layer', index = index.setLayer level layer' ∧ layer.Backward deleted layer' :=
    ⟨layer, (setLayer_self hlayer).symm, hwf, .refl, hbounded⟩
  rw [linkNode, StoreM.get_bind_run]
  cases hentry : index.localEntryPoints level with
  | error e => exact hsame
  | ok entryPoints =>
    rw [StoreM.ofExcept_ok_bind_run]
    split
    · exact hsame
    rw [index_of_getElem? hlayer, StoreM.ofExcept_ok_bind_run]
    cases index.vectorCache.lookup vectorId with
    | none => exact hsame
    | some newVector =>
      rw [StoreM.ofExcept_ok_bind_run]
      cases hsearch : searchLayerFn distance layer newVector (index.vectorAt level) orders.connections
          entryPoints index.config.efConstruction with
      | error e => exact hsame
      | ok result =>
        rw [StoreM.ofExcept_ok_bind_run, onLayer_run hlayer]
        have hlive : ∀ v ∈ (nearestDistances layer.maxConnections result).keys, layer.Live deleted v := by
          intro v hv
          apply searchLayerFn_mem (fun u w _ hlink => hwf.target u w hlink)
            (fun e he hin => ⟨hin, hstart _ hentry e he⟩) hsearch
          exact mem_nearestDistances (AList.mem_keys.mpr hv)
        obtain ⟨layer', hrun, hback⟩ := HnswLayer.connectNode_run hwf hbounded hnode hlive
        rw [hrun]
        exact ⟨layer', rfl, hback⟩

variable (distance vectorId orders) in
/-- The layer grows by the node, and keeps its shape even where the insertion fails. -/
theorem insertIntoLayer_spec (hlayer : index.layers[level]? = some layer) (hwf : layer.WellFormed deleted)
    (hbounded : layer.Bounded) (hstart : ∀ nodeId added, layer.addNode nodeId = .ok added → ∀ ids,
      (index.setLayer level added).localEntryPoints level = .ok ids → ∀ e ∈ ids, e ∉ deleted) :
    ∃ layer', (insertIntoLayer distance vectorId level orders index).2 = index.setLayer level layer' ∧
      layer'.WellFormed deleted ∧ layer'.Bounded ∧ layer.Grows layer' ∧
      ((insertIntoLayer distance vectorId level orders index).1 = .ok () → ∃ nodeId,
        index.nodeIdAt vectorId level = .ok nodeId ∧ nodeId ∉ layer.nodes ∧
          ∀ n, n ∈ layer'.nodes ↔ n = nodeId ∨ n ∈ layer.nodes) := by
  have hself := (setLayer_self hlayer).symm
  have hensure : ensureLayers level index = (.ok (), index) := by
    obtain ⟨hlt, -⟩ := List.getElem?_eq_some_iff.mp hlayer
    have hzero : level + 1 - index.layers.length = 0 := by omega
    rw [ensureLayers, StoreM.get_bind_run, hzero, List.range'_zero, List.mapM_nil]
    change (_, { index with layers := index.layers ++ [] }) = _
    rw [List.append_nil]
  rw [insertIntoLayer, StoreM.get_bind_run]
  cases hnodeId : index.nodeIdAt vectorId level with
  | error e => exact ⟨layer, hself, hwf, hbounded, .refl, fun h => by cases h⟩
  | ok nodeId =>
    rw [StoreM.ofExcept_ok_bind_run, StoreM.bind_ok _ hensure]
    cases hadd : layer.addNode nodeId with
    | error e =>
      have hrun : addNodeTo level nodeId index = (.error e, index) := by
        rw [addNodeTo, onLayer_run hlayer, StoreM.get_bind_run, hadd, StoreM.ofExcept_error_bind_run,
          setLayer_self hlayer]
      rw [StoreM.bind_error _ hrun]
      exact ⟨layer, hself, hwf, hbounded, .refl, fun h => by cases h⟩
    | ok added =>
      have hrun : addNodeTo level nodeId index = (.ok added, index.setLayer level added) := by
        rw [addNodeTo, onLayer_run hlayer, StoreM.get_bind_run, hadd]
        rfl
      obtain ⟨hwf', hnode, -⟩ := hwf.addNode hadd
      have hbounded' := hbounded.addNode hadd
      have hgrows := HnswLayer.Grows.addNode hadd
      rw [StoreM.bind_ok _ hrun]
      have hfresh := (HnswLayer.addNode_cases hadd).1
      split
      · exact ⟨added, rfl, hwf', hbounded', hgrows, fun _ =>
          ⟨nodeId, rfl, hfresh, fun n => HnswLayer.mem_addNode hadd⟩⟩
      · obtain ⟨layer', hlink, hback⟩ := linkNode_spec distance vectorId orders
          (getElem?_setLayer hlayer added) hwf' hbounded' hnode
          (hstart nodeId added hadd)
        rw [hlink, setLayer_setLayer]
        refine ⟨layer', rfl, hback.wellFormed, hback.bounded, hgrows.trans hback.rewires.toGrows,
          fun _ => ⟨nodeId, rfl, hfresh, fun n => ?_⟩⟩
        rw [hback.rewires.sameNodes, HnswLayer.mem_addNode hadd]

end HnswIndex

end SqliteGraph.Hnsw
