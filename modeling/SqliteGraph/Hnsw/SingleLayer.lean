import SqliteGraph.Hnsw.Calls

/-! Runs of an index without a manager, whose vectors are all in the base layer. -/
namespace SqliteGraph.Hnsw
open Lib

theorem toNodeId_ok {vectorId nodeId : Nat} (h : toNodeId vectorId = .ok nodeId) :
    vectorId = nodeId + 1 := by
  rw [toNodeId] at h
  split at h
  · cases h
  · cases h
    omega

namespace HnswIndex
variable {F M S D : Type} [LinearOrder D] {storage : VectorStorage F M S}
  {distance : List F → List F → D} {index middle past : HnswIndex F S} {deleted : Set Nat} {vectorId : Nat}

/-- The base layer keeps its shape, and no entry point of the index has been deleted. -/
structure Single (deleted : Set Nat) (index : HnswIndex F S) : Prop where
  mode : index.config.enableMultilayer = false
  manager : index.multiLayerManager = none
  base : ∃ layer, index.layers[0]? = some layer ∧ layer.WellFormed deleted ∧ layer.Bounded
  entry : ∀ id ∈ index.entryPoints, id ≠ 0 ∧ id - 1 ∉ deleted

/-- The base layer has grown from what it was. -/
def BaseGrows (past index : HnswIndex F S) : Prop :=
  ∀ layer, past.layers[0]? = some layer → ∃ layer', index.layers[0]? = some layer' ∧ layer.Grows layer'

theorem BaseGrows.refl : BaseGrows index index := fun layer h => ⟨layer, h, .refl⟩

theorem BaseGrows.trans (h : BaseGrows past middle) (h' : BaseGrows middle index) : BaseGrows past index := by
  intro layer hlayer
  obtain ⟨layer₁, hlayer₁, hgrows₁⟩ := h layer hlayer
  obtain ⟨layer₂, hlayer₂, hgrows₂⟩ := h' layer₁ hlayer₁
  exact ⟨layer₂, hlayer₂, hgrows₁.trans hgrows₂⟩

theorem Single.setLayer {layer layer' : HnswLayer} (h : Single deleted index)
    (hlayer : index.layers[0]? = some layer) (hwf : layer'.WellFormed deleted) (hbounded : layer'.Bounded) :
    Single deleted (index.setLayer 0 layer') :=
  ⟨h.mode, h.manager, ⟨layer', getElem?_setLayer hlayer layer', hwf, hbounded⟩, h.entry⟩

/-- No search starts from a deleted node. -/
theorem Single.starts (h : Single deleted index) {ids : List Nat}
    (hids : index.localEntryPoints 0 = .ok ids) : ∀ e ∈ ids, e ∉ deleted := by
  intro e he
  obtain ⟨layer, hlayer, hwf, -⟩ := h.base
  rw [localEntryPoints, h.manager] at hids
  obtain ⟨i, hi⟩ := List.mem_iff_getElem?.mp he
  obtain ⟨id, hid, hnode⟩ := getElem?_of_mapM hids hi
  replace hid := List.mem_of_getElem? hid
  obtain rfl := toNodeId_ok hnode
  rw [getLayerEntryPoints] at hid
  split at hid
  · exact absurd hid List.not_mem_nil
  split at hid
  · exact (h.entry _ hid).2
  · rw [if_pos rfl, entryPointsOf, hlayer, h.manager] at hid
    obtain ⟨e', he', heq⟩ := List.mem_map.mp hid
    cases heq
    exact (hwf.entryLive e he').2

variable (distance) in
theorem Single.insertIntoLayer (h : Single deleted index) (vectorId : Nat) (orders : LayerOrders) :
    ∃ layer layer', index.layers[0]? = some layer ∧
      (insertIntoLayer distance vectorId 0 orders index).2 = index.setLayer 0 layer' ∧
      Single deleted (index.setLayer 0 layer') ∧ layer.Grows layer' ∧
      ((HnswIndex.insertIntoLayer distance vectorId 0 orders index).1 = .ok () →
        vectorId ≠ 0 ∧ vectorId - 1 ∉ deleted) := by
  obtain ⟨layer, hlayer, hwf, hbounded⟩ := h.base
  obtain ⟨layer', hrun, hwf', hbounded', hgrows, hok⟩ := insertIntoLayer_spec distance vectorId orders
    hlayer hwf hbounded fun nodeId added hadd ids hids =>
      (h.setLayer hlayer (hwf.addNode hadd).1 (hbounded.addNode hadd)).starts hids
  refine ⟨layer, layer', hlayer, hrun, h.setLayer hlayer hwf' hbounded', hgrows, fun hres => ?_⟩
  obtain ⟨nodeId, hnode, hfresh, -⟩ := hok hres
  rw [nodeIdAt, h.manager] at hnode
  obtain rfl := toNodeId_ok hnode
  exact ⟨Nat.succ_ne_zero _, fun hdel => hfresh (hwf.deletedNodes _ hdel)⟩

theorem baseGrows_setLayer {layer layer' : HnswLayer} (hlayer : index.layers[0]? = some layer)
    (hgrows : layer.Grows layer') : BaseGrows index (index.setLayer 0 layer') := by
  intro base hbase
  obtain rfl : layer = base := Option.some.inj (hlayer.symm.trans hbase)
  exact ⟨layer', getElem?_setLayer hlayer layer', hgrows⟩

theorem Single.chooseLevel (h : Single deleted index) (draws : List Bool) :
    chooseLevel vectorId draws index = (.ok 0, index) := by
  rw [HnswIndex.chooseLevel, StoreM.get_bind_run, h.manager, h.mode]
  rfl

/-- What a call keeps, whether it fails or not. -/
def Kept (deleted : Set Nat) (past index : HnswIndex F S) : Prop :=
  Single deleted index ∧ BaseGrows past index

theorem Kept.trans (h : Kept deleted past middle) (h' : Kept deleted middle index) :
    Kept deleted past index :=
  ⟨h'.1, h.2.trans h'.2⟩

theorem Kept.withStorage (index : HnswIndex F S) (s : S) (h : Kept deleted past index) :
    Kept deleted past { index with storage := s } :=
  ⟨⟨h.1.mode, h.1.manager, h.1.base, h.1.entry⟩, h.2⟩

variable (distance) in
/-- Once the vector has its node, it may be an entry point. -/
theorem Single.register (h : Single deleted index) (vectorId : Nat) (choices : InsertChoices) :
    Kept deleted index ((do
      let insertionLevel ← HnswIndex.chooseLevel vectorId choices.draws
      insertLevels distance vectorId choices.orders (insertionLevel + 1)
      StoreM.modify fun index =>
        if index.entryPoints.length ≤ insertionLevel then
          { index with entryPoints := index.entryPoints ++ [vectorId] }
        else index
      StoreM.modify fun index => { index with vectorCount := index.vectorCount + 1 }
      pure vectorId : StoreM (HnswIndex F S) HnswError Nat) index).2 := by
  obtain ⟨layer, layer', hlayer, hrun, hsingle, hgrows, hok⟩ := h.insertIntoLayer distance
    vectorId (choices.orders 0)
  have hbase := baseGrows_setLayer hlayer hgrows
  rw [StoreM.bind_ok _ (h.chooseLevel choices.draws)]
  cases hinsert : HnswIndex.insertIntoLayer distance vectorId 0 (choices.orders 0) index with
  | mk r index₂ =>
    rw [hinsert] at hrun hok
    obtain rfl : index₂ = index.setLayer 0 layer' := hrun
    cases r with
    | error e =>
      have hlevels : insertLevels distance vectorId choices.orders 1 index =
          (.error e, index.setLayer 0 layer') := by
        rw [insertLevels, StoreM.bind_error _ hinsert]
      rw [StoreM.bind_error _ hlevels]
      exact ⟨hsingle, hbase⟩
    | ok _ =>
      have hlevels : insertLevels distance vectorId choices.orders 1 index =
          (.ok (), index.setLayer 0 layer') := by
        rw [insertLevels, StoreM.bind_ok _ hinsert]
        rfl
      rw [StoreM.bind_ok _ hlevels, StoreM.modify_bind_run, StoreM.modify_bind_run]
      split
      · refine ⟨⟨hsingle.mode, hsingle.manager, hsingle.base, ?_⟩, hbase⟩
        intro id hid
        rcases List.mem_append.mp hid with hid | hid
        · exact hsingle.entry id hid
        · rw [List.mem_singleton.mp hid]
          exact hok rfl
      · exact ⟨⟨hsingle.mode, hsingle.manager, hsingle.base, hsingle.entry⟩, hbase⟩

variable (storage distance) in
theorem kept_insertElement (vector : List F) (metadata : Option M) (choices : InsertChoices) :
    StoreM.Preserves (Kept deleted past) (insertElement storage distance vector metadata choices) := by
  refine .bind (preserves_onStorage Kept.withStorage _) fun vectorId =>
    .bind (.modify fun index h => ?_) fun _ => ?_
  · exact ⟨⟨h.1.mode, h.1.manager, h.1.base, h.1.entry⟩, h.2⟩
  · exact fun index h => h.trans (h.1.register distance vectorId choices)

/-- The nodes that the call deletes: the one of the vector, where the storage has let go of it. -/
def DeletedBy (storage : VectorStorage F M S) (call : Call F M) (index : HnswIndex F S) : Set Nat :=
  {n | call = .deleteVector (n + 1) ∧ (removeVector storage (n + 1) index).1 = .ok () ∧
    ∃ layer, index.layers[0]? = some layer ∧ n ∈ layer.nodes}

theorem deletedBy_of_failed {id : Nat} (h : (removeVector storage id index).1 ≠ .ok ()) :
    DeletedBy storage (.deleteVector id) index = ∅ := by
  apply Set.eq_empty_of_forall_notMem
  rintro n ⟨he, hok, -⟩
  cases he
  exact h hok

/-- A deletion takes its vector out of the layer and from the entry points. -/
theorem Single.removeVector (h : Single deleted index) (id : Nat) :
    Kept (deleted ∪ DeletedBy storage (.deleteVector id) index) index (removeVector storage id index).2 := by
  have hfailed : ∀ s, (HnswIndex.removeVector storage id index).1 ≠ .ok () →
      Kept (deleted ∪ DeletedBy storage (.deleteVector id) index) index { index with storage := s } := by
    intro s hres
    rw [deletedBy_of_failed hres, Set.union_empty]
    exact ⟨⟨h.mode, h.manager, h.base, h.entry⟩, .refl⟩
  cases id with
  | zero =>
    have hrun : HnswIndex.removeVector storage 0 index =
        (.error (.panic "attempt to subtract with overflow"), index) := by
      rw [HnswIndex.removeVector, StoreM.get_bind_run, nodeToRemove, h.manager]
      rfl
    rw [hrun] at hfailed ⊢
    exact hfailed index.storage (fun hres => by cases hres)
  | succ nodeId =>
    have hnode : index.nodeToRemove (nodeId + 1) = .ok nodeId := by
      rw [nodeToRemove, h.manager]
      rfl
    have hrun := removeVector_run storage hnode
    cases hdel : storage.deleteVector (nodeId + 1) index.storage with
    | mk r s =>
      rw [hdel] at hrun
      cases r with
      | error e =>
        rw [hrun] at hfailed ⊢
        exact hfailed s (fun hres => by cases hres)
      | ok _ =>
        obtain ⟨layer, hlayer, hwf, hbounded⟩ := h.base
        have hdeleted : ∀ n, n ∈ DeletedBy storage (.deleteVector (nodeId + 1)) index ↔
            n = nodeId ∧ n ∈ layer.nodes := by
          intro n
          constructor
          · rintro ⟨he, -, layer', hlayer', hn⟩
            cases he
            obtain rfl : layer = layer' := Option.some.inj (hlayer.symm.trans hlayer')
            exact ⟨rfl, hn⟩
          · rintro ⟨rfl, hn⟩
            exact ⟨rfl, congrArg Prod.fst hrun, layer, hlayer, hn⟩
        have hlayer' : (index.layers.map (·.removeNode nodeId))[0]? = some (layer.removeNode nodeId) := by
          rw [List.getElem?_map, hlayer]
          rfl
        rw [hrun]
        refine ⟨⟨h.mode, h.manager, ⟨layer.removeNode nodeId, hlayer', ?_, hbounded.removeNode⟩, ?_⟩, ?_⟩
        · by_cases hn : nodeId ∈ layer.nodes
          · have hset : deleted ∪ DeletedBy storage (.deleteVector (nodeId + 1)) index =
                insert nodeId deleted := by
              ext n
              rw [Set.mem_union, hdeleted, Set.mem_insert_iff]
              constructor
              · rintro (hdel | ⟨he, -⟩)
                · exact .inr hdel
                · exact .inl he
              · rintro (rfl | hdel)
                · exact .inr ⟨rfl, hn⟩
                · exact .inl hdel
            rw [hset]
            exact hwf.removeNode hn
          · have hset : deleted ∪ DeletedBy storage (.deleteVector (nodeId + 1)) index = deleted := by
              rw [Set.union_eq_left]
              intro n hmem
              obtain ⟨rfl, hin⟩ := (hdeleted n).mp hmem
              exact absurd hin hn
            rw [hset, HnswLayer.removeNode_of_notMem hn]
            exact hwf
        · intro id hid
          obtain ⟨hid, hne⟩ := List.mem_filter.mp hid
          obtain ⟨hpos, hlive⟩ := h.entry id hid
          refine ⟨hpos, ?_⟩
          rintro (hdel | hdel)
          · exact hlive hdel
          · obtain ⟨he, -⟩ := (hdeleted _).mp hdel
            have := of_decide_eq_true hne
            omega
        · intro base hbase
          obtain rfl : layer = base := Option.some.inj (hlayer.symm.trans hbase)
          exact ⟨layer.removeNode nodeId, hlayer', .removeNode⟩

theorem deletedBy_of_ne {call : Call F M} (h : ∀ id, call ≠ .deleteVector id) :
    DeletedBy storage call index = ∅ :=
  Set.eq_empty_of_forall_notMem fun _ hn => h _ hn.1

variable (storage distance) in
theorem Single.change (h : Single deleted index) (call : Call F M) :
    Kept (deleted ∪ DeletedBy storage call index) index (change storage distance call index).2 := by
  by_cases hdelete : ∃ id, call = .deleteVector id
  · obtain ⟨id, rfl⟩ := hdelete
    exact h.removeVector id
  · have hne : ∀ id, call ≠ .deleteVector id := fun id he => hdelete ⟨id, he⟩
    rw [deletedBy_of_ne hne, Set.union_empty]
    exact preserves_change Kept.withStorage (kept_insertElement storage distance) hne index
      ⟨h, .refl⟩

theorem Single.clearDirty (h : Single deleted index) (s : S) :
    Single deleted { index with storage := s, layers := index.layers.map HnswLayer.clearDirty } := by
  obtain ⟨layer, hlayer, hwf, hbounded⟩ := h.base
  refine ⟨h.mode, h.manager, ⟨layer.clearDirty, ?_, hwf.clearDirty, hbounded⟩, h.entry⟩
  rw [List.getElem?_map, hlayer]
  rfl

variable (storage distance) in
/-- Unless the layers are saved, the base layer grows. -/
theorem Single.exec (h : Single deleted index) (call : Call F M) (orders : Nat → Nat → Nat) :
    Single (deleted ∪ DeletedBy storage call index) (exec storage distance call orders index).2 ∧
      (¬ Saves storage distance call orders index →
        BaseGrows index (HnswIndex.exec storage distance call orders index).2) := by
  have hchange := h.change storage distance call
  rcases exec_ends storage distance call orders index with ⟨hrun, -⟩ | ⟨hrun, hsaves⟩
  · rw [hrun]
    exact ⟨hchange.1, fun _ => hchange.2⟩
  · obtain ⟨s, hsame | ⟨hok, hcleared⟩⟩ := persistTopology_cases storage orders
      (HnswIndex.change storage distance call index).2
    · rw [hrun, hsame]
      exact ⟨⟨hchange.1.mode, hchange.1.manager, hchange.1.base, hchange.1.entry⟩, fun _ => hchange.2⟩
    · rw [hrun, hcleared]
      exact ⟨hchange.1.clearDirty s, fun hnot => absurd (hsaves.mpr hok) hnot⟩

section Runs
variable (storage distance) (start : HnswIndex F S)

/-- A state that calls lead to, with the nodes deleted so far, and the states since the last save. -/
inductive Reaches : HnswIndex F S → Set Nat → Set (HnswIndex F S) → Prop
  | start : Reaches start ∅ {start}
  | saved {index deleted unsaved} (call : Call F M) (orders : Nat → Nat → Nat) :
    Reaches index deleted unsaved → Saves storage distance call orders index →
    Reaches (exec storage distance call orders index).2 (deleted ∪ DeletedBy storage call index)
      {(exec storage distance call orders index).2}
  | unsaved {index deleted unsaved} (call : Call F M) (orders : Nat → Nat → Nat) :
    Reaches index deleted unsaved → ¬ Saves storage distance call orders index →
    Reaches (exec storage distance call orders index).2 (deleted ∪ DeletedBy storage call index)
      (insert (exec storage distance call orders index).2 unsaved)

end Runs

theorem Reaches.kept {start : HnswIndex F S} {unsaved : Set (HnswIndex F S)} (hstart : Single ∅ start)
    (h : Reaches storage distance start index deleted unsaved) :
    Single deleted index ∧ ∀ past ∈ unsaved, BaseGrows past index := by
  induction h with
  | start =>
    refine ⟨hstart, ?_⟩
    rintro past rfl
    exact .refl
  | saved call orders _ _ ih =>
    refine ⟨(ih.1.exec storage distance call orders).1, ?_⟩
    rintro past rfl
    exact .refl
  | unsaved call orders _ hnot ih =>
    obtain ⟨hsingle, hgrows⟩ := ih.1.exec storage distance call orders
    refine ⟨hsingle, ?_⟩
    rintro past (rfl | hpast)
    · exact .refl
    · exact (ih.2 past hpast).trans (hgrows hnot)

theorem Single.new {config : HnswConfig} {init : S} {start : HnswIndex F S}
    (hmode : config.enableMultilayer = false) (hnew : withStorage config init = .ok start) :
    Single ∅ start := by
  obtain ⟨hml, -, hlayers, hlen, hrest⟩ := withStorage_ok hnew
  obtain ⟨base, hbase⟩ : ∃ base, start.layers[0]? = some (.new 0 base) := by
    obtain ⟨layer, hlayer⟩ : ∃ layer, start.layers[0]? = some layer :=
      ⟨_, List.getElem?_eq_getElem (by omega)⟩
    obtain ⟨base, rfl⟩ := hlayers 0 layer hlayer
    exact ⟨base, hlayer⟩
  rw [hrest]
  refine ⟨hmode, by rw [if_neg (by simp [hmode])], ⟨_, hbase, .new 0 base, fun u => Nat.zero_le _⟩, ?_⟩
  intro id hid
  exact absurd hid List.not_mem_nil

/-- The base layer is well formed: connections run between different nodes that are not deleted, there
are not too many, entry points are live, and what has changed since the last save is marked. -/
structure BaseLayerOk (deleted : Set Nat) (unsaved : Set (HnswIndex F S)) (layer : HnswLayer) : Prop where
  connections : ∀ u v, layer.Links u v → u ∈ layer.nodes ∧ v ∈ layer.nodes ∧ v ≠ u ∧ v ∉ deleted
  deletedAlone : ∀ u ∈ deleted, layer.linked u = []
  distinct : ∀ u, (layer.linked u).Nodup
  bounded : ∀ u, (layer.linked u).length ≤ max (2 * layer.maxConnections) 32
  entryLive : ∀ e ∈ layer.entryPoints, e ∈ layer.nodes ∧ e ∉ deleted
  entryDistinct : layer.entryPoints.Nodup
  marked : ∀ past ∈ unsaved, ∀ before, past.layers[0]? = some before → ∀ u,
    (∃ v, ¬ (before.Links u v ↔ layer.Links u v)) → u ∈ layer.dirtyNodes

/-- In every state that insertions, deletions and saves lead to, the base layer is well formed. -/
theorem reaches_baseLayerOk {config : HnswConfig} {init : S} {start : HnswIndex F S}
    {unsaved : Set (HnswIndex F S)} (hmode : config.enableMultilayer = false)
    (hnew : withStorage config init = .ok start)
    (h : Reaches storage distance start index deleted unsaved) :
    ∃ layer, index.layers[0]? = some layer ∧ BaseLayerOk deleted unsaved layer := by
  obtain ⟨hsingle, hgrows⟩ := h.kept (.new hmode hnew)
  obtain ⟨layer, hlayer, hwf, hbounded⟩ := hsingle.base
  refine ⟨layer, hlayer, ?_, ?_, hwf.distinct, hbounded, hwf.entryLive, hwf.entryDistinct, ?_⟩
  · intro u v hlink
    refine ⟨(hwf.source u v hlink).1, (hwf.target u v hlink).1, ?_, (hwf.target u v hlink).2⟩
    rintro rfl
    exact hwf.irreflexive v hlink
  · intro u hu
    rw [List.eq_nil_iff_forall_not_mem]
    exact fun v hlink => (hwf.source u v hlink).2 hu
  · rintro past hpast before hbefore u ⟨v, hdiffers⟩
    by_contra hmark
    obtain ⟨layer', hlayer', hgrew⟩ := hgrows past hpast before hbefore
    obtain rfl : layer = layer' := Option.some.inj (hlayer.symm.trans hlayer')
    apply hdiffers
    rw [HnswLayer.Links, HnswLayer.Links, hgrew.kept u hmark]

section Run

def oneLayer : HnswConfig := ⟨1, 2, 2, 1, 1, false⟩

def emptyIndex : HnswIndex Nat (InMemoryVectorStorage Nat Unit) :=
  ⟨oneLayer, [.new 0 2], .new, [], 0, none, ∅⟩

def firstOrder : InsertChoices := ⟨[], fun _ => ⟨fun _ _ => 0, fun _ => 0, fun _ => 0⟩⟩

/-- A first vector. -/
def insertOne : Call Nat Unit := .insertVector [0] none firstOrder

theorem reaches_baseLayerOk_insertOne :
    let storage : VectorStorage Nat Unit _ := inMemoryStorage fun _ => true
    let index := (exec storage closeness insertOne (fun _ _ => 0) emptyIndex).2
    ∃ layer, index.layers[0]? = some layer ∧
      BaseLayerOk (∅ ∪ DeletedBy storage insertOne emptyIndex) {index} layer := by
  exact reaches_baseLayerOk (rfl : oneLayer.enableMultilayer = false)
    (rfl : withStorage oneLayer .new = .ok emptyIndex)
    (.saved insertOne (fun _ _ => 0) .start ⟨fun _ h => (by cases h), rfl, rfl⟩)

end Run

end HnswIndex

end SqliteGraph.Hnsw
