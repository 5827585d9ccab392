import SqliteGraph.Hnsw.Calls
import SqliteGraph.Hnsw.MappingsRun

/-! The deletion of a vector from an index with several layers. -/
namespace SqliteGraph.Hnsw
open Lib

namespace HnswIndex
variable {F M S D : Type} [LinearOrder D] {storage : VectorStorage F M S}
  {distance : List F → List F → D} {index : HnswIndex F S} {ml id : Nat}

/-- The local id of a vector in a layer, where the vector is in the layer. -/
def localIdOf (index : HnswIndex F S) (vectorId level : Nat) : Option Nat :=
  index.multiLayerManager.bind fun manager => manager.getLocalId vectorId level

/-- The layers are well formed, and the local ids of a layer belong to different vectors. -/
structure Multi (ml : Nat) (index : HnswIndex F S) : Prop where
  layers : ∀ (level : Nat) (layer : HnswLayer), index.layers[level]? = some layer → layer.WellFormed ∅ ∧ layer.Bounded
  count : index.layers.length = ml
  manager : ∃ manager members, index.multiLayerManager = some manager ∧
    manager.distributor.maxLayers = ml ∧ manager.mappings.Numbered ml members ∧
    ∀ g level l, manager.getLocalId g level = some l → (members level)[l]? = some g

theorem Multi.injective (h : Multi ml index) {v w level l : Nat} (hv : index.localIdOf v level = some l)
    (hw : index.localIdOf w level = some l) : v = w := by
  obtain ⟨manager, members, hmanager, -, -, hmembers⟩ := h.manager
  rw [localIdOf, hmanager, Option.bind_some] at hv hw
  exact Option.some.inj ((hmembers v level l hv).symm.trans (hmembers w level l hw))

theorem Multi.setLayer {level : Nat} {layer : HnswLayer} (h : Multi ml index) (hwf : layer.WellFormed ∅)
    (hbounded : layer.Bounded) : Multi ml (index.setLayer level layer) := by
  refine ⟨?_, ?_, h.manager⟩
  · intro level' layer' hlayer'
    rw [HnswIndex.setLayer, List.getElem?_set] at hlayer'
    split at hlayer'
    · split at hlayer'
      · cases hlayer'
        exact ⟨hwf, hbounded⟩
      · cases hlayer'
    · exact h.layers level' layer' hlayer'
  · rw [HnswIndex.setLayer, List.length_set]
    exact h.count

variable (storage distance)

theorem multi_insertIntoLayer {level : Nat} (hlevel : level < ml) (vectorId : Nat) (orders : LayerOrders) :
    StoreM.Preserves (Multi ml) (insertIntoLayer (S := S) distance vectorId level orders) := by
  intro index h
  have hlt : level < index.layers.length := by
    rw [h.count]
    exact hlevel
  obtain ⟨hwf, hbounded⟩ := h.layers level _ (List.getElem?_eq_getElem hlt)
  obtain ⟨layer', hrun, hwf', hbounded', -⟩ := insertIntoLayer_spec distance vectorId orders
    (List.getElem?_eq_getElem hlt) hwf hbounded fun _ _ _ _ _ _ _ hin => hin
  rw [hrun]
  exact h.setLayer hwf' hbounded'

theorem multi_insertLevels (vectorId : Nat) (orders : Nat → LayerOrders) {k : Nat} (hk : k ≤ ml) :
    StoreM.Preserves (Multi ml) (insertLevels (S := S) distance vectorId orders k) := by
  induction k with
  | zero => exact .pure
  | succ k ih =>
    exact .bind (multi_insertIntoLayer distance (by omega) vectorId (orders k)) fun _ => ih (by omega)

/-- The manager registers the vector at the end of each layer up to its level. -/
theorem Multi.chooseLevel (h : Multi ml index) (hml : 0 < ml) (vectorId : Nat) (draws : List Bool) :
    ∃ level index', chooseLevel vectorId draws index = (.ok level, index') ∧ level < ml ∧
      Multi ml index' := by
  obtain ⟨manager, members, hmanager, hmax, hnumbered, hmembers⟩ := h.manager
  have hlevel := LevelDistributor.sampleLevelInternal_lt (d := manager.distributor)
    (by rw [hmax]; exact hml) draws
  rw [hmax] at hlevel
  obtain ⟨m', hrun, hnumbered', hlocal, -⟩ :=
    MultiLayerNodeManager.insertVector_run hnumbered vectorId draws hlevel
  rw [HnswIndex.chooseLevel, StoreM.get_bind_run, hmanager]
  dsimp only
  rw [hrun]
  refine ⟨_, _, rfl, hlevel, h.layers, h.count, _, _, rfl, hmax, hnumbered', ?_⟩
  intro g level l hl
  change m'.getLocalId g level = some l at hl
  rw [hlocal] at hl
  split at hl
  · rename_i hg
    cases hl
    rw [if_pos hg.2, hg.1, List.getElem?_concat_length]
  · have hlt := (List.getElem?_eq_some_iff.mp (hmembers g level l hl)).1
    rw [List.getElem?_append_left hlt]
    exact hmembers g level l hl

theorem Multi.withStorage (index : HnswIndex F S) (s : S) (h : Multi ml index) :
    Multi ml { index with storage := s } :=
  ⟨h.layers, h.count, h.manager⟩

theorem multi_insertElement (hml : 0 < ml) (vector : List F) (metadata : Option M)
    (choices : InsertChoices) :
    StoreM.Preserves (Multi ml) (insertElement storage distance vector metadata choices) := by
  refine .bind (preserves_onStorage Multi.withStorage _) fun vectorId =>
    .bind (.modify fun index h => ⟨h.layers, h.count, h.manager⟩) fun _ => ?_
  intro index h
  obtain ⟨level, index', hrun, hlevel, h'⟩ := h.chooseLevel hml vectorId choices.draws
  rw [StoreM.bind_ok _ hrun]
  refine StoreM.Preserves.bind (multi_insertLevels distance vectorId choices.orders hlevel) (fun _ => ?_)
    index' h'
  refine .bind (.modify fun index h => ?_) fun _ => .bind (.modify fun index h => ?_) fun _ => .pure
  · split
    · exact ⟨h.layers, h.count, h.manager⟩
    · exact h
  · exact ⟨h.layers, h.count, h.manager⟩

theorem Multi.clearDirty (index : HnswIndex F S) (h : Multi ml index) :
    Multi ml { index with layers := index.layers.map HnswLayer.clearDirty } := by
  refine ⟨?_, ?_, h.manager⟩
  · intro level layer hlayer
    rw [List.getElem?_map] at hlayer
    obtain ⟨old, hold, rfl⟩ := Option.map_eq_some_iff.mp hlayer
    obtain ⟨hwf, hbounded⟩ := h.layers level old hold
    exact ⟨hwf.clearDirty, hbounded⟩
  · rw [List.length_map]
    exact h.count

variable {storage distance}

/-- The states that insertions lead to. -/
inductive Grown (storage : VectorStorage F M S) (distance : List F → List F → D)
    (start : HnswIndex F S) : HnswIndex F S → Prop
  | start : Grown storage distance start start
  | insertVector {before : HnswIndex F S} (vector : List F) (metadata : Option M)
    (choices : InsertChoices) (orders : Nat → Nat → Nat) : Grown storage distance start before →
    Grown storage distance start (insertVector storage distance vector metadata choices orders before).2
  | batchInsertVectors {before : HnswIndex F S} (vectors : List (List F × Option M × InsertChoices))
    (orders : Nat → Nat → Nat) : Grown storage distance start before →
    Grown storage distance start (batchInsertVectors storage distance vectors orders before).2

theorem Grown.multi {start : HnswIndex F S} (hml : 0 < ml) (hstart : Multi ml start)
    (h : Grown storage distance start index) : Multi ml index := by
  have hexec : ∀ (call : Call F M) (orders : Nat → Nat → Nat), (∀ id, call ≠ .deleteVector id) →
      StoreM.Preserves (Multi ml) (exec storage distance call orders) :=
    fun call orders hne => preserves_exec Multi.withStorage (multi_insertElement storage distance hml)
      Multi.clearDirty hne orders
  induction h with
  | start => exact hstart
  | insertVector vector metadata choices orders _ ih =>
    have hrun := hexec (.insertVector vector metadata choices) orders (fun _ h => by cases h) _ ih
    rwa [exec, voided_run] at hrun
  | batchInsertVectors vectors orders _ ih =>
    have hrun := hexec (.batchInsertVectors vectors) orders (fun _ h => by cases h) _ ih
    rwa [exec, voided_run] at hrun

theorem Multi.new {config : HnswConfig} {init : S} {start : HnswIndex F S}
    (hmode : config.enableMultilayer = true) (hnew : HnswIndex.withStorage config init = .ok start) :
    0 < config.ml ∧ Multi config.ml start := by
  obtain ⟨hml, -, hlayers, hlen, hrest⟩ := withStorage_ok hnew
  refine ⟨hml, ?_, hlen, ?_⟩
  · intro level layer hlayer
    obtain ⟨base, rfl⟩ := hlayers level layer hlayer
    exact ⟨.new level base, fun _ => Nat.zero_le _⟩
  · refine ⟨.new config.ml, fun _ => [], ?_, rfl, LayerMappings.numbered_new _, ?_⟩
    · rw [hrest, if_pos hmode]
    · intro g level l hl
      cases hl

section Frame
variable {index' : HnswIndex F S} {level v w a : Nat}

/-- In a layer there is a connection from the node of `v` to the node of `w`. -/
def Connected (index index' : HnswIndex F S) (level v w : Nat) : Prop :=
  ∃ (layer : HnswLayer) (b c : Nat), index'.layers[level]? = some layer ∧
    index.localIdOf v level = some b ∧ index.localIdOf w level = some c ∧ layer.Links b c

/-- The node of the vector is an entry point of the layer. -/
def IsEntry (index index' : HnswIndex F S) (level v : Nat) : Prop :=
  ∃ (layer : HnswLayer) (b : Nat), index'.layers[level]? = some layer ∧
    index.localIdOf v level = some b ∧ b ∈ layer.entryPoints

/-- From `index` to `index'` the vector loses its node in each layer, and nothing else changes. -/
structure DeletesOnly (id : Nat) (index index' : HnswIndex F S) : Prop where
  removed : ∀ (level : Nat) (layer : HnswLayer) (l : Nat), index'.layers[level]? = some layer →
    index.localIdOf id level = some l →
    (∀ u, ¬ layer.Links l u ∧ ¬ layer.Links u l) ∧ l ∉ layer.entryPoints
  connections : ∀ level v w, v ≠ id → w ≠ id →
    (Connected index index' level v w ↔ Connected index index level v w)
  entries : ∀ level v, v ≠ id → (IsEntry index index' level v ↔ IsEntry index index level v)

/-- In each layer the number that the vector has in the base layer is its own, or it belongs to a node
with no connections to others that is no entry point, and neither has nor is the vector's node there. -/
def BaseIdServes (index : HnswIndex F S) (id a : Nat) : Prop :=
  ∀ (level : Nat) (layer : HnswLayer), index.layers[level]? = some layer →
    index.localIdOf id level = some a ∨
    (∀ l, index.localIdOf id level = some l →
      (∀ u, (layer.Links l u → u = a) ∧ (layer.Links u l → u = a)) ∧ l ∉ layer.entryPoints) ∧
    ∀ v, index.localIdOf v level = some a → a ∉ layer.entryPoints ∧
      ∀ w, w ≠ id → ¬ Connected index index level v w ∧ ¬ Connected index index level w v

theorem links_removed {layer : HnswLayer} (hwf : layer.WellFormed ∅) {u w : Nat} :
    (layer.removeNode a).Links u w ↔ layer.Links u w ∧ u ≠ a ∧ w ≠ a := by
  by_cases ha : a ∈ layer.nodes
  · exact HnswLayer.links_removeNode ha
  · rw [HnswLayer.removeNode_of_notMem ha]
    refine ⟨fun hlink => ⟨hlink, ?_, ?_⟩, fun h => h.1⟩
    · rintro rfl
      exact ha (hwf.source _ _ hlink).1
    · rintro rfl
      exact ha (hwf.target _ _ hlink).1

theorem entryPoints_removed {layer : HnswLayer} (hwf : layer.WellFormed ∅) {e : Nat} :
    e ∈ (layer.removeNode a).entryPoints ↔ e ∈ layer.entryPoints ∧ e ≠ a := by
  by_cases ha : a ∈ layer.nodes
  · exact HnswLayer.mem_entryPoints_removeNode ha
  · rw [HnswLayer.removeNode_of_notMem ha]
    refine ⟨fun he => ⟨he, ?_⟩, fun h => h.1⟩
    rintro rfl
    exact ha (hwf.entryLive _ he).1

/-- The layer is as `layer`, but without the node. -/
structure Without (a : Nat) (layer layer' : HnswLayer) : Prop where
  links : ∀ u w, layer'.Links u w ↔ layer.Links u w ∧ u ≠ a ∧ w ≠ a
  entries : ∀ e, e ∈ layer'.entryPoints ↔ e ∈ layer.entryPoints ∧ e ≠ a

/-- From each layer the node goes that has the number of the vector in the base layer. -/
theorem deleteVector_map (orders : Nat → Nat → Nat) (h : Multi ml index)
    (ha : index.localIdOf id 0 = some a) (hdel : (storage.deleteVector id index.storage).1 = .ok ()) :
    ∃ f : HnswLayer → HnswLayer, (deleteVector storage id orders index).2.layers = index.layers.map f ∧
      ∀ layer, layer.WellFormed ∅ → Without a layer (f layer) := by
  have hnode : index.nodeToRemove id = .ok a := by
    obtain ⟨manager, -, hmanager, -⟩ := h.manager
    rw [localIdOf, hmanager, Option.bind_some] at ha
    rw [nodeToRemove, hmanager]
    dsimp only
    rw [ha, Option.getD_some]
  have hrun := removeVector_run storage hnode
  cases hstore : storage.deleteVector id index.storage with
  | mk r s =>
    rw [hstore] at hdel hrun
    obtain rfl : r = .ok () := hdel
    rw [deleteVector, StoreM.bind_ok _ hrun]
    obtain ⟨s', hsame | ⟨-, hcleared⟩⟩ := persistTopology_cases storage orders { index with
      storage := s
      layers := index.layers.map (·.removeNode a)
      entryPoints := index.entryPoints.filter (· ≠ id)
      vectorCount := index.vectorCount - 1 }
    · rw [hsame]
      exact ⟨_, rfl, fun layer hwf => ⟨fun u w => links_removed hwf, fun e => entryPoints_removed hwf⟩⟩
    · rw [hcleared]
      exact ⟨_, List.map_map, fun layer hwf =>
        ⟨fun u w => links_removed hwf, fun e => entryPoints_removed hwf⟩⟩

theorem deleteVector_layers (orders : Nat → Nat → Nat) (h : Multi ml index)
    (ha : index.localIdOf id 0 = some a) (hdel : (storage.deleteVector id index.storage).1 = .ok ())
    {layer : HnswLayer} (hlayer : index.layers[level]? = some layer) :
    ∃ layer', (deleteVector storage id orders index).2.layers[level]? = some layer' ∧
      Without a layer layer' := by
  obtain ⟨f, hmap, hwithout⟩ := deleteVector_map orders h ha hdel
  refine ⟨f layer, ?_, hwithout layer (h.layers level layer hlayer).1⟩
  rw [hmap, List.getElem?_map, hlayer]
  rfl

theorem layer_of_deleteVector {orders : Nat → Nat → Nat} {layer' : HnswLayer} (h : Multi ml index)
    (ha : index.localIdOf id 0 = some a) (hdel : (storage.deleteVector id index.storage).1 = .ok ())
    (hlayer' : (deleteVector storage id orders index).2.layers[level]? = some layer') :
    ∃ layer, index.layers[level]? = some layer ∧ Without a layer layer' := by
  obtain ⟨f, hmap, hwithout⟩ := deleteVector_map orders h ha hdel
  rw [hmap, List.getElem?_map] at hlayer'
  obtain ⟨layer, hlayer, rfl⟩ := Option.map_eq_some_iff.mp hlayer'
  exact ⟨layer, hlayer, hwithout layer (h.layers level layer hlayer).1⟩

/-- A deletion takes away its vector and nothing else just where the number of the base layer serves. -/
theorem deletesOnly_iff_serves {orders : Nat → Nat → Nat} (h : Multi ml index)
    (ha : index.localIdOf id 0 = some a) (hdel : (storage.deleteVector id index.storage).1 = .ok ()) :
    DeletesOnly id index (deleteVector storage id orders index).2 ↔ BaseIdServes index id a := by
  constructor
  · intro hdeletes level layer hlayer
    obtain ⟨layer', hlayer', hlinks, hentries⟩ := deleteVector_layers orders h ha hdel hlayer
    by_cases hown : index.localIdOf id level = some a
    · exact .inl hown
    · refine .inr ⟨fun l hl => ?_, fun v hv => ?_⟩
      · have hne : l ≠ a := fun he => hown (he ▸ hl)
        obtain ⟨halone, hentry⟩ := hdeletes.removed level layer' l hlayer' hl
        refine ⟨fun u => ⟨fun hlink => ?_, fun hlink => ?_⟩, fun he => hentry ((hentries l).mpr ⟨he, hne⟩)⟩
        · by_contra hu
          exact (halone u).1 ((hlinks l u).mpr ⟨hlink, hne, hu⟩)
        · by_contra hu
          exact (halone u).2 ((hlinks u l).mpr ⟨hlink, hu, hne⟩)
      · have hvid : v ≠ id := by
          rintro rfl
          exact hown hv
        refine ⟨fun he => ?_, fun w hw => ⟨fun hcon => ?_, fun hcon => ?_⟩⟩
        · obtain ⟨layer₁, b, hlayer₁, hb, hmem⟩ :=
            (hdeletes.entries level v hvid).mpr ⟨layer, a, hlayer, hv, he⟩
          obtain rfl : layer' = layer₁ := Option.some.inj (hlayer'.symm.trans hlayer₁)
          obtain rfl : a = b := Option.some.inj (hv.symm.trans hb)
          exact ((hentries a).mp hmem).2 rfl
        · obtain ⟨layer₁, b, c, hlayer₁, hb, -, hlink⟩ :=
            (hdeletes.connections level v w hvid hw).mpr hcon
          obtain rfl : layer' = layer₁ := Option.some.inj (hlayer'.symm.trans hlayer₁)
          obtain rfl : a = b := Option.some.inj (hv.symm.trans hb)
          exact ((hlinks a c).mp hlink).2.1 rfl
        · obtain ⟨layer₁, b, c, hlayer₁, -, hc, hlink⟩ :=
            (hdeletes.connections level w v hw hvid).mpr hcon
          obtain rfl : layer' = layer₁ := Option.some.inj (hlayer'.symm.trans hlayer₁)
          obtain rfl : a = c := Option.some.inj (hv.symm.trans hc)
          exact ((hlinks b a).mp hlink).2.2 rfl
  · intro hserves
    refine ⟨?_, ?_, ?_⟩
    · intro level layer' l hlayer' hl
      obtain ⟨layer, hlayer, hlinks, hentries⟩ := layer_of_deleteVector h ha hdel hlayer'
      rcases hserves level layer hlayer with hown | ⟨halone, -⟩
      · obtain rfl : a = l := Option.some.inj (hown.symm.trans hl)
        exact ⟨fun u => ⟨fun hlink => ((hlinks a u).mp hlink).2.1 rfl,
          fun hlink => ((hlinks u a).mp hlink).2.2 rfl⟩, fun he => ((hentries a).mp he).2 rfl⟩
      · obtain ⟨hout, hentry⟩ := halone l hl
        refine ⟨fun u => ⟨fun hlink => ?_, fun hlink => ?_⟩, fun he => hentry ((hentries l).mp he).1⟩
        · obtain ⟨hlink, -, hu⟩ := (hlinks l u).mp hlink
          exact hu ((hout u).1 hlink)
        · obtain ⟨hlink, hu, -⟩ := (hlinks u l).mp hlink
          exact hu ((hout u).2 hlink)
    · intro level v w hv hw
      constructor
      · rintro ⟨layer', b, c, hlayer', hb, hc, hlink⟩
        obtain ⟨layer, hlayer, hlinks, -⟩ := layer_of_deleteVector h ha hdel hlayer'
        exact ⟨layer, b, c, hlayer, hb, hc, ((hlinks b c).mp hlink).1⟩
      · rintro ⟨layer, b, c, hlayer, hb, hc, hlink⟩
        obtain ⟨layer', hlayer', hlinks, -⟩ := deleteVector_layers orders h ha hdel hlayer
        refine ⟨layer', b, c, hlayer', hb, hc, (hlinks b c).mpr ⟨hlink, ?_, ?_⟩⟩
        · rintro rfl
          rcases hserves level layer hlayer with hown | ⟨-, hother⟩
          · exact hv (h.injective hb hown)
          · exact ((hother v hb).2 w hw).1 ⟨layer, b, c, hlayer, hb, hc, hlink⟩
        · rintro rfl
          rcases hserves level layer hlayer with hown | ⟨-, hother⟩
          · exact hw (h.injective hc hown)
          · exact ((hother w hc).2 v hv).2 ⟨layer, b, c, hlayer, hb, hc, hlink⟩
    · intro level v hv
      constructor
      · rintro ⟨layer', b, hlayer', hb, he⟩
        obtain ⟨layer, hlayer, -, hentries⟩ := layer_of_deleteVector h ha hdel hlayer'
        exact ⟨layer, b, hlayer, hb, ((hentries b).mp he).1⟩
      · rintro ⟨layer, b, hlayer, hb, he⟩
        obtain ⟨layer', hlayer', -, hentries⟩ := deleteVector_layers orders h ha hdel hlayer
        refine ⟨layer', b, hlayer', hb, (hentries b).mpr ⟨he, ?_⟩⟩
        rintro rfl
        rcases hserves level layer hlayer with hown | ⟨-, hother⟩
        · exact hv (h.injective hb hown)
        · exact (hother v hb).1 he

end Frame

/-- In every state that insertions lead to, a deletion that the storage accepts takes away its vector
and nothing else just where the vector's number in the base layer serves in all layers. -/
theorem deletesOnly_iff {config : HnswConfig} {init : S} {start : HnswIndex F S} {a : Nat}
    (hmode : config.enableMultilayer = true) (hnew : withStorage config init = .ok start)
    (hgrown : Grown storage distance start index) (hlive : index.localIdOf id 0 = some a)
    (hdel : (storage.deleteVector id index.storage).1 = .ok ()) (orders : Nat → Nat → Nat) :
    DeletesOnly id index (deleteVector storage id orders index).2 ↔ BaseIdServes index id a := by
  obtain ⟨hml, hmulti⟩ := Multi.new hmode hnew
  exact deletesOnly_iff_serves (hgrown.multi hml hmulti) hlive hdel

section Run

def twoLayers : HnswConfig := ⟨1, 16, 16, 1, 2, true⟩

def memory : VectorStorage Nat Unit (InMemoryVectorStorage Nat Unit) := inMemoryStorage fun _ => true

def noVectors : HnswIndex Nat (InMemoryVectorStorage Nat Unit) :=
  ⟨twoLayers, [.new 0 16, .new 1 8], .new, [], 0, some (.new 2), ∅⟩

/-- The index after one more vector, which is drawn into the upper layer or not. -/
def withVector (index : HnswIndex Nat (InMemoryVectorStorage Nat Unit)) (x : Nat) (upper : Bool) :
    HnswIndex Nat (InMemoryVectorStorage Nat Unit) :=
  (insertVector memory closeness [x] none ⟨[upper], fun _ => ⟨fun _ _ => 0, fun _ => 0, fun _ => 0⟩⟩
    (fun _ _ => 0) index).2

/-- The second vector is in the base layer only. -/
def fourVectors : HnswIndex Nat (InMemoryVectorStorage Nat Unit) :=
  withVector (withVector (withVector (withVector noVectors 0 true) 1 false) 2 true) 3 true

theorem fourVectors_grown : Grown memory closeness noVectors fourVectors :=
  .insertVector _ _ _ _ (.insertVector _ _ _ _ (.insertVector _ _ _ _ (.insertVector _ _ _ _ .start)))

theorem deletesOnly_iff_fourVectors :
    DeletesOnly 3 fourVectors (deleteVector memory 3 (fun _ _ => 0) fourVectors).2 ↔
      BaseIdServes fourVectors 3 2 :=
  deletesOnly_iff (rfl : twoLayers.enableMultilayer = true)
    (rfl : withStorage twoLayers .new = .ok noVectors) fourVectors_grown
    (by decide +kernel) rfl (fun _ _ => 0)

/-- The third vector is deleted, and the fourth is no longer an entry point of the upper layer. -/
theorem not_deletesOnly : Grown memory closeness noVectors fourVectors ∧
    ¬ DeletesOnly 3 fourVectors (deleteVector memory 3 (fun _ _ => 0) fourVectors).2 := by
  refine ⟨fourVectors_grown, fun hdeletes => ?_⟩
  obtain ⟨layer, hlayer, hentries⟩ : ∃ layer, fourVectors.layers[1]? = some layer ∧
      layer.entryPoints = [0, 1, 2] := by
    have hmap : fourVectors.layers[1]?.map (·.entryPoints) = some [0, 1, 2] := by decide +kernel
    exact Option.map_eq_some_iff.mp hmap
  have hlocal : fourVectors.localIdOf 4 1 = some 2 := by decide +kernel
  have hmap : (deleteVector memory 3 (fun _ _ => 0) fourVectors).2.layers[1]?.map (·.entryPoints) =
      some [0, 1] := by decide +kernel
  obtain ⟨layer', b, hlayer', hb, he⟩ := (hdeletes.entries 1 4 (by decide)).mpr
    ⟨layer, 2, hlayer, hlocal, by simp [hentries]⟩
  rw [hlayer', Option.map_some] at hmap
  obtain rfl : 2 = b := Option.some.inj (hlocal.symm.trans hb)
  rw [Option.some.inj hmap] at he
  exact absurd he (by decide)

end Run

end HnswIndex

end SqliteGraph.Hnsw
