import SqliteGraph.Hnsw.LayerInsertion

/-! The calls on an index, each a change that may be followed by a save of the layers. -/
namespace SqliteGraph.Hnsw
open Lib

inductive Call (F M : Type)
  | insertVector (vector : List F) (metadata : Option M) (choices : InsertChoices)
  | batchInsertVectors (vectors : List (List F × Option M × InsertChoices))
  | deleteVector (id : Nat)
  | persistTopology

namespace HnswIndex
variable {F M S D : Type} [LinearOrder D]

section Calls
variable (storage : VectorStorage F M S) (distance : List F → List F → D)

def exec (call : Call F M) (orders : Nat → Nat → Nat) : StoreM (HnswIndex F S) HnswError Unit := do
  match call with
  | .insertVector vector metadata choices =>
    let _ ← insertVector storage distance vector metadata choices orders
    pure ()
  | .batchInsertVectors vectors =>
    let _ ← batchInsertVectors storage distance vectors orders
    pure ()
  | .deleteVector id => deleteVector storage id orders
  | .persistTopology => persistTopology storage orders

/-- The part of a call before the save. -/
def change (call : Call F M) : StoreM (HnswIndex F S) HnswError Unit := do
  match call with
  | .insertVector vector metadata choices =>
    let _ ← insertChecked storage distance vector metadata choices
    pure ()
  | .batchInsertVectors [] => pure ()
  | .batchInsertVectors vectors =>
    let _ ← insertBatch storage distance vectors
    pure ()
  | .deleteVector id => removeVector storage id
  | .persistTopology => pure ()

/-- The call goes on to save the layers, and the save succeeds. -/
def Saves (call : Call F M) (orders : Nat → Nat → Nat) (index : HnswIndex F S) : Prop :=
  (∀ vectors, call = .batchInsertVectors vectors → vectors ≠ []) ∧
    (change storage distance call index).1 = .ok () ∧
    (persistTopology storage orders (change storage distance call index).2).1 = .ok ()

end Calls

variable {storage : VectorStorage F M S} {distance : List F → List F → D} {index : HnswIndex F S}
  {orders : Nat → Nat → Nat}

theorem onStorage_run {α : Type} (x : StoreM S HnswError α) :
    onStorage x index = ((x index.storage).1, { index with storage := (x index.storage).2 }) := rfl

/-- A new index has its layers, which are empty, and nothing else. -/
theorem withStorage_ok {config : HnswConfig} {init : S} {start : HnswIndex F S}
    (h : withStorage config init = .ok start) : 0 < config.ml ∧ 0 < config.dimension ∧
      (∀ level layer, start.layers[level]? = some layer → ∃ base, layer = HnswLayer.new level base) ∧
      start.layers.length = config.ml ∧ start = {
        config, layers := start.layers, storage := init, entryPoints := [], vectorCount := 0
        multiLayerManager := if config.enableMultilayer then some (.new config.ml) else none
        vectorCache := ∅ } := by
  rw [withStorage] at h
  cases hvalid : validateConfig config with
  | error e =>
    simp only [hvalid, bind, Except.bind] at h
    cases h
  | ok _ =>
    cases hlayers : (List.range config.ml).mapM (newLayer config.m) with
    | error e =>
      simp only [hvalid, hlayers, bind, Except.bind] at h
      cases h
    | ok layers =>
      simp only [hvalid, hlayers, bind, Except.bind] at h
      cases h
      refine ⟨?_, ?_, ?_, ?_, rfl⟩
      · by_contra hzero
        simp [validateConfig, show config.ml = 0 by omega] at hvalid
      · by_contra hzero
        simp [validateConfig, show config.dimension = 0 by omega] at hvalid
      · intro level layer hlayer
        obtain ⟨level', hlevel, hnew⟩ := getElem?_of_mapM hlayers hlayer
        obtain ⟨hlt, rfl⟩ := List.getElem?_eq_some_iff.mp hlevel
        rw [List.getElem_range, newLayer] at hnew
        split at hnew
        · cases hnew
        · cases hnew
          exact ⟨_, rfl⟩
      · rw [← (mapM_ok_forall₂ hlayers).length_eq, List.length_range]

theorem removeVector_run (storage : VectorStorage F M S) {id nodeId : Nat}
    (hnode : index.nodeToRemove id = .ok nodeId) : removeVector storage id index =
      match storage.deleteVector id index.storage with
      | (.error e, s) => (.error e, { index with storage := s })
      | (.ok _, s) => (.ok (), { index with
          storage := s
          layers := index.layers.map (·.removeNode nodeId)
          entryPoints := index.entryPoints.filter (· ≠ id)
          vectorCount := index.vectorCount - 1 }) := by
  rw [removeVector, StoreM.get_bind_run, hnode, StoreM.ofExcept_ok_bind_run]
  cases hdel : storage.deleteVector id index.storage with
  | mk r s =>
    have hrun : onStorage (storage.deleteVector id) index = (r, { index with storage := s }) := by
      rw [onStorage_run, hdel]
    cases r with
    | error e => rw [StoreM.bind_error _ hrun]
    | ok _ =>
      rw [StoreM.bind_ok _ hrun]
      rfl

/-- A save changes the storage, and clears the marks when it succeeds. -/
theorem persistTopology_cases (storage : VectorStorage F M S) (orders : Nat → Nat → Nat)
    (index : HnswIndex F S) : ∃ s, (persistTopology storage orders index).2 = { index with storage := s } ∨
      (persistTopology storage orders index).1 = .ok () ∧ (persistTopology storage orders index).2 =
        { index with storage := s, layers := index.layers.map HnswLayer.clearDirty } := by
  rw [persistTopology, StoreM.get_bind_run]
  cases storage.asSqliteConnection index.storage with
  | none => exact ⟨index.storage, .inl rfl⟩
  | some execute =>
    dsimp only
    cases hbegin : execute .beginImmediate index.storage with
    | mk r s₁ =>
      have hrun : onStorage (execute .beginImmediate) index = (r, { index with storage := s₁ }) := by
        rw [onStorage_run, hbegin]
      cases r with
      | error e =>
        rw [StoreM.bind_error _ hrun]
        exact ⟨s₁, .inl rfl⟩
      | ok _ =>
        rw [StoreM.bind_ok _ hrun, StoreM.attempt_bind_run, onStorage_run]
        dsimp only
        cases ((index.topologyStatements orders).forM execute s₁).1 with
        | ok _ => exact ⟨_, .inr ⟨rfl, rfl⟩⟩
        | error e => exact ⟨_, .inl rfl⟩

/-- A save whose result is ignored comes after the change, unless that has failed. -/
theorem saved_run {α : Type} (x : StoreM (HnswIndex F S) HnswError α) :
    ((x >>= fun a => StoreM.attempt (persistTopology storage orders) >>= fun _ => pure a) >>=
        fun _ => pure ()) index =
      match x index with
      | (.ok _, middle) => (.ok (), (persistTopology storage orders middle).2)
      | (.error e, middle) => (.error e, middle) := by
  change StoreM.bind (StoreM.bind x _) _ index = _
  simp only [StoreM.bind]
  cases x index with
  | mk r middle =>
    cases r with
    | ok a => rfl
    | error e => rfl

theorem voided_run {α : Type} (x : StoreM (HnswIndex F S) HnswError α) :
    (x >>= fun _ => pure ()) index = ((x index).1.map fun _ => (), (x index).2) := by
  change StoreM.bind x _ index = _
  rw [StoreM.bind]
  cases x index with
  | mk r middle =>
    cases r with
    | ok a => rfl
    | error e => rfl

/-- A call leaves what its change leaves, or what the save after the change leaves. -/
def Ends (storage : VectorStorage F M S) (distance : List F → List F → D) (call : Call F M)
    (orders : Nat → Nat → Nat) (index : HnswIndex F S) : Prop :=
  (exec storage distance call orders index).2 = (change storage distance call index).2 ∧
      ¬ Saves storage distance call orders index ∨
    (exec storage distance call orders index).2 =
        (persistTopology storage orders (change storage distance call index).2).2 ∧
      (Saves storage distance call orders index ↔
        (persistTopology storage orders (change storage distance call index).2).1 = .ok ())

theorem exec_ends (storage : VectorStorage F M S) (distance : List F → List F → D) (call : Call F M)
    (orders : Nat → Nat → Nat) (index : HnswIndex F S) : Ends storage distance call orders index := by
  have hfollowed : ∀ {α : Type} (x : StoreM (HnswIndex F S) HnswError α),
      (∀ vectors, call = .batchInsertVectors vectors → vectors ≠ []) →
      change storage distance call = (x >>= fun _ => pure ()) →
      exec storage distance call orders =
        ((x >>= fun a => StoreM.attempt (persistTopology storage orders) >>= fun _ => pure a) >>=
          fun _ => pure ()) → Ends storage distance call orders index := by
    intro α x hbatch hchange hexec
    rw [Ends, hexec, saved_run, Saves, hchange, voided_run]
    cases x index with
    | mk r middle =>
      cases r with
      | error e => exact .inl ⟨rfl, fun h => by cases h.2.1⟩
      | ok a => exact .inr ⟨rfl, fun h => h.2.2, fun h => ⟨hbatch, rfl, h⟩⟩
  cases call with
  | insertVector vector metadata choices => exact hfollowed _ (fun _ h => by cases h) rfl rfl
  | batchInsertVectors vectors =>
    cases vectors with
    | nil => exact .inl ⟨rfl, fun h => h.1 [] rfl rfl⟩
    | cons v vectors =>
      refine hfollowed _ ?_ rfl rfl
      intro vectors' h
      cases h
      exact List.cons_ne_nil _ _
  | deleteVector id =>
    cases hr : removeVector storage id index with
    | mk r middle =>
      rw [Ends, exec, deleteVector, Saves, change, hr]
      cases r with
      | error e =>
        rw [StoreM.bind_error _ hr]
        exact .inl ⟨rfl, fun h => by cases h.2.1⟩
      | ok _ =>
        rw [StoreM.bind_ok _ hr]
        exact .inr ⟨rfl, fun h => h.2.2, fun h => ⟨fun _ h => (by cases h), rfl, h⟩⟩
  | persistTopology => exact .inr ⟨rfl, fun h => h.2.2, fun h => ⟨fun _ h => (by cases h), rfl, h⟩⟩

section Preserves
variable {I : HnswIndex F S → Prop} (hstorage : ∀ index s, I index → I { index with storage := s })
  (helement : ∀ vector metadata choices, StoreM.Preserves I
    (insertElement storage distance vector metadata choices))

include hstorage in
theorem preserves_onStorage {α : Type} (x : StoreM S HnswError α) : StoreM.Preserves I (onStorage x) :=
  fun index h => hstorage index _ h

include helement in
theorem preserves_insertElements (vectors : List (List F × Option M × InsertChoices)) :
    StoreM.Preserves I (insertElements storage distance vectors) := by
  induction vectors with
  | nil => exact .pure
  | cons v vectors ih => exact .bind (helement _ _ _) fun _ => .bind ih fun _ => .pure

include hstorage helement in
theorem preserves_insertTransaction (vectors : List (List F × Option M × InsertChoices)) :
    StoreM.Preserves I (insertTransaction storage distance vectors) := by
  refine .bind (preserves_onStorage hstorage _) fun _ =>
    .bind (.attempt (preserves_insertElements helement vectors)) fun result => ?_
  split
  · exact .bind (preserves_onStorage hstorage _) fun _ => .pure
  · exact .throw
  · exact .bind (.modify fun index h => hstorage index _ h) fun _ => .throw

include helement in
theorem preserves_insertChecked (vector : List F) (metadata : Option M) (choices : InsertChoices) :
    StoreM.Preserves I (insertChecked storage distance vector metadata choices) := by
  refine .get_bind fun index => ?_
  split
  · exact .throw
  · exact helement vector metadata choices

include hstorage helement in
theorem preserves_insertBatch (vectors : List (List F × Option M × InsertChoices)) :
    StoreM.Preserves I (insertBatch storage distance vectors) := by
  refine .get_bind fun index => ?_
  split
  · exact .throw
  · exact preserves_insertTransaction hstorage helement vectors

include hstorage helement in
/-- What the insertion of a vector keeps is kept by all changes but deletions. -/
theorem preserves_change {call : Call F M} (hne : ∀ id, call ≠ .deleteVector id) :
    StoreM.Preserves I (change storage distance call) := by
  cases call with
  | insertVector vector metadata choices =>
    exact .bind (preserves_insertChecked helement vector metadata choices) fun _ => .pure
  | batchInsertVectors vectors =>
    cases vectors with
    | nil => exact .pure
    | cons v vectors =>
      exact .bind (preserves_insertBatch hstorage helement (v :: vectors)) fun _ => .pure
  | deleteVector id => exact absurd rfl (hne id)
  | persistTopology => exact .pure

include hstorage helement in
theorem preserves_exec (hclear : ∀ index, I index →
      I { index with layers := index.layers.map HnswLayer.clearDirty })
    {call : Call F M} (hne : ∀ id, call ≠ .deleteVector id) (orders : Nat → Nat → Nat) :
    StoreM.Preserves I (exec storage distance call orders) := by
  intro index h
  have hchange := preserves_change hstorage helement hne index h
  rcases exec_ends storage distance call orders index with ⟨hrun, -⟩ | ⟨hrun, -⟩
  · rw [hrun]
    exact hchange
  · obtain ⟨s, hsame | ⟨-, hcleared⟩⟩ := persistTopology_cases storage orders
      (change storage distance call index).2
    · rw [hrun, hsame]
      exact hstorage _ s hchange
    · rw [hrun, hcleared]
      exact hclear _ (hstorage _ s hchange)

end Preserves

end HnswIndex

end SqliteGraph.Hnsw
