import SqliteGraph.Hnsw.MappingsInvariant

/-! Runs of insertions and removals on the manager of the layers' ids. -/
namespace SqliteGraph.Hnsw
open Lib

/-- The vectors of a layer, each vector being given with its level. -/
def layerMembers (vs : List (Nat × Nat)) (layer : Nat) : List Nat :=
  (vs.filter fun v => layer ≤ v.2).map (·.1)

theorem layerMembers_snoc (vs : List (Nat × Nat)) (g level layer : Nat) :
    layerMembers (vs ++ [(g, level)]) layer =
      layerMembers vs layer ++ if layer ≤ level then [g] else [] := by
  by_cases h : layer ≤ level <;> simp [layerMembers, h]

theorem mem_layerMembers {vs : List (Nat × Nat)} {g layer : Nat} :
    g ∈ layerMembers vs layer ↔ ∃ level, (g, level) ∈ vs ∧ layer ≤ level := by
  simp [layerMembers]

theorem mem_layerMembers_zero {vs : List (Nat × Nat)} {g : Nat} (h : g ∈ vs.map (·.1)) :
    g ∈ layerMembers vs 0 := by
  obtain ⟨v, hv, rfl⟩ := List.mem_map.mp h
  exact mem_layerMembers.mpr ⟨v.2, hv, Nat.zero_le _⟩

theorem layerMembers_nodup {vs : List (Nat × Nat)} (h : (vs.map (·.1)).Nodup) (layer : Nat) :
    (layerMembers vs layer).Nodup :=
  h.sublist (List.filter_sublist.map _)

/-- A vector that is new to the layer gets the next position. -/
theorem layerMembers_snoc_fresh {vs : List (Nat × Nat)} {g : Nat} (hg : g ∉ vs.map (·.1))
    (level layer l : Nat) : (layerMembers (vs ++ [(g, level)]) layer)[l]? = some g ↔
      layer ≤ level ∧ l = (layerMembers vs layer).length := by
  have hfresh : (layerMembers vs layer)[l]? ≠ some g := by
    intro hget
    obtain ⟨level', hv, -⟩ := mem_layerMembers.mp (List.mem_of_getElem? hget)
    exact hg (List.mem_map_of_mem hv)
  rw [layerMembers_snoc]
  by_cases hl : layer ≤ level
  · rw [if_pos hl]
    rcases Nat.lt_trichotomy l (layerMembers vs layer).length with hlt | rfl | hgt
    · rw [List.getElem?_append_left hlt]
      simp only [hfresh, hl, true_and, false_iff]
      omega
    · simp [hl]
    · rw [List.getElem?_eq_none (by simp; omega)]
      simp only [reduceCtorEq, hl, true_and, false_iff]
      omega
  · rw [if_neg hl, List.append_nil]
    simp only [hfresh, hl, false_and]

theorem LevelDistributor.sampleLevelInternal_lt {d : LevelDistributor} (h : 0 < d.maxLayers)
    (draws : List Bool) : d.sampleLevelInternal draws < d.maxLayers := by
  have hgo : ∀ (draws : List Bool) (level : Nat), level < d.maxLayers →
      sampleLevelInternal.go d draws level < d.maxLayers := by
    intro draws
    induction draws with
    | nil => exact fun level hl => hl
    | cons b draws ih =>
      intro level hl
      cases b with
      | false => exact hl
      | true =>
        rw [sampleLevelInternal.go]
        split
        · exact ih _ (by omega)
        · exact hl
  exact hgo draws 0 h

namespace LayerMappings
variable {m : LayerMappings} {n g : Nat}

/-- The base layer has fewer entries than its counter has given out. -/
def Short (m : LayerMappings) : Prop :=
  ∃ (count : Nat) (mapping : AList fun _ : Nat => Nat), m.nextLocalId[0]? = some count ∧
    m.localToGlobal[0]? = some mapping ∧ mapping.entries.length < count

theorem Short.not_countsMatch (h : m.Short) : ¬ m.CountsMatch := by
  obtain ⟨count, mapping, hcount, hm, hlt⟩ := h
  intro hmatch
  have := Option.some.inj (hcount.symm.trans (hmatch 0 mapping hm))
  omega

theorem removeReverse_short (layer id : Nat) : StoreM.Preserves Short (removeReverse layer id) := by
  intro m h
  rw [removeReverse, StoreM.get_bind_run, index]
  cases hl : m.localToGlobal[layer]? with
  | none => exact h
  | some old =>
    obtain ⟨count, mapping, hcount, hm, hlt⟩ := h
    by_cases he : layer = 0
    · subst layer
      refine ⟨count, mapping.erase id, hcount, ?_, (length_erase_le _ _).trans_lt hlt⟩
      simp [List.getElem?_modify_eq, hm]
    · refine ⟨count, mapping, hcount, ?_, hlt⟩
      simpa [List.getElem?_modify_ne _ _ he] using hm

/-- The base layer comes first, the others after it. -/
theorem removeGlobalId_run {rest : List (Option Nat)} {mapping : AList fun _ : Nat => Nat} {l : Nat}
    (hlook : m.globalToLocal.lookup g = some (some l :: rest)) (hm : m.localToGlobal[0]? = some mapping) :
    (removeGlobalId g m).2 = ((rest.zipIdx 1).forM (fun x => match x.1 with
        | some id => removeReverse x.2 id
        | none => pure ())
      { m with globalToLocal := m.globalToLocal.erase g
               localToGlobal := m.localToGlobal.modify 0 (·.erase l) }).2 := by
  rw [removeGlobalId, StoreM.get_bind_run, hlook]
  simp only [StoreM.modify_bind_run, List.zipIdx_cons, List.forM_eq_forM, List.forM_cons]
  refine congrArg Prod.snd (StoreM.bind_to () _ _ ?_)
  simp [removeReverse, index_of_getElem? hm]

/-- Taking a vector out of the base layer leaves the counter ahead of the entries. -/
theorem removeGlobalId_short {members : Nat → List Nat} {l : Nat} (h : m.Numbered n members)
    (hn : 0 < n) (hl : m.getLocalId g 0 = some l) (hg : m.getGlobalId 0 l = some g) :
    (removeGlobalId g m).2.Short := by
  obtain ⟨mappings, hlook, hget⟩ := Option.bind_eq_some_iff.mp hl
  obtain ⟨mapping, hm, hid⟩ := Option.bind_eq_some_iff.mp hg
  have hhead : mappings[0]? = some (some l) := Option.join_eq_some_iff.mp hget
  cases mappings with
  | nil => cases hhead
  | cons _ rest =>
    cases hhead
    have hcount := h.counter 0 hn
    have hshort : Short { m with globalToLocal := m.globalToLocal.erase g
                                 localToGlobal := m.localToGlobal.modify 0 (·.erase l) } := by
      refine ⟨_, mapping.erase l, hcount, by simp [List.getElem?_modify_eq, hm], ?_⟩
      have hlen := length_erase hid
      rw [(h.toGlobal _ _ hm).length] at hlen
      omega
    rw [removeGlobalId_run hlook hm]
    refine StoreM.Preserves.forM ?_ _ hshort
    rintro ⟨_ | id, layer⟩ -
    · exact StoreM.Preserves.pure
    · exact removeReverse_short layer id

end LayerMappings

namespace MultiLayerNodeManager
variable {s : MultiLayerNodeManager} {n g : Nat} {vs : List (Nat × Nat)}

/-- The loop over the levels puts the vector at the end of every layer below `k`. -/
theorem insertLevels_run {m : LayerMappings} {members : Nat → List Nat} (h : m.Numbered n members)
    (g : Nat) {k : Nat} (hk : k ≤ n) :
    ∃ m', insertLevels g k m =
        (.ok ((List.range k).reverse.map fun layer => (layer, (members layer).length)), m') ∧
      m'.Numbered n (fun layer => members layer ++ if layer < k then [g] else []) ∧
      (∀ g' layer, m'.getLocalId g' layer =
        if g' = g ∧ layer < k then some (members layer).length else m.getLocalId g' layer) ∧
      ∀ g', g' ≠ g → m'.globalToLocal.lookup g' = m.globalToLocal.lookup g' := by
  induction k generalizing m members with
  | zero => exact ⟨m, rfl, by simpa using h, by simp, fun _ _ => rfl⟩
  | succ k ih =>
    obtain ⟨m₁, hadd, hnum, hlocal, hother⟩ := LayerMappings.addMapping_run h hk g
    obtain ⟨m', hrest, hnum', hlocal', hother'⟩ := ih hnum (by omega)
    refine ⟨m', ?_, ?_, fun g' layer => ?_, fun g' hg => (hother' g' hg).trans (hother g' hg)⟩
    · rw [insertLevels, StoreM.get_bind_run, index_of_getElem? (h.counter k hk),
        StoreM.ofExcept_ok_bind_run, StoreM.bind_ok _ hadd, StoreM.bind_ok _ hrest, List.range_succ,
        List.reverse_append, List.map_append]
      have hmap : ((List.range k).reverse.map fun layer =>
            (layer, (Function.update members k (members k ++ [g]) layer).length)) =
          (List.range k).reverse.map fun layer => (layer, (members layer).length) := by
        refine List.map_congr_left fun layer hl => ?_
        have hlt : layer < k := by simpa using hl
        rw [Function.update_of_ne (by omega)]
      rw [hmap]
      rfl
    · convert hnum' using 2 with layer
      rcases Nat.lt_trichotomy layer k with hlt | rfl | hgt
      · simp [hlt, show layer < k + 1 by omega, show layer ≠ k by omega]
      · simp
      · simp [show ¬ layer < k by omega, show ¬ layer < k + 1 by omega, show layer ≠ k by omega]
    · rw [hlocal', hlocal]
      by_cases hg : g' = g
      · rcases Nat.lt_trichotomy layer k with hlt | rfl | hgt
        · simp [hg, hlt, show layer < k + 1 by omega, show layer ≠ k by omega]
        · simp [hg]
        · simp [show ¬ layer < k by omega, show ¬ layer < k + 1 by omega, show layer ≠ k by omega]
      · simp [hg]

/-- The vector gets its level, and the local ids that are next in the layers up to it. -/
theorem insertVector_run {members : Nat → List Nat} (h : s.mappings.Numbered n members) (g : Nat)
    (draws : List Bool) (hlt : s.distributor.sampleLevelInternal draws < n) :
    ∃ m', insertVector draws g s =
        (.ok (s.distributor.sampleLevelInternal draws,
          (List.range (s.distributor.sampleLevelInternal draws + 1)).reverse.map
            fun layer => (layer, (members layer).length)),
          ⟨m', s.distributor, s.vectorLevels.insert g (s.distributor.sampleLevelInternal draws)⟩) ∧
      m'.Numbered n (fun layer => members layer ++
        if layer < s.distributor.sampleLevelInternal draws + 1 then [g] else []) ∧
      (∀ g' layer, m'.getLocalId g' layer =
        if g' = g ∧ layer < s.distributor.sampleLevelInternal draws + 1 then some (members layer).length
        else s.mappings.getLocalId g' layer) ∧
      ∀ g', g' ≠ g → m'.globalToLocal.lookup g' = s.mappings.globalToLocal.lookup g' := by
  obtain ⟨m', hrun, hnum, hlocal, hother⟩ := insertLevels_run h g hlt
  refine ⟨m', ?_, hnum, hlocal, hother⟩
  simp only [insertVector, StoreM.get_bind_run]
  rw [StoreM.bind_to _ { s with mappings := m' } _ (by
    rw [onMappings, StoreM.focus_run, hrun])]
  rfl

/-- The manager holds exactly these vectors at these levels, in the order of their insertion. -/
structure Tracks (s : MultiLayerNodeManager) (n : Nat) (vs : List (Nat × Nat)) : Prop where
  capacity : s.distributor.maxLayers = n
  numbered : s.mappings.Numbered n (layerMembers vs)
  toLocal : ∀ g layer l, s.getLocalId g layer = some l ↔ (layerMembers vs layer)[l]? = some g
  absent : ∀ g, g ∉ vs.map (·.1) → s.mappings.globalToLocal.lookup g = none
  level : ∀ g level, s.getVectorLevel g = some level ↔ (g, level) ∈ vs
  below : ∀ v ∈ vs, v.2 < n
  nodup : (vs.map (·.1)).Nodup

theorem tracks_new (n : Nat) : (new n).Tracks n [] where
  capacity := rfl
  numbered := LayerMappings.numbered_new n
  toLocal g layer l := by simp [getLocalId, LayerMappings.getLocalId, new, LayerMappings.new,
    layerMembers]
  absent _ _ := rfl
  level g level := by simp [getVectorLevel, new]
  below := by simp
  nodup := List.nodup_nil

/-- The check passes, and in each layer the two lookups are inverse on the layer's vectors. -/
structure Consistent (s : MultiLayerNodeManager) : Prop where
  valid : ∀ choices, s.validateConsistency choices = .ok ⟨⟩
  inverse : ∀ layer g l, s.getLocalId g layer = some l ↔ s.getGlobalId layer l = some g
  vectors : ∀ layer g, g ∈ s.getLayerVectors layer ↔ ∃ l, s.getLocalId g layer = some l
  levels : ∀ layer g, (∃ l, s.getLocalId g layer = some l) ↔
    ∃ level, s.getVectorLevel g = some level ∧ layer ≤ level

namespace Tracks

theorem getGlobalId (h : s.Tracks n vs) (layer l : Nat) :
    s.getGlobalId layer l = (layerMembers vs layer)[l]? := by
  rcases Nat.lt_or_ge layer n with hl | hl
  · exact h.numbered.getGlobalId hl
  · have hnil : layerMembers vs layer = [] := by
      rw [layerMembers, List.map_eq_nil_iff, List.filter_eq_nil_iff]
      intro v hv
      have := h.below v hv
      simp only [decide_eq_true_eq]
      omega
    rw [hnil, List.getElem?_nil]
    exact h.numbered.getGlobalId_ge hl

theorem mem_iff (h : s.Tracks n vs) (layer g : Nat) :
    (∃ l, s.getLocalId g layer = some l) ↔ g ∈ layerMembers vs layer := by
  rw [List.mem_iff_getElem?]
  exact exists_congr fun l => h.toLocal g layer l

theorem consistent (h : s.Tracks n vs) : s.Consistent := by
  have hinverse : ∀ layer g l, s.getLocalId g layer = some l ↔ s.getGlobalId layer l = some g := by
    intro layer g l
    rw [h.toLocal, h.getGlobalId]
  refine ⟨fun choices => (LayerMappings.validateConsistency_ok _ _).mpr ⟨?_, ?_, ?_⟩, hinverse, ?_, ?_⟩
  · intro g layer l g' hl hg
    have hg' : s.getGlobalId layer l = some g := (hinverse layer g l).mp hl
    exact Option.some.inj (hg.symm.trans hg')
  · exact fun layer l g hg => (hinverse layer g l).mpr hg
  · intro layer mapping hm
    have hl : layer < n := by
      rw [← h.numbered.layers]
      exact (List.getElem?_eq_some_iff.mp hm).1
    rw [h.numbered.counter layer hl, (h.numbered.toGlobal _ _ hm).length]
  · intro layer g
    rw [exists_congr fun l => hinverse layer g l, getLayerVectors, LayerMappings.getLayerVectors]
    simp only [MultiLayerNodeManager.getGlobalId, LayerMappings.getGlobalId]
    cases hm : s.mappings.localToGlobal[layer]? with
    | none => simp
    | some mapping =>
      rw [List.mem_mergeSort, List.mem_map]
      constructor
      · rintro ⟨p, hp, rfl⟩
        exact ⟨p.1, AList.mem_lookup_iff.mpr hp⟩
      · rintro ⟨l, hl⟩
        exact ⟨⟨l, g⟩, AList.mem_lookup_iff.mp hl, rfl⟩
  · intro layer g
    rw [h.mem_iff, mem_layerMembers]
    simp only [h.level]

/-- A new vector ends up in every layer from its level down. -/
theorem insertVector (h : s.Tracks n vs) (hn : 0 < n) (hg : g ∉ vs.map (·.1)) (draws : List Bool) :
    ∃ s', MultiLayerNodeManager.insertVector draws g s =
        (.ok (s.distributor.sampleLevelInternal draws,
          (List.range (s.distributor.sampleLevelInternal draws + 1)).reverse.map
            fun layer => (layer, (layerMembers vs layer).length)), s') ∧
      s'.Tracks n (vs ++ [(g, s.distributor.sampleLevelInternal draws)]) := by
  have hcap : 0 < s.distributor.maxLayers := by
    rw [h.capacity]
    exact hn
  have hlt := LevelDistributor.sampleLevelInternal_lt hcap draws
  rw [h.capacity] at hlt
  obtain ⟨m', hrun, hnum, hlocal, hother⟩ := insertVector_run h.numbered g draws hlt
  refine ⟨_, hrun, ?_⟩
  clear hrun
  generalize s.distributor.sampleLevelInternal draws = level at *
  have hmembers : ∀ layer, layerMembers (vs ++ [(g, level)]) layer =
      layerMembers vs layer ++ if layer < level + 1 then [g] else [] := by
    intro layer
    simp only [layerMembers_snoc, Nat.lt_succ_iff]
  have hfresh : ∀ layer, g ∉ layerMembers vs layer := by
    intro layer hmem
    obtain ⟨level', hv, -⟩ := mem_layerMembers.mp hmem
    exact hg (List.mem_map_of_mem hv)
  constructor
  case capacity => exact h.capacity
  case numbered =>
    have hfun : layerMembers (vs ++ [(g, level)]) =
        fun layer => layerMembers vs layer ++ if layer < level + 1 then [g] else [] :=
      funext hmembers
    rw [hfun]
    exact hnum
  case toLocal =>
    intro g' layer l
    rw [hmembers, MultiLayerNodeManager.getLocalId, hlocal]
    by_cases hlayer : layer < level + 1
    · rcases Nat.lt_trichotomy l (layerMembers vs layer).length with hl | hl | hl
      · rw [if_pos hlayer, List.getElem?_append_left hl, ← h.toLocal]
        by_cases he : g' = g
        · subst g'
          have hne : ¬ s.getLocalId g layer = some l := by
            rw [h.toLocal]
            exact fun hget => hfresh layer (List.mem_of_getElem? hget)
          simp [hlayer, hne]
          omega
        · simp [he, MultiLayerNodeManager.getLocalId]
      · subst l
        by_cases he : g' = g
        · simp [he, hlayer]
        · have hne : ¬ s.getLocalId g' layer = some (layerMembers vs layer).length := by
            rw [h.toLocal]
            simp
          simp [he, hlayer, Ne.symm he]
          exact hne
      · rw [if_pos hlayer, List.getElem?_eq_none (by simp; omega)]
        by_cases he : g' = g
        · simp [he, hlayer]
          omega
        · have hne : ¬ s.getLocalId g' layer = some l := by
            rw [h.toLocal, List.getElem?_eq_none (by omega)]
            simp
          simp [he]
          exact hne
    · simp only [List.append_nil, ← h.toLocal, hlayer, and_false, if_false]
      rfl
  case absent =>
    intro g' hg'
    rw [List.map_append, List.mem_append, not_or] at hg'
    have hne : g' ≠ g := by simpa using hg'.2
    exact (hother g' hne).trans (h.absent g' hg'.1)
  case level =>
    intro g' level'
    by_cases he : g' = g
    · subst g'
      have hv : (g, level') ∉ vs := fun hv => hg (List.mem_map_of_mem hv)
      simp [getVectorLevel, AList.lookup_insert, hv, eq_comm]
    · have hlook := h.level g' level'
      simpa [getVectorLevel, AList.lookup_insert_ne he, he] using hlook
  case below =>
    intro v hv
    rcases List.mem_append.mp hv with hv | hv
    · exact h.below v hv
    · cases List.mem_singleton.mp hv
      exact hlt
  case nodup =>
    rw [List.map_append, List.map_singleton, ← List.concat_eq_append]
    exact h.nodup.concat hg

/-- A vector that is not there is not removed from anywhere. -/
theorem removeVector_absent (h : s.Tracks n vs) (hg : g ∉ vs.map (·.1)) :
    (MultiLayerNodeManager.removeVector g s).2.Tracks n vs := by
  have hrun : (MultiLayerNodeManager.removeVector g s).2 =
      { s with vectorLevels := s.vectorLevels.erase g } := by
    rw [MultiLayerNodeManager.removeVector, StoreM.bind_to () s _ (by
      simp [onMappings, LayerMappings.removeGlobalId, h.absent g hg])]
    rfl
  rw [hrun]
  refine ⟨h.capacity, h.numbered, h.toLocal, h.absent, fun g' level => ?_, h.below, h.nodup⟩
  rw [← h.level]
  by_cases he : g' = g
  · subst g'
    have hnone : s.getVectorLevel g ≠ some level := by
      rw [Ne, h.level]
      exact fun hv => hg (List.mem_map_of_mem hv)
    simp [getVectorLevel, AList.lookup_erase]
    exact hnone
  · simp [getVectorLevel, AList.lookup_erase_ne he]

/-- Inserting a vector again gives it a second local id in the base layer. -/
theorem insertVector_again (h : s.Tracks n vs) (hn : 0 < n) (hg : g ∈ vs.map (·.1))
    (draws : List Bool) : ¬ (MultiLayerNodeManager.insertVector draws g s).2.Consistent := by
  intro hcons
  have hcap : 0 < s.distributor.maxLayers := by
    rw [h.capacity]
    exact hn
  have hlt := LevelDistributor.sampleLevelInternal_lt hcap draws
  rw [h.capacity] at hlt
  obtain ⟨m', hrun, hnum, -, -⟩ := insertVector_run h.numbered g draws hlt
  rw [hrun] at hcons
  obtain ⟨l, hl⟩ := List.mem_iff_getElem?.mp (mem_layerMembers_zero hg)
  have hlen : l < (layerMembers vs 0).length := (List.getElem?_eq_some_iff.mp hl).1
  have hold := (hcons.inverse 0 _ l).mpr (by
    rw [MultiLayerNodeManager.getGlobalId, hnum.getGlobalId hn, if_pos (Nat.zero_lt_succ _),
      List.getElem?_append_left hlen, hl])
  have hnew := (hcons.inverse 0 _ (layerMembers vs 0).length).mpr (by
    rw [MultiLayerNodeManager.getGlobalId, hnum.getGlobalId hn, if_pos (Nat.zero_lt_succ _),
      List.getElem?_concat_length])
  have := Option.some.inj (hold.symm.trans hnew)
  omega

/-- Removing a vector leaves the base layer's counter ahead for good. -/
theorem removeVector_present (h : s.Tracks n vs) (hg : g ∈ vs.map (·.1)) :
    ¬ (MultiLayerNodeManager.removeVector g s).2.Consistent := by
  intro hcons
  obtain ⟨v, hv, -⟩ := List.mem_map.mp hg
  have hn : 0 < n := Nat.zero_lt_of_lt (h.below v hv)
  obtain ⟨l, hl⟩ := List.mem_iff_getElem?.mp (mem_layerMembers_zero hg)
  have hshort := LayerMappings.removeGlobalId_short h.numbered hn ((h.toLocal g 0 l).mpr hl)
    (by rw [h.numbered.getGlobalId hn, hl])
  refine hshort.not_countsMatch ?_
  have hvalid := ((LayerMappings.validateConsistency_ok _ _).mp (hcons.valid id)).2.2
  rw [MultiLayerNodeManager.removeVector] at hvalid
  cases hrun : onMappings (LayerMappings.removeGlobalId g) s with
  | mk r t =>
    have ht : t.mappings = (LayerMappings.removeGlobalId g s.mappings).2 :=
      (congrArg (·.2.mappings) hrun).symm
    rw [← ht]
    cases r with
    | ok a =>
      rw [StoreM.bind_ok _ hrun] at hvalid
      exact hvalid
    | error e =>
      rw [StoreM.bind_error _ hrun] at hvalid
      exact hvalid

/-- Without a layer there is no insertion. -/
theorem insertVector_none (h : s.Tracks 0 vs) (draws : List Bool) :
    (MultiLayerNodeManager.insertVector draws g s).1 = .error (.panic "index out of bounds") := by
  have hlen : s.mappings.nextLocalId = [] := List.eq_nil_of_length_eq_zero h.numbered.counters
  simp only [MultiLayerNodeManager.insertVector, StoreM.get_bind_run, insertLevels]
  rw [StoreM.bind_fails (.panic "index out of bounds") s _ (by
    simp [onMappings, index, hlen])]

end Tracks

inductive Call
  | insertVector (draws : List Bool) (vectorId : Nat)
  | removeVector (vectorId : Nat)

/-- The state after the call, whether it fails or not. -/
def Call.apply (s : MultiLayerNodeManager) : Call → MultiLayerNodeManager
  | .insertVector draws g => (MultiLayerNodeManager.insertVector draws g s).2
  | .removeVector g => (MultiLayerNodeManager.removeVector g s).2

/-- The insertion succeeds and registers the vector in all layers from its level down. -/
def Registers (s : MultiLayerNodeManager) (draws : List Bool) (g : Nat) : Prop :=
  ∃ assignments s', MultiLayerNodeManager.insertVector draws g s =
      (.ok (s.distributor.sampleLevelInternal draws, assignments), s') ∧
    (∀ layer l, (layer, l) ∈ assignments ↔ s'.getLocalId g layer = some l) ∧
    ∀ layer, (∃ l, s'.getLocalId g layer = some l) ↔
      layer ≤ s.distributor.sampleLevelInternal draws

def Call.Served (s : MultiLayerNodeManager) : Call → Prop
  | .insertVector draws g => (s.getVectorLevel g = none → s.Registers draws g) ∧
      ((Call.insertVector draws g).apply s).Consistent
  | .removeVector g => ((Call.removeVector g).apply s).Consistent

/-- Every call of the run is served. -/
def AllServed : MultiLayerNodeManager → List Call → Prop
  | _, [] => True
  | s, call :: calls => call.Served s ∧ AllServed (call.apply s) calls

/-- No vector of `ids`, or inserted by an earlier call, is inserted again or removed. -/
def Orderly (maxLayers : Nat) : List Nat → List Call → Prop
  | _, [] => True
  | ids, .insertVector _ g :: calls =>
    0 < maxLayers ∧ g ∉ ids ∧ Orderly maxLayers (ids ++ [g]) calls
  | ids, .removeVector g :: calls => g ∉ ids ∧ Orderly maxLayers ids calls

namespace Tracks

theorem registers (h : s.Tracks n vs) (hn : 0 < n) (hg : g ∉ vs.map (·.1)) (draws : List Bool) :
    s.Registers draws g := by
  obtain ⟨s', hrun, htracks⟩ := h.insertVector hn hg draws
  have hlocal : ∀ layer l, s'.getLocalId g layer = some l ↔
      layer ≤ s.distributor.sampleLevelInternal draws ∧ l = (layerMembers vs layer).length := by
    intro layer l
    rw [htracks.toLocal, layerMembers_snoc_fresh hg]
  refine ⟨_, s', hrun, fun layer l => ?_, fun layer => ?_⟩
  · rw [hlocal, List.mem_map]
    constructor
    · rintro ⟨layer', hmem, he⟩
      cases he
      have hlt : layer < s.distributor.sampleLevelInternal draws + 1 := by simpa using hmem
      exact ⟨Nat.le_of_lt_succ hlt, rfl⟩
    · rintro ⟨hle, rfl⟩
      exact ⟨layer, by simpa using Nat.lt_succ_of_le hle, rfl⟩
  · simp only [hlocal, exists_and_left, exists_eq, and_true]

theorem insertVector_served_iff (h : s.Tracks n vs) (draws : List Bool) :
    (Call.insertVector draws g).Served s ↔ 0 < n ∧ g ∉ vs.map (·.1) := by
  constructor
  · rintro ⟨hnew, hcons⟩
    have hn : 0 < n := by
      by_contra hzero
      obtain rfl : n = 0 := by omega
      have hlevel : s.getVectorLevel g = none := by
        rw [Option.eq_none_iff_forall_ne_some]
        intro level hget
        exact Nat.not_lt_zero _ (h.below _ ((h.level g level).mp hget))
      obtain ⟨_, _, hrun, -⟩ := hnew hlevel
      have hpanic := h.insertVector_none (g := g) draws
      rw [hrun] at hpanic
      cases hpanic
    exact ⟨hn, fun hg => h.insertVector_again hn hg draws hcons⟩
  · rintro ⟨hn, hg⟩
    obtain ⟨s', hrun, htracks⟩ := h.insertVector hn hg draws
    refine ⟨fun _ => h.registers hn hg draws, ?_⟩
    rw [Call.apply, hrun]
    exact htracks.consistent

theorem removeVector_served_iff (h : s.Tracks n vs) :
    (Call.removeVector g).Served s ↔ g ∉ vs.map (·.1) := by
  constructor
  · intro hserved hg
    exact h.removeVector_present hg hserved
  · exact fun hg => (h.removeVector_absent hg).consistent

end Tracks

/-- From a state that holds some vectors, a run is served as long as it touches none of them again. -/
theorem allServed_iff {calls : List Call} (h : s.Tracks n vs) :
    s.AllServed calls ↔ Orderly n (vs.map (·.1)) calls := by
  induction calls generalizing s vs with
  | nil => exact Iff.rfl
  | cons call calls ih =>
    cases call with
    | insertVector draws g =>
      rw [AllServed, h.insertVector_served_iff, Orderly, and_assoc]
      refine and_congr_right fun hn => and_congr_right fun hg => ?_
      obtain ⟨s', hrun, htracks⟩ := h.insertVector hn hg draws
      rw [Call.apply, hrun, ih htracks, List.map_append, List.map_singleton]
    | removeVector g =>
      rw [AllServed, h.removeVector_served_iff, Orderly]
      exact and_congr_right fun hg => ih (h.removeVector_absent hg)

theorem mappings_bijective (maxLayers : Nat) (calls : List Call) :
    (new maxLayers).AllServed calls ↔ Orderly maxLayers [] calls :=
  allServed_iff (tracks_new maxLayers)

/-- One vector comes and goes; from then on the check fails, and so does every insertion. -/
theorem not_mappings_bijective :
    ¬ (new 16).AllServed [.insertVector [] 1, .removeVector 1, .insertVector [] 2] ∧
    let s := (Call.removeVector 1).apply ((Call.insertVector [] 1).apply (new 16))
    s.validateConsistency id = .error (.multiLayer (.inconsistentLayerState 0 0 0)) ∧
      (insertVector [] 2 s).1 = .error (.multiLayer (.layerMappingConflict 2 0 1 0)) := by
  refine ⟨?_, by decide +kernel, by decide +kernel⟩
  rw [allServed_iff (tracks_new 16)]
  simp [Orderly]

end MultiLayerNodeManager
end SqliteGraph.Hnsw
