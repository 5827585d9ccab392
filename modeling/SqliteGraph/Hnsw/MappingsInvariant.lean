import SqliteGraph.Hnsw.LayerMappings

/-! What the local ids of a layer number, and when the mappings pass their own check. -/
namespace SqliteGraph.Hnsw
open Lib

theorem padTo_getElem? {n i : Nat} {xs : List (Option Nat)} : (padTo n xs)[i]?.join = xs[i]?.join := by
  rcases Nat.lt_or_ge i xs.length with hi | hi
  · rw [padTo, List.getElem?_append_left hi]
  · rw [padTo, List.getElem?_append_right hi, List.getElem?_eq_none hi]
    rcases h : (List.replicate (n - xs.length) none)[i - xs.length]? with _ | a
    · rfl
    · rw [List.getElem?_replicate] at h
      split at h
      · cases h
        rfl
      · cases h

theorem lt_length_padTo {n i : Nat} {xs : List (Option Nat)} (h : i < n) :
    i < (padTo n xs).length := by
  rw [padTo, List.length_append, List.length_replicate]
  omega

namespace LayerMappings
variable {m m' : LayerMappings} {n layer l g : Nat} {members : Nat → List Nat}

/-- There are `n` layers, and the local ids of each number its members in the order of arrival. -/
structure Numbered (m : LayerMappings) (n : Nat) (members : Nat → List Nat) : Prop where
  layers : m.localToGlobal.length = n
  counters : m.nextLocalId.length = n
  counter : ∀ layer < n, m.nextLocalId[layer]? = some (members layer).length
  toGlobal : ∀ layer mapping, m.localToGlobal[layer]? = some mapping →
    Enumerates mapping (members layer)

theorem numbered_new (n : Nat) : (new n).Numbered n fun _ => [] := by
  refine ⟨by simp [new], by simp [new], fun layer hl => by simp [new, hl], ?_⟩
  intro layer mapping h
  rw [new, List.getElem?_replicate] at h
  split at h
  · cases h
    exact Enumerates.empty
  · cases h

theorem Numbered.getGlobalId (h : m.Numbered n members) (hl : layer < n) :
    m.getGlobalId layer l = (members layer)[l]? := by
  have hlt : layer < m.localToGlobal.length := by
    rw [h.layers]
    exact hl
  have hget := List.getElem?_eq_getElem hlt
  rw [LayerMappings.getGlobalId, hget]
  exact (h.toGlobal _ _ hget).lookup l

theorem Numbered.getGlobalId_ge (h : m.Numbered n members) (hl : n ≤ layer) :
    m.getGlobalId layer l = none := by
  rw [LayerMappings.getGlobalId, List.getElem?_eq_none (by rw [h.layers]; exact hl)]
  rfl

theorem getLocalId_link (m : LayerMappings) (g layer l g' layer' : Nat) :
    (m.link g layer l).getLocalId g' layer' =
      if g' = g ∧ layer' = layer then some l else m.getLocalId g' layer' := by
  by_cases hg : g' = g
  · subst g'
    rw [getLocalId, link, AList.lookup_insert, Option.bind_some]
    by_cases hl : layer' = layer
    · subst layer'
      rw [List.getElem?_set_self (lt_length_padTo (Nat.lt_succ_self layer))]
      simp
    · rw [List.getElem?_set_ne (Ne.symm hl), padTo_getElem?]
      cases hg : m.globalToLocal.lookup g <;> simp [getLocalId, hg, hl]
  · simp [getLocalId, link, AList.lookup_insert_ne hg, hg]

/-- What an automatic assignment does in a layer that exists. -/
theorem addMapping_run (h : m.Numbered n members) (hl : layer < n) (g : Nat) :
    ∃ m', addMapping g layer none m = (.ok (), m') ∧
      m'.Numbered n (Function.update members layer (members layer ++ [g])) ∧
      (∀ g' layer', m'.getLocalId g' layer' =
        if g' = g ∧ layer' = layer then some (members layer).length
        else m.getLocalId g' layer') ∧
      ∀ g', g' ≠ g → m'.globalToLocal.lookup g' = m.globalToLocal.lookup g' := by
  have hlt : layer < m.localToGlobal.length := by
    rw [h.layers]
    exact hl
  have hget := List.getElem?_eq_getElem hlt
  have henum := h.toGlobal _ _ hget
  have hcount := h.counter layer hl
  let m₁ : LayerMappings :=
    { m with nextLocalId := m.nextLocalId.set layer ((members layer).length + 1) }
  have hrun : addMapping g layer none m = (.ok (), m₁.link g layer (members layer).length) := by
    simp only [addMapping, takeLocalId, StoreM.modify_bind_run, if_neg (Nat.not_le.mpr hlt)]
    rw [StoreM.bind_to (members layer).length m₁ _ (by
      simp [index_of_getElem? hcount, m₁])]
    rw [StoreM.get_bind_run, index_of_getElem? (show m₁.localToGlobal[layer]? = _ from hget)]
    simp [henum.length]
  refine ⟨_, hrun, ⟨by simp [link, m₁, h.layers], by simp [link, m₁, h.counters], ?_, ?_⟩,
    fun g' layer' => ?_, fun g' hg => AList.lookup_insert_ne hg⟩
  · intro layer' hl'
    by_cases he : layer' = layer
    · subst layer'
      have hlen : layer < m.nextLocalId.length := (List.getElem?_eq_some_iff.mp hcount).1
      simp [link, m₁, List.getElem?_set_self hlen]
    · rw [Function.update_of_ne he, ← h.counter layer' hl']
      exact List.getElem?_set_ne (Ne.symm he)
  · intro layer' mapping hm
    by_cases he : layer' = layer
    · subst layer'
      rw [link, List.getElem?_modify_eq, show m₁.localToGlobal[layer]? = _ from hget] at hm
      cases hm
      rw [Function.update_self]
      exact henum.snoc g
    · rw [link, List.getElem?_modify_ne _ _ (Ne.symm he)] at hm
      rw [Function.update_of_ne he]
      exact h.toGlobal _ _ hm
  · exact getLocalId_link m₁ g layer _ g' layer'

theorem getLocalId_of_mem {p : Sigma fun _ : Nat => List (Option Nat)}
    (hp : p ∈ m.globalToLocal.entries) (hl : p.2[layer]? = some (some l)) :
    m.getLocalId p.1 layer = some l := by
  have hlook : m.globalToLocal.lookup p.1 = some p.2 := AList.mem_lookup_iff.mpr hp
  rw [getLocalId, hlook, Option.bind_some, hl]
  rfl

theorem mem_of_getLocalId (h : m.getLocalId g layer = some l) :
    ∃ mappings, ⟨g, mappings⟩ ∈ m.globalToLocal.entries ∧ mappings[layer]? = some (some l) := by
  obtain ⟨mappings, hlook, hget⟩ := Option.bind_eq_some_iff.mp h
  exact ⟨mappings, AList.mem_lookup_iff.mp hlook, Option.join_eq_some_iff.mp hget⟩

theorem mem_drain {α : Type} {choices : Nat → Nat} {xs : List α} {a : α} :
    a ∈ drain choices xs ↔ a ∈ xs := (drain_perm choices xs).mem_iff

/-- No local id leads back to another vector than the one that has it. -/
theorem checkForward_ok (m : LayerMappings) (choices : Nat → Nat) :
    ((drain choices m.globalToLocal.entries).forM fun ⟨globalId, mappings⟩ =>
        mappings.zipIdx.forM fun (localId, layerId) =>
          m.checkForward globalId layerId localId) = .ok ⟨⟩ ↔
      ∀ g layer l g', m.getLocalId g layer = some l → m.getGlobalId layer l = some g' → g' = g := by
  rw [forM_ok_iff]
  constructor
  · intro h g layer l g' hl hg
    obtain ⟨mappings, hmem, hget⟩ := mem_of_getLocalId hl
    have hrow := (forM_ok_iff _ _).mp (h _ (mem_drain.mpr hmem)) (some l, layer)
      (List.mem_zipIdx_iff_getElem?.mpr hget)
    by_contra hne
    simp [checkForward, hg, hne, throw, throwThe, MonadExceptOf.throw] at hrow
  · rintro h ⟨g, mappings⟩ hp
    refine (forM_ok_iff _ _).mpr ?_
    rintro ⟨_ | l, layer⟩ hmem
    · rfl
    · have hl := getLocalId_of_mem (mem_drain.mp hp) (List.mem_zipIdx_iff_getElem?.mp hmem)
      simp only [checkForward]
      cases hg : m.getGlobalId layer l with
      | none => rfl
      | some g' =>
        cases h g layer l g' hl hg
        simp [pure, Except.pure]

/-- Every vector of a layer has its local id there. -/
theorem checkReverse_ok (m : LayerMappings) (choices : Nat → Nat) :
    (m.localToGlobal.zipIdx.forM fun (mapping, layerId) =>
        (drain choices mapping.entries).forM fun ⟨localId, globalId⟩ =>
          m.checkReverse layerId localId globalId) = .ok ⟨⟩ ↔
      ∀ layer l g, m.getGlobalId layer l = some g → m.getLocalId g layer = some l := by
  rw [forM_ok_iff]
  constructor
  · intro h layer l g hg
    obtain ⟨mapping, hm, hlook⟩ := Option.bind_eq_some_iff.mp hg
    have hrow := (forM_ok_iff _ _).mp (h (mapping, layer) (List.mem_zipIdx_iff_getElem?.mpr hm))
      ⟨l, g⟩ (mem_drain.mpr (AList.mem_lookup_iff.mp hlook))
    simp only [checkReverse] at hrow
    cases hl : m.getLocalId g layer with
    | none => simp [hl, throw, throwThe, MonadExceptOf.throw] at hrow
    | some l' =>
      by_contra hne
      have hne' : l' ≠ l := fun he => hne (by rw [he])
      simp [hl, hne', throw, throwThe, MonadExceptOf.throw] at hrow
  · rintro h ⟨mapping, layer⟩ hm
    refine (forM_ok_iff _ _).mpr ?_
    rintro ⟨l, g⟩ hp
    have hg : m.getGlobalId layer l = some g := by
      rw [getGlobalId, List.mem_zipIdx_iff_getElem?.mp hm]
      exact AList.mem_lookup_iff.mpr (mem_drain.mp hp)
    simp [checkReverse, h layer l g hg, pure, Except.pure]

/-- Each counter is the number of entries of its layer. -/
def CountsMatch (m : LayerMappings) : Prop :=
  ∀ (layer : Nat) (mapping : AList fun _ : Nat => Nat), m.localToGlobal[layer]? = some mapping →
    m.nextLocalId[layer]? = some mapping.entries.length

theorem checkCount_ok (m : LayerMappings) :
    (m.localToGlobal.zipIdx.forM fun (mapping, layerId) => m.checkCount layerId mapping) = .ok ⟨⟩ ↔
      m.CountsMatch := by
  rw [forM_ok_iff]
  constructor
  · intro h layer mapping hm
    have hrow := h (mapping, layer) (List.mem_zipIdx_iff_getElem?.mpr hm)
    simp only [checkCount, index] at hrow
    cases hc : m.nextLocalId[layer]? with
    | none => simp [hc, bind, Except.bind] at hrow
    | some c =>
      by_contra hne
      have hne' : mapping.entries.length ≠ c := fun he => hne (by rw [he])
      simp [hc, hne', bind, Except.bind, throw, throwThe, MonadExceptOf.throw] at hrow
  · rintro h ⟨mapping, layer⟩ hm
    simp [checkCount, index_of_getElem? (h _ _ (List.mem_zipIdx_iff_getElem?.mp hm)), bind,
      Except.bind, pure, Except.pure]

theorem except_bind_ok {ε α : Type} {x : Except ε PUnit} {f : PUnit → Except ε α} {a : α} :
    x >>= f = .ok a ↔ x = .ok ⟨⟩ ∧ f ⟨⟩ = .ok a := by
  cases x <;> simp [bind, Except.bind]

/-- The check passes exactly when both directions agree and each counter matches its layer. -/
theorem validateConsistency_ok (m : LayerMappings) (choices : Nat → Nat) :
    m.validateConsistency choices = .ok ⟨⟩ ↔
      (∀ g layer l g', m.getLocalId g layer = some l → m.getGlobalId layer l = some g' → g' = g) ∧
      (∀ layer l g, m.getGlobalId layer l = some g → m.getLocalId g layer = some l) ∧
      m.CountsMatch := by
  rw [validateConsistency, except_bind_ok, except_bind_ok, checkForward_ok, checkReverse_ok,
    checkCount_ok]

end LayerMappings
end SqliteGraph.Hnsw
