import Mathlib.Logic.Relation
import Mathlib.Data.List.Nodup

/-! Strongly connected components, listed so that no edge leads to a later one. -/
namespace SqliteGraph.Lib
variable {V : Type} {E : V → V → Prop} {components pre post : List (List V)} {c : List V} {u v w : V}

/-- The nodes of a component reach each other; what one of them leads to is in it or in an earlier one. -/
structure Condensed (E : V → V → Prop) (components : List (List V)) : Prop where
  nonempty : ∀ c ∈ components, c ≠ []
  connected : ∀ c ∈ components, ∀ u ∈ c, ∀ v ∈ c, Relation.ReflTransGen E u v
  earlier : ∀ pre c post, components = pre ++ c :: post → ∀ v ∈ c, ∀ w, E v w → w ∈ c ∨ w ∈ pre.flatten
  nodup : components.flatten.Nodup

namespace Condensed

theorem nil : Condensed E [] := ⟨by simp, by simp, by simp, by simp⟩

theorem snoc (h : Condensed E components) (hne : c ≠ [])
    (hc : ∀ u ∈ c, ∀ v ∈ c, Relation.ReflTransGen E u v)
    (he : ∀ v ∈ c, ∀ w, E v w → w ∈ c ∨ w ∈ components.flatten)
    (hnodup : (c ++ components.flatten).Nodup) : Condensed E (components ++ [c]) := by
  refine ⟨?_, ?_, ?_, ?_⟩
  · intro c' hc'
    rcases List.mem_append.mp hc' with hc' | hc'
    · exact h.nonempty c' hc'
    · rwa [List.mem_singleton.mp hc']
  · intro c' hc'
    rcases List.mem_append.mp hc' with hc' | hc'
    · exact h.connected c' hc'
    · rwa [List.mem_singleton.mp hc']
  · intro pre c' post heq
    rcases List.eq_nil_or_concat post with rfl | ⟨post, last, rfl⟩
    · obtain ⟨rfl, hlast⟩ := List.append_inj' heq rfl
      rw [← (List.cons.inj hlast).1]
      exact he
    · have hsplit : components ++ [c] = (pre ++ c' :: post) ++ [last] := by simpa using heq
      exact h.earlier pre c' post (List.append_inj' hsplit rfl).1
  · rw [List.flatten_append]
    simpa using List.nodup_append_comm.mp hnodup

/-- What is reached from a component is in it or in an earlier one. -/
theorem reaches_earlier (h : Condensed E components) (heq : components = pre ++ c :: post)
    (hv : v ∈ c) (hreach : Relation.ReflTransGen E v w) : w ∈ c ∨ w ∈ pre.flatten := by
  induction hreach with
  | refl => exact .inl hv
  | tail _ he ih =>
    rcases ih with hin | hin
    · exact h.earlier pre c post heq _ hin _ he
    · obtain ⟨c', hc', hmem⟩ := List.mem_flatten.mp hin
      obtain ⟨pre', post', rfl⟩ := List.append_of_mem hc'
      have hcut := h.earlier pre' c' (post' ++ c :: post) (by simp [heq]) _ hmem _ he
      simp only [List.flatten_append, List.flatten_cons, List.mem_append]
      tauto

/-- A component that is reached and reaches back is the same. -/
theorem same_iff (h : Condensed E components) (hc : c ∈ components) (hu : u ∈ c) :
    v ∈ c ↔ Relation.ReflTransGen E u v ∧ Relation.ReflTransGen E v u := by
  constructor
  · exact fun hin => ⟨h.connected c hc u hu v hin, h.connected c hc v hin u hu⟩
  · rintro ⟨hto, hback⟩
    obtain ⟨pre, post, heq⟩ := List.append_of_mem hc
    refine (h.reaches_earlier heq hu hto).resolve_right fun hpre => ?_
    obtain ⟨c', hc', hin⟩ := List.mem_flatten.mp hpre
    obtain ⟨pre', post', rfl⟩ := List.append_of_mem hc'
    have hsplit : components = pre' ++ c' :: (post' ++ c :: post) := by simp [heq]
    have hcut := h.reaches_earlier hsplit hin hback
    have hdisjoint := h.nodup
    rw [heq, List.flatten_append, List.nodup_append] at hdisjoint
    refine hdisjoint.2.2 u ?_ u ?_ rfl
    · simp only [List.flatten_append, List.flatten_cons, List.mem_append]
      tauto
    · simp [hu]

/-- An edge leads to a component that is listed no later. -/
theorem edge_earlier {i : Nat} (h : Condensed E components) (hc : components[i]? = some c) (hv : v ∈ c)
    (he : E v w) : ∃ j ≤ i, ∃ c', components[j]? = some c' ∧ w ∈ c' := by
  obtain ⟨hi, hget⟩ := List.getElem?_eq_some_iff.mp hc
  have hsplit : components = components.take i ++ c :: components.drop (i + 1) := by
    rw [← hget, List.getElem_cons_drop, List.take_append_drop]
  rcases h.earlier _ _ _ hsplit v hv w he with hw | hw
  · exact ⟨i, Nat.le_refl i, c, hc, hw⟩
  · obtain ⟨c', hc', hw⟩ := List.mem_flatten.mp hw
    obtain ⟨j, hj⟩ := List.mem_iff_getElem?.mp hc'
    rw [List.getElem?_take] at hj
    split at hj
    · rename_i hji
      exact ⟨j, Nat.le_of_lt hji, c', hj, hw⟩
    · cases hj

end Condensed

end SqliteGraph.Lib
