import SqliteGraph.Lib.StoreM

/-! Runs with fuel that, from some amount on, no longer depend on it. -/
namespace SqliteGraph.Lib.StoreM
variable {σ ε α β : Type} {Stop : ε → Prop} {s s' : σ} {a : α}
  {x : Nat → StoreM σ ε α} {P Q : α → σ → Prop} {R : β → σ → Prop}

/-- With enough fuel the run is always the same: it ends with `P`, or stops with an error that
`Stop` allows. -/
def Settles (Stop : ε → Prop) (x : Nat → StoreM σ ε α) (s : σ) (P : α → σ → Prop) : Prop :=
  ∃ bound r, (∀ fuel, bound ≤ fuel → x fuel s = r) ∧
    ((∃ e, r.1 = .error e ∧ Stop e) ∨ ∃ a, r.1 = .ok a ∧ P a r.2)

namespace Settles

theorem of_run {y : StoreM σ ε α} {t : σ} (h : y s = (.ok a, t)) (hp : P a t) :
    Settles Stop (fun _ => y) s P :=
  ⟨0, _, fun _ _ => h, .inr ⟨a, rfl, hp⟩⟩

theorem of_error {y : StoreM σ ε α} {e : ε} {t : σ} (h : y s = (.error e, t)) (he : Stop e) :
    Settles Stop (fun _ => y) s P :=
  ⟨0, _, fun _ _ => h, .inl ⟨e, rfl, he⟩⟩

theorem of_stable {n : Nat} {t : σ} (h : ∀ fuel, n ≤ fuel → x fuel s = (.ok a, t)) (hp : P a t) :
    Settles Stop x s P :=
  ⟨n, _, h, .inr ⟨a, rfl, hp⟩⟩

theorem mono (h : Settles Stop x s P) (hpq : ∀ a s', P a s' → Q a s') : Settles Stop x s Q := by
  obtain ⟨bound, r, hrun, hr⟩ := h
  refine ⟨bound, r, hrun, ?_⟩
  rcases hr with hstop | ⟨a, ha, hp⟩
  · exact .inl hstop
  · exact .inr ⟨a, ha, hpq a _ hp⟩

theorem keeps {γ : Type} {f : σ → γ} (h : Settles Stop x s P) (hk : ∀ fuel, Keeps f (x fuel)) :
    Settles Stop x s fun a s' => P a s' ∧ f s' = f s := by
  obtain ⟨bound, r, hrun, hr⟩ := h
  refine ⟨bound, r, hrun, ?_⟩
  rcases hr with hstop | ⟨a, ha, hp⟩
  · exact .inl hstop
  · exact .inr ⟨a, ha, hp, hrun bound (le_refl _) ▸ hk bound s⟩

theorem bind {f : α → Nat → StoreM σ ε β} (h : Settles Stop x s P)
    (hf : ∀ a s', P a s' → Settles Stop (f a) s' R) :
    Settles Stop (fun fuel => x fuel >>= fun a => f a fuel) s R := by
  obtain ⟨bound, ⟨res, s'⟩, hrun, hr⟩ := h
  rcases hr with ⟨e, rfl, he⟩ | ⟨a, rfl, hp⟩
  · exact ⟨bound, (.error e, s'), fun fuel hb => bind_error _ (hrun fuel hb), .inl ⟨e, rfl, he⟩⟩
  · obtain ⟨bound', r', hrun', hr'⟩ := hf a s' hp
    refine ⟨max bound bound', r', fun fuel hb => ?_, hr'⟩
    exact (bind_ok _ (hrun fuel (le_trans (le_max_left _ _) hb))).trans
      (hrun' fuel (le_trans (le_max_right _ _) hb))

/-- The state may be read off before the rest runs. -/
theorem get_bind {f : σ → Nat → StoreM σ ε β} (hf : Settles Stop (f s) s R) :
    Settles Stop (fun fuel => StoreM.get >>= fun a => f a fuel) s R := by
  obtain ⟨bound, r, hrun, hr⟩ := hf
  exact ⟨bound, r, hrun, hr⟩

end Settles

/-- As `Settles`, for a run that may also end with an error: `P` speaks of the result as a whole. -/
def Finishes (Stop : ε → Prop) (x : Nat → StoreM σ ε α) (s : σ) (P : Except ε α → σ → Prop) : Prop :=
  ∃ bound r, (∀ fuel, bound ≤ fuel → x fuel s = r) ∧ ((∃ e, r.1 = .error e ∧ Stop e) ∨ P r.1 r.2)

namespace Finishes
variable {P Q : Except ε α → σ → Prop} {R : Except ε β → σ → Prop}

theorem of_settles {P : α → σ → Prop} (h : Settles Stop x s P)
    (hpq : ∀ a s', P a s' → Q (.ok a) s') : Finishes Stop x s Q := by
  obtain ⟨bound, r, hrun, hr⟩ := h
  refine ⟨bound, r, hrun, ?_⟩
  rcases hr with hstop | ⟨a, ha, hp⟩
  · exact .inl hstop
  · exact .inr (ha ▸ hpq a _ hp)

theorem of_run {y : StoreM σ ε α} {r : Except ε α} {t : σ} (h : y s = (r, t)) (hp : P r t) :
    Finishes Stop (fun _ => y) s P :=
  ⟨0, _, fun _ _ => h, .inr hp⟩

theorem mono (h : Finishes Stop x s P) (hpq : ∀ r s', P r s' → Q r s') : Finishes Stop x s Q := by
  obtain ⟨bound, r, hrun, hr⟩ := h
  exact ⟨bound, r, hrun, hr.imp_right (hpq _ _)⟩

theorem bind {P : α → σ → Prop} {f : α → Nat → StoreM σ ε β} (h : Settles Stop x s P)
    (hf : ∀ a s', P a s' → Finishes Stop (f a) s' R) :
    Finishes Stop (fun fuel => x fuel >>= fun a => f a fuel) s R := by
  obtain ⟨bound, ⟨res, s'⟩, hrun, hr⟩ := h
  rcases hr with ⟨e, rfl, he⟩ | ⟨a, rfl, hp⟩
  · exact ⟨bound, (.error e, s'), fun fuel hb => bind_error _ (hrun fuel hb), .inl ⟨e, rfl, he⟩⟩
  · obtain ⟨bound', r', hrun', hr'⟩ := hf a s' hp
    refine ⟨max bound bound', r', fun fuel hb => ?_, hr'⟩
    exact (bind_ok _ (hrun fuel (le_trans (le_max_left _ _) hb))).trans
      (hrun' fuel (le_trans (le_max_right _ _) hb))

theorem keeps {γ : Type} {f : σ → γ} (h : Finishes Stop x s P) (hk : ∀ fuel, Keeps f (x fuel)) :
    Finishes Stop x s fun r s' => P r s' ∧ f s' = f s := by
  obtain ⟨bound, r, hrun, hr⟩ := h
  exact ⟨bound, r, hrun, hr.imp_right fun hp => ⟨hp, hrun bound (le_refl _) ▸ hk bound s⟩⟩

end Finishes

end SqliteGraph.Lib.StoreM
