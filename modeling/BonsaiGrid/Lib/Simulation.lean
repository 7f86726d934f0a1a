import Mathlib.Logic.Relation

/-!
# Forward simulation

A relation between the states of two machines such that every step of the first is matched by
steps of the second.
-/

namespace Simulation

open Relation

variable {σ τ : Type*} {step : σ → σ → Prop} {astep : τ → τ → Prop} {R : σ → τ → Prop}

/-- Every step from a related state is matched by steps of the other machine. -/
def Forward (step : σ → σ → Prop) (astep : τ → τ → Prop) (R : σ → τ → Prop) : Prop :=
  ∀ s s' t, R s t → step s s' → ∃ t', ReflTransGen astep t t' ∧ R s' t'

theorem Forward.run (h : Forward step astep R) {s s' : σ} {t : τ} (hrun : ReflTransGen step s s')
    (hR : R s t) : ∃ t', ReflTransGen astep t t' ∧ R s' t' := by
  induction hrun with
  | refl => exact ⟨t, .refl, hR⟩
  | tail _ hlast ih =>
    obtain ⟨u, htu, hu⟩ := ih
    obtain ⟨t', hut, ht'⟩ := h _ _ u hu hlast
    exact ⟨t', htu.trans hut, ht'⟩

theorem run_invariant {I : τ → Prop} {E : τ → τ → Prop} (hrefl : ∀ t, E t t)
    (htrans : ∀ t u v, E t u → E u v → E t v)
    (hstep : ∀ t t', I t → astep t t' → I t' ∧ E t t') {t t' : τ}
    (hrun : ReflTransGen astep t t') (hI : I t) : I t' ∧ E t t' := by
  induction hrun with
  | refl => exact ⟨hI, hrefl t⟩
  | tail _ hlast ih =>
    obtain ⟨hIu, hE⟩ := ih
    obtain ⟨hI', hE'⟩ := hstep _ _ hIu hlast
    exact ⟨hI', htrans _ _ _ hE hE'⟩

end Simulation
