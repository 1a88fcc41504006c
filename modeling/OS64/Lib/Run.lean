import Mathlib.Algebra.Group.Nat.Defs
import Mathlib.Logic.Relation

/-!
# Runs, invariants and simulations

A system is a step relation on its states, and a run is the reflexive transitive
closure of it. What holds at the start and is kept by every step holds at the
end of every run: `run_invariant`. Where every step of one system is answered
by steps of another that restore a relation between their states, every run of
the first is answered by a run of the second: `run_simulation`.
-/

namespace OS64.Lib

/-- What every step keeps, every run keeps. -/
theorem run_invariant {σ : Type} {step : σ → σ → Prop} (Inv : σ → Prop)
    (hstep : ∀ s s', Inv s → step s s' → Inv s') {s s' : σ}
    (hrun : Relation.ReflTransGen step s s') (h : Inv s) : Inv s' := by
  induction hrun with
  | refl => exact h
  | tail _ hlast ih => exact hstep _ _ ih hlast

/-- A step-by-step simulation is a simulation of runs. -/
theorem run_simulation {σ τ : Type} {step : σ → σ → Prop} {astep : τ → τ → Prop}
    (R : σ → τ → Prop)
    (hsim : ∀ s s' a, R s a → step s s' → ∃ a', R s' a' ∧ Relation.ReflTransGen astep a a')
    {s s' : σ} {a : τ} (hrun : Relation.ReflTransGen step s s') (h : R s a) :
    ∃ a', R s' a' ∧ Relation.ReflTransGen astep a a' := by
  induction hrun with
  | refl => exact ⟨a, h, .refl⟩
  | tail _ hlast ih =>
    obtain ⟨a₁, h₁, hrun₁⟩ := ih
    obtain ⟨a₂, h₂, hrun₂⟩ := hsim _ _ a₁ h₁ hlast
    exact ⟨a₂, h₂, hrun₁.trans hrun₂⟩

end OS64.Lib
