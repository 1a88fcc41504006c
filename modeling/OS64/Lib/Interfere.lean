import OS64.Lib.Prog

/-!
# Runs that are interfered with

Between two operations of a program the state may change by itself, as `env` allows. `Runs` are
the outcomes of a program then. Without interference they are the one of `run`.
-/

namespace OS64.Lib.Prog

variable {Op : Type} {Res : Op → Type} {α β σ : Type}

/-- From `s` the program may return the result and end in the state given, where `env` may take
place before each operation. -/
def Runs (env : σ → σ → Prop) (h : (o : Op) → σ → Res o × σ) : Prog Op Res α → σ → α → σ → Prop
  | ret a, s, b, s' => b = a ∧ s' = s
  | op o next, s, b, s' => ∃ s₁, env s s₁ ∧ Runs env h (next (h o s₁).1) (h o s₁).2 b s'

variable {env : σ → σ → Prop} {h : (o : Op) → σ → Res o × σ}

theorem runs_bind {p : Prog Op Res α} {f : α → Prog Op Res β} {s s' : σ} {b : β} :
    Runs env h (p >>= f) s b s' ↔ ∃ a s₁, Runs env h p s a s₁ ∧ Runs env h (f a) s₁ b s' := by
  induction p generalizing s with
  | ret a =>
    constructor
    · intro hf
      exact ⟨a, s, ⟨rfl, rfl⟩, hf⟩
    · intro hruns
      obtain ⟨a', s₁, ⟨rfl, rfl⟩, hf⟩ := hruns
      exact hf
  | op o next ih =>
    constructor
    · intro hruns
      obtain ⟨s₁, henv, hrest⟩ := hruns
      obtain ⟨a, s₂, hp, hf⟩ := ih _ |>.mp hrest
      exact ⟨a, s₂, ⟨s₁, henv, hp⟩, hf⟩
    · intro hruns
      obtain ⟨a, s₂, ⟨s₁, henv, hp⟩, hf⟩ := hruns
      exact ⟨s₁, henv, ih _ |>.mpr ⟨a, s₂, hp, hf⟩⟩

/-- What happens where nothing interferes. -/
theorem runs_run (hrefl : ∀ s, env s s) (p : Prog Op Res α) (s : σ) :
    Runs env h p s (run h p s).1 (run h p s).2 := by
  induction p generalizing s with
  | ret a => exact ⟨rfl, rfl⟩
  | op o next ih => exact ⟨s, hrefl s, ih _ _⟩

end OS64.Lib.Prog
