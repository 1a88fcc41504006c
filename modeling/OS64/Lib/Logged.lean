/-!
# Computations with a log

A computation that fails with an `ε`, or returns and leaves a log of `δ`s. Dropping the log
is a homomorphism into `Except` (`forget_bind`), so an instrumented function returns just
what the function it instruments does; and what a run logs splits where the run does
(`returns_bind`), so a statement about all events is proved call by call (`every_bind`).
-/

namespace OS64.Lib

/-- A computation that may fail and, when it returns, leaves a log. -/
def Logged (ε δ α : Type) : Type := Except ε (α × List δ)

namespace Logged

variable {ε δ α β : Type}

/-- The run returns `a` and leaves `l`. -/
def Returns (x : Logged ε δ α) (a : α) (l : List δ) : Prop := x = Except.ok (a, l)

/-- The computation with `l` before what it logs itself. -/
def after (l : List δ) : Logged ε δ α → Logged ε δ α
  | .error e => .error e
  | .ok (a, l') => .ok (a, l ++ l')

/-- One computation after another. -/
def bind : Logged ε δ α → (α → Logged ε δ β) → Logged ε δ β
  | .error e, _ => .error e
  | .ok (a, l), f => (f a).after l

instance : Monad (Logged ε δ) where
  pure a := .ok (a, [])
  bind := bind

/-- One event. -/
def log (d : δ) : Logged ε δ Unit := Except.ok ((), [d])

/-- A computation without events. -/
def lift : Except ε α → Logged ε δ α
  | .error e => .error e
  | .ok a => .ok (a, [])

/-- The computation without its log. -/
def forget : Logged ε δ α → Except ε α
  | .error e => .error e
  | .ok (a, _) => .ok a

@[simp] theorem forget_pure (a : α) : (pure a : Logged ε δ α).forget = .ok a := rfl

@[simp] theorem forget_log (d : δ) : (log d : Logged ε δ Unit).forget = .ok () := rfl

@[simp] theorem forget_lift (x : Except ε α) : (lift x : Logged ε δ α).forget = x := by
  cases x <;> rfl

@[simp] theorem forget_bind (x : Logged ε δ α) (f : α → Logged ε δ β) :
    (x >>= f).forget = x.forget >>= fun a => (f a).forget := by
  rcases x with e | ⟨a, l⟩
  · rfl
  · show ((f a).after l).forget = (f a).forget
    rcases f a with e | ⟨b, l'⟩ <;> rfl

/-- What returns without the log returns with one. -/
theorem returns_of_forget {x : Logged ε δ α} {a : α} (h : x.forget = .ok a) :
    ∃ l, x.Returns a l := by
  rcases x with e | ⟨a', l⟩
  · cases h
  · cases h
    exact ⟨l, rfl⟩

theorem returns_pure {a b : α} {l : List δ} (h : (pure a : Logged ε δ α).Returns b l) :
    a = b ∧ l = [] := by
  cases h
  exact ⟨rfl, rfl⟩

theorem returns_log {d : δ} {l : List δ} {u : Unit}
    (h : (log d : Logged ε δ Unit).Returns u l) : l = [d] := by
  cases h
  rfl

theorem returns_lift {x : Except ε α} {a : α} {l : List δ}
    (h : (lift x : Logged ε δ α).Returns a l) : x = .ok a ∧ l = [] := by
  cases x with
  | error e => cases h
  | ok a' =>
    cases h
    exact ⟨rfl, rfl⟩

/-- A run that returns is two that do, one log behind the other. -/
theorem returns_bind {x : Logged ε δ α} {f : α → Logged ε δ β} {b : β} {l : List δ}
    (h : (x >>= f).Returns b l) :
    ∃ a l₁ l₂, x.Returns a l₁ ∧ (f a).Returns b l₂ ∧ l = l₁ ++ l₂ := by
  rcases x with e | ⟨a, l₁⟩
  · cases h
  · change (f a).after l₁ = _ at h
    generalize hf : f a = y at h
    rcases y with e | ⟨b', l₂⟩
    · cases h
    · cases h
      exact ⟨a, l₁, l₂, rfl, hf, rfl⟩

/-- Two runs that return, one after the other. -/
theorem bind_returns {x : Logged ε δ α} {f : α → Logged ε δ β} {a : α} {b : β} {l₁ l₂ : List δ}
    (hx : x.Returns a l₁) (hf : (f a).Returns b l₂) : (x >>= f).Returns b (l₁ ++ l₂) := by
  rw [hx]
  show (f a).after l₁ = _
  rw [hf]
  rfl

/-- What comes after a run that returned. -/
theorem bind_of_returns {x : Logged ε δ α} {f : α → Logged ε δ β} {a : α} {l : List δ}
    (hx : x.Returns a l) : (x >>= f) = (f a).after l := by
  rw [hx]
  rfl

theorem after_after (x : Logged ε δ α) (l l' : List δ) : (x.after l').after l = x.after (l ++ l') := by
  rcases x with e | ⟨a, l''⟩
  · rfl
  · show Except.ok (a, l ++ (l' ++ l'')) = Except.ok (a, l ++ l' ++ l'')
    rw [List.append_assoc]

theorem returns_after {x : Logged ε δ α} {a : α} {l l' : List δ} :
    (x.after l).Returns a l' ↔ ∃ l'', x.Returns a l'' ∧ l' = l ++ l'' := by
  rcases x with e | ⟨b, l''⟩
  · constructor
    · intro h
      cases h
    · intro h
      obtain ⟨_, h, _⟩ := h
      cases h
  · constructor
    · intro h
      cases h
      exact ⟨l'', rfl, rfl⟩
    · intro h
      obtain ⟨_, h, rfl⟩ := h
      cases h
      rfl

/-- What comes after a computation without events. -/
theorem lift_bind (a : α) (f : α → Logged ε δ β) : (lift (.ok a) >>= f) = f a := by
  show (f a).after [] = f a
  rcases f a with e | ⟨b, l⟩ <;> rfl

/-! ## Every event -/

/-- Whatever a run logs satisfies `p`. -/
def Every (p : δ → Prop) (x : Logged ε δ α) : Prop := ∀ a l, x.Returns a l → ∀ d ∈ l, p d

variable {p : δ → Prop}

theorem every_pure (a : α) : Every p (pure a : Logged ε δ α) := by
  intro b l h d hd
  rw [(returns_pure h).2] at hd
  cases hd

theorem every_lift (x : Except ε α) : Every p (lift x : Logged ε δ α) := by
  intro b l h d hd
  rw [(returns_lift h).2] at hd
  cases hd

theorem every_log {d : δ} (hd : p d) : Every p (log d : Logged ε δ Unit) := by
  intro u l h d' hd'
  rw [returns_log h, List.mem_singleton] at hd'
  rw [hd']
  exact hd

theorem every_bind {x : Logged ε δ α} {f : α → Logged ε δ β} (hx : Every p x)
    (hf : ∀ a, Every p (f a)) : Every p (x >>= f) := by
  intro b l h d hd
  obtain ⟨a, l₁, l₂, h₁, h₂, rfl⟩ := returns_bind h
  rcases List.mem_append.mp hd with hd | hd
  · exact hx a l₁ h₁ d hd
  · exact hf a b l₂ h₂ d hd

theorem every_ite {c : Prop} [Decidable c] {x y : Logged ε δ α} (hx : Every p x)
    (hy : Every p y) : Every p (if c then x else y) := by
  by_cases hc : c
  · rw [if_pos hc]
    exact hx
  · rw [if_neg hc]
    exact hy

end Logged

end OS64.Lib
