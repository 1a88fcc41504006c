import OS64.Lib.Run

/-!
# Programs over primitive operations

A program is a tree: it returns, or it performs a primitive operation and goes
on with the result. The code is written once and read twice. Alone on its
processor it is `run` by a handler, which says what each operation does to the
state. Several programs on one processor share the state and are consumed
operation by operation, with a switch of the program at hand wherever the state
allows one: `ThreadStep`.

`Always P` says of a run that every operation in it has a result `P` accepts,
for instance that no allocation in it fails. Where an operation may stop the run for
good the program is followed by `exec`, and `Along Q` says that `Q` holds of every
operation the run comes to. `Needs` tells what that takes: a condition on the data that is
enough for it, and what follows from it where the run gets to its end.
-/

namespace OS64.Lib

/-- A program over the operations `Op`, each with its type of results. -/
inductive Prog (Op : Type) (Res : Op → Type) (α : Type) : Type
  | ret (a : α)
  | op (o : Op) (next : Res o → Prog Op Res α)

namespace Prog

variable {Op : Type} {Res : Op → Type} {α β σ : Type}

/-- One program after another. -/
def bind : Prog Op Res α → (α → Prog Op Res β) → Prog Op Res β
  | ret a, f => f a
  | op o next, f => op o fun r => (next r).bind f

instance : Monad (Prog Op Res) where
  pure := ret
  bind := bind

/-- The program of one operation, which returns its result. -/
def perform (o : Op) : Prog Op Res (Res o) := op o ret

@[simp] theorem ret_bind (a : α) (f : α → Prog Op Res β) : (ret a >>= f) = f a := rfl

@[simp] theorem op_bind (o : Op) (next : Res o → Prog Op Res α) (f : α → Prog Op Res β) :
    (op o next >>= f) = op o fun r => next r >>= f := rfl

/-! ## Alone on the processor -/

/-- The result and the final state, under a handler of the operations. -/
def run (h : (o : Op) → σ → Res o × σ) : Prog Op Res α → σ → α × σ
  | ret a, s => (a, s)
  | op o next, s => run h (next (h o s).1) (h o s).2

variable {h : (o : Op) → σ → Res o × σ}

@[simp] theorem run_ret (a : α) (s : σ) : run h (ret a) s = (a, s) := rfl

@[simp] theorem run_op (o : Op) (next : Res o → Prog Op Res α) (s : σ) :
    run h (op o next) s = run h (next (h o s).1) (h o s).2 := rfl

@[simp] theorem run_pure (a : α) (s : σ) : run h (pure a) s = (a, s) := rfl

@[simp] theorem run_perform (o : Op) (s : σ) : run h (perform o) s = h o s := rfl

@[simp] theorem run_bind (p : Prog Op Res α) (f : α → Prog Op Res β) (s : σ) :
    run h (p >>= f) s = run h (f (run h p s).1) (run h p s).2 := by
  induction p generalizing s with
  | ret a => rfl
  | op o next ih => exact ih (h o s).1 (h o s).2

/-- Every operation of the run has a result that `P` accepts. -/
def Always (h : (o : Op) → σ → Res o × σ) (P : (o : Op) → Res o → Prop) : Prog Op Res α → σ → Prop
  | ret _, _ => True
  | op o next, s => P o (h o s).1 ∧ Always h P (next (h o s).1) (h o s).2

variable {P : (o : Op) → Res o → Prop}

@[simp] theorem always_pure (a : α) (s : σ) : Always h P (pure a : Prog Op Res α) s ↔ True := Iff.rfl

@[simp] theorem always_perform (o : Op) (s : σ) :
    Always h P (perform o : Prog Op Res (Res o)) s ↔ P o (h o s).1 := by
  simp [perform, Always]

@[simp] theorem always_bind (p : Prog Op Res α) (f : α → Prog Op Res β) (s : σ) :
    Always h P (p >>= f) s ↔ Always h P p s ∧ Always h P (f (run h p s).1) (run h p s).2 := by
  induction p generalizing s with
  | ret a => simp [Always, run]
  | op o next ih => simp only [op_bind, Always, run, ih, and_assoc]

/-- A run is looked at operation by operation. -/
def decideAlways (hP : ∀ o r, Decidable (P o r)) : (p : Prog Op Res α) → (s : σ) →
    Decidable (Always h P p s)
  | ret _, _ => .isTrue trivial
  | op o next, s =>
    match hP o (h o s).1, decideAlways hP (next (h o s).1) (h o s).2 with
    | .isTrue h₁, .isTrue h₂ => .isTrue ⟨h₁, h₂⟩
    | .isFalse h₁, _ => .isFalse fun hh => h₁ hh.1
    | _, .isFalse h₂ => .isFalse fun hh => h₂ hh.2

instance [hP : ∀ o r, Decidable (P o r)] (p : Prog Op Res α) (s : σ) : Decidable (Always h P p s) :=
  decideAlways hP p s

/-! ## Runs that may stop -/

/-- The result and the final state, under a handler that may stop the run for good. -/
def exec (h : (o : Op) → σ → Option (Res o × σ)) : Prog Op Res α → σ → Option (α × σ)
  | ret a, s => some (a, s)
  | op o next, s =>
    match h o s with
    | none => none
    | some r => exec h (next r.1) r.2

/-- Every operation the run comes to satisfies `Q` in the state it is performed in. -/
def Along (h : (o : Op) → σ → Option (Res o × σ)) (Q : Op → σ → Prop) : Prog Op Res α → σ → Prop
  | ret _, _ => True
  | op o next, s =>
    Q o s ∧
      match h o s with
      | none => True
      | some r => Along h Q (next r.1) r.2

section MayStop

variable {h : (o : Op) → σ → Option (Res o × σ)} {Q : Op → σ → Prop}

@[simp] theorem exec_pure (a : α) (s : σ) : exec h (pure a : Prog Op Res α) s = some (a, s) := rfl

@[simp] theorem exec_perform (o : Op) (s : σ) : exec h (perform o) s = h o s := by
  rw [perform, exec]
  cases h o s <;> rfl

theorem exec_bind (p : Prog Op Res α) (f : α → Prog Op Res β) (s : σ) :
    exec h (p >>= f) s = (exec h p s).bind fun r => exec h (f r.1) r.2 := by
  induction p generalizing s with
  | ret a => rfl
  | op o next ih =>
    rw [op_bind, exec, exec]
    cases h o s with
    | none => rfl
    | some r => exact ih r.1 r.2

/-- A first part that gets to its end. -/
theorem exec_bind_some {p : Prog Op Res α} {s s' : σ} {a : α} (hp : exec h p s = some (a, s'))
    (f : α → Prog Op Res β) : exec h (p >>= f) s = exec h (f a) s' := by
  rw [exec_bind, hp]
  rfl

@[simp] theorem along_pure (a : α) (s : σ) : Along h Q (pure a : Prog Op Res α) s ↔ True := Iff.rfl

@[simp] theorem along_perform (o : Op) (s : σ) :
    Along h Q (perform o : Prog Op Res (Res o)) s ↔ Q o s := by
  rw [perform, Along]
  cases h o s <;> simp [Along]

theorem along_bind (p : Prog Op Res α) (f : α → Prog Op Res β) (s : σ) :
    Along h Q (p >>= f) s ↔
      Along h Q p s ∧ ∀ r, exec h p s = some r → Along h Q (f r.1) r.2 := by
  induction p generalizing s with
  | ret a => simp [Along, exec]
  | op o next ih =>
    rw [op_bind, Along, Along, exec]
    cases h o s with
    | none => simp
    | some r => simp only [ih, and_assoc]

theorem along_bind_some {p : Prog Op Res α} {s s' : σ} {a : α} (hp : exec h p s = some (a, s'))
    (f : α → Prog Op Res β) : Along h Q (p >>= f) s ↔ Along h Q p s ∧ Along h Q (f a) s' := by
  rw [along_bind, hp]
  simp

/-- Under a handler that never stops, what is after a first part is judged behind it. -/
theorem along_total_bind {h : (o : Op) → σ → Res o × σ} (p : Prog Op Res α)
    (f : α → Prog Op Res β) (s : σ) :
    Along (fun o s => some (h o s)) Q (p >>= f) s ↔
      Along (fun o s => some (h o s)) Q p s ∧
        Along (fun o s => some (h o s)) Q (f (run h p s).1) (run h p s).2 := by
  induction p generalizing s with
  | ret a => simp [Along, run]
  | op o next ih => simp only [op_bind, Along, run, ih, and_assoc]

theorem Along.mono {Q' : Op → σ → Prop} (hQ : ∀ o s, Q o s → Q' o s) {p : Prog Op Res α} {s : σ}
    (hp : Along h Q p s) : Along h Q' p s := by
  induction p generalizing s with
  | ret a => trivial
  | op o next ih =>
    rw [Along] at hp ⊢
    refine ⟨hQ o s hp.1, ?_⟩
    have hrest := hp.2
    cases ho : h o s with
    | none => trivial
    | some r =>
      rw [ho] at hrest
      exact ih r.1 hrest

/-- What every operation of a run leaves as it is, the run does. -/
theorem Along.kept {γ : Type} {F : σ → γ} (hQ : ∀ o s r, Q o s → h o s = some r → F r.2 = F s)
    {p : Prog Op Res α} {s s' : σ} {a : α} (hp : Along h Q p s) (hrun : exec h p s = some (a, s')) :
    F s' = F s := by
  induction p generalizing s with
  | ret b =>
    cases hrun
    rfl
  | op o next ih =>
    rw [Along] at hp
    rw [exec] at hrun
    obtain ⟨hfirst, hrest⟩ := hp
    cases ho : h o s with
    | none =>
      rw [ho] at hrun
      cases hrun
    | some r =>
      rw [ho] at hrest hrun
      exact (ih r.1 hrest hrun).trans (hQ o s r hfirst ho)

/-- A run of operations that are not refused gets to its end. -/
theorem Along.ends (hQ : ∀ o s, Q o s → (h o s).isSome) {p : Prog Op Res α} {s : σ}
    (hp : Along h Q p s) : (exec h p s).isSome := by
  induction p generalizing s with
  | ret a => rfl
  | op o next ih =>
    rw [Along] at hp
    rw [exec]
    obtain ⟨r, hr⟩ := Option.isSome_iff_exists.mp (hQ o s hp.1)
    have hrest := hp.2
    rw [hr] at hrest ⊢
    exact ih r.1 hrest

/-! ## Whatever the operations do -/

/-- Every operation in the program satisfies `P`. -/
def AllOps (P : Op → Prop) : Prog Op Res α → Prop
  | ret _ => True
  | op o next => P o ∧ ∀ r, AllOps P (next r)

/-- Every result of the program satisfies `R`. -/
def Yields (R : α → Prop) : Prog Op Res α → Prop
  | ret a => R a
  | op _ next => ∀ r, Yields R (next r)

section Every

variable {P : Op → Prop} {R : β → Prop}

theorem AllOps.pure (a : α) : AllOps P (pure a : Prog Op Res α) := trivial

theorem AllOps.perform {o : Op} (ho : P o) : AllOps P (perform o : Prog Op Res (Res o)) :=
  ⟨ho, fun _ => trivial⟩

theorem AllOps.bind {p : Prog Op Res α} {f : α → Prog Op Res β} (hp : AllOps P p)
    (hf : ∀ a, AllOps P (f a)) : AllOps P (p >>= f) := by
  induction p with
  | ret a => exact hf a
  | op o next ih => exact ⟨hp.1, fun r => ih r (hp.2 r)⟩

theorem AllOps.along {p : Prog Op Res α} (hp : AllOps P p) (s : σ) :
    Along h (fun o _ => P o) p s := by
  induction p generalizing s with
  | ret a => trivial
  | op o next ih =>
    rw [Along]
    refine ⟨hp.1, ?_⟩
    cases h o s with
    | none => trivial
    | some r => exact ih r.1 (hp.2 r.1) r.2

theorem Yields.bind {p : Prog Op Res α} {f : α → Prog Op Res β} (hf : ∀ a, Yields R (f a)) :
    Yields R (p >>= f) := by
  induction p with
  | ret a => exact hf a
  | op o next ih => exact fun r => ih r

theorem Yields.exec {p : Prog Op Res β} (hp : Yields R p) {s s' : σ} {b : β}
    (hrun : exec h p s = some (b, s')) : R b := by
  induction p generalizing s with
  | ret a =>
    cases hrun
    exact hp
  | op o next ih =>
    rw [Prog.exec] at hrun
    cases ho : h o s with
    | none =>
      rw [ho] at hrun
      cases hrun
    | some r =>
      rw [ho] at hrun
      exact ih r.1 (hp r.1) hrun

end Every

/-- What `Q` along a run asks of the data of a program: from a state of `Inv` the condition `T` is
enough for it, and a run with `Q` along it that gets to its end has kept `Inv` and shows `R` of
its result. `P` is taken for granted along the run. -/
def Needs (h : (o : Op) → σ → Option (Res o × σ)) (Inv : σ → Prop) (P Q : Op → σ → Prop)
    (p : Prog Op Res α) (T : Prop) (R : α → Prop) : Prop :=
  ∀ s, Inv s → Along h P p s →
    (T → Along h Q p s) ∧ ∀ a s', Along h Q p s → exec h p s = some (a, s') → Inv s' ∧ R a

section Needs

variable {Inv : σ → Prop} {P : Op → σ → Prop} {p : Prog Op Res α} {f : α → Prog Op Res β}
  {T T' : Prop} {R R₁ : α → Prop} {R' : β → Prop}

theorem Needs.pure {a : α} (hR : R a) : Needs h Inv P Q (pure a : Prog Op Res α) T R := by
  intro s hs _
  refine ⟨fun _ => trivial, fun b s' _ hrun => ?_⟩
  cases hrun
  exact ⟨hs, hR⟩

theorem Needs.mono (hp : Needs h Inv P Q p T R) (hT : T' → T) (hR : ∀ a, R a → R₁ a) :
    Needs h Inv P Q p T' R₁ := by
  intro s hs hP
  obtain ⟨hon, hback⟩ := hp s hs hP
  refine ⟨fun ht => hon (hT ht), fun a s' hQ hrun => ?_⟩
  obtain ⟨hs', ha⟩ := hback a s' hQ hrun
  exact ⟨hs', hR a ha⟩

theorem Needs.under (hp : Needs h Inv P Q p T R) (hT : T' → T) : Needs h Inv P Q p T' R :=
  hp.mono hT fun _ ha => ha

/-- One program after another, under a condition that is enough for both. -/
theorem Needs.bind (hp : Needs h Inv P Q p T R) (hf : ∀ a, R a → Needs h Inv P Q (f a) T R') :
    Needs h Inv P Q (p >>= f) T R' := by
  intro s hs hP
  rw [along_bind] at hP
  obtain ⟨hon, hback⟩ := hp s hs hP.1
  have hrest : ∀ r, Along h Q p s → exec h p s = some r →
      (T → Along h Q (f r.1) r.2) ∧ ∀ b s', Along h Q (f r.1) r.2 →
        exec h (f r.1) r.2 = some (b, s') → Inv s' ∧ R' b := by
    intro r hQ hrun
    obtain ⟨hs₁, ha⟩ := hback r.1 r.2 hQ hrun
    exact hf r.1 ha r.2 hs₁ (hP.2 r hrun)
  rw [along_bind]
  refine ⟨fun ht => ⟨hon ht, fun r hrun => (hrest r (hon ht) hrun).1 ht⟩, ?_⟩
  intro b s' hQ hrun
  rw [exec_bind, Option.bind_eq_some_iff] at hrun
  obtain ⟨r, hfirst, hsecond⟩ := hrun
  exact (hrest r hQ.1 hfirst).2 b s' (hQ.2 r hfirst) hsecond

/-- A program that leaves the state as it is. -/
theorem Needs.still (hp : ∀ s, Inv s → ∃ a, exec h p s = some (a, s) ∧ Along h Q p s ∧ R a) :
    Needs h Inv P Q p T R := by
  intro s hs _
  obtain ⟨a, hrun, hQ, ha⟩ := hp s hs
  refine ⟨fun _ => hQ, fun b s' _ hrun' => ?_⟩
  cases hrun.symm.trans hrun'
  exact ⟨hs, ha⟩

/-- What comes after one with a result that is known. -/
theorem Needs.after {a : α} (hp : ∀ s, Inv s → exec h p s = some (a, s) ∧ Along h Q p s)
    (hf : Needs h Inv P Q (f a) T R') : Needs h Inv P Q (p >>= f) T R' := by
  have hfirst : Needs h Inv P Q p T (· = a) :=
    .still fun s hs => ⟨a, (hp s hs).1, (hp s hs).2, rfl⟩
  refine hfirst.bind fun b hb => ?_
  rw [hb]
  exact hf

end Needs

/-- A run is looked at operation by operation. -/
def decideAlong (hQ : ∀ o s, Decidable (Q o s)) : (p : Prog Op Res α) → (s : σ) →
    Decidable (Along h Q p s)
  | ret _, _ => .isTrue trivial
  | op o next, s => by
    unfold Along
    exact
      match hQ o s, h o s with
      | .isFalse h₁, _ => .isFalse fun hh => h₁ hh.1
      | .isTrue h₁, none => .isTrue ⟨h₁, trivial⟩
      | .isTrue h₁, some r =>
        match decideAlong hQ (next r.1) r.2 with
        | .isTrue h₂ => .isTrue ⟨h₁, h₂⟩
        | .isFalse h₂ => .isFalse fun hh => h₂ hh.2

instance [hQ : ∀ o s, Decidable (Q o s)] (p : Prog Op Res α) (s : σ) : Decidable (Along h Q p s) :=
  decideAlong hQ p s

end MayStop

end Prog

/-! ## Several programs on one processor -/

/-- Threads `T` with their programs, the thread at hand and the state they share. -/
structure Threads (Op : Type) (Res : Op → Type) (T σ : Type) where
  shared : σ
  prog : T → Prog Op Res Unit
  cur : T

variable {Op : Type} {Res : Op → Type} {T σ : Type} [DecidableEq T]

/-- The thread at hand performs its next operation, or, where the state allows it,
another thread is taken up. `exec t o s r s'`: for thread `t` the operation `o` may
lead from `s` to `s'` with the result `r`. -/
inductive ThreadStep (exec : T → (o : Op) → σ → Res o → σ → Prop) (maySwitch : σ → Prop) :
    Threads Op Res T σ → Threads Op Res T σ → Prop
  | exec (x : Threads Op Res T σ) (o : Op) (next : Res o → Prog Op Res Unit) (r : Res o) (s' : σ)
      (hprog : x.prog x.cur = .op o next) (hexec : exec x.cur o x.shared r s') :
      ThreadStep exec maySwitch x
        ⟨s', fun t => if t = x.cur then next r else x.prog t, x.cur⟩
  | switch (x : Threads Op Res T σ) (t : T) (h : maySwitch x.shared) :
      ThreadStep exec maySwitch x ⟨x.shared, x.prog, t⟩

end OS64.Lib
