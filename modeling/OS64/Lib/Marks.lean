import OS64.Lib.Prog

/-!
# Programs with marks

A mark is an operation that does nothing. It names a point of the program and the data at hand
there, so that `Along` can say something about that point, where the operations alone do not tell
it from others.

Without its marks a program is `unmark`ed. A program is marked by writing it again with marks
between its parts, each `embed`ded, and its runs are those of the unmarked one (`exec_unmark`).
-/

namespace OS64.Lib

/-- An operation or a mark. -/
inductive MarkOp (Op δ : Type) : Type
  | op (o : Op)
  | mark (d : δ)

/-- What they return. -/
def MarkOp.Res {Op δ : Type} (Res : Op → Type) : MarkOp Op δ → Type
  | .op o => Res o
  | .mark _ => Unit

namespace Prog

variable {Op δ : Type} {Res : Op → Type} {α β σ : Type}

/-- A mark. -/
def mark (d : δ) : Prog (MarkOp Op δ) (MarkOp.Res Res) Unit := op (.mark d) ret

/-- A program without marks. -/
def embed : Prog Op Res α → Prog (MarkOp Op δ) (MarkOp.Res Res) α
  | ret a => ret a
  | op o next => op (.op o) fun r => embed (next r)

/-- The program without its marks. -/
def unmark : Prog (MarkOp Op δ) (MarkOp.Res Res) α → Prog Op Res α
  | ret a => ret a
  | op (.op o) next => op o fun r => unmark (next r)
  | op (.mark _) next => unmark (next ())

@[simp] theorem unmark_pure (a : α) :
    unmark (pure a : Prog (MarkOp Op δ) (MarkOp.Res Res) α) = pure a := rfl

@[simp] theorem unmark_mark (d : δ) : unmark (mark d : Prog (MarkOp Op δ) (MarkOp.Res Res) Unit) =
    pure () := rfl

@[simp] theorem unmark_embed (p : Prog Op Res α) :
    unmark (embed p : Prog (MarkOp Op δ) (MarkOp.Res Res) α) = p := by
  induction p with
  | ret a => rfl
  | op o next ih => exact congrArg (op o) (funext ih)

@[simp] theorem unmark_bind (p : Prog (MarkOp Op δ) (MarkOp.Res Res) α)
    (f : α → Prog (MarkOp Op δ) (MarkOp.Res Res) β) :
    unmark (p >>= f) = unmark p >>= fun a => unmark (f a) := by
  induction p with
  | ret a => rfl
  | op o next ih =>
    cases o with
    | op o => exact congrArg (op o) (funext ih)
    | mark d => exact ih ()

/-! ## Runs -/

/-- A handler, for the program with marks. -/
def markExec (h : (o : Op) → σ → Option (Res o × σ)) :
    (o : MarkOp Op δ) → σ → Option (MarkOp.Res Res o × σ)
  | .op o, s => h o s
  | .mark _, s => some ((), s)

variable {h : (o : Op) → σ → Option (Res o × σ)} {Q : MarkOp Op δ → σ → Prop}

/-- The runs with marks are those without. -/
theorem exec_unmark (p : Prog (MarkOp Op δ) (MarkOp.Res Res) α) (s : σ) :
    exec (markExec h) p s = exec h (unmark p) s := by
  induction p generalizing s with
  | ret a => rfl
  | op o next ih =>
    cases o with
    | op o =>
      rw [unmark, exec, exec, markExec]
      cases h o s with
      | none => rfl
      | some r => exact ih r.1 r.2
    | mark d => exact ih () s

theorem exec_embed (p : Prog Op Res α) (s : σ) :
    exec (markExec h) (embed p : Prog (MarkOp Op δ) (MarkOp.Res Res) α) s = exec h p s := by
  rw [exec_unmark, unmark_embed]

theorem along_embed (p : Prog Op Res α) (s : σ) :
    Along (markExec h) Q (embed p : Prog (MarkOp Op δ) (MarkOp.Res Res) α) s ↔
      Along h (fun o => Q (.op o)) p s := by
  induction p generalizing s with
  | ret a => exact Iff.rfl
  | op o next ih =>
    rw [embed, Along, Along, markExec]
    cases h o s with
    | none => exact Iff.rfl
    | some r => exact and_congr_right fun _ => ih r.1 r.2

/-- A part without marks, and what comes after it. -/
theorem along_embed_bind (p : Prog Op Res α) (f : α → Prog (MarkOp Op δ) (MarkOp.Res Res) β) (s : σ) :
    Along (markExec h) Q (embed p >>= f) s ↔ Along h (fun o => Q (.op o)) p s ∧
      ∀ r, exec h p s = some r → Along (markExec h) Q (f r.1) r.2 := by
  rw [along_bind, along_embed, exec_embed]

/-- A mark, and what comes after it. -/
theorem along_mark_bind (d : δ) (f : Unit → Prog (MarkOp Op δ) (MarkOp.Res Res) β) (s : σ) :
    Along (markExec h) Q (mark d >>= f) s ↔ Q (.mark d) s ∧ Along (markExec h) Q (f ()) s := Iff.rfl

/-- What is said of the operations of a marked program holds without the marks. -/
theorem along_unmark {Q' : Op → σ → Prop} (hQ : ∀ o s, Q (.op o) s → Q' o s)
    {p : Prog (MarkOp Op δ) (MarkOp.Res Res) α} {s : σ} (hp : Along (markExec h) Q p s) :
    Along h Q' (unmark p) s := by
  induction p generalizing s with
  | ret a => trivial
  | op o next ih =>
    cases o with
    | op o =>
      rw [Along, markExec] at hp
      rw [unmark, Along]
      refine ⟨hQ o s hp.1, ?_⟩
      have hrest := hp.2
      cases ho : h o s with
      | none => trivial
      | some r =>
        rw [ho] at hrest
        exact ih r.1 hrest
    | mark d => exact ih () hp.2

end Prog

end OS64.Lib
