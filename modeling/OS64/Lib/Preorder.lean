import Mathlib.Data.List.Basic

/-!
# Trees that are walked as far as there is room

A tree may be infinite: each element has a list of others below it, and an element may be below
itself. `preorder` lists the first elements of a forest, each before what is below it, and that
before its siblings, up to a given number.
-/

namespace OS64.Lib

variable {α : Type}

/-- The first `k` elements of the forest with the roots `xs`. -/
def preorder (below : α → List α) : Nat → List α → List α
  | 0, _ => []
  | _ + 1, [] => []
  | k + 1, x :: xs => x :: preorder below k (below x ++ xs)

section Preorder

variable {below : α → List α}

theorem preorder_nil (k : Nat) : preorder below k [] = [] := by
  cases k <;> rfl

/-- What is left of the number goes to the second half of the forest. -/
theorem preorder_append (k : Nat) : ∀ xs ys, preorder below k (xs ++ ys) =
    preorder below k xs ++ preorder below (k - (preorder below k xs).length) ys := by
  induction k with
  | zero => exact fun _ _ => rfl
  | succ k ih =>
    intro xs ys
    cases xs with
    | nil => rfl
    | cons x xs =>
      rw [List.cons_append, preorder, preorder, ← List.append_assoc, ih, List.cons_append,
        List.length_cons, Nat.add_sub_add_right]

/-- One tree, and the others behind it. -/
theorem preorder_cons (k : Nat) (x : α) (xs : List α) : preorder below k (x :: xs) =
    preorder below k [x] ++ preorder below (k - (preorder below k [x]).length) xs :=
  preorder_append k [x] xs

/-- A tree, where there is room for its root. -/
theorem preorder_root {k : Nat} (hk : 0 < k) (x : α) :
    preorder below k [x] = x :: preorder below (k - 1) (below x) := by
  obtain ⟨k, rfl⟩ := Nat.exists_eq_add_of_le' hk
  rw [preorder, List.append_nil, Nat.add_sub_cancel]

/-- What holds of the roots, and goes on to what is below, holds of all. -/
theorem preorder_forall {P : α → Prop} (hbelow : ∀ x, P x → ∀ y ∈ below x, P y) (k : Nat) :
    ∀ xs, (∀ x ∈ xs, P x) → ∀ y ∈ preorder below k xs, P y := by
  induction k with
  | zero => exact fun _ _ y hy => absurd hy List.not_mem_nil
  | succ k ih =>
    intro xs hxs y hy
    cases xs with
    | nil => exact absurd hy List.not_mem_nil
    | cons x xs =>
      have hx := hxs x List.mem_cons_self
      rcases List.mem_cons.mp hy with heq | hy
      · exact heq ▸ hx
      · refine ih _ (fun z hz => ?_) y hy
        rcases List.mem_append.mp hz with hz | hz
        · exact hbelow x hx z hz
        · exact hxs z (List.mem_cons_of_mem _ hz)

end Preorder

end OS64.Lib
