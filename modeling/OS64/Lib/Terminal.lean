import Mathlib.Order.Bounds.Basic

/-!
# A terminal without an end

A terminal whose rows never run out: a character is written at the cursor, which then goes on to
the next column, or to the start of the next row behind the last column and on a new line. A
screen of `height` rows shows the rows from `top` on, the first row from which the cursor's is in
reach.
-/

namespace OS64.Lib

/-- The cells, by row and column, and the cursor. -/
structure Terminal (κ : Type) where
  cells : Nat → Nat → κ
  row : Nat
  col : Nat

namespace Terminal

variable {κ : Type}

/-- Nothing is written. -/
def empty [Zero κ] : Terminal κ := ⟨fun _ _ => 0, 0, 0⟩

def newline (t : Terminal κ) : Terminal κ := { t with row := t.row + 1, col := 0 }

/-- The cell is written, and the cursor goes on. -/
def put (width : Nat) (t : Terminal κ) (c : κ) : Terminal κ :=
  let cells := fun r k => if r = t.row ∧ k = t.col then c else t.cells r k
  if t.col + 1 < width then ⟨cells, t.row, t.col + 1⟩ else ⟨cells, t.row + 1, 0⟩

/-- The first row that is shown. -/
def top (height : Nat) (t : Terminal κ) : Nat := t.row - (height - 1)

/-- It is the smallest that keeps the cursor's row in reach. -/
theorem top_isLeast {height : Nat} (h : 0 < height) (t : Terminal κ) :
    IsLeast {T | T ≤ t.row ∧ t.row < T + height} (t.top height) := by
  constructor
  · show t.row - (height - 1) ≤ t.row ∧ t.row < t.row - (height - 1) + height
    omega
  · intro T hT
    show t.row - (height - 1) ≤ T
    have hreach : t.row < T + height := hT.2
    omega

section Put

variable {t : Terminal κ}

/-- The cells, wherever the cursor goes then. -/
theorem put_cells (width : Nat) (c : κ) (r k : Nat) :
    (t.put width c).cells r k = if r = t.row ∧ k = t.col then c else t.cells r k := by
  unfold put
  dsimp only
  split <;> rfl

theorem put_col_lt {width : Nat} (c : κ) (h : 0 < width) : (t.put width c).col < width := by
  unfold put
  dsimp only
  split
  · next hlt => exact hlt
  · exact h

end Put

/-! ## What is not written yet -/

/-- From the cursor on, no cell is written. -/
def BlankBehind [Zero κ] (t : Terminal κ) : Prop :=
  ∀ r k, t.row < r ∨ (r = t.row ∧ t.col ≤ k) → t.cells r k = 0

section Blank

variable [Zero κ] {t : Terminal κ}

theorem empty_blank : (empty : Terminal κ).BlankBehind := fun _ _ _ => rfl

theorem newline_blank (h : t.BlankBehind) : t.newline.BlankBehind := by
  intro r k hr
  refine h r k (Or.inl ?_)
  have hrow : t.newline.row = t.row + 1 := rfl
  omega

theorem put_blank {width : Nat} (c : κ) (h : t.BlankBehind) : (t.put width c).BlankBehind := by
  intro r k hr
  rw [put_cells]
  unfold put at hr
  dsimp only at hr
  by_cases hwrap : t.col + 1 < width
  · rw [if_pos hwrap] at hr
    dsimp only at hr
    rw [if_neg (by omega)]
    exact h r k (by omega)
  · rw [if_neg hwrap] at hr
    dsimp only at hr
    rw [if_neg (by omega)]
    exact h r k (by omega)

end Blank

end Terminal

end OS64.Lib
