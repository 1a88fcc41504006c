import Mathlib.Data.List.Basic

/-!
# Bounded C strings

A field of a fixed number of characters holds a name that ends with the field or at the
first null character in it, whichever comes first. What `strncpy` and `strncmp` make of
such a field is a function of its characters:

* `strncpyList l`: what `strncpy` stores, the characters up to the first null one and null
  characters from there on;
* `examined l`: how many characters of the field it looks at;
* `sameName s l`: whether `strncmp` finds no difference between the string `s` and the
  field.
-/

namespace OS64.Lib

variable {κ : Type} [DecidableEq κ] [Zero κ]

/-- What `strncpy` stores. -/
def strncpyList : List κ → List κ
  | [] => []
  | c :: l => if c = 0 then List.replicate (l.length + 1) 0 else c :: strncpyList l

/-- How many characters it looks at. -/
def examined : List κ → Nat
  | [] => 0
  | c :: l => if c = 0 then 1 else examined l + 1

/-- `strncmp` finds no difference. -/
def sameName : List κ → List κ → Bool
  | _, [] => true
  | s, c :: l => if s.headD 0 ≠ c then false else if c = 0 then true else sameName s.tail l

theorem examined_le (l : List κ) : examined l ≤ l.length := by
  induction l with
  | nil => exact Nat.le_refl _
  | cons c l ih =>
    rw [examined]
    split
    · exact Nat.le_add_left _ _
    · exact Nat.succ_le_succ ih

/-- A name without null characters is copied as it is. -/
theorem strncpyList_of_nonzero {l : List κ} (h : (0 : κ) ∉ l) : strncpyList l = l := by
  induction l with
  | nil => rfl
  | cons c l ih =>
    have hc : c ≠ 0 := fun hc => h (hc ▸ List.mem_cons_self)
    rw [strncpyList, if_neg hc, ih fun hl => h (List.mem_cons_of_mem _ hl)]

/-- A copy without null characters is the name. -/
theorem eq_of_strncpyList {l : List κ} (h : (0 : κ) ∉ strncpyList l) : strncpyList l = l := by
  induction l with
  | nil => rfl
  | cons c l ih =>
    rw [strncpyList] at h ⊢
    by_cases hc : c = 0
    · rw [if_pos hc] at h
      exact absurd (List.mem_cons_self) h
    · rw [if_neg hc] at h ⊢
      rw [ih fun hl => h (List.mem_cons_of_mem _ hl)]

/-- A string is the same as itself. -/
theorem sameName_self {s : List κ} (h : (0 : κ) ∉ s) : sameName s s = true := by
  induction s with
  | nil => rfl
  | cons c s ih =>
    have hc : c ≠ 0 := fun hc => h (hc ▸ List.mem_cons_self)
    rw [sameName, if_neg (fun hne => hne rfl), if_neg hc]
    exact ih fun hl => h (List.mem_cons_of_mem _ hl)

end OS64.Lib
