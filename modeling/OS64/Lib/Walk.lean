import Mathlib.Algebra.Group.Nat.Defs
import Mathlib.Data.List.Iterate
import Mathlib.Tactic.ByContra

/-!
# Searching along links

A search that follows a link from element to element until one satisfies a
predicate, as a scheduler looks for a runnable task. `walk` starts with the
successor of its argument; it has a unit of fuel for each element it looks at and
fails when the fuel runs out. What it finds satisfies the predicate (`walk_sat`), and
an element that does is missed exactly when another one lies before it
(`walk_eq_iff_not_before`). It is the search of the list that the links run through
(`walk_eq_find`), so once it has found something more fuel changes nothing
(`walk_more`).
-/

namespace OS64.Lib

variable {α : Type} (next : α → α) (p : α → Bool)

/-- The first element after `x` that satisfies `p`. -/
def walk : Nat → α → Option α
  | 0, _ => none
  | fuel + 1, x => if p (next x) then some (next x) else walk fuel (next x)

/-- On the way from `x` to `t`, an element before `t` satisfies `p`. -/
inductive Before (t : α) : α → Prop
  | here {x : α} (hne : next x ≠ t) (hp : p (next x) = true) : Before t x
  | further {x : α} (hne : next x ≠ t) (h : Before t (next x)) : Before t x

variable {next p} {x y t : α}

/-- What `walk` finds satisfies the predicate. -/
theorem walk_sat {fuel : Nat} (h : walk next p fuel x = some y) : p y = true := by
  induction fuel generalizing x with
  | zero => cases h
  | succ fuel ih =>
    rw [walk] at h
    by_cases hp : p (next x) = true
    · rw [if_pos hp] at h
      cases h
      exact hp
    · rw [if_neg hp] at h
      exact ih h

/-- `walk` searches the elements that the links lead to, in their order. -/
theorem walk_eq_find (fuel : Nat) (x : α) :
    walk next p fuel x = (List.iterate next (next x) fuel).find? p := by
  induction fuel generalizing x with
  | zero => rfl
  | succ fuel ih =>
    rw [walk, List.iterate, List.find?_cons, ih (next x)]
    cases hp : p (next x) with
    | true => rw [if_pos rfl]
    | false => rw [if_neg Bool.false_ne_true]

/-- What is found with less fuel is found with more. -/
theorem walk_more {fuel fuel' : Nat} (hle : fuel ≤ fuel') (h : walk next p fuel x = some y) :
    walk next p fuel' x = some y := by
  obtain ⟨k, rfl⟩ := Nat.exists_eq_add_of_le hle
  rw [walk_eq_find] at h ⊢
  rw [List.iterate_add, List.find?_append, h]
  rfl

/-- `walk` stays in a set that the links do not leave. -/
theorem walk_mem {S : α → Prop} (hclosed : ∀ a, S a → S (next a)) {fuel : Nat} (hx : S x)
    (h : walk next p fuel x = some y) : S y := by
  induction fuel generalizing x with
  | zero => cases h
  | succ fuel ih =>
    rw [walk] at h
    by_cases hp : p (next x) = true
    · rw [if_pos hp] at h
      cases h
      exact hclosed x hx
    · rw [if_neg hp] at h
      exact ih (hclosed x hx) h

/-- How much fuel there is does not change what is found. -/
theorem walk_det {fuel fuel' : Nat} {y' : α} (h : walk next p fuel x = some y)
    (h' : walk next p fuel' x = some y') : y = y' := by
  induction fuel generalizing x fuel' with
  | zero => cases h
  | succ fuel ih =>
    cases fuel' with
    | zero => cases h'
    | succ fuel' =>
      rw [walk] at h h'
      by_cases hp : p (next x) = true
      · rw [if_pos hp] at h h'
        exact Option.some.inj (h.symm.trans h')
      · rw [if_neg hp] at h h'
        exact ih h h'

/-- The walk sees only what can be reached by the links. -/
theorem walk_congr {next' : α → α} {p' : α → Bool} {S : α → Prop}
    (hclosed : ∀ a, S a → S (next a)) (hnext : ∀ a, S a → next' a = next a)
    (hp : ∀ a, S a → p' a = p a) (fuel : Nat) (hx : S x) :
    walk next' p' fuel x = walk next p fuel x := by
  induction fuel generalizing x with
  | zero => rfl
  | succ fuel ih =>
    rw [walk, walk, hnext x hx, hp _ (hclosed x hx), ih (hclosed x hx)]

/-- The walk stops at `t` just when nothing before `t` stops it. -/
theorem walk_eq_iff_not_before (ht : p t = true) {fuel : Nat} (h : walk next p fuel x = some y) :
    y = t ↔ ¬ Before next p t x := by
  induction fuel generalizing x with
  | zero => cases h
  | succ fuel ih =>
    rw [walk] at h
    by_cases hp : p (next x) = true
    · rw [if_pos hp] at h
      cases h
      constructor
      · intro heq hbefore
        cases hbefore with
        | here hne _ => exact hne heq
        | further hne _ => exact hne heq
      · intro hnot
        by_contra hne
        exact hnot (.here hne hp)
    · rw [if_neg hp] at h
      have hne : next x ≠ t := fun heq => hp (heq ▸ ht)
      rw [ih h]
      constructor
      · intro hnot hbefore
        cases hbefore with
        | here _ hp' => exact hp hp'
        | further _ hrest => exact hnot hrest
      · intro hnot hrest
        exact hnot (.further hne hrest)

end OS64.Lib
