import Mathlib.Logic.Function.Basic

/-!
# Stores one after the other

`plot place val l m`: for each `p` of `l` in turn, `val p` is stored at `place p`. A place that is
not stored to keeps what it has (`plot_out`); where no two of the list share a place, each of them
has its value there afterwards (`plot_in`). A loop whose rounds store one value or nothing is looked
at place by place (`foldl_hit`).
-/

namespace OS64.Lib

variable {α ι β : Type} [DecidableEq α] {place : ι → α} {val : ι → β} {l : List ι}

/-- The stores of a list. -/
def plot (place : ι → α) (val : ι → β) (l : List ι) (m : α → β) : α → β :=
  l.foldl (fun m p => Function.update m (place p) (val p)) m

theorem plot_out {m : α → β} {a : α} (h : ∀ p ∈ l, place p ≠ a) : plot place val l m a = m a := by
  induction l generalizing m with
  | nil => rfl
  | cons q l ih =>
    have hq := List.forall_mem_cons.mp h
    have hrest : plot place val l (Function.update m (place q) (val q)) a =
        Function.update m (place q) (val q) a := ih hq.2
    exact hrest.trans (Function.update_of_ne hq.1.symm _ _)

theorem plot_in {m : α → β} {p : ι} (hinj : ∀ p ∈ l, ∀ q ∈ l, place p = place q → p = q)
    (hp : p ∈ l) : plot place val l m (place p) = val p := by
  induction l generalizing m with
  | nil => cases hp
  | cons q l ih =>
    show plot place val l (Function.update m (place q) (val q)) (place p) = val p
    by_cases hl : p ∈ l
    · exact ih (fun r hr t ht => hinj r (List.mem_cons_of_mem _ hr) t (List.mem_cons_of_mem _ ht)) hl
    · -- the last store at this place is the first of the list
      have hpq : p = q := (List.mem_cons.mp hp).resolve_right hl
      have hother : ∀ r ∈ l, place r ≠ place p := by
        intro r hr hplace
        exact hl (hinj r (List.mem_cons_of_mem _ hr) p hp hplace ▸ hr)
      rw [plot_out hother, hpq]
      exact Function.update_self _ _ _

/-- Rounds of a loop that either make `v` of what is looked at or leave it alone. -/
theorem foldl_hit {σ ι β : Type} {step : σ → ι → σ} {look : σ → β} {hit : ι → Bool} {v : β}
    (l : List ι) (h : ∀ s p, p ∈ l → look (step s p) = if hit p then v else look s) :
    ∀ s, look (l.foldl step s) = if l.any hit then v else look s := by
  induction l with
  | nil => exact fun _ => rfl
  | cons p l ih =>
    intro s
    rw [List.foldl_cons, ih fun s q hq => h s q (List.mem_cons_of_mem _ hq),
      h s p List.mem_cons_self, List.any_cons]
    cases hit p with
    | true => rw [Bool.true_or, if_pos rfl, ite_self]
    | false => rfl

end OS64.Lib
