import Mathlib.Logic.Relation

/-!
# Following links to their end

Every element has at most one link, and a chase follows links until there is none.
It can fail to end only by going round in a circle, so a rank that grows along the
links and is bounded makes every chase end: `chase_ends`.
-/

namespace OS64.Lib

variable {α : Type}

/-- The last element on the links from an element, looking at as many as there is fuel. -/
def chase (link : α → Option α) : Nat → α → Option α
  | 0, _ => none
  | fuel + 1, a =>
    match link a with
    | none => some a
    | some b => chase link fuel b

theorem chase_end {link : α → Option α} {a : α} (h : link a = none) (fuel : Nat) :
    chase link (fuel + 1) a = some a := by
  rw [chase, h]

theorem chase_step {link : α → Option α} {a b : α} (h : link a = some b) (fuel : Nat) :
    chase link (fuel + 1) a = chase link fuel b := by
  rw [chase, h]

/-- What a chase finds has no link, and the links lead to it. -/
theorem chase_spec {link : α → Option α} {fuel : Nat} {a e : α} (h : chase link fuel a = some e) :
    link e = none ∧ Relation.ReflTransGen (fun x y => link x = some y) a e := by
  induction fuel generalizing a with
  | zero => cases h
  | succ fuel ih =>
    cases hl : link a with
    | none =>
      rw [chase_end hl] at h
      cases h
      exact ⟨hl, .refl⟩
    | some b =>
      rw [chase_step hl] at h
      obtain ⟨hend, hpath⟩ := ih h
      exact ⟨hend, Relation.ReflTransGen.head hl hpath⟩

/-- Links that lead up in a bounded rank, or to an element without a link, are followed
to an end from everywhere. -/
theorem chase_ends {link : α → Option α} (rank : α → Nat) (n : Nat)
    (h : ∀ a b, link a = some b → link b = none ∨ rank a < rank b ∧ rank b ≤ n) (a : α) :
    ∃ fuel e, chase link fuel a = some e := by
  -- induction on what the rank can still grow by
  have hbelow : ∀ k a, n - rank a ≤ k → ∃ fuel e, chase link fuel a = some e := by
    intro k
    induction k with
    | zero =>
      intro a hk
      cases hl : link a with
      | none => exact ⟨1, a, chase_end hl 0⟩
      | some b =>
        rcases h a b hl with hb | ⟨hlt, hle⟩
        · exact ⟨2, b, (chase_step hl 1).trans (chase_end hb 0)⟩
        · omega
    | succ k ih =>
      intro a hk
      cases hl : link a with
      | none => exact ⟨1, a, chase_end hl 0⟩
      | some b =>
        rcases h a b hl with hb | ⟨hlt, hle⟩
        · exact ⟨2, b, (chase_step hl 1).trans (chase_end hb 0)⟩
        · obtain ⟨fuel, e, he⟩ := ih b (by omega)
          exact ⟨fuel + 1, e, (chase_step hl fuel).trans he⟩
  exact hbelow _ a (Nat.le_refl _)

end OS64.Lib
