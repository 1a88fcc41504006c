import Mathlib.Data.List.Basic

/-!
# Lists in memory, cut into pieces

`Stored m a l`: the elements of `l` lie in the memory `m` one behind the other from `a` on. Records
of different sizes that follow each other are a list of lists, so `stored_append` is all there is to
their offsets. `IsString m t`: the string `t` lies at 0, with its terminator.

`cut` is how a decoder that judges by the first element alone takes a list apart, from the left and
into pieces of one element or of two (`cut_some`). It fails on a list that ends in the middle of a
piece and on no other (`cut_none`).
-/

namespace OS64.Lib

variable {α : Type}

/-- A check that every element passed. -/
theorem of_all {P : α → Prop} [DecidablePred P] {l : List α}
    (h : l.all (fun x => decide (P x)) = true) : ∀ x ∈ l, P x := fun x hx =>
  of_decide_eq_true (List.all_eq_true.mp h x hx)

/-! ## Lists in memory -/

/-- The elements of a list, from `a` on. -/
def Stored (m : Nat → α) : Nat → List α → Prop
  | _, [] => True
  | a, b :: l => m a = b ∧ Stored m (a + 1) l

variable {m : Nat → α}

theorem stored_append {l l' : List α} : ∀ {a : Nat},
    Stored m a (l ++ l') ↔ Stored m a l ∧ Stored m (a + l.length) l' := by
  induction l with
  | nil =>
    intro a
    exact ⟨fun h => ⟨trivial, h⟩, fun h => h.2⟩
  | cons b l ih =>
    intro a
    rw [List.cons_append, Stored, Stored, ih, List.length_cons, and_assoc, Nat.add_assoc,
      Nat.add_comm 1]

/-- Whether a list lies there can be looked up. -/
def decideStored [DecidableEq α] (m : Nat → α) : ∀ a l, Decidable (Stored m a l)
  | _, [] => isTrue trivial
  | a, b :: l =>
    have := decideStored m (a + 1) l
    inferInstanceAs (Decidable (m a = b ∧ Stored m (a + 1) l))

instance [DecidableEq α] (a : Nat) (l : List α) : Decidable (Stored m a l) := decideStored m a l

/-- Two lists of one length in one place are one list. -/
theorem stored_unique {l l' : List α} : ∀ {a : Nat}, Stored m a l → Stored m a l' →
    l.length = l'.length → l = l' := by
  induction l generalizing l' with
  | nil =>
    intro a _ _ hlen
    exact (List.length_eq_zero_iff.mp hlen.symm).symm
  | cons b l ih =>
    intro a h h' hlen
    cases l' with
    | nil => cases hlen
    | cons b' l' =>
      have htail : l = l' := ih h.2 h'.2 (Nat.succ.inj hlen)
      rw [← h.1, ← h'.1, htail]

/-- A list does not see what changes elsewhere. -/
theorem stored_congr {m' : Nat → α} {l : List α} : ∀ {a : Nat},
    (∀ x, a ≤ x → x < a + l.length → m x = m' x) → Stored m a l → Stored m' a l := by
  induction l with
  | nil => exact fun _ _ => trivial
  | cons b l ih =>
    intro a hsame h
    rw [List.length_cons] at hsame
    refine ⟨?_, ih (fun x hx hx' => hsame x (by omega) (by omega)) h.2⟩
    rw [← hsame a (Nat.le_refl a) (by omega)]
    exact h.1

theorem stored_get {l : List α} : ∀ {a : Nat}, Stored m a l →
    ∀ i (hi : i < l.length), m (a + i) = l.get ⟨i, hi⟩ := by
  induction l with
  | nil => exact fun _ i hi => by cases hi
  | cons b l ih =>
    intro a h i hi
    cases i with
    | zero => exact h.1
    | succ i =>
      have htail := ih h.2 i (Nat.lt_of_succ_lt_succ hi)
      rw [Nat.add_assoc, Nat.add_comm 1] at htail
      exact htail

theorem stored_of_get {l : List α} : ∀ {a : Nat},
    (∀ i (hi : i < l.length), m (a + i) = l.get ⟨i, hi⟩) → Stored m a l := by
  induction l with
  | nil => exact fun _ => trivial
  | cons b l ih =>
    intro a h
    refine ⟨h 0 (Nat.succ_pos _), ih fun i hi => ?_⟩
    rw [Nat.add_assoc, Nat.add_comm 1]
    exact h (i + 1) (Nat.succ_lt_succ hi)

/-- A string with its terminator. -/
structure IsString [Zero α] (m : Nat → α) (t : List α) : Prop where
  stored : Stored m 0 (t ++ [0])
  nonzero : ∀ b ∈ t, b ≠ 0

/-- A memory that has a string and zeros behind it. -/
theorem isString_getD [Zero α] {t : List α} (h : ∀ b ∈ t, b ≠ 0) :
    IsString (fun i => t.getD i 0) t := by
  refine ⟨stored_of_get fun i hi => ?_, h⟩
  rw [Nat.zero_add, List.get_eq_getElem, List.getD_eq_getElem?_getD]
  rcases Nat.lt_or_ge i t.length with hlt | hge
  · rw [List.getElem_append_left hlt, List.getElem?_eq_getElem hlt]
    rfl
  · rw [List.getElem_append_right hge, List.getElem?_eq_none hge]
    simp

/-! ## Pieces -/

/-- One element, or two. -/
inductive Piece (α : Type)
  | one (a : α)
  | two (a b : α)

namespace Piece

def elems : Piece α → List α
  | one a => [a]
  | two a b => [a, b]

/-- Its first element. -/
def head : Piece α → α
  | one a => a
  | two a _ => a

/-- It has two elements if its first one says so. -/
def Proper (wide : α → Bool) : Piece α → Prop
  | one a => wide a = false
  | two a _ => wide a = true

def length (p : Piece α) : Nat := p.elems.length

theorem stored_head {m : Nat → α} {p : Piece α} {a : Nat} (h : Stored m a p.elems) : m a = p.head := by
  cases p <;> exact h.1

theorem head_mem (p : Piece α) : p.head ∈ p.elems := by
  cases p <;> exact List.mem_cons_self

end Piece

/-- The concatenation of pieces. -/
def glue (ps : List (Piece α)) : List α := ps.flatMap Piece.elems

theorem glue_cons (p : Piece α) (ps : List (Piece α)) : glue (p :: ps) = p.elems ++ glue ps := rfl

theorem glue_append (ps qs : List (Piece α)) : glue (ps ++ qs) = glue ps ++ glue qs :=
  List.flatMap_append

/-- There are not more pieces than elements. -/
theorem length_le_glue (ps : List (Piece α)) : ps.length ≤ (glue ps).length := by
  induction ps with
  | nil => exact Nat.le_refl 0
  | cons p ps ih =>
    have hpos : 1 ≤ p.elems.length := by cases p <;> simp [Piece.elems]
    rw [glue_cons, List.length_append, List.length_cons]
    omega

variable (wide : α → Bool)

/-- The pieces of a list, from the left. -/
def cut : List α → Option (List (Piece α))
  | [] => some []
  | [a] => if wide a then none else some [.one a]
  | a :: b :: l =>
    if wide a then (cut l).map (.two a b :: ·) else (cut (b :: l)).map (.one a :: ·)

variable {wide} {l : List α} {ps : List (Piece α)}

theorem cut_wide {a b : α} (h : wide a = true) :
    cut wide (a :: b :: l) = (cut wide l).map (.two a b :: ·) :=
  if_pos h

theorem cut_narrow {a : α} (h : wide a = false) :
    cut wide (a :: l) = (cut wide l).map (.one a :: ·) := by
  cases l with
  | nil => simp [cut, h]
  | cons b l => simp [cut, h]

/-- The pieces are pieces, and of this list. -/
theorem cut_some (h : cut wide l = some ps) : glue ps = l ∧ ∀ p ∈ ps, p.Proper wide := by
  induction l using cut.induct wide generalizing ps with
  | case1 =>
    cases h
    exact ⟨rfl, fun p hp => by cases hp⟩
  | case2 a hwide =>
    rw [cut, if_pos hwide] at h
    cases h
  | case3 a hwide =>
    rw [cut, if_neg hwide] at h
    cases h
    refine ⟨rfl, fun p hp => ?_⟩
    rw [List.mem_singleton.mp hp]
    exact Bool.eq_false_iff.mpr hwide
  | case4 a b l hwide ih =>
    rw [cut_wide hwide, Option.map_eq_some_iff] at h
    obtain ⟨qs, hqs, rfl⟩ := h
    have hglue : glue qs = l := (ih hqs).1
    exact ⟨congrArg (a :: b :: ·) hglue, List.forall_mem_cons.mpr ⟨hwide, (ih hqs).2⟩⟩
  | case5 a b l hwide ih =>
    rw [cut_narrow (Bool.eq_false_iff.mpr hwide), Option.map_eq_some_iff] at h
    obtain ⟨qs, hqs, rfl⟩ := h
    have hglue : glue qs = b :: l := (ih hqs).1
    exact ⟨congrArg (a :: ·) hglue,
      List.forall_mem_cons.mpr ⟨Bool.eq_false_iff.mpr hwide, (ih hqs).2⟩⟩

/-- A list that cannot be cut ends in half a piece. -/
theorem cut_none (h : cut wide l = none) :
    ∃ ps a, l = glue ps ++ [a] ∧ wide a = true ∧ ∀ p ∈ ps, p.Proper wide := by
  induction l using cut.induct wide with
  | case1 => cases h
  | case2 a hwide => exact ⟨[], a, rfl, hwide, fun p hp => by cases hp⟩
  | case3 a hwide =>
    rw [cut, if_neg hwide] at h
    cases h
  | case4 a b l hwide ih =>
    rw [cut_wide hwide, Option.map_eq_none_iff] at h
    obtain ⟨ps, c, hl, hc, hps⟩ := ih h
    exact ⟨.two a b :: ps, c, congrArg (a :: b :: ·) hl, hc, List.forall_mem_cons.mpr ⟨hwide, hps⟩⟩
  | case5 a b l hwide ih =>
    have hnarrow : wide a = false := Bool.eq_false_iff.mpr hwide
    rw [cut_narrow hnarrow, Option.map_eq_none_iff] at h
    obtain ⟨ps, c, hl, hc, hps⟩ := ih h
    exact ⟨.one a :: ps, c, congrArg (a :: ·) hl, hc, List.forall_mem_cons.mpr ⟨hnarrow, hps⟩⟩

end OS64.Lib
