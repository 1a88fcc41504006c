import Mathlib.Data.List.Basic
import Mathlib.Data.List.Induction

/-!
# Trees of tables

A multi-level table: frames hold entries, and an entry may lead to the next
frame. `follow` goes from a root along a path of indices; `lookup` reads the
entry at the end of one. What a write does to the lookups is read off two facts:
a walk depends on the entries it meets alone (`follow_congr`), and in a tree,
where each table is reached by one path, an entry is met by the paths through it
alone (`follow_setEntry_off`). `follow_link` and `lookup_link` say what a new
empty table hung into a tree changes: nothing that could be seen before.
-/

namespace OS64.Lib

variable {F I E : Type} {next : E → Option F}

/-- The frame reached from `f` along a path of indices. -/
def follow (next : E → Option F) (mem : F → I → E) : F → List I → Option F
  | f, [] => some f
  | f, i :: p => (next (mem f i)).bind fun g => follow next mem g p

/-- The entry `i` of the table at the end of `p`, where it leads somewhere. -/
def lookup (next : E → Option F) (mem : F → I → E) (f : F) (p : List I) (i : I) : Option E :=
  (follow next mem f p).bind fun t => (next (mem t i)).map fun _ => mem t i

/-- `m[f][i] = e`. -/
def setEntry [DecidableEq F] [DecidableEq I] (m : F → I → E) (f : F) (i : I) (e : E) : F → I → E :=
  fun g j => if g = f ∧ j = i then e else m g j

/-- Table `f` overwritten as a whole. -/
def setPage [DecidableEq F] (m : F → I → E) (f : F) (p : I → E) : F → I → E :=
  fun g => if g = f then p else m g

/-! ## Walks -/

variable {mem mem' : F → I → E} {root : F}

@[simp] theorem follow_nil (f : F) : follow next mem f [] = some f := rfl

theorem follow_cons (f : F) (i : I) (p : List I) :
    follow next mem f (i :: p) = (next (mem f i)).bind fun g => follow next mem g p := rfl

theorem follow_append (f : F) (p q : List I) :
    follow next mem f (p ++ q) = (follow next mem f p).bind fun g => follow next mem g q := by
  induction p generalizing f with
  | nil => rfl
  | cons i p ih =>
    rw [List.cons_append, follow_cons, follow_cons]
    cases next (mem f i) with
    | none => rfl
    | some g => exact ih g

theorem follow_concat (f : F) (p : List I) (i : I) :
    follow next mem f (p ++ [i]) = (follow next mem f p).bind fun t => next (mem t i) := by
  rw [follow_append]
  congr 1
  funext t
  rw [follow_cons]
  cases next (mem t i) <;> rfl

/-- A walk that gets to the end gets through every table on the way. -/
theorem follow_append_some {f g : F} {p q : List I} (h : follow next mem f (p ++ q) = some g) :
    ∃ t, follow next mem f p = some t ∧ follow next mem t q = some g := by
  rw [follow_append] at h
  cases hp : follow next mem f p with
  | none =>
    rw [hp] at h
    cases h
  | some t =>
    rw [hp] at h
    exact ⟨t, rfl, h⟩

theorem lookup_eq_some {f : F} {p : List I} {i : I} {e : E} :
    lookup next mem f p i = some e ↔
      ∃ t, follow next mem f p = some t ∧ mem t i = e ∧ (next e).isSome := by
  unfold lookup
  cases follow next mem f p with
  | none => simp
  | some t =>
    simp only [Option.bind_some, Option.map_eq_some_iff, Option.some.injEq, exists_eq_left']
    constructor
    · rintro ⟨g, hg, rfl⟩
      exact ⟨rfl, by rw [hg]; rfl⟩
    · rintro ⟨rfl, hsome⟩
      obtain ⟨g, hg⟩ := Option.isSome_iff_exists.mp hsome
      exact ⟨g, hg, rfl⟩

/-- A walk that goes nowhere, looked up at its last entry. -/
theorem lookup_eq_none {f : F} {p : List I} {i : I} :
    lookup next mem f p i = none ↔ follow next mem f (p ++ [i]) = none := by
  rw [follow_concat]
  unfold lookup
  cases follow next mem f p with
  | none => simp
  | some t => simp

/-- A walk depends on where the entries it meets lead, and on nothing else. -/
theorem follow_congr (f : F) (q : List I)
    (h : ∀ p i r t, q = p ++ i :: r → follow next mem f p = some t →
      next (mem' t i) = next (mem t i)) :
    follow next mem' f q = follow next mem f q := by
  induction q generalizing f with
  | nil => rfl
  | cons j q ih =>
    rw [follow_cons, follow_cons, h [] j q f rfl rfl]
    cases hj : next (mem f j) with
    | none => rfl
    | some g =>
      apply ih
      intro p i r t hq ht
      refine h (j :: p) i r t (by rw [hq]; rfl) ?_
      rw [follow_cons, hj]
      exact ht

/-! ## Writes in a tree -/

/-- Among the tables down to depth `n`, `t` is reached along `P` alone. -/
def OnlyAt (next : E → Option F) (mem : F → I → E) (root : F) (n : Nat) (t : F) (P : List I) :
    Prop :=
  ∀ q, q.length ≤ n → follow next mem root q = some t → q = P

/-- Each table down to depth `n` is reached along one path. -/
def IsTree (next : E → Option F) (mem : F → I → E) (root : F) (n : Nat) : Prop :=
  ∀ p q f, p.length ≤ n → q.length ≤ n → follow next mem root p = some f →
    follow next mem root q = some f → p = q

/-- A table reached is reached along that path alone. -/
theorem IsTree.onlyAt {n : Nat} (h : IsTree next mem root n) {t : F} {P : List I}
    (hP : P.length ≤ n) (ht : follow next mem root P = some t) : OnlyAt next mem root n t P :=
  fun q hq hqt => h q P t hq hP hqt ht

/-- Where every table can be told its path from the root, it is reached along that one. -/
theorem follow_eq_of_paths {n : Nat} (pathOf : F → List I) (hroot : pathOf root = [])
    (hlink : ∀ t i g, (pathOf t).length < n → next (mem t i) = some g → pathOf g = pathOf t ++ [i])
    {p : List I} (hp : p.length ≤ n) {f : F} (hf : follow next mem root p = some f) :
    pathOf f = p := by
  induction p using List.reverseRecOn generalizing f with
  | nil =>
    cases hf
    exact hroot
  | append_singleton p i ih =>
    rw [List.length_append, List.length_singleton] at hp
    obtain ⟨t, ht, -⟩ := follow_append_some hf
    rw [follow_concat, ht] at hf
    have hpath := ih (by omega) ht
    rw [hlink t i f (by rw [hpath]; omega) hf, hpath]

variable [DecidableEq F]

@[simp] theorem setPage_same (m : F → I → E) (f : F) (p : I → E) : setPage m f p f = p := if_pos rfl

theorem setPage_other {m : F → I → E} {f g : F} {p : I → E} (h : g ≠ f) :
    setPage m f p g = m g := if_neg h

variable [DecidableEq I]

@[simp] theorem setEntry_same (m : F → I → E) (f : F) (i : I) (e : E) :
    setEntry m f i e f i = e := by
  simp [setEntry]

theorem setEntry_other {m : F → I → E} {f g : F} {i j : I} {e : E} (h : ¬ (g = f ∧ j = i)) :
    setEntry m f i e g j = m g j := if_neg h

theorem setEntry_frame {m : F → I → E} {f g : F} {i : I} {e : E} (h : g ≠ f) :
    setEntry m f i e g = m g := by
  funext j
  exact setEntry_other fun hh => h hh.1

@[simp] theorem setEntry_setEntry (m : F → I → E) (f : F) (i : I) (e e' : E) :
    setEntry (setEntry m f i e) f i e' = setEntry m f i e' := by
  funext g j
  unfold setEntry
  split <;> rfl

variable {n : Nat} {t : F} {P : List I} {i : I} {e : E}

/-- A write to entry `i` of the table at `P` is not met off `P ++ [i]`. -/
theorem follow_setEntry_off (ht : OnlyAt next mem root n t P) {q : List I} (hq : q.length ≤ n + 1)
    (hoff : ¬ (P ++ [i]) <+: q) :
    follow next (setEntry mem t i e) root q = follow next mem root q := by
  apply follow_congr
  intro p j r u hqeq hu
  have hlen : q.length = p.length + (r.length + 1) := by simp [hqeq]
  rw [setEntry_other]
  rintro ⟨rfl, rfl⟩
  refine hoff ⟨r, ?_⟩
  rw [hqeq, ← ht p (by omega) hu]
  simp

/-- The walk to the table written to is the same as before. -/
theorem follow_setEntry_self (ht : OnlyAt next mem root n t P) (hP : P.length ≤ n + 1) :
    follow next (setEntry mem t i e) root P = follow next mem root P := by
  apply follow_setEntry_off ht hP
  intro hpre
  have hlen := hpre.length_le
  rw [List.length_append, List.length_singleton] at hlen
  omega

theorem follow_setEntry_at (ht : OnlyAt next mem root n t P) (hP : P.length ≤ n + 1)
    (hroot : follow next mem root P = some t) :
    follow next (setEntry mem t i e) root (P ++ [i]) = next e := by
  rw [follow_concat, follow_setEntry_self ht hP, hroot]
  simp

/-- A lookup off the written entry. -/
theorem lookup_setEntry_off (ht : OnlyAt next mem root n t P) {q : List I} {j : I}
    (hq : q.length ≤ n) (hoff : ¬ (P ++ [i]) <+: q ++ [j]) :
    lookup next (setEntry mem t i e) root q j = lookup next mem root q j := by
  have hoff' : ¬ (P ++ [i]) <+: q := fun h => hoff (h.trans (List.prefix_append q [j]))
  unfold lookup
  rw [follow_setEntry_off ht (by omega) hoff']
  cases hu : follow next mem root q with
  | none => rfl
  | some u =>
    simp only [Option.bind_some]
    rw [setEntry_other]
    rintro ⟨rfl, rfl⟩
    rw [ht q hq hu] at hoff
    exact hoff List.prefix_rfl

/-- A walk that got to its end did not pass an entry that leads nowhere, and still does when that is
written. -/
theorem follow_setEntry_over (hnone : next (mem t i) = none) {f : F} {q : List I} {u : F}
    (hu : follow next mem f q = some u) : follow next (setEntry mem t i e) f q = some u := by
  rw [← hu]
  apply follow_congr
  intro p j r w hq hw
  rw [setEntry_other]
  rintro ⟨rfl, rfl⟩
  rw [hq, follow_append, hw, Option.bind_some, follow_cons, hnone] at hu
  cases hu

theorem lookup_setEntry_over (hnone : next (mem t i) = none) {f : F} {q : List I} {j : I} {e' : E}
    (h : lookup next mem f q j = some e') : lookup next (setEntry mem t i e) f q j = some e' := by
  obtain ⟨u, hu, rfl, hsome⟩ := lookup_eq_some.mp h
  refine lookup_eq_some.mpr ⟨u, follow_setEntry_over hnone hu, ?_, hsome⟩
  rw [setEntry_other]
  rintro ⟨rfl, rfl⟩
  rw [hnone] at hsome
  cases hsome

/-! ## A new table -/

/-- No entry of the frame leads anywhere. -/
def Barren (next : E → Option F) (mem : F → I → E) (g : F) : Prop := ∀ j, next (mem g j) = none

/-- A table hung into a tree where there was none: it is reached along its own path, a
walk that its entry does not lead on ends, and the other walks are as before. -/
theorem follow_link {g : F} (ht : OnlyAt next mem root n t P) (hP : P.length ≤ n + 1)
    (hroot : follow next mem root P = some t) (he : next e = some g) (hgt : g ≠ t) {q : List I}
    (hq : q.length ≤ n + 1) (hg : ∀ j r, q = P ++ i :: j :: r → next (mem g j) = none) :
    follow next (setEntry mem t i e) root q =
      if q = P ++ [i] then some g
      else if (P ++ [i]) <+: q then none else follow next mem root q := by
  by_cases hat : q = P ++ [i]
  · rw [if_pos hat, hat, follow_setEntry_at ht hP hroot, he]
  · rw [if_neg hat]
    by_cases hpre : (P ++ [i]) <+: q
    · obtain ⟨r, rfl⟩ := hpre
      rw [if_pos (List.prefix_append _ _), follow_append, follow_setEntry_at ht hP hroot, he]
      cases r with
      | nil => exact absurd (List.append_nil _) hat
      | cons j r =>
        show (next (setEntry mem t i e g j)).bind _ = none
        rw [setEntry_frame hgt, hg j r (by simp)]
        rfl
    · rw [if_neg hpre, follow_setEntry_off ht hq hpre]

/-- A lookup does not see it where its entry leads nowhere. -/
theorem lookup_link {g : F} (ht : OnlyAt next mem root n t P) (hP : P.length ≤ n + 1)
    (hroot : follow next mem root P = some t) (he : next e = some g) (hgt : g ≠ t)
    (hnone : next (mem t i) = none) {q : List I} {j : I} (hq : q.length ≤ n)
    (hat : q ++ [j] ≠ P ++ [i])
    (hg : ∀ k r, q ++ [j] = P ++ i :: k :: r → next (mem g k) = none) :
    lookup next (setEntry mem t i e) root q j = lookup next mem root q j := by
  by_cases hpre : (P ++ [i]) <+: q ++ [j]
  · have hafter : follow next (setEntry mem t i e) root (q ++ [j]) = none := by
      rw [follow_link ht hP hroot he hgt (by simpa using hq) hg, if_neg hat, if_pos hpre]
    have hbefore : follow next mem root (q ++ [j]) = none := by
      obtain ⟨r, hr⟩ := hpre
      rw [← hr, follow_append, follow_concat, hroot, Option.bind_some, hnone]
      rfl
    rw [lookup_eq_none.mpr hafter, lookup_eq_none.mpr hbefore]
  · exact lookup_setEntry_off ht hq hpre

/-- A tree grows by a table that was not in it; above the lowest level that table must be
barren. -/
theorem isTree_link {g : F} (htree : IsTree next mem root n) (hP : P.length < n)
    (hroot : follow next mem root P = some t) (he : next e = some g)
    (hfresh : ∀ q, q.length ≤ n → follow next mem root q ≠ some g)
    (hg : P.length + 1 < n → Barren next mem g) :
    IsTree next (setEntry mem t i e) root n := by
  have ht := htree.onlyAt (by omega) hroot
  have hgt : g ≠ t := fun h => hfresh P (by omega) (by rw [h, hroot])
  have hwalk : ∀ q, q.length ≤ n → follow next (setEntry mem t i e) root q =
      if q = P ++ [i] then some g
      else if (P ++ [i]) <+: q then none else follow next mem root q := by
    intro q hq
    apply follow_link ht (by omega) hroot he hgt (by omega)
    intro j r hqeq
    have hlen : q.length = P.length + (r.length + 2) := by simp [hqeq]
    exact hg (by omega) j
  intro p q f hp hq hpf hqf
  rw [hwalk p hp] at hpf
  rw [hwalk q hq] at hqf
  by_cases hpat : p = P ++ [i]
  · by_cases hqat : q = P ++ [i]
    · rw [hpat, hqat]
    · rw [if_pos hpat] at hpf
      rw [if_neg hqat] at hqf
      cases hpf
      by_cases hqpre : (P ++ [i]) <+: q
      · rw [if_pos hqpre] at hqf
        cases hqf
      · rw [if_neg hqpre] at hqf
        exact absurd hqf (hfresh q hq)
  · rw [if_neg hpat] at hpf
    by_cases hppre : (P ++ [i]) <+: p
    · rw [if_pos hppre] at hpf
      cases hpf
    · rw [if_neg hppre] at hpf
      by_cases hqat : q = P ++ [i]
      · rw [if_pos hqat] at hqf
        cases hqf
        exact absurd hpf (hfresh p hp)
      · rw [if_neg hqat] at hqf
        by_cases hqpre : (P ++ [i]) <+: q
        · rw [if_pos hqpre] at hqf
          cases hqf
        · rw [if_neg hqpre] at hqf
          exact htree p q f hp hq hpf hqf

end OS64.Lib
