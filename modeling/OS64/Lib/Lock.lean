import OS64.Lib.Prog
import Mathlib.Data.List.Nodup
import Mathlib.Logic.Function.Basic

/-!
# Sections under a lock

Threads share data and a lock. A thread asks for a section, a program over the data, takes the
lock when it is free, performs the section operation by operation while the others go on, and
leaves (`LockStep`). One level up there is no lock and a section is performed as a whole
(`WholeStep`).

`lock_refines` says that nobody can tell the two apart: every run of the first is matched by a run
of the second, with the same results, and with the same data whenever the lock is free. A section
counts as performed at the moment it leaves. Until then the data are those of the section begun
(`Matches.inside`): what is left of it makes of them what the section makes of the data it found.

Where each thread has one section to perform, a run amounts to an order of the threads:
`lock_once`.
-/

namespace OS64.Lib

/-- Where a thread is: outside, with the result of its last section; waiting, with the section it
asked for; or inside, with what is left of it. -/
inductive Phase (Op : Type) (Res : Op → Type) (α : Type)
  | outside (last : Option α)
  | waiting (p : Prog Op Res α)
  | inside (q : Prog Op Res α)

/-- The lock, the data and the threads. -/
structure Locked (ι Op : Type) (Res : Op → Type) (α σ : Type) where
  free : Bool
  data : σ
  thread : ι → Phase Op Res α

/-- The data and the threads where sections are performed as a whole. -/
structure Whole (ι Op : Type) (Res : Op → Type) (α σ : Type) where
  data : σ
  thread : ι → Phase Op Res α

section Steps

variable {ι Op : Type} {Res : Op → Type} {α σ : Type} [DecidableEq ι]

/-- One step of one thread. After the result `r` the thread `i` asks for a section that `may`
allows. -/
inductive LockStep (h : (o : Op) → σ → Res o × σ) (may : ι → Option α → Prog Op Res α → Prop) :
    Locked ι Op Res α σ → Locked ι Op Res α σ → Prop
  | ask {s} (i : ι) (r : Option α) (p : Prog Op Res α) (ht : s.thread i = .outside r)
      (hmay : may i r p) :
      LockStep h may s { s with thread := Function.update s.thread i (.waiting p) }
  | take {s} (i : ι) (p : Prog Op Res α) (ht : s.thread i = .waiting p) (hfree : s.free = true) :
      LockStep h may s
        { s with free := false, thread := Function.update s.thread i (.inside p) }
  | work {s} (i : ι) (o : Op) (next : Res o → Prog Op Res α)
      (ht : s.thread i = .inside (.op o next)) :
      LockStep h may s
        { s with
          data := (h o s.data).2
          thread := Function.update s.thread i (.inside (next (h o s.data).1)) }
  | leave {s} (i : ι) (a : α) (ht : s.thread i = .inside (.ret a)) :
      LockStep h may s
        { s with free := true, thread := Function.update s.thread i (.outside (some a)) }

/-- One step where a section is performed as a whole. -/
inductive WholeStep (h : (o : Op) → σ → Res o × σ) (may : ι → Option α → Prog Op Res α → Prop) :
    Whole ι Op Res α σ → Whole ι Op Res α σ → Prop
  | ask {s} (i : ι) (r : Option α) (p : Prog Op Res α) (ht : s.thread i = .outside r)
      (hmay : may i r p) :
      WholeStep h may s { s with thread := Function.update s.thread i (.waiting p) }
  | perform {s} (i : ι) (p : Prog Op Res α) (ht : s.thread i = .waiting p) :
      WholeStep h may s
        ⟨(p.run h s.data).2, Function.update s.thread i (.outside (some (p.run h s.data).1))⟩

/-- The state with the lock and the state without. -/
structure Matches (h : (o : Op) → σ → Res o × σ) (s : Locked ι Op Res α σ)
    (a : Whole ι Op Res α σ) :
    Prop where
  data : s.free = true → s.data = a.data
  held : s.free = false → ∃ i q, s.thread i = .inside q
  outside : ∀ i r, s.thread i = .outside r → a.thread i = .outside r
  waiting : ∀ i p, s.thread i = .waiting p → a.thread i = .waiting p
  inside : ∀ i q, s.thread i = .inside q →
    s.free = false ∧ ∃ p, a.thread i = .waiting p ∧ q.run h s.data = p.run h a.data
  sole : ∀ i j q q', s.thread i = .inside q → s.thread j = .inside q' → i = j

end Steps

/-- A function after one update. -/
theorem update_at {ι β : Type} [DecidableEq ι] {f : ι → β} {i j : ι} {v w : β} :
    Function.update f i v j = w ↔ (j = i ∧ v = w) ∨ (j ≠ i ∧ f j = w) := by
  by_cases hji : j = i
  · subst hji
    rw [Function.update_self]
    simp
  · rw [Function.update_of_ne hji]
    simp [hji]

section Matches

variable {ι Op : Type} {Res : Op → Type} {α σ : Type} {h : (o : Op) → σ → Res o × σ}
  {s s' : Locked ι Op Res α σ} {a : Whole ι Op Res α σ}

/-- Nobody inside, and nobody waiting. -/
theorem matches_start (d : σ) :
    Matches h (⟨true, d, fun _ => .outside none⟩ : Locked ι Op Res α σ)
      ⟨d, fun _ => .outside none⟩ where
  data := fun _ => rfl
  held := fun hfree => by cases hfree
  outside := fun _ _ ht => ht
  waiting := fun _ _ ht => by cases ht
  inside := fun _ _ ht => by cases ht
  sole := fun _ _ _ _ ht => by cases ht

/-- While the lock is free, nobody is inside. -/
theorem Matches.nobody (hm : Matches h s a) (hfree : s.free = true) {i : ι} {q : Prog Op Res α} :
    s.thread i ≠ .inside q := by
  intro ht
  have hheld := (hm.inside i q ht).1
  rw [hfree] at hheld
  cases hheld

variable [DecidableEq ι]

/-- A thread asks for a section. -/
theorem Matches.ask (hm : Matches h s a) {i : ι} {r : Option α} (ht : s.thread i = .outside r)
    (p : Prog Op Res α) :
    Matches h { s with thread := Function.update s.thread i (.waiting p) }
      { a with thread := Function.update a.thread i (.waiting p) } := by
  have hother {j : ι} {q : Prog Op Res α}
      (hj : Function.update s.thread i (.waiting p) j = .inside q) :
      j ≠ i ∧ s.thread j = .inside q := by
    obtain ⟨-, hq⟩ | hq := update_at.mp hj
    · cases hq
    · exact hq
  refine ⟨hm.data, ?_, ?_, ?_, ?_, ?_⟩
  · intro hfree
    obtain ⟨j, q, hj⟩ := hm.held hfree
    have hji : j ≠ i := fun heq => by
      rw [heq, ht] at hj
      cases hj
    exact ⟨j, q, update_at.mpr (Or.inr ⟨hji, hj⟩)⟩
  · intro j r' hj
    obtain ⟨-, hq⟩ | ⟨hji, hq⟩ := update_at.mp hj
    · cases hq
    · exact update_at.mpr (Or.inr ⟨hji, hm.outside j r' hq⟩)
  · intro j p' hj
    obtain ⟨hji, hq⟩ | ⟨hji, hq⟩ := update_at.mp hj
    · exact update_at.mpr (Or.inl ⟨hji, hq⟩)
    · exact update_at.mpr (Or.inr ⟨hji, hm.waiting j p' hq⟩)
  · intro j q hj
    obtain ⟨hji, hq⟩ := hother hj
    obtain ⟨hheld, p', hp, hrun⟩ := hm.inside j q hq
    exact ⟨hheld, p', update_at.mpr (Or.inr ⟨hji, hp⟩), hrun⟩
  · exact fun j k q q' hj hk => hm.sole j k q q' (hother hj).2 (hother hk).2

/-- Inside a section the thread `i` goes on, or enters: what it has left becomes `q`. -/
theorem Matches.goOn (hm : Matches h s a) {i : ι} {q p : Prog Op Res α} {d : σ}
    (hp : a.thread i = .waiting p) (hrun : q.run h d = p.run h a.data)
    (honly : ∀ j q', s.thread j = .inside q' → j = i) :
    Matches h ⟨false, d, Function.update s.thread i (.inside q)⟩ a := by
  have hall {j : ι} {q' : Prog Op Res α}
      (hj : Function.update s.thread i (.inside q) j = .inside q') : j = i := by
    obtain ⟨hji, -⟩ | ⟨-, hq⟩ := update_at.mp hj
    · exact hji
    · exact honly j q' hq
  refine ⟨(fun hfree => by cases hfree), fun _ => ⟨i, q, Function.update_self ..⟩, ?_, ?_, ?_, ?_⟩
  · intro j r hj
    obtain ⟨-, hq⟩ | ⟨-, hq⟩ := update_at.mp hj
    · cases hq
    · exact hm.outside j r hq
  · intro j p' hj
    obtain ⟨-, hq⟩ | ⟨-, hq⟩ := update_at.mp hj
    · cases hq
    · exact hm.waiting j p' hq
  · intro j q' hj
    obtain ⟨hji, hq⟩ | ⟨hji, -⟩ := update_at.mp hj
    · cases hq
      exact ⟨rfl, p, hji ▸ hp, hrun⟩
    · exact absurd (hall hj) hji
  · exact fun j k q' q'' hj hk => (hall hj).trans (hall hk).symm

/-- The step that takes the lock is not seen without it. -/
theorem Matches.take (hm : Matches h s a) {i : ι} {p : Prog Op Res α} (ht : s.thread i = .waiting p)
    (hfree : s.free = true) :
    Matches h { s with free := false, thread := Function.update s.thread i (.inside p) } a := by
  exact hm.goOn (hm.waiting i p ht) (by rw [hm.data hfree]) fun j q hj =>
    absurd hj (hm.nobody hfree)

/-- Nor is an operation inside a section. -/
theorem Matches.work (hm : Matches h s a) {i : ι} {o : Op} {next : Res o → Prog Op Res α}
    (ht : s.thread i = .inside (.op o next)) :
    Matches h
      { s with
        data := (h o s.data).2
        thread := Function.update s.thread i (.inside (next (h o s.data).1)) } a := by
  obtain ⟨hheld, p, hp, hrun⟩ := hm.inside i _ ht
  rw [hheld]
  exact hm.goOn hp hrun fun j q hj => hm.sole j i q _ hj ht

/-- A thread leaves: its section is performed now. -/
theorem Matches.leave (hm : Matches h s a) {i : ι} {r : α} (ht : s.thread i = .inside (.ret r)) :
    ∃ p, a.thread i = .waiting p ∧
      Matches h { s with free := true, thread := Function.update s.thread i (.outside (some r)) }
        ⟨(p.run h a.data).2, Function.update a.thread i (.outside (some (p.run h a.data).1))⟩ := by
  obtain ⟨-, p, hp, hrun⟩ := hm.inside i _ ht
  rw [Prog.run_ret] at hrun
  have hnone {j : ι} {q : Prog Op Res α} :
      Function.update s.thread i (.outside (some r)) j ≠ .inside q := by
    intro hj
    obtain ⟨-, hq⟩ | ⟨hji, hq⟩ := update_at.mp hj
    · cases hq
    · exact hji (hm.sole j i q _ hq ht)
  refine ⟨p, hp, fun _ => congrArg Prod.snd hrun, (fun hfree => by cases hfree), ?_, ?_,
    fun j q hj => absurd hj hnone, fun j _ q _ hj _ => absurd hj hnone⟩
  · intro j r' hj
    obtain ⟨hji, hq⟩ | ⟨hji, hq⟩ := update_at.mp hj
    · cases hq
      exact update_at.mpr (Or.inl ⟨hji, by rw [← hrun]⟩)
    · exact update_at.mpr (Or.inr ⟨hji, hm.outside j r' hq⟩)
  · intro j p' hj
    obtain ⟨-, hq⟩ | ⟨hji, hq⟩ := update_at.mp hj
    · cases hq
    · exact update_at.mpr (Or.inr ⟨hji, hm.waiting j p' hq⟩)

variable {may : ι → Option α → Prog Op Res α → Prop}

/-- A step with the lock is one without it or none. -/
theorem lock_step (hm : Matches h s a) (hs : LockStep h may s s') :
    ∃ a', Matches h s' a' ∧ Relation.ReflTransGen (WholeStep h may) a a' := by
  cases hs with
  | ask i r p ht hmay =>
    exact ⟨_, hm.ask ht p, .single (.ask i r p (hm.outside i r ht) hmay)⟩
  | take i p ht hfree => exact ⟨a, hm.take ht hfree, .refl⟩
  | work i o next ht => exact ⟨a, hm.work ht, .refl⟩
  | leave i r ht =>
    obtain ⟨p, hp, hm'⟩ := hm.leave ht
    exact ⟨_, hm', .single (.perform i p hp)⟩

/-- Every run with the lock is matched by one in which sections are performed as a whole. -/
theorem lock_refines (hm : Matches h s a)
    (hrun : Relation.ReflTransGen (LockStep h may) s s') :
    ∃ a', Matches h s' a' ∧ Relation.ReflTransGen (WholeStep h may) a a' :=
  run_simulation (Matches h) (fun _ _ _ hm hs => lock_step hm hs) hrun hm

end Matches

/-! ## One section for each thread -/

section Once

variable {ι Op : Type} {Res : Op → Type} {α σ : Type} {h : (o : Op) → σ → Res o × σ}
  {body : ι → Prog Op Res α}

/-- Each thread asks for its own section, once. -/
def once (body : ι → Prog Op Res α) (i : ι) (r : Option α) (p : Prog Op Res α) : Prop :=
  r = none ∧ p = body i

/-- The data after the sections of the threads in `order`. -/
def inOrder (h : (o : Op) → σ → Res o × σ) (body : ι → Prog Op Res α) (d : σ)
    (order : List ι) : σ :=
  order.foldl (fun d i => ((body i).run h d).2) d

theorem inOrder_append (d : σ) (order : List ι) (i : ι) :
    inOrder h body d (order ++ [i]) = ((body i).run h (inOrder h body d order)).2 := by
  unfold inOrder
  rw [List.foldl_append]
  rfl

/-- The threads that are done, in the order in which their sections were performed. -/
structure DoneInOrder (h : (o : Op) → σ → Res o × σ) (body : ι → Prog Op Res α) (d : σ)
    (order : List ι) (a : Whole ι Op Res α σ) : Prop where
  nodup : order.Nodup
  data : a.data = inOrder h body d order
  done : ∀ i, i ∈ order ↔ ∃ r, a.thread i = .outside (some r)
  waiting : ∀ i p, a.thread i = .waiting p → p = body i
  absent : ∀ i q, a.thread i ≠ .inside q

theorem doneInOrder_start (d : σ) :
    DoneInOrder h body d [] (⟨d, fun _ => .outside none⟩ : Whole ι Op Res α σ) where
  nodup := List.nodup_nil
  data := rfl
  done := fun i => by simp
  waiting := fun _ _ ht => by cases ht
  absent := fun _ _ ht => by cases ht

variable [DecidableEq ι]

theorem doneInOrder_step {d : σ} {order : List ι} {a a' : Whole ι Op Res α σ}
    (hd : DoneInOrder h body d order a) (hs : WholeStep h (once body) a a') :
    ∃ order', DoneInOrder h body d order' a' := by
  cases hs with
  | ask i r p ht hmay =>
    obtain ⟨rfl, rfl⟩ := hmay
    refine ⟨order, hd.nodup, hd.data, ?_, ?_, ?_⟩
    · intro j
      rw [hd.done j]
      refine exists_congr fun r => ⟨fun hj => ?_, fun hj => ?_⟩
      · refine update_at.mpr (Or.inr ⟨fun hji => ?_, hj⟩)
        rw [hji, ht] at hj
        cases hj
      · obtain ⟨-, hq⟩ | ⟨-, hq⟩ := update_at.mp hj
        · cases hq
        · exact hq
    · intro j p hj
      obtain ⟨hji, hq⟩ | ⟨-, hq⟩ := update_at.mp hj
      · cases hq
        rw [hji]
      · exact hd.waiting j p hq
    · intro j q hj
      obtain ⟨-, hq⟩ | ⟨-, hq⟩ := update_at.mp hj
      · cases hq
      · exact hd.absent j q hq
  | perform i p ht =>
    have hp := hd.waiting i p ht
    subst hp
    have hnew : i ∉ order := by
      rw [hd.done i, ht]
      simp
    refine ⟨order ++ [i], ?_, ?_, ?_, ?_, ?_⟩
    · rw [← List.concat_eq_append]
      exact hd.nodup.concat hnew
    · rw [inOrder_append, ← hd.data]
    · intro j
      rw [List.mem_append, List.mem_singleton, hd.done j]
      constructor
      · intro hj
        obtain ⟨r, hr⟩ | hji := hj
        · refine ⟨r, update_at.mpr (Or.inr ⟨fun hji => ?_, hr⟩)⟩
          rw [hji, ht] at hr
          cases hr
        · exact ⟨_, update_at.mpr (Or.inl ⟨hji, rfl⟩)⟩
      · intro hj
        obtain ⟨r, hr⟩ := hj
        obtain ⟨hji, -⟩ | ⟨-, hq⟩ := update_at.mp hr
        · exact Or.inr hji
        · exact Or.inl ⟨r, hq⟩
    · intro j p hj
      obtain ⟨-, hq⟩ | ⟨-, hq⟩ := update_at.mp hj
      · cases hq
      · exact hd.waiting j p hq
    · intro j q hj
      obtain ⟨-, hq⟩ | ⟨-, hq⟩ := update_at.mp hj
      · cases hq
      · exact hd.absent j q hq

/-- A run amounts to an order of the threads that left. Nobody inside, the data are what their
sections make of the data at the start, one after the other; else somebody is inside, and what is
left of its section makes of the data what the whole section makes of that. -/
theorem lock_once {d : σ} {s : Locked ι Op Res α σ}
    (hrun : Relation.ReflTransGen (LockStep h (once body)) ⟨true, d, fun _ => .outside none⟩ s) :
    ∃ order : List ι, order.Nodup ∧
      (∀ i, i ∈ order ↔ ∃ r, s.thread i = .outside (some r)) ∧
      (s.free = true → s.data = inOrder h body d order) ∧
      (s.free = false → ∃ i q, s.thread i = .inside q) ∧
      (∀ i q, s.thread i = .inside q →
        s.free = false ∧ q.run h s.data = (body i).run h (inOrder h body d order)) ∧
      ∀ i j q q', s.thread i = .inside q → s.thread j = .inside q' → i = j := by
  obtain ⟨a, hm, hwhole⟩ := lock_refines (matches_start d) hrun
  obtain ⟨order, hd⟩ : ∃ order, DoneInOrder h body d order a :=
    run_invariant (fun a => ∃ order, DoneInOrder h body d order a)
      (fun _ _ hd hs => doneInOrder_step hd.choose_spec hs) hwhole ⟨[], doneInOrder_start d⟩
  refine ⟨order, hd.nodup, ?_, ?_, hm.held, ?_, hm.sole⟩
  · intro i
    rw [hd.done i]
    refine exists_congr fun r => ⟨fun hr => ?_, hm.outside i _⟩
    cases hi : s.thread i with
    | outside r' => rw [← hm.outside i r' hi, hr]
    | waiting p =>
      have hwait := hm.waiting i p hi
      rw [hr] at hwait
      cases hwait
    | inside q =>
      obtain ⟨-, p, hp, -⟩ := hm.inside i q hi
      rw [hr] at hp
      cases hp
  · exact fun hfree => (hm.data hfree).trans hd.data
  · intro i q hi
    obtain ⟨hheld, p, hp, hrun⟩ := hm.inside i q hi
    rw [hd.waiting i p hp, hd.data] at hrun
    exact ⟨hheld, hrun⟩

end Once

end OS64.Lib
