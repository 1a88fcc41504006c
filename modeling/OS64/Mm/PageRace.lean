import OS64.Mm.PageInit

/-!
# The window between two tasks

All tasks use the one slot `kernel_pt[0]`. `mount_page_t` keeps interrupts off while
it writes the slot and, where the counter was zero, turns them on again before the
window is used: a task switch may come between the mount and the access, and the
other task may mount something else meanwhile.

Here the tasks run interleaved, operation by operation, with a switch wherever
interrupts are on. Each task remembers the address of its last mount and whether it
is between a mount and the unmount. The window is not stolen while no task writes
the slot between another one's mount and unmount; what the functions contribute is
that they access the window only there (`Brackets`).

An allocation may return anything here: other tasks allocate too.
-/

namespace OS64.Mm

open OS64.Lib

/-! ## Interleaved runs -/

/-- The machine, and for each task its last mount and whether it is before the unmount. -/
structure RaceState (T : Type) where
  page : PageState
  mounted : T → Option (BitVec 64)
  inUse : T → Bool

variable {T : Type} [DecidableEq T]

/-- What is noted of an operation of task `t`. -/
def RaceState.note (x : RaceState T) (t : T) : PageOp → PageState → RaceState T
  | .mountSlot phys, s =>
    ⟨s, fun u => if u = t then some phys else x.mounted u, fun u => if u = t then true else x.inUse u⟩
  | .clearSlot, s => ⟨s, x.mounted, fun u => if u = t then false else x.inUse u⟩
  | _, s => ⟨s, x.mounted, x.inUse⟩

/-- The operations that write the slot by name. -/
def PageOp.writesSlot : PageOp → Prop
  | mountSlot _ => True
  | clearSlot => True
  | _ => False

/-- The accesses through `TMP_MOUNT_ADDR`. -/
def PageOp.usesWindow : PageOp → Prop
  | readEntry _ => True
  | writeEntry _ _ => True
  | readWindow => True
  | writeWindow _ => True
  | _ => False

/-- An operation of task `t` where `ok` allows it. -/
def raceExec (ok : T → PageOp → RaceState T → Prop) (t : T) (o : PageOp) (x : RaceState T)
    (r : o.Res) (x' : RaceState T) : Prop :=
  ok t o x ∧ ∃ s', x' = x.note t o s' ∧
    ((r, s') = pageExec o x.page ∨ (o = .allocPhysPage ∧ ∃ phys, s' = { x.page with phys := phys }))

/-- A step of the tasks on one processor. -/
abbrev RaceStep (ok : T → PageOp → RaceState T → Prop) :
    Threads PageOp PageOp.Res T (RaceState T) → Threads PageOp PageOp.Res T (RaceState T) → Prop :=
  ThreadStep (raceExec ok) fun x => x.page.intf = true

/-- The tasks before their first operation. -/
def raceStart (s : PageState) (progs : T → PageProg Unit) (cur : T) :
    Threads PageOp PageOp.Res T (RaceState T) :=
  ⟨⟨s, fun _ => none, fun _ => false⟩, progs, cur⟩

/-- The slot is left alone while another task is between its mount and unmount. -/
def slotQuiet (t : T) (o : PageOp) (x : RaceState T) : Prop :=
  o.writesSlot → ∀ u, u ≠ t → x.inUse u = false

/-- If the task at hand is about to access the window, it shows the frame of its last mount. -/
def WindowOwn (x : Threads PageOp PageOp.Res T (RaceState T)) : Prop :=
  ∀ o next, x.prog x.cur = .op o next → o.usesWindow →
    ∃ phys, x.shared.mounted x.cur = some phys ∧ x.shared.page.slot.next = some (frameOf phys)

/-! ## Where the functions use the window -/

/-- A task is outside its use of the window, in it, or has written through it and will
unmount next. -/
inductive Phase
  | out
  | inside
  | written
  deriving DecidableEq

/-- How an operation moves the phase; `none` where it has no place. -/
def PageOp.moves : PageOp → Phase → Option Phase
  | mountSlot _, .out => some .inside
  | mountSlot _, _ => none
  | clearSlot, .out => none
  | clearSlot, _ => some .out
  | readEntry _, .inside => some .inside
  | readEntry _, _ => none
  | readWindow, .inside => some .inside
  | readWindow, _ => none
  | writeEntry _ _, .inside => some .written
  | writeEntry _ _, _ => none
  | writeWindow _, .inside => some .written
  | writeWindow _, _ => none
  | _, p => some p

/-- The program takes the phase from `p` to `q`, whatever its operations return. -/
def Brackets {α : Type} (q : Phase) : Phase → PageProg α → Prop
  | p, .ret _ => p = q
  | p, .op o next => ∃ p', o.moves p = some p' ∧ ∀ r, Brackets q p' (next r)

theorem brackets_bind {α β : Type} {p q r : Phase} {m : PageProg α} {f : α → PageProg β}
    (hm : Brackets q p m) (hf : ∀ a, Brackets r q (f a)) : Brackets r p (m >>= f) := by
  induction m generalizing p with
  | ret a =>
    cases hm
    exact hf a
  | op o next ih =>
    obtain ⟨p', hp, hnext⟩ := hm
    exact ⟨p', hp, fun a => ih a (hnext a)⟩

theorem brackets_perform {o : PageOp} {p q : Phase} (h : o.moves p = some q) :
    Brackets q p (perform o) :=
  ⟨q, h, fun _ => rfl⟩

theorem brackets_intrDisable (p : Phase) : Brackets p p intrDisable := by
  cases p <;> exact ⟨_, rfl, fun _ => ⟨_, rfl, fun _ => ⟨_, rfl, fun _ => rfl⟩⟩⟩

theorem brackets_onZero {o : PageProg Unit} {p : Phase} (ho : Brackets p p o) (n : BitVec 8) :
    Brackets p p (onZero n o) := by
  unfold onZero
  split
  · exact ho
  · rfl

theorem brackets_intrEnable (p : Phase) : Brackets p p intrEnable := by
  have hquiet : ∀ o : PageOp, o.moves p = some p → Brackets p p (perform o) :=
    fun o ho => brackets_perform ho
  have hhlt : Brackets p p (perform .hlt) := hquiet _ (by cases p <;> rfl)
  have hsti : Brackets p p (perform .sti) := hquiet _ (by cases p <;> rfl)
  refine brackets_bind (hquiet .getSema (by cases p <;> rfl)) fun n => ?_
  refine brackets_bind (brackets_onZero hhlt n) fun _ => ?_
  refine brackets_bind (hquiet .getSema (by cases p <;> rfl)) fun m => ?_
  refine brackets_bind (hquiet (.setSema _) (by cases p <;> rfl)) fun _ => ?_
  exact brackets_onZero hsti _

theorem brackets_mountPageT (phys : BitVec 64) : Brackets .inside .out (mountPageT phys) := by
  refine brackets_bind (brackets_intrDisable _) fun _ => ?_
  refine brackets_bind (brackets_perform rfl) fun _ => ?_
  refine brackets_bind (brackets_perform (o := .invlpg) rfl) fun _ => ?_
  exact brackets_intrEnable _

/-- The unmount ends a use of the window, with or without a write. -/
theorem brackets_umountPageT {p : Phase} (hp : p ≠ .out) : Brackets .out p umountPageT := by
  cases p with
  | out => exact absurd rfl hp
  | inside => exact ⟨_, rfl, fun _ => ⟨_, rfl, fun _ => rfl⟩⟩
  | written => exact ⟨_, rfl, fun _ => ⟨_, rfl, fun _ => rfl⟩⟩

theorem brackets_read (i : BitVec 9) :
    Brackets .inside .inside (perform (.readEntry i) : PageProg Pte) := brackets_perform rfl

theorem brackets_write (i : BitVec 9) (e : Pte) :
    Brackets .written .inside (perform (.writeEntry i e)) := brackets_perform rfl

theorem brackets_createPage : Brackets .inside .inside createPage :=
  ⟨_, rfl, fun _ => rfl⟩

theorem brackets_mountLevel (table : BitVec 64) (i : BitVec 9) (ph : Pte) :
    Brackets .out .out (mountLevel table i ph) := by
  refine brackets_bind (brackets_mountPageT table) fun _ => ?_
  refine brackets_bind (brackets_read i) fun p => ?_
  split
  · refine brackets_bind brackets_createPage fun c => ?_
    refine brackets_bind (brackets_write i _) fun _ => ?_
    exact brackets_bind (brackets_umountPageT (by decide)) fun _ => rfl
  · exact brackets_bind (brackets_umountPageT (by decide)) fun _ => rfl

theorem brackets_mountPageDo (log : BitVec 64) (ph : Pte) :
    Brackets .out .out (mountPageDo log ph) := by
  refine brackets_bind (brackets_perform rfl) fun pml4 => ?_
  refine brackets_bind (brackets_mountLevel pml4 _ ph) fun p => ?_
  refine brackets_bind (brackets_mountLevel _ _ ph) fun p => ?_
  refine brackets_bind (brackets_mountLevel _ _ ph) fun p => ?_
  refine brackets_bind (brackets_mountPageT _) fun _ => ?_
  refine brackets_bind (brackets_write _ ph) fun _ => ?_
  exact brackets_umountPageT (by decide)

theorem brackets_umountLevel (table : BitVec 64) (i : BitVec 9) :
    Brackets .out .out (umountLevel table i) := by
  refine brackets_bind (brackets_mountPageT table) fun _ => ?_
  refine brackets_bind (brackets_read i) fun p => ?_
  exact brackets_bind (brackets_umountPageT (by decide)) fun _ => rfl

theorem brackets_umountPage (log : BitVec 64) : Brackets .out .out (umountPage log) := by
  refine brackets_bind (brackets_perform rfl) fun pml4 => ?_
  refine brackets_bind (brackets_umountLevel _ _) fun p => ?_
  split
  · rfl
  refine brackets_bind (brackets_umountLevel _ _) fun p => ?_
  split
  · rfl
  refine brackets_bind (brackets_umountLevel _ _) fun p => ?_
  split
  · rfl
  refine brackets_bind (brackets_mountPageT _) fun _ => ?_
  refine brackets_bind (brackets_read _) fun ret => ?_
  refine brackets_bind (brackets_read _) fun h => ?_
  refine brackets_bind (brackets_write _ _) fun _ => ?_
  exact brackets_bind (brackets_umountPageT (by decide)) fun _ => rfl

/-- A task that executes `mount_page_do` or `umount_page`. -/
def WalkCall (p : PageProg Unit) : Prop :=
  (∃ log ph, p = mountPageDo log ph) ∨ ∃ log, p = (do let _ ← umountPage log; pure ())

theorem brackets_walkCall {p : PageProg Unit} (h : WalkCall p) : Brackets .out .out p := by
  rcases h with ⟨log, ph, rfl⟩ | ⟨log, rfl⟩
  · exact brackets_mountPageDo log ph
  · exact brackets_bind (brackets_umountPage log) fun _ => rfl

/-! ## The window is not stolen -/

/-- An operation that does not move the phase leaves the slot as it is. -/
theorem raceExec_slot {ok : T → PageOp → RaceState T → Prop} {t : T} {o : PageOp}
    {x x' : RaceState T} {r : o.Res} (h : raceExec ok t o x r x') {p : Phase}
    (hp : o.moves p = some p) : x'.page.slot = x.page.slot := by
  obtain ⟨-, s', rfl, hs | ⟨rfl, phys, rfl⟩⟩ := h
  · cases o <;> first
      | (cases hs
         rfl)
      | (cases p <;> cases hp)
  · rfl

/-- What moves the phase: the operations on the slot, and a write through the window. -/
theorem moves_cases {o : PageOp} {p p' : Phase} (h : o.moves p = some p') :
    p' = p ∨ o.writesSlot ∨ (p = .inside ∧ p' = .written) := by
  cases o <;> cases p <;> cases h <;> simp [PageOp.writesSlot]

theorem writesSlot_cases {o : PageOp} (h : o.writesSlot) :
    (∃ phys, o = .mountSlot phys) ∨ o = .clearSlot := by
  cases o <;> first
    | exact Or.inl ⟨_, rfl⟩
    | exact Or.inr rfl
    | cases h

/-- The window is accessed from inside. -/
theorem usesWindow_inside {o : PageOp} (h : o.usesWindow) {p p' : Phase} (hp : o.moves p = some p') :
    p = .inside := by
  cases o <;> first
    | exact False.elim h
    | (cases p <;> cases hp; rfl)

/-- What is noted of a task concerns that task. -/
theorem note_other (x : RaceState T) {t u : T} (hu : u ≠ t) (o : PageOp) (s' : PageState) :
    (x.note t o s').inUse u = x.inUse u ∧ (x.note t o s').mounted u = x.mounted u := by
  cases o <;> first
    | exact ⟨rfl, rfl⟩
    | exact ⟨if_neg hu, if_neg hu⟩
    | exact ⟨if_neg hu, rfl⟩

theorem note_same (x : RaceState T) (t : T) {o : PageOp} (ho : ¬ o.writesSlot) (s' : PageState) :
    x.note t o s' = ⟨s', x.mounted, x.inUse⟩ := by
  cases o <;> first
    | rfl
    | exact absurd trivial ho

/-- The task that performs the operation moves with its program. -/
theorem note_self {ok : T → PageOp → RaceState T → Prop} {t : T} {o : PageOp} {x x' : RaceState T}
    {r : o.Res} (h : raceExec ok t o x r x') {p p' : Phase} (hp : o.moves p = some p')
    (huse : p ≠ .out ↔ x.inUse t = true)
    (hown : p = .inside → ∃ phys, x.mounted t = some phys ∧ x.page.slot.next = some (frameOf phys)) :
    (p' ≠ .out ↔ x'.inUse t = true) ∧
    (p' = .inside → ∃ phys, x'.mounted t = some phys ∧ x'.page.slot.next = some (frameOf phys)) := by
  by_cases hslot : o.writesSlot
  · obtain ⟨-, s', rfl, hs⟩ := h
    rcases writesSlot_cases hslot with ⟨phys, rfl⟩ | rfl
    · have hs : s' = x.page.setSlot (calcPage phys) := by
        rcases hs with hs | ⟨hcon, -⟩
        · exact congrArg Prod.snd hs
        · cases hcon
      cases p <;> cases hp
      refine ⟨by simp [RaceState.note], fun _ => ⟨phys, if_pos rfl, ?_⟩⟩
      show s'.slot.next = _
      rw [hs, slot_setSlot]
      exact Pte.next_pteOf phys (by decide)
    · have hout : p' = .out := by cases p <;> cases hp <;> rfl
      exact ⟨by simp [RaceState.note, hout], fun hh => by rw [hout] at hh; cases hh⟩
  · have hsame : x'.inUse = x.inUse ∧ x'.mounted = x.mounted := by
      obtain ⟨-, s', rfl, -⟩ := h
      rw [note_same x t hslot]
      exact ⟨rfl, rfl⟩
    rw [hsame.1, hsame.2]
    rcases moves_cases hp with rfl | hcon | ⟨rfl, rfl⟩
    · exact ⟨huse, fun hin => by rw [raceExec_slot h hp]; exact hown hin⟩
    · exact absurd hcon hslot
    · exact ⟨⟨fun _ => huse.mp (by decide), fun _ => by decide⟩, fun hh => by cases hh⟩

/-- Each task is where its program says, the window shows what the task inside it mounted, and
there is one such task at most. -/
structure RaceInv (x : Threads PageOp PageOp.Res T (RaceState T)) : Prop where
  phase : ∀ t, ∃ p, Brackets .out p (x.prog t) ∧ (p ≠ .out ↔ x.shared.inUse t = true) ∧
    (p = .inside → ∃ phys, x.shared.mounted t = some phys ∧
      x.shared.page.slot.next = some (frameOf phys))
  one : ∀ t u, x.shared.inUse t = true → x.shared.inUse u = true → t = u

omit [DecidableEq T] in
theorem raceInv_start (s : PageState) {progs : T → PageProg Unit} (hprogs : ∀ t, WalkCall (progs t))
    (cur : T) : RaceInv (raceStart s progs cur) where
  phase t := ⟨.out, brackets_walkCall (hprogs t), by simp [raceStart], by simp⟩
  one := by simp [raceStart]

theorem raceStep_inv {x y : Threads PageOp PageOp.Res T (RaceState T)} (h : RaceInv x)
    (hstep : RaceStep slotQuiet x y) : RaceInv y := by
  cases hstep with
  | switch t hint => exact ⟨h.phase, h.one⟩
  | exec o next r x' hprog hexec =>
    obtain ⟨p, hbr, huse, hown⟩ := h.phase x.cur
    rw [hprog] at hbr
    obtain ⟨p', hp, hnext⟩ := hbr
    obtain ⟨huse', hown'⟩ := note_self hexec hp huse hown
    have hquiet : o.writesSlot → ∀ u, u ≠ x.cur → x.shared.inUse u = false := hexec.1
    have hother : ∀ u, u ≠ x.cur → x'.inUse u = x.shared.inUse u ∧
        x'.mounted u = x.shared.mounted u := by
      intro u hu
      obtain ⟨-, s', rfl, -⟩ := hexec
      exact note_other x.shared hu o s'
    -- A task that is inside the window keeps the others from moving: they may not write
    -- the slot, and they are not inside themselves.
    have hslot : ∀ u, u ≠ x.cur → x.shared.inUse u = true →
        x'.page.slot = x.shared.page.slot := by
      intro u hu hin
      rcases moves_cases hp with heq | hcon | ⟨hinside, -⟩
      · exact raceExec_slot hexec (heq ▸ hp)
      · rw [hquiet hcon u hu] at hin
        cases hin
      · exact absurd (h.one u x.cur hin (huse.mp (by rw [hinside]; decide))) hu
    have hexcl : ∀ u, u ≠ x.cur → x'.inUse u = true → ¬ x'.inUse x.cur = true := by
      intro u hu hin hcur
      rw [(hother u hu).1] at hin
      rcases moves_cases hp with heq | hcon | ⟨hinside, -⟩
      · exact hu (h.one u x.cur hin (huse.mp (heq ▸ huse'.mpr hcur)))
      · rw [hquiet hcon u hu] at hin
        cases hin
      · exact hu (h.one u x.cur hin (huse.mp (by rw [hinside]; decide)))
    refine ⟨?_, ?_⟩
    · intro t
      by_cases ht : t = x.cur
      · subst ht
        refine ⟨p', ?_, huse', hown'⟩
        show Brackets _ p' (if x.cur = x.cur then next r else _)
        rw [if_pos rfl]
        exact hnext r
      · obtain ⟨q, hbrq, huseq, hownq⟩ := h.phase t
        obtain ⟨hin, hmounted⟩ := hother t ht
        refine ⟨q, ?_, ?_, ?_⟩
        · show Brackets _ q (if t = x.cur then next r else x.prog t)
          rw [if_neg ht]
          exact hbrq
        · show _ ↔ x'.inUse t = true
          rw [hin]
          exact huseq
        · intro hq
          show ∃ phys, x'.mounted t = some phys ∧ x'.page.slot.next = _
          rw [hmounted, hslot t ht (huseq.mp (by rw [hq]; decide))]
          exact hownq hq
    · intro t u htin huin
      by_cases ht : t = x.cur
      · by_cases hu : u = x.cur
        · rw [ht, hu]
        · exact absurd (ht ▸ htin) (hexcl u hu huin)
      · by_cases hu : u = x.cur
        · exact absurd (hu ▸ huin) (hexcl t ht htin)
        · exact h.one t u ((hother t ht).1 ▸ htin) ((hother u hu).1 ▸ huin)

omit [DecidableEq T] in
/-- A task about to access the window is inside it. -/
theorem raceInv_own {x : Threads PageOp PageOp.Res T (RaceState T)} (h : RaceInv x) :
    WindowOwn x := by
  intro o next hprog hwin
  obtain ⟨p, hbr, -, hown⟩ := h.phase x.cur
  rw [hprog] at hbr
  obtain ⟨p', hp, -⟩ := hbr
  exact hown (usesWindow_inside hwin hp)

/-- In every interleaved run in which no task writes the slot between another one's mount and
unmount, every access through the window is to the frame of the task's own last mount. -/
theorem window_not_stolen {s : PageState} {progs : T → PageProg Unit}
    (hprogs : ∀ t, WalkCall (progs t)) {cur : T} {x : Threads PageOp PageOp.Res T (RaceState T)}
    (hrun : Relation.ReflTransGen (RaceStep slotQuiet) (raceStart s progs cur) x) : WindowOwn x :=
  raceInv_own (run_invariant RaceInv (fun _ _ h hstep => raceStep_inv h hstep) hrun
    (raceInv_start s hprogs cur))

/-! ## A schedule that steals it -/

/-- The task at hand performs its next operation. -/
def soloStep (x : Threads PageOp PageOp.Res T (RaceState T)) :
    Threads PageOp PageOp.Res T (RaceState T) :=
  match x.prog x.cur with
  | .ret _ => x
  | .op o next =>
    ⟨x.shared.note x.cur o (pageExec o x.shared.page).2,
      fun t => if t = x.cur then next (pageExec o x.shared.page).1 else x.prog t, x.cur⟩

/-- `n` operations of it. -/
def soloSteps : Nat → Threads PageOp PageOp.Res T (RaceState T) →
    Threads PageOp PageOp.Res T (RaceState T)
  | 0, x => x
  | n + 1, x => soloSteps n (soloStep x)

/-- `ok` allows the next operation, and those after it. -/
def soloOk (ok : T → PageOp → RaceState T → Prop) :
    Nat → Threads PageOp PageOp.Res T (RaceState T) → Prop
  | 0, _ => True
  | n + 1, x =>
    (match x.prog x.cur with
      | .ret _ => True
      | .op o _ => ok x.cur o x.shared) ∧ soloOk ok n (soloStep x)

theorem soloSteps_run {ok : T → PageOp → RaceState T → Prop} (n : Nat)
    (x : Threads PageOp PageOp.Res T (RaceState T)) (h : soloOk ok n x) :
    Relation.ReflTransGen (RaceStep ok) x (soloSteps n x) := by
  induction n generalizing x with
  | zero => exact .refl
  | succ n ih =>
    obtain ⟨hok, hrest⟩ := h
    refine .trans ?_ (ih (soloStep x) hrest)
    unfold soloStep
    cases hprog : x.prog x.cur with
    | ret a => exact .refl
    | op o next =>
      rw [hprog] at hok
      exact .single (.exec x o next _ _ hprog ⟨hok, _, rfl, Or.inl rfl⟩)

/-- A task that runs while the others are outside keeps the slot quiet. -/
theorem soloOk_quiet (n : Nat) (x : Threads PageOp PageOp.Res T (RaceState T))
    (h : ∀ u, u ≠ x.cur → x.shared.inUse u = false) : soloOk slotQuiet n x := by
  induction n generalizing x with
  | zero => trivial
  | succ n ih =>
    unfold soloOk soloStep
    cases hprog : x.prog x.cur with
    | ret a => exact ⟨trivial, ih x h⟩
    | op o next =>
      refine ⟨fun _ => h, ih _ ?_⟩
      intro u hu
      exact (note_other x.shared hu o _).1.trans (h u hu)

/-- Two tasks that mount a page each. -/
def twoMounts (t : Bool) : PageProg Unit :=
  mountPage 0x7000#64 (if t then 0xFFFFFFFFC0200000#64 else 0xFFFFFFFFC0400000#64)

theorem twoMounts_walkCall (t : Bool) : WalkCall (twoMounts t) := Or.inl ⟨_, _, rfl⟩

/-- One of them, through its first level. -/
def turnFirst : Threads PageOp PageOp.Res Bool (RaceState Bool) :=
  soloSteps 12 (raceStart (bootState fun _ => 0) twoMounts true)

/-- The other one, through two levels. -/
def turnSecond : Threads PageOp PageOp.Res Bool (RaceState Bool) :=
  soloSteps 24 ⟨turnFirst.shared, turnFirst.prog, false⟩

/-- The first one again, up to its access on the second level. -/
def turnThird : Threads PageOp PageOp.Res Bool (RaceState Bool) :=
  soloSteps 10 ⟨turnSecond.shared, turnSecond.prog, true⟩

/-- The tasks take turns outside the window, and the first one reads from its own PDP. -/
theorem window_not_stolen_turns :
    Relation.ReflTransGen (RaceStep slotQuiet) (raceStart (bootState fun _ => 0) twoMounts true)
      turnThird ∧
    turnThird.cur = true ∧ ∃ i next phys, turnThird.prog turnThird.cur = .op (.readEntry i) next ∧
      turnThird.shared.mounted turnThird.cur = some phys ∧
      turnThird.shared.page.slot.next = some (frameOf phys) := by
  have hfirst := soloSteps_run 12 (raceStart (bootState fun _ => 0) twoMounts true)
    (soloOk_quiet 12 _ fun _ _ => rfl)
  have hsecond : Relation.ReflTransGen (RaceStep slotQuiet)
      ⟨turnFirst.shared, turnFirst.prog, false⟩ turnSecond := by
    refine soloSteps_run 24 _ (soloOk_quiet 24 _ fun u hu => ?_)
    rw [Bool.eq_true_of_not_eq_false hu]
    decide +kernel
  have hthird : Relation.ReflTransGen (RaceStep slotQuiet)
      ⟨turnSecond.shared, turnSecond.prog, true⟩ turnThird := by
    refine soloSteps_run 10 _ (soloOk_quiet 10 _ fun u hu => ?_)
    rw [Bool.eq_false_of_not_eq_true hu]
    decide +kernel
  have hrun := ((hfirst.tail (.switch turnFirst false (by decide +kernel))).trans hsecond).tail
    (.switch turnSecond true (by decide +kernel))
  have hown := window_not_stolen twoMounts_walkCall (hrun.trans hthird)
  have hread : (match turnThird.prog turnThird.cur with
      | .op (.readEntry _) _ => true
      | _ => false) = true := by decide +kernel
  split at hread
  · next i next hprog =>
    obtain ⟨phys, hphys⟩ := hown _ next hprog trivial
    exact ⟨hrun.trans hthird, by decide +kernel, i, next, phys, hprog, hphys⟩
  · cases hread

/-- The task at hand is about to read an entry of a frame that it did not mount last. -/
def readsOther (x : Threads PageOp PageOp.Res T (RaceState T)) : Bool :=
  match x.prog x.cur, x.shared.mounted x.cur with
  | .op (.readEntry _) _, some phys => decide (x.shared.page.slot.next ≠ some (frameOf phys))
  | _, _ => false

omit [DecidableEq T] in
theorem readsOther_not_own {x : Threads PageOp PageOp.Res T (RaceState T)} (h : readsOther x = true) :
    ¬ WindowOwn x := by
  intro hown
  unfold readsOther at h
  split at h
  · rename_i i next phys hprog hmounted
    obtain ⟨phys', hm, hnext⟩ := hown _ _ hprog trivial
    rw [hmounted] at hm
    cases hm
    exact of_decide_eq_true h hnext
  · cases h

/-- The first task, up to its first access. -/
def stealFirst : Threads PageOp PageOp.Res Bool (RaceState Bool) :=
  soloSteps 10 (raceStart (bootState fun _ => 0) twoMounts true)

/-- The second task, through its first level and up to the access on the second. -/
def stealSecond : Threads PageOp PageOp.Res Bool (RaceState Bool) :=
  soloSteps 22 ⟨stealFirst.shared, stealFirst.prog, false⟩

/-- From counter 0: the first task has mounted `PML4` and turned interrupts on; the second runs
and mounts its PDP; back in the first task, `p[addr.l.pml4]` is an entry of that PDP. -/
theorem window_stolen :
    ∃ (s : PageState) (progs : Bool → PageProg Unit) (cur : Bool)
      (x : Threads PageOp PageOp.Res Bool (RaceState Bool)),
      PageTree s ∧ s.sema = 0 ∧ s.intf = true ∧ (∀ t, WalkCall (progs t)) ∧
      Relation.ReflTransGen (RaceStep fun _ _ _ => True) (raceStart s progs cur) x ∧
      ¬ WindowOwn x := by
  have hok : ∀ n (x : Threads PageOp PageOp.Res Bool (RaceState Bool)),
      soloOk (fun _ _ _ => True) n x := by
    intro n
    induction n with
    | zero => exact fun _ => trivial
    | succ n ih =>
      intro x
      refine ⟨?_, ih _⟩
      split <;> trivial
  refine ⟨bootState fun _ => 0, twoMounts, true, ⟨stealSecond.shared, stealSecond.prog, true⟩,
    bootState_tree _, by decide +kernel, by decide +kernel, twoMounts_walkCall, ?_,
    readsOther_not_own (by decide +kernel)⟩
  refine .tail (.trans (.tail (soloSteps_run 10 _ (hok 10 _)) (.switch _ false ?_))
    (soloSteps_run 22 _ (hok 22 _))) (.switch _ true ?_)
  · decide +kernel
  · decide +kernel

end OS64.Mm
