import OS64.Kernel.TaskRun

/-!
# What a new task is made of

Three functions build a `task` in a block of `kmalloc`, which holds whatever its last
owner left there. `task_init` and `task_init_cpu` assign every field that the kernel
uses; `task_fork` assigns `pid`, `r` and `next` and leaves `state`, `tls` and `files`
alone. On a heap of zeroes the state it leaves happens to be `TASK_ACTIVE`;
`forkMeets` says what a recycled block has to hold for the new task to be as good as
one of the others, and `every_task_initialised` that all tasks are while it does.
-/

namespace OS64.Kernel

open OS64.Lib

/-- The tasks between two steps, with those that `task_fork` made. -/
structure InitRun extends TaskRun where
  forked : List Addr

variable (desc : Addr → Prop)

/-- The entries of a table of files are null or descriptors. -/
def filesOk (files : Fin maxOpenFiles → Addr) : Prop := ∀ i, files i = 0 ∨ desc (files i)

/-- The fields that a task is selected and runs by have been set. -/
structure Initialised (t : Task) : Prop where
  state : t.state = taskActive ∨ t.state = taskRunning ∨ t.state = taskStarting
  tls : t.tls = tlsAddr
  files : filesOk desc t.files

/-- All tasks of the ring are initialised, and the forked ones pass the test of
`task_switch`. -/
def allInitialised (s : InitRun) : Prop :=
  (∀ a ∈ s.created, Initialised desc (s.sys.heap a)) ∧
  ∀ a ∈ s.forked, (s.sys.heap a).state = taskActive

/-- What the block of a new task holds will do for `task_fork`. -/
def forkMeets (t : Task) : Prop := t.state = taskActive ∧ t.tls = tlsAddr ∧ filesOk desc t.files

/-- The steps: `task_init_cpu` on a processor other than 0, `task_fork` in a block
whose contents satisfy `ok`, ticks on any processor, and whatever the kernel and the
owners of blocks do to memory outside the tasks. -/
inductive InitStep (ok : Task → Prop) : InitRun → InitRun → Prop
  | initCpu (s : InitRun) (id : Fin maxCpuNr) (a : Addr) (hid : id ≠ 0)
      (ha : freshBlock s.toTaskRun a) :
      InitStep ok s ⟨⟨taskInitCpu s.sys id a, a :: s.created⟩, s.forked⟩
  | fork (s : InitRun) (a : Addr) (r : AllRegs) (ha : freshBlock s.toTaskRun a)
      (hok : ok (s.sys.heap a)) :
      InitStep ok s ⟨⟨taskFork s.sys a r, a :: s.created⟩, a :: s.forked⟩
  | tick (s : InitRun) (id : Fin maxCpuNr) (rAddr : Addr) (r : AllRegs) (fuel : Nat) (ret : Addr)
      (sys' : Tasks) (h : taskSwitch fuel s.sys id rAddr r = some (ret, sys')) :
      InitStep ok s ⟨⟨sys', s.created⟩, s.forked⟩
  | other (s : InitRun) (heap : Addr → Task) (h : ∀ a ∈ s.created, heap a = s.sys.heap a) :
      InitStep ok s ⟨⟨{ s.sys with heap := heap }, s.created⟩, s.forked⟩

/-- The state behind `task_init`, which got its block at `a`. -/
def initStart (s : Tasks) (a : Addr) : InitRun := ⟨taskStart s a, []⟩

variable {desc}

/-- The steps are steps of the scheduler. -/
theorem InitStep.taskStep {ok : Task → Prop} {s s' : InitRun} (h : InitStep ok s s') :
    TaskStep (fun _ _ => True) s.toTaskRun s'.toTaskRun := by
  cases h with
  | initCpu id a hid ha => exact .initCpu s.toTaskRun id a hid ha
  | fork a r ha hok => exact .fork s.toTaskRun a r ha
  | tick id rAddr r fuel ret sys' h => exact .tick s.toTaskRun id rAddr r fuel ret sys' trivial h
  | other heap h => exact .other s.toTaskRun heap h

/-! ## What the constructors assign -/

theorem taskInit_new (s : Tasks) (a : Addr) : Initialised desc ((taskInit s a).heap a) := by
  have hnew : (taskInit s a).heap a = ⟨s.nextPid, .zero, a, taskRunning, tlsAddr, fun _ => 0⟩ := by
    simp [taskInit, Tasks.setTask, Tasks.setCurr]
  rw [hnew]
  exact ⟨Or.inr (Or.inl rfl), rfl, fun _ => Or.inl rfl⟩

theorem taskInitCpu_new (s : Tasks) {id : Fin maxCpuNr} {a : Addr} (hid : id ≠ 0)
    (ha : a ≠ s.curr 0) : Initialised desc ((taskInitCpu s id a).heap a) := by
  have hnew : (taskInitCpu s id a).heap a =
      ⟨s.nextPid, .zero, (s.heap (s.curr 0)).next, taskRunning, tlsAddr, fun _ => 0⟩ := by
    simp [taskInitCpu, Tasks.setTask, Tasks.setCurr, Ne.symm hid, ha, Ne.symm ha]
  rw [hnew]
  exact ⟨Or.inr (Or.inl rfl), rfl, fun _ => Or.inl rfl⟩

/-- `task_fork` leaves three fields as the block held them. -/
theorem taskFork_new (s : Tasks) {a : Addr} (r : AllRegs) (ha : a ≠ s.curr 0) :
    ((taskFork s a r).heap a).state = (s.heap a).state ∧
    ((taskFork s a r).heap a).tls = (s.heap a).tls ∧
    ((taskFork s a r).heap a).files = (s.heap a).files := by
  simp [taskFork, Tasks.setTask, ha]

/-- The new task of `task_fork` is initialised and passes the test of `task_switch` just
when its block held the right values already. -/
theorem taskFork_new_iff (s : Tasks) {a : Addr} (r : AllRegs) (ha : a ≠ s.curr 0) :
    (Initialised desc ((taskFork s a r).heap a) ∧ ((taskFork s a r).heap a).state = taskActive) ↔
      forkMeets desc (s.heap a) := by
  obtain ⟨hstate, htls, hfiles⟩ := taskFork_new s r ha
  constructor
  · rintro ⟨hinit, hact⟩
    exact ⟨hstate ▸ hact, htls ▸ hinit.tls, hfiles ▸ hinit.files⟩
  · rintro ⟨hact, ht, hf⟩
    have hact' : ((taskFork s a r).heap a).state = taskActive := hstate.trans hact
    exact ⟨⟨Or.inl hact', htls.trans ht, hfiles ▸ hf⟩, hact'⟩

/-! ## What the steps keep -/

/-- A task that is put in front of another keeps that one's fields. -/
theorem inserted_fields {h h' : Addr → Task} {p a b : Addr} (hins : Inserted h h' p a)
    (hb : b ≠ a) :
    (h' b).state = (h b).state ∧ (h' b).tls = (h b).tls ∧ (h' b).files = (h b).files := by
  by_cases hbp : b = p
  · rw [hbp, hins.prev]
    exact ⟨rfl, rfl, rfl⟩
  · rw [hins.others b hb hbp]
    exact ⟨rfl, rfl, rfl⟩

theorem Initialised.of_fields {t t' : Task} (h : Initialised desc t)
    (hsame : t'.state = t.state ∧ t'.tls = t.tls ∧ t'.files = t.files) : Initialised desc t' := by
  obtain ⟨hstate, htls, hfiles⟩ := hsame
  exact ⟨hstate ▸ h.state, htls.trans h.tls, hfiles ▸ h.files⟩

/-- A tick changes the state of the outgoing task only, to one of the three, and to
`TASK_ACTIVE` where it was not `TASK_STARTING`. -/
theorem taskSwitch_fields {fuel : Nat} {s s' : Tasks} {id : Fin maxCpuNr} {rAddr ret : Addr}
    {r : AllRegs} (h : taskSwitch fuel s id rAddr r = some (ret, s')) (b : Addr) :
    (s'.heap b).tls = (s.heap b).tls ∧ (s'.heap b).files = (s.heap b).files ∧
    ((s'.heap b).state = (s.heap b).state ∨ (s'.heap b).state = taskActive ∨
      ((s.heap b).state = taskStarting ∧ (s'.heap b).state = taskRunning)) := by
  rcases taskSwitch_cases h with ⟨-, -, rfl⟩ | ⟨-, hst, -, rfl⟩ | ⟨-, -, a, -, -, rfl⟩
  · exact ⟨rfl, rfl, Or.inl rfl⟩
  · by_cases hb : b = s.curr id
    · simp [Tasks.setTask, hb, hst]
    · simp [Tasks.setTask, hb]
  · by_cases hb : b = s.curr id
    · simp [saveCurrent, Tasks.setTask, Tasks.setCurr, hb]
    · simp [saveCurrent, Tasks.setTask, Tasks.setCurr, hb]

theorem forked_sub {ok : Task → Prop} {s s' : InitRun} (h : ∀ a ∈ s.forked, a ∈ s.created)
    (hstep : InitStep ok s s') : ∀ a ∈ s'.forked, a ∈ s'.created := by
  cases hstep with
  | initCpu id a hid ha => exact fun b hb => List.mem_cons_of_mem _ (h b hb)
  | fork a r ha hok =>
    intro b hb
    rcases List.mem_cons.mp hb with rfl | hb
    · exact List.mem_cons_self
    · exact List.mem_cons_of_mem _ (h b hb)
  | tick id rAddr r fuel ret sys' ht => exact h
  | other heap hsame => exact h

/-- A new task keeps the others as they are: all are initialised just when it is. -/
theorem inserted_initialised {s : InitRun} (hall : allInitialised desc s)
    (hsub : ∀ a ∈ s.forked, a ∈ s.created) {sys' : Tasks} {a : Addr}
    (ha : freshBlock s.toTaskRun a) (hins : Inserted s.sys.heap sys'.heap (s.sys.curr 0) a) :
    (∀ b ∈ s.created, Initialised desc (sys'.heap b)) ∧
    ∀ b ∈ s.forked, (sys'.heap b).state = taskActive := by
  have hne : ∀ b ∈ s.created, b ≠ a := fun b hb heq => ha.2 (heq ▸ hb)
  constructor
  · intro b hb
    exact (hall.1 b hb).of_fields (inserted_fields hins (hne b hb))
  · intro b hb
    rw [(inserted_fields hins (hne b (hsub b hb))).1]
    exact hall.2 b hb

/-- From a state where all tasks are initialised a fork keeps it so just when its block
held the right values. -/
theorem fork_initialised_iff {s : InitRun} (hinv : TaskInv s.toTaskRun)
    (hall : allInitialised desc s) (hsub : ∀ a ∈ s.forked, a ∈ s.created) {a : Addr} {r : AllRegs}
    (ha : freshBlock s.toTaskRun a) :
    allInitialised desc ⟨⟨taskFork s.sys a r, a :: s.created⟩, a :: s.forked⟩ ↔
      forkMeets desc (s.sys.heap a) := by
  have hne : a ≠ s.sys.curr 0 := fresh_ne_curr hinv ha 0
  obtain ⟨hold, hfold⟩ := inserted_initialised hall hsub ha (taskFork_spec s.sys r hne).2
  rw [← taskFork_new_iff s.sys r hne]
  constructor
  · rintro ⟨hcreated, hforked⟩
    exact ⟨hcreated a List.mem_cons_self, hforked a List.mem_cons_self⟩
  · rintro ⟨hinit, hact⟩
    exact ⟨List.forall_mem_cons.mpr ⟨hinit, hold⟩, List.forall_mem_cons.mpr ⟨hact, hfold⟩⟩

theorem initStep_initialised {s s' : InitRun} (hinv : TaskInv s.toTaskRun)
    (hall : allInitialised desc s) (hsub : ∀ a ∈ s.forked, a ∈ s.created)
    (hstep : InitStep (forkMeets desc) s s') : allInitialised desc s' := by
  cases hstep with
  | initCpu id a hid ha =>
    have hne : a ≠ s.sys.curr 0 := fresh_ne_curr hinv ha 0
    obtain ⟨hold, hfold⟩ := inserted_initialised hall hsub ha (taskInitCpu_spec s.sys hid hne).2
    exact ⟨List.forall_mem_cons.mpr ⟨taskInitCpu_new s.sys hid hne, hold⟩, hfold⟩
  | fork a r ha hok => exact (fork_initialised_iff hinv hall hsub ha).mpr hok
  | tick id rAddr r fuel ret sys' ht =>
    constructor
    · intro b hb
      obtain ⟨htls, hfiles, hstate⟩ := taskSwitch_fields ht b
      have h := hall.1 b hb
      refine ⟨?_, htls.trans h.tls, hfiles ▸ h.files⟩
      rcases hstate with hstate | hstate | ⟨-, hstate⟩
      · exact hstate ▸ h.state
      · exact Or.inl hstate
      · exact Or.inr (Or.inl hstate)
    · intro b hb
      have hact := hall.2 b hb
      obtain ⟨-, -, hstate⟩ := taskSwitch_fields ht b
      rcases hstate with hstate | hstate | ⟨hstarting, -⟩
      · exact hstate.trans hact
      · exact hstate
      · rw [hact] at hstarting
        exact absurd hstarting (by simp [taskActive, taskStarting])
  | other heap hsame =>
    constructor
    · intro b hb
      show Initialised desc (heap b)
      rw [hsame b hb]
      exact hall.1 b hb
    · intro b hb
      show (heap b).state = taskActive
      rw [hsame b (hsub b hb)]
      exact hall.2 b hb

/-- In every run whose forks all find the right values in their blocks every task is
initialised; and a fork in its last state keeps it so just when it finds them too. -/
theorem every_task_initialised {s₀ : Tasks} {a : Addr} {s : InitRun} (hcurr : s₀.curr = fun _ => 0)
    (ha : a ≠ 0) (hrun : Relation.ReflTransGen (InitStep (forkMeets desc)) (initStart s₀ a) s) :
    allInitialised desc s ∧
    ∀ b r, freshBlock s.toTaskRun b →
      (allInitialised desc ⟨⟨taskFork s.sys b r, b :: s.created⟩, b :: s.forked⟩ ↔
        forkMeets desc (s.sys.heap b)) := by
  have hstart : allInitialised desc (initStart s₀ a) := by
    refine ⟨fun b hb => ?_, fun b hb => absurd hb List.not_mem_nil⟩
    rw [List.mem_singleton.mp hb]
    exact taskInit_new s₀ a
  obtain ⟨hinv, hall, hsub⟩ := run_invariant
    (fun s => TaskInv s.toTaskRun ∧ allInitialised desc s ∧ ∀ a ∈ s.forked, a ∈ s.created)
    (fun s s' h hstep => ⟨taskStep_inv h.1 hstep.taskStep,
      initStep_initialised h.1 h.2.1 h.2.2 hstep, forked_sub h.2.2 hstep⟩) hrun
    ⟨taskStart_inv hcurr ha, hstart, fun b hb => absurd hb List.not_mem_nil⟩
  exact ⟨hall, fun b r hb => fork_initialised_iff hinv hall hsub hb⟩

/-! ## A recycled block -/

/-- A block that its last owner left as a task of the right values. -/
def goodBlock : Task := ⟨7, .zero, 0, taskActive, tlsAddr, fun _ => 0⟩

/-- The blocks at `0x2000` and `0x3000`: of a task, and of zeros. -/
theorem every_task_initialised_fork :
    ∃ s, Relation.ReflTransGen (InitStep (forkMeets fun _ => False)) (initStart bareTasks 0x1000) s ∧
      s.forked = [0x2000] ∧ s.sys.curr 0 = 0x2000 ∧ allInitialised (fun _ => False) s ∧
      ¬ allInitialised (fun _ => False)
        ⟨⟨taskFork s.sys 0x3000 .zero, 0x3000 :: s.created⟩, 0x3000 :: s.forked⟩ := by
  let heap : Addr → Task := fun a =>
    if a = 0x2000 then goodBlock else (taskInit bareTasks 0x1000).heap a
  let sys : Tasks := { taskInit bareTasks 0x1000 with heap := heap }
  have hother : InitStep (forkMeets fun _ => False) (initStart bareTasks 0x1000) ⟨⟨sys, [0x1000]⟩, []⟩ := by
    refine .other _ heap fun a ha => ?_
    rw [List.mem_singleton.mp ha]
    rfl
  have hfork : InitStep (forkMeets fun _ => False) ⟨⟨sys, [0x1000]⟩, []⟩
      ⟨⟨taskFork sys 0x2000 .zero, [0x2000, 0x1000]⟩, [0x2000]⟩ :=
    .fork _ 0x2000 .zero ⟨by decide, by decide⟩ ⟨rfl, rfl, fun _ => Or.inl rfl⟩
  obtain ⟨t, ht, hcurr, htls⟩ : ∃ t, taskSwitch 2 (taskFork sys 0x2000 .zero) 0 0 .zero =
      some (regsAddr 0x2000, t) ∧ t.curr 0 = 0x2000 ∧ (t.heap 0x3000).tls = 0 := ⟨_, rfl, rfl, rfl⟩
  have hrun := ((Relation.ReflTransGen.single hother).tail hfork).tail (.tick _ 0 0 .zero 2 _ t ht)
  obtain ⟨hall, hiff⟩ := every_task_initialised rfl (by decide) hrun
  refine ⟨_, hrun, rfl, hcurr, hall, fun hbad => ?_⟩
  have hnew : (0x3000 : Addr) ∉ [(0x2000 : Addr), 0x1000] := by decide
  have hgood := ((hiff 0x3000 .zero ⟨by decide, hnew⟩).mp hbad).2.1
  exact absurd (htls.symm.trans hgood) (by decide)

/-- A block that its last owner filled with ones makes a task whose state is none of the
three. -/
theorem forked_task_uninitialised :
    ∃ s, Relation.ReflTransGen (InitStep fun _ => True) (initStart bareTasks 0x1000) s ∧
      0x2000 ∈ s.created ∧ (s.sys.heap 0x2000).state = 0xFF ∧
      ¬ Initialised (fun _ => False) (s.sys.heap 0x2000) ∧
      ¬ allInitialised (fun _ => False) s := by
  -- The owner of the block at `0x2000` writes to it before it gives it back.
  let heap : Addr → Task := fun a =>
    if a = 0x2000 then ⟨~~~0, .zero, ~~~0, 0xFF, ~~~0, fun _ => ~~~0⟩
    else (taskInit bareTasks 0x1000).heap a
  let sys : Tasks := { taskInit bareTasks 0x1000 with heap := heap }
  have hother : InitStep (fun _ => True) (initStart bareTasks 0x1000) ⟨⟨sys, [0x1000]⟩, []⟩ := by
    refine .other _ heap fun a ha => ?_
    rw [List.mem_singleton.mp ha]
    rfl
  have hfork : InitStep (fun _ => True) ⟨⟨sys, [0x1000]⟩, []⟩
      ⟨⟨taskFork sys 0x2000 .zero, [0x2000, 0x1000]⟩, [0x2000]⟩ :=
    .fork _ 0x2000 .zero ⟨by decide, by decide⟩ trivial
  have hstate : ((taskFork sys 0x2000 .zero).heap 0x2000).state = 0xFF := rfl
  have hbad : ¬ Initialised (fun _ => False) ((taskFork sys 0x2000 .zero).heap 0x2000) := by
    intro h
    have hst := h.state
    rw [hstate] at hst
    simp [taskActive, taskRunning, taskStarting] at hst
  exact ⟨_, (Relation.ReflTransGen.single hother).tail hfork, List.mem_cons_self, hstate, hbad,
    fun hall => hbad (hall.1 _ List.mem_cons_self)⟩

end OS64.Kernel
