import OS64.Kernel.Task
import OS64.Lib.Run

/-!
# Runs of the scheduler

Processors create tasks and take timer ticks in any order, each call one step. The
only thing that keeps a processor from picking the task another one runs is the
state field, and `task_switch` marks the outgoing task active but never the incoming
one running. `tickMeets` says which ticks go well all the same, and
`one_task_one_cpu` that these are all that do.
-/

namespace OS64.Kernel

open OS64.Lib

/-- The tasks between two steps, with the tasks created so far. -/
structure TaskRun where
  sys : Tasks
  created : List Addr

/-- The state behind `task_init`, which got its block at `a`; before it no processor
had a task (`tss_init_common`). -/
def taskStart (s : Tasks) (a : Addr) : TaskRun := ⟨taskInit s a, [a]⟩

/-- A block that `kmalloc` may return for a task: not null, and no live task is in it. -/
def freshBlock (s : TaskRun) (a : Addr) : Prop := a ≠ 0 ∧ a ∉ s.created

/-- The steps: `task_init_cpu` on a processor other than 0, `task_fork`, a tick for
which `ok` holds on any processor, and whatever else the kernel does to memory
outside the tasks. -/
inductive TaskStep (ok : Tasks → Fin maxCpuNr → Prop) : TaskRun → TaskRun → Prop
  | initCpu (s : TaskRun) (id : Fin maxCpuNr) (a : Addr) (hid : id ≠ 0) (ha : freshBlock s a) :
      TaskStep ok s ⟨taskInitCpu s.sys id a, a :: s.created⟩
  | fork (s : TaskRun) (a : Addr) (r : AllRegs) (ha : freshBlock s a) :
      TaskStep ok s ⟨taskFork s.sys a r, a :: s.created⟩
  | tick (s : TaskRun) (id : Fin maxCpuNr) (rAddr : Addr) (r : AllRegs) (fuel : Nat) (ret : Addr)
      (sys' : Tasks) (hok : ok s.sys id)
      (h : taskSwitch fuel s.sys id rAddr r = some (ret, sys')) : TaskStep ok s ⟨sys', s.created⟩
  | other (s : TaskRun) (heap : Addr → Task) (h : ∀ a ∈ s.created, heap a = s.sys.heap a) :
      TaskStep ok s ⟨{ s.sys with heap := heap }, s.created⟩

/-- No two processors run the same task. -/
def oneCpu (s : Tasks) : Prop :=
  ∀ i j, i ≠ j → s.curr i ≠ 0 → s.curr i ≠ s.curr j

/-- A tick on processor `id` goes well: it does not look for a task, or every other
processor's task that is marked active is preceded, behind `curr[id]`, by another
task marked active. -/
def tickMeets (s : Tasks) (id : Fin maxCpuNr) : Prop :=
  s.curr id = 0 ∨ (s.heap (s.curr id)).state = taskStarting ∨
  ∀ j, j ≠ id → s.curr j ≠ 0 → (s.heap (s.curr j)).state = taskActive →
    Before (fun b => (s.heap b).next)
      (fun b => b == s.curr id || (s.heap b).state == taskActive) (s.curr j) (s.curr id)

/-! ## The ring keeps to the created tasks -/

/-- The links stay among the created tasks, and so do the processors. -/
structure TaskInv (s : TaskRun) : Prop where
  next_mem : ∀ a ∈ s.created, (s.sys.heap a).next ∈ s.created
  curr_mem : ∀ id, s.sys.curr id ≠ 0 → s.sys.curr id ∈ s.created
  curr_zero : s.sys.curr 0 ≠ 0
  null_free : 0 ∉ s.created

/-- The invariant depends on the links and on `curr` only. -/
theorem TaskInv.congr {s s' : Tasks} {l : List Addr} (h : TaskInv ⟨s, l⟩)
    (hnext : ∀ a ∈ l, (s'.heap a).next = (s.heap a).next) (hcurr : ∀ j, s'.curr j = s.curr j) :
    TaskInv ⟨s', l⟩ := by
  refine ⟨?_, ?_, ?_, h.null_free⟩
  · intro a ha
    show (s'.heap a).next ∈ l
    rw [hnext a ha]
    exact h.next_mem a ha
  · intro id hid
    change s'.curr id ≠ 0 at hid
    show s'.curr id ∈ l
    rw [hcurr id] at hid ⊢
    exact h.curr_mem id hid
  · show s'.curr 0 ≠ 0
    rw [hcurr 0]
    exact h.curr_zero

theorem taskStart_inv {s : Tasks} (hcurr : s.curr = fun _ => 0) {a : Addr} (ha : a ≠ 0) :
    TaskInv (taskStart s a) := by
  obtain ⟨hc, hn⟩ := taskInit_spec s a
  have hcurr' : ∀ id, (taskInit s a).curr id = if id = 0 then a else 0 := by
    intro id
    rw [hc]
    simp [Tasks.setCurr, hcurr]
  refine ⟨?_, ?_, ?_, ?_⟩
  · intro b hb
    rw [List.mem_singleton.mp hb]
    exact List.mem_singleton.mpr hn
  · intro id hne
    have h := hcurr' id
    by_cases hid : id = 0
    · rw [if_pos hid] at h
      exact List.mem_singleton.mpr h
    · rw [if_neg hid] at h
      exact absurd h hne
  · show (taskInit s a).curr 0 ≠ 0
    rw [hcurr' 0, if_pos rfl]
    exact ha
  · intro h
    exact ha (List.mem_singleton.mp h).symm

/-- A new task behind `curr[0]` keeps the links inside. -/
theorem inserted_next_mem {s : TaskRun} (h : TaskInv s) {heap : Addr → Task} {a : Addr}
    (hins : Inserted s.sys.heap heap (s.sys.curr 0) a) :
    ∀ b ∈ a :: s.created, (heap b).next ∈ a :: s.created := by
  have h0 := h.curr_mem 0 h.curr_zero
  intro b hb
  by_cases hba : b = a
  · rw [hba, hins.new_next]
    exact List.mem_cons_of_mem _ (h.next_mem _ h0)
  · by_cases hbp : b = s.sys.curr 0
    · rw [hbp, hins.prev]
      exact List.mem_cons_self
    · rw [hins.others b hba hbp]
      exact List.mem_cons_of_mem _ (h.next_mem b ((List.mem_cons.mp hb).resolve_left hba))

theorem fresh_ne_curr {s : TaskRun} (h : TaskInv s) {a : Addr} (ha : freshBlock s a)
    (id : Fin maxCpuNr) : a ≠ s.sys.curr id := by
  intro heq
  by_cases h0 : s.sys.curr id = 0
  · exact ha.1 (heq.trans h0)
  · exact ha.2 (heq ▸ h.curr_mem id h0)

/-- What the search of a tick finds has been created. -/
theorem nextActive_mem {s : TaskRun} (h : TaskInv s) {id : Fin maxCpuNr} {r : AllRegs} {fuel : Nat}
    {a : Addr} (h0 : s.sys.curr id ≠ 0)
    (hnext : nextActive (saveCurrent s.sys (s.sys.curr id) r) fuel (s.sys.curr id) = some a) :
    a ∈ s.created := by
  rw [nextActive_eq_walk] at hnext
  exact walk_mem (S := (· ∈ s.created)) h.next_mem (h.curr_mem id h0) hnext

theorem cons_null_free {s : TaskRun} (h : TaskInv s) {a : Addr} (ha : freshBlock s a) :
    0 ∉ a :: s.created := by
  intro h0
  rcases List.mem_cons.mp h0 with heq | hmem
  · exact ha.1 heq.symm
  · exact h.null_free hmem

/-- Every step keeps the invariant. -/
theorem taskStep_inv {ok : Tasks → Fin maxCpuNr → Prop} {s s' : TaskRun} (h : TaskInv s)
    (hstep : TaskStep ok s s') : TaskInv s' := by
  cases hstep with
  | initCpu id a hid ha =>
    obtain ⟨hcurr, hins⟩ := taskInitCpu_spec s.sys hid (fresh_ne_curr h ha 0)
    have hcurr' : ∀ j, (taskInitCpu s.sys id a).curr j = if j = id then a else s.sys.curr j := by
      intro j
      rw [hcurr]
      rfl
    refine ⟨inserted_next_mem h hins, ?_, ?_, cons_null_free h ha⟩
    · intro j hj
      show (taskInitCpu s.sys id a).curr j ∈ _
      change (taskInitCpu s.sys id a).curr j ≠ 0 at hj
      rw [hcurr' j] at hj ⊢
      by_cases hji : j = id
      · rw [if_pos hji]
        exact List.mem_cons_self
      · rw [if_neg hji] at hj ⊢
        exact List.mem_cons_of_mem _ (h.curr_mem j hj)
    · show (taskInitCpu s.sys id a).curr 0 ≠ 0
      rw [hcurr' 0, if_neg (Ne.symm hid)]
      exact h.curr_zero
  | fork a r ha =>
    obtain ⟨-, hins⟩ := taskFork_spec s.sys r (fresh_ne_curr h ha 0)
    exact ⟨inserted_next_mem h hins, fun j hj => List.mem_cons_of_mem _ (h.curr_mem j hj),
      h.curr_zero, cons_null_free h ha⟩
  | tick id rAddr r fuel ret sys' hok htick =>
    have hnext_mem : ∀ b ∈ s.created, (sys'.heap b).next ∈ s.created := by
      intro b hb
      rw [taskSwitch_next htick b]
      exact h.next_mem b hb
    rcases taskSwitch_cases htick with ⟨-, -, hs⟩ | ⟨h0, -, -, hs⟩ | ⟨h0, -, a, hnext, -, hs⟩
    · rw [hs]
      exact h
    · refine ⟨hnext_mem, ?_, ?_, h.null_free⟩
      · rw [hs]
        exact h.curr_mem
      · rw [hs]
        exact h.curr_zero
    · have ha := nextActive_mem h h0 hnext
      refine ⟨hnext_mem, ?_, ?_, h.null_free⟩
      · intro j hj
        subst hs
        show (if j = id then a else s.sys.curr j) ∈ s.created
        change (if j = id then a else s.sys.curr j) ≠ 0 at hj
        by_cases hji : j = id
        · rw [if_pos hji]
          exact ha
        · rw [if_neg hji] at hj ⊢
          exact h.curr_mem j hj
      · subst hs
        show (if 0 = id then a else s.sys.curr 0) ≠ 0
        by_cases h0i : 0 = id
        · rw [if_pos h0i]
          intro hnull
          exact h.null_free (hnull ▸ ha)
        · rw [if_neg h0i]
          exact h.curr_zero
  | other heap hsame =>
    exact TaskInv.congr h (fun b hb => congrArg Task.next (hsame b hb)) fun _ => rfl

/-! ## One task, one processor -/

/-- In a state where no two processors share a task, a tick keeps it so just when it
goes well. -/
theorem taskSwitch_oneCpu_iff {s : TaskRun} (h : TaskInv s) (hone : oneCpu s.sys) {fuel : Nat}
    {id : Fin maxCpuNr} {rAddr ret : Addr} {r : AllRegs} {sys' : Tasks}
    (htick : taskSwitch fuel s.sys id rAddr r = some (ret, sys')) :
    oneCpu sys' ↔ tickMeets s.sys id := by
  rcases taskSwitch_cases htick with ⟨h0, -, hs⟩ | ⟨h0, hst, -, hs⟩ | ⟨h0, hst, a, hnext, -, hs⟩
  · rw [hs]
    exact ⟨fun _ => Or.inl h0, fun _ => hone⟩
  · rw [hs]
    exact ⟨fun _ => Or.inr (Or.inl hst), fun _ => hone⟩
  · have ha0 : a ≠ 0 := fun hnull => h.null_free (hnull ▸ nextActive_mem h h0 hnext)
    have hcurr : ∀ j, sys'.curr j = if j = id then a else s.sys.curr j := by
      intro j
      rw [hs]
      rfl
    rw [nextActive_eq_walk] at hnext
    have hsat := walk_sat hnext
    -- An active task of another processor is picked just when nothing comes before it.
    have hpick : ∀ j, j ≠ id → s.sys.curr j ≠ 0 → (s.sys.heap (s.sys.curr j)).state = taskActive →
        (a = s.sys.curr j ↔ ¬ Before (fun b => (s.sys.heap b).next)
          (fun b => b == s.sys.curr id || (s.sys.heap b).state == taskActive)
          (s.sys.curr j) (s.sys.curr id)) := by
      intro j hj hj0 hact
      exact walk_eq_iff_not_before (by simp [hact]) hnext
    constructor
    · intro hone'
      refine Or.inr (Or.inr fun j hj hj0 hact => ?_)
      by_contra hnot
      have heq := (hpick j hj hj0 hact).mpr hnot
      apply hone' id j (Ne.symm hj)
      · rw [hcurr id, if_pos rfl]
        exact ha0
      · rw [hcurr id, hcurr j, if_pos rfl, if_neg hj]
        exact heq
    · intro hmeets
      have hrest := (hmeets.resolve_left h0).resolve_left hst
      have hfree : ∀ j, j ≠ id → a ≠ s.sys.curr j := by
        intro j hj heq
        have hj0 : s.sys.curr j ≠ 0 := heq ▸ ha0
        have hact : (s.sys.heap (s.sys.curr j)).state = taskActive := by
          rw [heq] at hsat
          have hne : s.sys.curr j ≠ s.sys.curr id := hone j id hj hj0
          simpa [hne] using hsat
        exact (hpick j hj hj0 hact).mp heq (hrest j hj hj0 hact)
      intro i j hij hi0
      rw [hcurr i, hcurr j]
      rw [hcurr i] at hi0
      by_cases hii : i = id
      · rw [if_pos hii, if_neg (fun hji => hij (hii.trans hji.symm))]
        exact hfree j fun hji => hij (hii.trans hji.symm)
      · rw [if_neg hii] at hi0 ⊢
        by_cases hji : j = id
        · rw [if_pos hji]
          exact fun heq => hfree i hii heq.symm
        · rw [if_neg hji]
          exact hone i j hij hi0

/-- A step whose tick goes well keeps the processors apart. -/
theorem taskStep_oneCpu {s s' : TaskRun} (h : TaskInv s) (hone : oneCpu s.sys)
    (hstep : TaskStep tickMeets s s') : oneCpu s'.sys := by
  cases hstep with
  | initCpu id a hid ha =>
    obtain ⟨hcurr, -⟩ := taskInitCpu_spec s.sys hid (fresh_ne_curr h ha 0)
    have hcurr' : ∀ j, (taskInitCpu s.sys id a).curr j = if j = id then a else s.sys.curr j := by
      intro j
      rw [hcurr]
      rfl
    intro i j hij hi0
    show (taskInitCpu s.sys id a).curr i ≠ (taskInitCpu s.sys id a).curr j
    change (taskInitCpu s.sys id a).curr i ≠ 0 at hi0
    rw [hcurr' i] at hi0 ⊢
    rw [hcurr' j]
    by_cases hii : i = id
    · rw [if_pos hii, if_neg (fun hji => hij (hii.trans hji.symm))]
      exact fresh_ne_curr h ha j
    · rw [if_neg hii] at hi0 ⊢
      by_cases hji : j = id
      · rw [if_pos hji]
        exact Ne.symm (fresh_ne_curr h ha i)
      · rw [if_neg hji]
        exact hone i j hij hi0
  | fork a r ha => exact hone
  | tick id rAddr r fuel ret sys' hok htick => exact (taskSwitch_oneCpu_iff h hone htick).mpr hok
  | other heap hsame => exact hone

/-- In every run whose ticks all go well no two processors share a task; and a tick
in its last state keeps it so just when it goes well too. -/
theorem one_task_one_cpu {s₀ : Tasks} {a : Addr} {s : TaskRun} (hcurr : s₀.curr = fun _ => 0)
    (ha : a ≠ 0) (hrun : Relation.ReflTransGen (TaskStep tickMeets) (taskStart s₀ a) s) :
    oneCpu s.sys ∧
    ∀ fuel id rAddr r ret sys', taskSwitch fuel s.sys id rAddr r = some (ret, sys') →
      (oneCpu sys' ↔ tickMeets s.sys id) := by
  have hstart : oneCpu (taskStart s₀ a).sys := by
    intro i j hij hi0
    show (taskInit s₀ a).curr i ≠ (taskInit s₀ a).curr j
    change (taskInit s₀ a).curr i ≠ 0 at hi0
    rw [(taskInit_spec s₀ a).1] at hi0 ⊢
    simp only [Tasks.setCurr, hcurr] at hi0 ⊢
    by_cases hi : i = 0
    · rw [if_pos hi, if_neg (fun hj => hij (hi.trans hj.symm))]
      exact ha
    · rw [if_neg hi] at hi0
      exact absurd rfl hi0
  obtain ⟨hinv, hone⟩ := run_invariant (fun s => TaskInv s ∧ oneCpu s.sys)
    (fun s s' h hstep => ⟨taskStep_inv h.1 hstep, taskStep_oneCpu h.1 h.2 hstep⟩) hrun
    ⟨taskStart_inv hcurr ha, hstart⟩
  exact ⟨hone, fun _ _ _ _ _ _ htick => taskSwitch_oneCpu_iff hinv hone htick⟩

/-! ## Two processors -/

/-- A heap of zeroes, no processor with a task. -/
def bareTasks : Tasks where
  heap := fun _ => ⟨0, .zero, 0, 0, 0, fun _ => 0⟩
  curr := fun _ => 0
  nextPid := 1

/-- Processor 0 runs task `0x1000` and processor 1 task `0x2000`. -/
def twoCpus : TaskRun := ⟨taskInitCpu (taskStart bareTasks 0x1000).sys 1 0x2000, [0x2000, 0x1000]⟩

theorem twoCpus_run (ok : Tasks → Fin maxCpuNr → Prop) :
    Relation.ReflTransGen (TaskStep ok) (taskStart bareTasks 0x1000) twoCpus :=
  Relation.ReflTransGen.single (.initCpu _ 1 0x2000 (by decide) ⟨by decide, by decide⟩)

/-- A third task is forked, processor 0 goes on to it, and processor 1 to the task that it has left. -/
theorem one_task_one_cpu_turns :
    ∃ s sys', Relation.ReflTransGen (TaskStep tickMeets) (taskStart bareTasks 0x1000) s ∧
      s.sys.curr 0 = 0x3000 ∧ s.sys.curr 1 = 0x2000 ∧
      taskSwitch 2 s.sys 1 0 .zero = some (regsAddr 0x1000, sys') ∧ sys'.curr 1 = 0x1000 ∧
      oneCpu sys' := by
  have hfork := (twoCpus_run tickMeets).tail (.fork twoCpus 0x3000 .zero ⟨by decide, by decide⟩)
  have hmeets : tickMeets (taskFork twoCpus.sys 0x3000 .zero) 0 := by
    -- the task of processor 1 is marked running
    have hnone : ∀ j : Fin maxCpuNr, j ≠ 0 → (taskFork twoCpus.sys 0x3000 .zero).curr j ≠ 0 →
        ((taskFork twoCpus.sys 0x3000 .zero).heap
          ((taskFork twoCpus.sys 0x3000 .zero).curr j)).state ≠ taskActive := by decide
    exact Or.inr (Or.inr fun j hj hj0 hact => absurd hact (hnone j hj hj0))
  obtain ⟨t, ht, hother, hone, hzero, hnext, hstate, hleft, u, hu, hu1⟩ :
      ∃ t, taskSwitch 2 (taskFork twoCpus.sys 0x3000 .zero) 0 0 .zero = some (regsAddr 0x3000, t) ∧
        (∀ j, j ≠ 1 → t.curr j ≠ 0 → t.curr j = 0x3000) ∧ t.curr 1 = 0x2000 ∧ t.curr 0 = 0x3000 ∧
        (t.heap 0x2000).next = 0x1000 ∧ (t.heap 0x1000).state = taskActive ∧
        (t.heap 0x2000).state ≠ taskStarting ∧
        ∃ u, taskSwitch 2 t 1 0 .zero = some (regsAddr 0x1000, u) ∧ u.curr 1 = 0x1000 :=
    ⟨_, rfl, by decide, rfl, rfl, rfl, rfl, by decide, _, rfl, rfl⟩
  have hrun := hfork.tail (.tick _ 0 0 .zero 2 _ t hmeets ht)
  have hmeets' : tickMeets t 1 := by
    refine Or.inr (Or.inr fun j hj hj0 hact => ?_)
    rw [hother j hj hj0, hone]
    refine .here ?_ ?_
    · rw [hnext]
      decide
    · rw [hnext, hstate]
      rfl
  exact ⟨⟨t, _⟩, u, hrun, hzero, hone, hu, hu1,
    ((one_task_one_cpu rfl (by decide) hrun).2 2 1 0 .zero _ u hu).mpr hmeets'⟩

/-- A tick on processor 0, which leaves its task marked active, and one on processor 1:
both processors then run task `0x1000`. -/
theorem two_cpus_one_task :
    ∃ s, Relation.ReflTransGen (TaskStep fun _ _ => True) (taskStart bareTasks 0x1000) s ∧
      s.sys.curr 0 = 0x1000 ∧ s.sys.curr 1 = 0x1000 ∧ ¬ oneCpu s.sys := by
  have h0 : ∃ t, taskSwitch 2 twoCpus.sys 0 0 .zero = some (regsAddr 0x1000, t) ∧
      ∃ u, taskSwitch 2 t 1 0 .zero = some (regsAddr 0x1000, u) ∧ u.curr 0 = 0x1000 ∧
        u.curr 1 = 0x1000 := by
    refine ⟨_, rfl, _, rfl, rfl, rfl⟩
  obtain ⟨t, ht, u, hu, hu0, hu1⟩ := h0
  refine ⟨⟨u, twoCpus.created⟩, ?_, hu0, hu1, fun hone => ?_⟩
  · have hrun := (twoCpus_run fun _ _ => True).tail (.tick _ 0 0 .zero 2 _ t trivial ht)
    exact hrun.tail (.tick _ 1 0 .zero 2 _ u trivial hu)
  · exact hone 0 1 (by decide) (by rw [hu0]; decide) (hu0.trans hu1.symm)

end OS64.Kernel
