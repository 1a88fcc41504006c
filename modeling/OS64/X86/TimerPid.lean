import Mathlib.Data.List.Nodup
import Mathlib.Data.List.Perm.Subperm
import OS64.Kernel.TaskRun
import OS64.X86.TimerRun

/-!
# Task numbers and the timer interrupt

The field `r` of a task, which the second half of `timer_intr` takes for its stack, comes
right behind `pid`. Its first instruction, `call rest_regs`, pushes a return address,
and the place for that is `pid`: a resumed task has the address behind the call for its
number. `resumes` says which task that is, and `task_numbers_stable` that all numbers,
and what `sys_getpid` makes of them, last exactly as long as no such task had another
number before.

Mirroring notes:
- `next_pid`, which only the constructors use, is kept beside memory.
- The constructors are compiled code, too: what they leave in memory is any picture of
  what the C functions do to the tasks and to `curr`.
-/

namespace OS64.X86

open OS64.Lib OS64.Lib.X86 OS64.Kernel

variable (img : TimerImage) {code : Cpu → Cpu}

/-- A tick in memory `m` goes on with the task `n`: the current one if it is starting,
else the first active one behind it, the current one counting as active. -/
def resumes (m : ByteMem) (n : Addr) : Prop :=
  img.cur m ≠ 0 ∧
  (((taskAt m (img.cur m)).state = taskStarting ∧ n = img.cur m) ∨
    ((taskAt m (img.cur m)).state ≠ taskStarting ∧
      ∃ fuel, walk (fun b => (taskAt m b).next)
        (fun b => b == img.cur m || (taskAt m b).state == taskActive) fuel (img.cur m) = some n))

/-- What a tick does to the tasks, as far as their links and numbers go. -/
structure TickEffect (m m' : ByteMem) : Prop where
  next : ∀ a ∈ img.tasks, (taskAt m' a).next = (taskAt m a).next
  pid_kept : ∀ a ∈ img.tasks, ¬ resumes img m a → (taskAt m' a).pid = (taskAt m a).pid
  pid_lost : ∀ a, resumes img m a → (taskAt m' a).pid = img.afterRest
  curr : ∀ j, img.currAt m' j = img.currAt m j ∨ resumes img m (img.currAt m' j)
  lapic : ld m' img.lapicVar = ld m img.lapicVar

variable {img}

theorem resumes_unique {m : ByteMem} {n n' : Addr} (h : resumes img m n) (h' : resumes img m n') :
    n = n' := by
  obtain ⟨-, ⟨hst, hn⟩ | ⟨hst, fuel, hn⟩⟩ := h
  · obtain ⟨-, ⟨-, hn'⟩ | ⟨hst', -⟩⟩ := h'
    · exact hn.trans hn'.symm
    · exact absurd hst hst'
  · obtain ⟨-, ⟨hst', -⟩ | ⟨-, fuel', hn'⟩⟩ := h'
    · exact absurd hst' hst
    · exact walk_det hn hn'

theorem resumes_mem {m : ByteMem} {n : Addr} (hcurr : img.cur m ≠ 0 → img.cur m ∈ img.tasks)
    (hnext : ∀ a ∈ img.tasks, (taskAt m a).next ∈ img.tasks) (h : resumes img m n) :
    n ∈ img.tasks := by
  obtain ⟨h0, ⟨-, hn⟩ | ⟨-, fuel, hn⟩⟩ := h
  · exact hn ▸ hcurr h0
  · exact walk_mem (S := (· ∈ img.tasks)) hnext (hcurr h0) hn

/-- Every frame is that of a context. -/
theorem exists_context (r : AllRegs) : ∃ x : Context, x.frame = r :=
  ⟨{ reg := fun
      | .r9 => r.c.r9
      | .r8 => r.c.r8
      | .rbp => r.c.rbp
      | .rdi => r.c.rdi
      | .rsi => r.c.rsi
      | .rdx => r.c.rdx
      | .rcx => r.c.rcx
      | .rbx => r.c.rbx
      | .rax => r.c.rax
      | .rsp => r.i.rsp
      | _ => 0
     rip := r.i.rip, cs := r.i.cs, rflags := r.i.rflags, ss := r.i.ss, cr3 := r.reg1 }, rfl⟩

/-- A tick comes to its end, and this is what it does to the tasks. -/
theorem timerTick_effect {cpu : Cpu}
    (hcurr : img.cur cpu.mem ≠ 0 → img.cur cpu.mem ∈ img.tasks)
    (hnext : ∀ a ∈ img.tasks, (taskAt cpu.mem a).next ∈ img.tasks)
    (hlapic : ld cpu.mem img.lapicVar = img.lapic)
    (hstack : Apart (img.ist.toNat - 128) 128 (img.lapic + 0xB0).toNat 4)
    (hcode : ∀ c, timerSave img (cpu.interrupt img.ist img.handler) = some c →
      TaskSwitchCode img c (code c)) (spaces : BitVec 64 → ByteMem) :
    ∃ cpu', timerIntr img code spaces (cpu.interrupt img.ist img.handler) = some cpu' ∧
      TickEffect img cpu.mem cpu'.mem := by
  obtain ⟨c, hsave, hst, hsp, hrdi, -, hmem⟩ := timerSave_spec img cpu
  obtain ⟨habi, ⟨fuel, t, hswitch, htasks, hcurrs⟩, hlapicd⟩ := hcode c hsave
  obtain ⟨hsame, hcurrSame, hlapicSame⟩ := owned_congr fun x hx => hmem x (owned_off_stack hx)
  have hcur : (img.tasksAt c.mem).curr img.id = img.cur cpu.mem := hcurrSame img.id
  have hroom := img.ist_room
  have hist := img.ist.isLt
  have hintr : timerIntr img code spaces (cpu.interrupt img.ist img.handler) =
      timerRestore img spaces (code c) := by
    have hrip : (code c).rip = img.afterSwitch := habi.rip.trans (Cpu.stack_head hst)
    unfold timerIntr
    rw [hsave]
    exact if_pos hrip
  have hlapic' : ld (code c).mem img.lapicVar = img.lapic := by
    rw [hlapicd, hlapicSame]
    exact hlapic
  -- The C function: links and numbers are as before.
  have hnexts : ∀ a ∈ img.tasks, (taskAt (code c).mem a).next = (taskAt cpu.mem a).next := by
    intro a ha
    rw [htasks a ha, taskSwitch_next hswitch a, ← hsame a ha]
    rfl
  have hpids : ∀ a ∈ img.tasks, (taskAt (code c).mem a).pid = (taskAt cpu.mem a).pid := by
    intro a ha
    rw [htasks a ha, taskSwitch_pid hswitch a, ← hsame a ha]
    rfl
  have hcases := taskSwitch_cases hswitch
  rw [hcur] at hcases
  by_cases h0 : img.cur cpu.mem = 0
  · -- No task: the frame on the stack is taken back, with the word below it.
    have hnone : ∀ a, ¬ resumes img cpu.mem a := fun a h => h.1 h0
    obtain ⟨hret, ht⟩ : (code c).reg .rax = c.reg .rdi ∧ t = img.tasksAt c.mem := by
      rcases hcases with ⟨-, hret, ht⟩ | ⟨hne, -⟩ | ⟨hne, -⟩
      · exact ⟨hret, ht⟩
      · exact absurd h0 hne
      · exact absurd h0 hne
    have hf : (c.reg .rdi).toNat = img.ist.toNat - 120 := by
      rw [hrdi, Cpu.sp_tail hst]
      omega
    obtain ⟨x, hx⟩ := exists_context (allRegsAt (code c).mem (c.reg .rdi))
    have hvar := img.lapicVar_stack
    unfold Apart at hvar hstack
    obtain ⟨s', hs', -, -, -, -, -, -, -, -, hkeep⟩ :=
      timerRestore_frame img spaces (by omega) (by omega) (by unfold Apart; omega)
        (by unfold Apart; omega) (fun y hy hy' => img.stack_shared y (by omega) (by omega))
        hret hx.symm hlapic'
    have hoff : ∀ y, img.owned y → ¬ img.eoi y → s'.mem y = (code c).mem y := by
      intro y hown hne
      have hy := owned_off_stack hown
      refine hkeep y (owned_shared hown) fun hw => ?_
      rcases hw with hw | hw | hw
      · omega
      · omega
      · exact hne hw
    have htask : ∀ a ∈ img.tasks, taskAt s'.mem a = taskAt (code c).mem a := by
      intro a ha
      have haeoi := img.task_eoi a ha
      unfold Apart at haeoi
      refine taskAt_congr (img.task_fits a ha) fun y hy hy' => hoff y ?_ ?_
      · exact Or.inl ⟨a, ha, hy, hy'⟩
      · unfold TimerImage.eoi
        omega
    have hcurr' : ∀ j, img.currAt s'.mem j = img.currAt cpu.mem j := by
      intro j
      have hcfits := img.curr_fits
      have hceoi := img.curr_eoi
      have hj : j.val < 16 := j.isLt
      have hd : img.currAt (code c).mem j = img.currAt cpu.mem j := by
        rw [hcurrs j, ht]
        exact hcurrSame j
      rw [← hd]
      unfold Apart at hceoi
      unfold maxCpuNr at hcfits hceoi
      refine quad_congr (by omega) fun y hy hy' => hoff y ?_ ?_
      · exact Or.inr (Or.inl (by unfold maxCpuNr; omega))
      · unfold TimerImage.eoi
        omega
    refine ⟨s', hintr.trans hs', ?_, ?_, fun a h => absurd h (hnone a), fun j => Or.inl (hcurr' j),
      ?_⟩
    · intro a ha
      rw [htask a ha, hnexts a ha]
    · intro a ha _
      rw [htask a ha, hpids a ha]
    · have hveoi := img.lapicVar_eoi
      unfold Apart at hveoi
      rw [hlapic, ← hlapic']
      refine ld_congr fun y hy hy' => hoff y ?_ ?_
      · exact Or.inr (Or.inr ⟨hy, hy'⟩)
      · unfold TimerImage.eoi
        omega
  · -- The stub resumes a task: its structure is the stack.
    obtain ⟨n, hres, hret, hcurrn⟩ : ∃ n, resumes img cpu.mem n ∧ (code c).reg .rax = regsAddr n ∧
        ∀ j, img.currAt (code c).mem j = if j = img.id then n else img.currAt cpu.mem j := by
      have hstate : ((img.tasksAt c.mem).heap (img.cur cpu.mem)).state =
          (taskAt cpu.mem (img.cur cpu.mem)).state := by
        rw [← hsame _ (hcurr h0)]
        rfl
      rcases hcases with ⟨hz, -⟩ | ⟨-, hstart, hret, ht⟩ | ⟨-, hstart, n, hn, hret, ht⟩
      · exact absurd hz h0
      · refine ⟨img.cur cpu.mem, ⟨h0, Or.inl ⟨hstate.symm.trans hstart, rfl⟩⟩, hret, fun j => ?_⟩
        rw [hcurrs j, ht]
        by_cases hj : j = img.id
        · rw [if_pos hj, hj]
          exact hcur
        · rw [if_neg hj]
          exact hcurrSame j
      · refine ⟨n, ⟨h0, Or.inr ⟨fun h => hstart (hstate.trans h), fuel, ?_⟩⟩, hret, fun j => ?_⟩
        · rw [nextActive_eq_walk] at hn
          rw [← hn]
          refine (walk_congr (S := (· ∈ img.tasks)) hnext ?_ ?_ fuel (hcurr h0)).symm
          · intro a ha
            show (taskAt c.mem a).next = _
            rw [hsame a ha]
          · intro a ha
            show (a == _ || (taskAt c.mem a).state == _) = _
            rw [hsame a ha]
        · rw [hcurrs j, ht]
          by_cases hj : j = img.id
          · rw [if_pos hj]
            exact if_pos hj
          · rw [if_neg hj]
            exact (if_neg hj).trans (hcurrSame j)
    have hn : n ∈ img.tasks := resumes_mem hcurr hnext hres
    obtain ⟨x, hx⟩ := exists_context (taskAt (code c).mem n).r
    obtain ⟨s', hs', -, -, -, -, -, -, -, hpid, hkeep⟩ :=
      timerRestore_spec img spaces hn hret hx.symm hlapic'
    obtain ⟨hrest, hnextn, -, hcurrs', hlapics⟩ := restoreWrites_keeps hn hkeep
    refine ⟨s', hintr.trans hs', ?_, ?_, ?_, ?_, ?_⟩
    · intro a ha
      by_cases han : a = n
      · rw [han, hnextn, hnexts n hn]
      · rw [hrest a ha han, hnexts a ha]
    · intro a ha hnot
      rw [hrest a ha (fun han => hnot (han ▸ hres)), hpids a ha]
    · intro a ha
      rw [resumes_unique ha hres]
      exact hpid
    · intro j
      rw [hcurrs' j, hcurrn j]
      by_cases hj : j = img.id
      · rw [if_pos hj]
        exact Or.inr hres
      · rw [if_neg hj]
        exact Or.inl rfl
    · rw [hlapics, hlapic', hlapic]

/-! ## Runs -/

/-- The variables that all processors share, and the address behind `call rest_regs`. -/
structure KernelVars where
  curr : Addr
  lapicVar : Addr
  lapic : Addr
  afterRest : Addr

/-- Memory, `next_pid`, the tasks created so far, and for the record the number each one
was given. -/
structure PidRun where
  mem : ByteMem
  nextPid : BitVec 64
  tasks : List Addr
  number : Addr → BitVec 64

variable (v : KernelVars)

/-- The tasks in a memory. -/
def KernelVars.sys (m : ByteMem) (nextPid : BitVec 64) : Tasks :=
  ⟨taskAt m, fun j => quad m v.curr (8 * j.val), nextPid⟩

/-- `sys_getpid` on processor `id`. -/
def sysGetpid (m : ByteMem) (id : Fin maxCpuNr) : BitVec 32 :=
  (taskAt m ((v.sys m 0).curr id)).pid.setWidth 32

/-- The stub of one of the processors, with the tasks of `s`. -/
structure Serves (s : PidRun) (img : TimerImage) : Prop where
  tasks : img.tasks = s.tasks
  curr : img.curr = v.curr
  lapicVar : img.lapicVar = v.lapicVar
  lapic : img.lapic = v.lapic
  afterRest : img.afterRest = v.afterRest
  stack_eoi : Apart (img.ist.toNat - 128) 128 (img.lapic + 0xB0).toNat 4

/-- A constructor has turned memory `m` into `m'`, which shows the tasks `t`. -/
structure Built (tasks : List Addr) (t : Tasks) (m m' : ByteMem) : Prop where
  heap : ∀ a ∈ tasks, taskAt m' a = t.heap a
  curr : ∀ j, (v.sys m' 0).curr j = t.curr j
  lapic : ld m' v.lapicVar = ld m v.lapicVar

/-- The record after the task at `a` has been made. -/
def PidRun.add (s : PidRun) (a : Addr) (m : ByteMem) : PidRun where
  mem := m
  nextPid := s.nextPid + 1
  tasks := a :: s.tasks
  number := fun b => if b = a then s.nextPid else s.number b

/-- The steps: `task_init_cpu` on a processor other than 0, `task_fork`, a timer interrupt
for which `ok` holds on any processor in whatever context, and anything the kernel and
the tasks do to other memory. -/
inductive PidStep (ok : TimerImage → ByteMem → Prop) : PidRun → PidRun → Prop
  | initCpu (s : PidRun) (id : Fin maxCpuNr) (a : Addr) (m : ByteMem) (hid : id ≠ 0)
      (ha : a ≠ 0 ∧ a ∉ s.tasks)
      (h : Built v (a :: s.tasks) (taskInitCpu (v.sys s.mem s.nextPid) id a) s.mem m) :
      PidStep ok s (s.add a m)
  | fork (s : PidRun) (a : Addr) (r : AllRegs) (m : ByteMem) (ha : a ≠ 0 ∧ a ∉ s.tasks)
      (h : Built v (a :: s.tasks) (taskFork (v.sys s.mem s.nextPid) a r) s.mem m) :
      PidStep ok s (s.add a m)
  | tick (s : PidRun) (img : TimerImage) (code : Cpu → Cpu) (cpu cpu' : Cpu)
      (hserves : Serves v s img) (hcpu : cpu.mem = s.mem) (hok : ok img s.mem)
      (hcode : ∀ c, timerSave img (cpu.interrupt img.ist img.handler) = some c →
        TaskSwitchCode img c (code c)) (spaces : BitVec 64 → ByteMem)
      (h : timerIntr img code spaces (cpu.interrupt img.ist img.handler) = some cpu') :
      PidStep ok s { s with mem := cpu'.mem }
  | other (s : PidRun) (m : ByteMem) (h : Built v s.tasks (v.sys s.mem s.nextPid) s.mem m) :
      PidStep ok s { s with mem := m }

/-- The task that a tick is about to resume has the address behind `call rest_regs` for
its number. -/
def pidMeets (img : TimerImage) (m : ByteMem) : Prop :=
  ∀ n, resumes img m n → (taskAt m n).pid = img.afterRest

/-- The numbers that the first `n` tasks were given, the last one first. -/
def pidsGiven (n : Nat) : List (BitVec 64) :=
  (List.range n).reverse.map fun i => BitVec.ofNat 64 (i + 1)

/-- The tasks are linked among themselves and numbered in the order of creation. -/
structure PidInv (s : PidRun) : Prop where
  task : TaskInv ⟨v.sys s.mem s.nextPid, s.tasks⟩
  nodup : s.tasks.Nodup
  lapic : ld s.mem v.lapicVar = v.lapic
  numbers : s.tasks.map s.number = pidsGiven s.tasks.length
  nextPid : s.nextPid = BitVec.ofNat 64 (s.tasks.length + 1)

/-- The numbers are where the constructors put them. -/
def pidsKept (s : PidRun) : Prop := ∀ a ∈ s.tasks, (taskAt s.mem a).pid = s.number a

variable {v}

theorem pidsGiven_succ (n : Nat) : pidsGiven (n + 1) = BitVec.ofNat 64 (n + 1) :: pidsGiven n := by
  unfold pidsGiven
  rw [List.range_succ, List.reverse_append]
  rfl

/-- As many numbers as there are addresses are all different. -/
theorem pidsGiven_nodup {n : Nat} (hn : n ≤ 2 ^ 64) : (pidsGiven n).Nodup := by
  unfold pidsGiven
  refine List.Nodup.map_on ?_ (List.nodup_reverse.mpr List.nodup_range)
  intro i hi j hj hij
  rw [List.mem_reverse, List.mem_range] at hi hj
  have h := congrArg BitVec.toNat hij
  rw [BitVec.toNat_ofNat, BitVec.toNat_ofNat] at h
  omega

theorem nodup_length_le {l : List Addr} (h : l.Nodup) : l.length ≤ 2 ^ 64 := by
  have hmap : (l.map BitVec.toNat).Nodup := h.map fun _ _ => BitVec.eq_of_toNat_eq
  have hsub : (l.map BitVec.toNat) ⊆ List.range (2 ^ 64) := by
    intro x hx
    obtain ⟨a, -, rfl⟩ := List.mem_map.mp hx
    exact List.mem_range.mpr a.isLt
  have hle := (List.subperm_of_subset hmap hsub).length_le
  rwa [List.length_map, List.length_range] at hle

theorem Built.taskInv {tasks : List Addr} {t : Tasks} {m m' : ByteMem} (h : Built v tasks t m m')
    (hinv : TaskInv ⟨t, tasks⟩) (nextPid : BitVec 64) : TaskInv ⟨v.sys m' nextPid, tasks⟩ :=
  hinv.congr (fun a ha => congrArg Task.next (h.heap a ha)) h.curr

/-- A constructor gives the new task the next number and leaves the others theirs. -/
theorem PidInv.add {s : PidRun} (hinv : PidInv v s) {a : Addr} {m : ByteMem} {t : Tasks}
    (ha : a ≠ 0 ∧ a ∉ s.tasks) (h : Built v (a :: s.tasks) t s.mem m)
    (ht : TaskInv ⟨t, a :: s.tasks⟩) : PidInv v (s.add a m) := by
  have hlen : (s.add a m).tasks.length = s.tasks.length + 1 := rfl
  refine ⟨h.taskInv ht _, List.nodup_cons.mpr ⟨ha.2, hinv.nodup⟩, h.lapic.trans hinv.lapic, ?_, ?_⟩
  · have hold : s.tasks.map (s.add a m).number = s.tasks.map s.number :=
      List.map_congr_left fun b hb => if_neg fun (hba : b = a) => ha.2 (hba ▸ hb)
    rw [hlen, pidsGiven_succ, ← hinv.numbers, ← hold, ← hinv.nextPid]
    exact congrArg (· :: _) (if_pos rfl)
  · rw [hlen, BitVec.ofNat_add, ← hinv.nextPid]
    rfl

theorem pidsKept_add {s : PidRun} (hkept : pidsKept s) {a : Addr} {m : ByteMem} {t : Tasks}
    (ha : a ≠ 0 ∧ a ∉ s.tasks) (h : Built v (a :: s.tasks) t s.mem m)
    (hnew : (t.heap a).pid = s.nextPid)
    (hold : ∀ b ∈ s.tasks, (t.heap b).pid = (taskAt s.mem b).pid) : pidsKept (s.add a m) := by
  intro b hb
  show (taskAt m b).pid = if b = a then s.nextPid else s.number b
  rw [h.heap b hb]
  rcases List.mem_cons.mp hb with rfl | hb
  · rw [if_pos rfl]
    exact hnew
  · rw [if_neg fun (hba : b = a) => ha.2 (hba ▸ hb), hold b hb]
    exact hkept b hb

theorem inserted_pid {h h' : Addr → Task} {p a b : Addr} (hins : Inserted h h' p a) (hb : b ≠ a) :
    (h' b).pid = (h b).pid := by
  by_cases hbp : b = p
  · rw [hbp, hins.prev]
  · rw [hins.others b hb hbp]

/-- A tick keeps the tasks linked, and all numbers just when it meets `pidMeets`. -/
theorem timerTick_pidsKept_iff {s : PidRun} (hinv : PidInv v s) (hkept : pidsKept s)
    {img : TimerImage} {code : Cpu → Cpu} {spaces : BitVec 64 → ByteMem} {cpu cpu' : Cpu}
    (hserves : Serves v s img) (hcpu : cpu.mem = s.mem)
    (hcode : ∀ c, timerSave img (cpu.interrupt img.ist img.handler) = some c →
      TaskSwitchCode img c (code c))
    (h : timerIntr img code spaces (cpu.interrupt img.ist img.handler) = some cpu') :
    PidInv v { s with mem := cpu'.mem } ∧
    (pidsKept { s with mem := cpu'.mem } ↔ pidMeets img s.mem) := by
  obtain ⟨mem, nextPid, tasks, number⟩ := s
  obtain ⟨htasks, hc, hv, hl, -, hstack⟩ := hserves
  change cpu.mem = mem at hcpu
  change img.tasks = tasks at htasks
  subst hcpu htasks
  have hcurrAt : ∀ m j, (v.sys m nextPid).curr j = img.currAt m j := by
    intro m j
    unfold TimerImage.currAt
    rw [hc]
    rfl
  have hcurr : img.cur cpu.mem ≠ 0 → img.cur cpu.mem ∈ img.tasks := by
    intro h0
    have hmem := hinv.task.curr_mem img.id
    rw [hcurrAt] at hmem
    exact hmem h0
  have hlapic : ld cpu.mem img.lapicVar = img.lapic := by
    rw [hv, hl]
    exact hinv.lapic
  -- the tick writes the frame it saves, the task it resumes and the current task, no `next`
  obtain ⟨cpu₂, hintr, heff⟩ := timerTick_effect hcurr hinv.task.next_mem hlapic hstack hcode spaces
  have hcpu₂ : cpu₂ = cpu' := Option.some.inj (hintr.symm.trans h)
  rw [hcpu₂] at heff
  have hmem : ∀ n, resumes img cpu.mem n → n ∈ img.tasks := fun n =>
    resumes_mem hcurr hinv.task.next_mem
  have hcurr' : ∀ j, (v.sys cpu'.mem nextPid).curr j = (v.sys cpu.mem nextPid).curr j ∨
      (v.sys cpu'.mem nextPid).curr j ∈ img.tasks := by
    intro j
    rw [hcurrAt, hcurrAt]
    exact (heff.curr j).imp_right fun hres => hmem _ hres
  refine ⟨⟨⟨?_, ?_, ?_, hinv.task.null_free⟩, hinv.nodup, ?_, hinv.numbers, hinv.nextPid⟩, ?_⟩
  · intro a ha
    show (taskAt cpu'.mem a).next ∈ img.tasks
    rw [heff.next a ha]
    exact hinv.task.next_mem a ha
  · intro id hid
    change (v.sys cpu'.mem nextPid).curr id ≠ 0 at hid
    show (v.sys cpu'.mem nextPid).curr id ∈ img.tasks
    rcases hcurr' id with heq | hin
    · rw [heq] at hid ⊢
      exact hinv.task.curr_mem id hid
    · exact hin
  · show (v.sys cpu'.mem nextPid).curr 0 ≠ 0
    rcases hcurr' 0 with heq | hin
    · rw [heq]
      exact hinv.task.curr_zero
    · exact fun h0 => hinv.task.null_free (h0 ▸ hin)
  · show ld cpu'.mem v.lapicVar = v.lapic
    rw [← hv, heff.lapic, hv]
    exact hinv.lapic
  · constructor
    · intro hkept' n hres
      have hn := hmem n hres
      rw [← heff.pid_lost n hres]
      exact (hkept n hn).trans (hkept' n hn).symm
    · intro hmeets a ha
      have hold : (taskAt cpu.mem a).pid = number a := hkept a ha
      show (taskAt cpu'.mem a).pid = number a
      rw [← hold]
      by_cases hres : resumes img cpu.mem a
      · rw [heff.pid_lost a hres]
        exact (hmeets a hres).symm
      · exact heff.pid_kept a ha hres

theorem pidStep_inv {s s' : PidRun} (hinv : PidInv v s) (hkept : pidsKept s)
    (hstep : PidStep v pidMeets s s') : PidInv v s' ∧ pidsKept s' := by
  cases hstep with
  | initCpu id a m hid ha h =>
    have hne : a ≠ (v.sys s.mem s.nextPid).curr 0 := fresh_ne_curr hinv.task ha 0
    obtain ⟨-, hins⟩ := taskInitCpu_spec (v.sys s.mem s.nextPid) hid hne
    have ht : TaskStep (fun _ _ => True) ⟨v.sys s.mem s.nextPid, s.tasks⟩ _ :=
      .initCpu _ id a hid ha
    refine ⟨hinv.add ha h (taskStep_inv hinv.task ht), pidsKept_add hkept ha h ?_ ?_⟩
    · simp [taskInitCpu, Tasks.setTask, Tasks.setCurr, Ne.symm hid, hne]
      rfl
    · exact fun b hb => inserted_pid hins fun hba => ha.2 (hba ▸ hb)
  | fork a r m ha h =>
    have hne : a ≠ (v.sys s.mem s.nextPid).curr 0 := fresh_ne_curr hinv.task ha 0
    obtain ⟨-, hins⟩ := taskFork_spec (v.sys s.mem s.nextPid) r hne
    have ht : TaskStep (fun _ _ => True) ⟨v.sys s.mem s.nextPid, s.tasks⟩ _ := .fork _ a r ha
    refine ⟨hinv.add ha h (taskStep_inv hinv.task ht), pidsKept_add hkept ha h ?_ ?_⟩
    · simp [taskFork, Tasks.setTask, hne]
      rfl
    · exact fun b hb => inserted_pid hins fun hba => ha.2 (hba ▸ hb)
  | tick img code cpu cpu' hserves hcpu hok hcode spaces h =>
    obtain ⟨hinv', hiff⟩ := timerTick_pidsKept_iff hinv hkept hserves hcpu hcode h
    exact ⟨hinv', hiff.mpr hok⟩
  | other m h =>
    refine ⟨⟨h.taskInv hinv.task _, hinv.nodup, h.lapic.trans hinv.lapic, hinv.numbers,
      hinv.nextPid⟩, fun a ha => ?_⟩
    show (taskAt m a).pid = s.number a
    rw [h.heap a ha]
    exact hkept a ha

/-- The state behind `task_init`, which got its block at `a` and made of memory `m`. -/
def pidStart (a : Addr) (m : ByteMem) : PidRun := ⟨m, 2, [a], fun _ => 1⟩

/-- In every run whose ticks all meet `pidMeets` each task keeps the number it was given,
all numbers are different, and `sys_getpid` returns the running task's; and a tick in
the last state keeps the numbers just when it meets `pidMeets` too. -/
theorem task_numbers_stable {a : Addr} {m₀ m : ByteMem} {s : PidRun} (ha : a ≠ 0)
    (hcurr : ∀ j, (v.sys m₀ 1).curr j = 0) (hlapic : ld m₀ v.lapicVar = v.lapic)
    (hinit : Built v [a] (taskInit (v.sys m₀ 1) a) m₀ m)
    (hrun : Relation.ReflTransGen (PidStep v pidMeets) (pidStart a m) s) :
    (∀ b ∈ s.tasks, (taskAt s.mem b).pid = s.number b) ∧
    (s.tasks.map fun b => (taskAt s.mem b).pid).Nodup ∧
    (∀ id, (v.sys s.mem 0).curr id ≠ 0 →
      sysGetpid v s.mem id = (s.number ((v.sys s.mem 0).curr id)).setWidth 32) ∧
    ∀ (img : TimerImage) (code : Cpu → Cpu) (spaces : BitVec 64 → ByteMem) (cpu cpu' : Cpu),
      Serves v s img → cpu.mem = s.mem →
      (∀ c, timerSave img (cpu.interrupt img.ist img.handler) = some c →
        TaskSwitchCode img c (code c)) →
      timerIntr img code spaces (cpu.interrupt img.ist img.handler) = some cpu' →
      ((∀ b ∈ s.tasks, (taskAt cpu'.mem b).pid = s.number b) ↔ pidMeets img s.mem) := by
  have hstart : PidInv v (pidStart a m) := by
    refine ⟨hinit.taskInv (taskStart_inv (funext hcurr) ha) _, List.nodup_singleton a,
      hinit.lapic.trans hlapic, rfl, rfl⟩
  have hkept₀ : pidsKept (pidStart a m) := by
    intro b hb
    show (taskAt m b).pid = 1
    rw [hinit.heap b hb, List.mem_singleton.mp hb]
    simp [taskInit, Tasks.setTask, Tasks.setCurr, KernelVars.sys]
  obtain ⟨hinv, hkept⟩ := run_invariant (fun s => PidInv v s ∧ pidsKept s)
    (fun s s' h hstep => pidStep_inv h.1 h.2 hstep) hrun ⟨hstart, hkept₀⟩
  refine ⟨hkept, ?_, ?_, ?_⟩
  · rw [List.map_congr_left hkept, hinv.numbers]
    exact pidsGiven_nodup (nodup_length_le hinv.nodup)
  · intro id hid
    have hmem : (v.sys s.mem 0).curr id ∈ s.tasks := hinv.task.curr_mem id hid
    unfold sysGetpid
    rw [hkept _ hmem]
  · intro img code spaces cpu cpu' hserves hcpu hcode hintr
    exact (timerTick_pidsKept_iff hinv hkept hserves hcpu hcode hintr).2

/-! ## One task -/

/-- The variables and the stub of the only processor, with its task at `0x10000`. -/
def soloVars : KernelVars := ⟨0x30000, 0x32000, 0x40000, 0x120⟩

def soloImage : TimerImage := pairImage.only 0x10000 List.mem_cons_self

/-- Memory before `task_init`: zeroes but for `lapic_addr`. -/
def bareMem : ByteMem := fun x => if x = 0x32002 then 4 else 0

/-- Memory behind `task_init`. -/
def soloMem : ByteMem := fun x =>
  if x = 0x10000 then 1
  else if x = 0x1008A then 1
  else if x = 0x10090 then 1
  else if x = 0x10096 then 0xF0
  else if x = 0x10097 then 0xFF
  else if x = 0x10098 then 0xFF
  else if x = 0x30002 then 1
  else if x = 0x32002 then 4
  else 0

theorem soloMem_built :
    Built soloVars [0x10000] (taskInit (soloVars.sys bareMem 1) 0x10000) bareMem soloMem := by
  refine ⟨?_, ?_, by decide +kernel⟩
  · intro a ha
    rw [List.mem_singleton.mp ha]
    exact task_eq (by decide +kernel)
  · decide +kernel

/-- The processor in its only task. -/
def soloRun : TimerRun where
  cpu := ⟨fun _ => 0, 0, 0, 0, 0, 0, soloMem⟩
  saved := fun _ => ⟨fun _ => 0, 0, 0, 0, 0, 0⟩
  log := []

theorem soloRun_inv : TimerInv soloImage soloRun where
  cur_task := by decide +kernel
  cur_state := by decide +kernel
  next_task := by
    intro a ha
    rw [List.mem_singleton.mp ha]
    decide +kernel
  frames := by
    intro a ha hne
    rw [List.mem_singleton.mp ha] at hne
    exact absurd (by decide +kernel) hne
  lapic_eq := by decide +kernel

/-- The first timer interrupt: the only task is resumed with number `0x120`. -/
theorem resumed_task_renumbered :
    Built soloVars [0x10000] (taskInit (soloVars.sys bareMem 1) 0x10000) bareMem soloMem ∧
    ∃ s, Relation.ReflTransGen (PidStep soloVars fun _ _ => True) (pidStart 0x10000 soloMem) s ∧
      0x10000 ∈ s.tasks ∧ s.number 0x10000 = 1 ∧ (taskAt s.mem 0x10000).pid = 0x120 ∧
      ¬ ∀ b ∈ s.tasks, (taskAt s.mem b).pid = s.number b := by
  have hwalk : walk (fun b => (taskAt soloRun.cpu.mem b).next)
      (fun b => b == soloImage.cur soloRun.cpu.mem || (taskAt soloRun.cpu.mem b).state == taskActive)
      1 (soloImage.cur soloRun.cpu.mem) = some 0x10000 := by decide +kernel
  have hcode := switchCode_tick soloRun_inv hwalk
  have hcur : soloImage.cur soloRun.cpu.mem ∈ soloImage.tasks := soloRun_inv.cur_task
  have hstack : Apart (soloImage.ist.toNat - 128) 128 (soloImage.lapic + 0xB0).toNat 4 := by decide
  obtain ⟨cpu', hintr, heff⟩ := timerTick_effect (fun _ => hcur) soloRun_inv.next_task
    soloRun_inv.lapic_eq hstack hcode pairSpaces
  have hres : resumes soloImage soloRun.cpu.mem 0x10000 :=
    ⟨by decide +kernel, Or.inr ⟨soloRun_inv.cur_state, 1, hwalk⟩⟩
  have hpid : (taskAt cpu'.mem 0x10000).pid = 0x120 := heff.pid_lost _ hres
  have hserves : Serves soloVars (pidStart 0x10000 soloMem) soloImage :=
    ⟨rfl, rfl, rfl, rfl, rfl, hstack⟩
  refine ⟨soloMem_built, _, .single
    (.tick _ soloImage _ soloRun.cpu cpu' hserves rfl trivial hcode _ hintr),
    List.mem_singleton_self _, rfl, hpid, fun hall => ?_⟩
  have h : (taskAt cpu'.mem 0x10000).pid = 1 := hall _ (List.mem_singleton_self _)
  rw [hpid] at h
  exact absurd h (by decide)

/-! ## A task and its child -/

/-- `task_switch` in machine code, for a processor without a task: return the argument. -/
def idleCode (c : Cpu) : Cpu := (c.set .rax (c.reg .rdi)).ret

theorem idleCode_ok {c : Cpu} (hcur : img.cur c.mem = 0) : TaskSwitchCode img c (idleCode c) := by
  refine ⟨⟨rfl, rfl, ?_, fun _ _ _ => rfl⟩, ⟨0, img.tasksAt c.mem, ?_, fun _ _ => rfl, fun _ => rfl⟩,
    rfl⟩
  · intro r hr
    have hne : r ≠ .rsp ∧ r ≠ .rax := by
      revert hr
      cases r <;> decide
    rw [idleCode, Cpu.ret_reg, if_neg hne.1, Cpu.set_reg, if_neg hne.2]
  · have hcur' : (img.tasksAt c.mem).curr img.id = 0 := hcur
    simp only [taskSwitch]
    rw [hcur', if_neg (by simp)]
    rfl

/-- Memory behind `task_init` with the block at `0x20000`. -/
def parentMem : ByteMem := fun x =>
  if x = 0x20000 then 1
  else if x = 0x2008A then 2
  else if x = 0x20090 then 1
  else if x = 0x20096 then 0xF0
  else if x = 0x20097 then 0xFF
  else if x = 0x20098 then 0xFF
  else if x = 0x30002 then 2
  else if x = 0x32002 then 4
  else 0

/-- Memory behind `task_fork` with the block at `0x10000`. -/
def forkMem : ByteMem := fun x =>
  if x = 0x10000 then 2
  else if x = 0x1008A then 2
  else if x = 0x2008A then 1
  else parentMem x

theorem parentMem_built :
    Built soloVars [0x20000] (taskInit (soloVars.sys bareMem 1) 0x20000) bareMem parentMem := by
  refine ⟨?_, ?_, by decide +kernel⟩
  · intro a ha
    rw [List.mem_singleton.mp ha]
    exact task_eq (by decide +kernel)
  · decide +kernel

theorem forkMem_built : Built soloVars [0x10000, 0x20000]
    (taskFork (soloVars.sys parentMem 2) 0x10000 .zero) parentMem forkMem := by
  refine ⟨?_, ?_, by decide +kernel⟩
  · intro a ha
    rcases List.mem_cons.mp ha with rfl | ha
    · exact task_eq (by decide +kernel)
    · rw [List.mem_singleton.mp ha]
      exact task_eq (by decide +kernel)
  · decide +kernel

/-- Processor 1, which has no task. -/
def idleImage : TimerImage := { pairImage with id := 1 }

/-- Behind the fork and a tick on the idle processor all numbers are right, and they stay so
at its next tick. -/
theorem task_numbers_stable_fork :
    ∃ s, Relation.ReflTransGen (PidStep soloVars pidMeets) (pidStart 0x20000 parentMem) s ∧
      s.tasks = [0x10000, 0x20000] ∧ (taskAt s.mem 0x10000).pid = 2 ∧
      (taskAt s.mem 0x20000).pid = 1 ∧ sysGetpid soloVars s.mem 0 = 1 ∧
      ∀ (code : Cpu → Cpu) (spaces : BitVec 64 → ByteMem) (cpu cpu' : Cpu), cpu.mem = s.mem →
        (∀ c, timerSave idleImage (cpu.interrupt idleImage.ist idleImage.handler) = some c →
          TaskSwitchCode idleImage c (code c)) →
        timerIntr idleImage code spaces (cpu.interrupt idleImage.ist idleImage.handler) =
          some cpu' →
        (taskAt cpu'.mem 0x10000).pid = 2 ∧ (taskAt cpu'.mem 0x20000).pid = 1 := by
  let cpu : Cpu := ⟨fun _ => 0, 0, 0, 0, 0, 0, forkMem⟩
  have hfork : PidStep soloVars pidMeets (pidStart 0x20000 parentMem)
      ((pidStart 0x20000 parentMem).add 0x10000 forkMem) :=
    .fork _ 0x10000 .zero forkMem (by decide) forkMem_built
  have hcur : idleImage.cur cpu.mem = 0 := by decide +kernel
  have hstack : Apart (idleImage.ist.toNat - 128) 128 (idleImage.lapic + 0xB0).toNat 4 := by decide
  have hnext : ∀ a ∈ idleImage.tasks, (taskAt cpu.mem a).next ∈ idleImage.tasks := by
    intro a ha
    rcases List.mem_cons.mp ha with rfl | ha
    · decide +kernel
    · rw [List.mem_singleton.mp ha]
      decide +kernel
  have hcode : ∀ c, timerSave idleImage (cpu.interrupt idleImage.ist idleImage.handler) = some c →
      TaskSwitchCode idleImage c (idleCode c) := by
    intro c hc
    obtain ⟨c', hsave, -, -, -, -, hmem⟩ := timerSave_spec idleImage cpu
    have hcc : c = c' := Option.some.inj (hc.symm.trans hsave)
    rw [← hcc] at hmem
    obtain ⟨-, hcurr, -⟩ := owned_congr fun x hx => hmem x (owned_off_stack hx)
    exact idleCode_ok ((hcurr idleImage.id).trans hcur)
  obtain ⟨cpu₁, hintr, heff⟩ := timerTick_effect (fun h0 => absurd hcur h0) hnext
    (by decide +kernel) hstack hcode pairSpaces
  have hnone : ∀ n, ¬ resumes idleImage cpu.mem n := fun n h => h.1 hcur
  have hrun := (Relation.ReflTransGen.single hfork).tail
    (.tick _ idleImage idleCode cpu cpu₁ ⟨rfl, rfl, rfl, rfl, rfl, hstack⟩ rfl
      (fun n h => absurd h (hnone n)) hcode _ hintr)
  obtain ⟨hpids, -, hgetpid, htick⟩ := task_numbers_stable (by decide)
    (show ∀ j, (soloVars.sys bareMem 1).curr j = 0 by decide +kernel) (by decide +kernel)
    parentMem_built hrun
  -- The idle processor has changed no entry of `curr`.
  have hcurrs : ∀ j, idleImage.currAt cpu₁.mem j = idleImage.currAt forkMem j :=
    fun j => (heff.curr j).resolve_right (hnone _)
  have hcurr0 : (soloVars.sys cpu₁.mem 0).curr 0 = 0x20000 := by
    refine (hcurrs 0).trans ?_
    decide +kernel
  refine ⟨_, hrun, rfl, (hpids _ List.mem_cons_self).trans rfl,
    (hpids _ (List.mem_cons_of_mem _ List.mem_cons_self)).trans rfl, ?_, ?_⟩
  · refine (hgetpid 0 ?_).trans ?_
    · exact fun h0 => absurd (hcurr0.symm.trans h0) (by decide)
    · show (PidRun.number _ ((soloVars.sys cpu₁.mem 0).curr 0)).setWidth 32 = 1
      rw [hcurr0]
      rfl
  · intro code spaces cpu₂ cpu' hmem hcode₂ hintr₂
    have hkept := (htick idleImage code spaces cpu₂ cpu' ⟨rfl, rfl, rfl, rfl, rfl, hstack⟩ hmem
      hcode₂ hintr₂).mpr fun n h => absurd ((hcurrs 1).trans (by decide +kernel)) h.1
    exact ⟨(hkept _ List.mem_cons_self).trans rfl,
      (hkept _ (List.mem_cons_of_mem _ List.mem_cons_self)).trans rfl⟩

end OS64.X86
