import OS64.Lib.Walk
import Mathlib.Algebra.GroupWithZero.Nat

/-!
# Tasks (`kernel/task.c`)

Tasks live on the kernel heap in a ring linked by `next`; `curr[id]` is the task
that processor `id` runs. `task_init` makes the first one, `task_init_cpu` one for
each further processor, `task_fork` a child, and `task_switch`, called with the
frame of a timer interrupt, saves the frame in the outgoing task and goes on to the
next task whose state is `TASK_ACTIVE`.

Mirroring notes:
- A `task` is a record at an address. A block that `kmalloc` has returned holds
  whatever it held before: a constructor that does not assign a field leaves it.
- The address `kmalloc` returns is an argument of the constructors, and so is the
  frame that `read_rip` builds in the new task's `r`.
- `alloc_pages_user`, `copy_stack` and `copy_pages` do not touch the tasks and are
  left out here; so are the fields `cr3` and `status`, which nobody uses.
- The `do … while` of `task_switch` is `walk`; `none` says that the fuel did not
  suffice.
-/

namespace OS64.Kernel

open OS64.Lib

/-- A pointer. -/
abbrev Addr := BitVec 64

/-- `MAX_CPU_NR`. -/
abbrev maxCpuNr : Nat := 16

instance maxCpuNr_neZero : NeZero maxCpuNr := ⟨Nat.succ_ne_zero 15⟩

/-- `MAX_OPEN_FILES`. -/
abbrev maxOpenFiles : Nat := 16

/-- `TLS_ADDR`. -/
def tlsAddr : Addr := 0x00000000FFFFF000

/-- `TASK_ACTIVE`: ready to run. -/
def taskActive : BitVec 8 := 0

/-- `TASK_RUNNING`: on a processor. -/
def taskRunning : BitVec 8 := 1

/-- `TASK_STARTING`: its registers have been prepared. -/
def taskStarting : BitVec 8 := 2

/-- `comm_regs`. -/
structure CommRegs where
  r9 : BitVec 64
  r8 : BitVec 64
  rbp : BitVec 64
  rdi : BitVec 64
  rsi : BitVec 64
  rdx : BitVec 64
  rcx : BitVec 64
  rbx : BitVec 64
  rax : BitVec 64
deriving DecidableEq, Repr

/-- `intr_regs`. -/
structure IntrRegs where
  rip : BitVec 64
  cs : BitVec 64
  rflags : BitVec 64
  rsp : BitVec 64
  ss : BitVec 64
deriving DecidableEq, Repr

/-- `all_regs`. -/
structure AllRegs where
  c : CommRegs
  reg1 : BitVec 64
  i : IntrRegs
deriving DecidableEq, Repr

/-- What `zeromem` leaves in an `all_regs`. -/
def AllRegs.zero : AllRegs := ⟨⟨0, 0, 0, 0, 0, 0, 0, 0, 0⟩, 0, ⟨0, 0, 0, 0, 0⟩⟩

/-- `task`. -/
structure Task where
  pid : BitVec 64
  r : AllRegs
  next : Addr
  state : BitVec 8
  tls : Addr
  files : Fin maxOpenFiles → Addr

/-- The address of the field `r` of the task at `a`. -/
def regsAddr (a : Addr) : Addr := a + 8

/-- The kernel's tasks: the heap as far as it holds them, `curr` and `next_pid`. -/
structure Tasks where
  heap : Addr → Task
  curr : Fin maxCpuNr → Addr
  nextPid : BitVec 64

namespace Tasks

/-- The record at `a` assigned. -/
def setTask (s : Tasks) (a : Addr) (t : Task) : Tasks :=
  { s with heap := fun b => if b = a then t else s.heap b }

/-- `curr[id] = a`. -/
def setCurr (s : Tasks) (id : Fin maxCpuNr) (a : Addr) : Tasks :=
  { s with curr := fun j => if j = id then a else s.curr j }

end Tasks

/-- `task_init`, the block being at `a`. -/
def taskInit (s : Tasks) (a : Addr) : Tasks :=
  let s₁ := s.setCurr 0 a
  { s₁.setTask a { s₁.heap a with
      pid := s₁.nextPid
      r := .zero
      next := a
      state := taskRunning
      tls := tlsAddr
      files := fun _ => 0 } with
    nextPid := s₁.nextPid + 1 }

/-- `task_init_cpu(id)`, the block being at `a`. The new task goes into the ring behind
`curr[0]`. -/
def taskInitCpu (s : Tasks) (id : Fin maxCpuNr) (a : Addr) : Tasks :=
  let s₁ := s.setCurr id a
  let s₂ := { s₁.setTask a { s₁.heap a with
      pid := s₁.nextPid
      r := .zero
      state := taskRunning
      tls := tlsAddr } with
    nextPid := s₁.nextPid + 1 }
  let tmp := (s₂.heap (s₂.curr 0)).next
  let s₃ := s₂.setTask (s₂.curr 0) { s₂.heap (s₂.curr 0) with next := s₂.curr id }
  let s₄ := s₃.setTask (s₃.curr id) { s₃.heap (s₃.curr id) with next := tmp }
  s₄.setTask (s₄.curr id) { s₄.heap (s₄.curr id) with files := fun _ => 0 }

/-- `task_fork` in the parent, the block being at `a` and `r` the frame that `read_rip`
has built. `state`, `tls` and `files` keep what the block held. -/
def taskFork (s : Tasks) (a : Addr) (r : AllRegs) : Tasks :=
  let s₁ := { s.setTask a { s.heap a with pid := s.nextPid, r := r } with nextPid := s.nextPid + 1 }
  let s₂ := s₁.setTask a { s₁.heap a with next := (s₁.heap (s₁.curr 0)).next }
  s₂.setTask (s₂.curr 0) { s₂.heap (s₂.curr 0) with next := a }

/-- The link and the test of the loop of `task_switch`. -/
def nextActive (s : Tasks) (fuel : Nat) (a : Addr) : Option Addr :=
  walk (fun b => (s.heap b).next) (fun b => (s.heap b).state == taskActive) fuel a

/-- `task_switch` on processor `id`, called with the frame `r` at the address `rAddr`:
the address of the frame to restore. -/
def taskSwitch (fuel : Nat) (s : Tasks) (id : Fin maxCpuNr) (rAddr : Addr) (r : AllRegs) :
    Option (Addr × Tasks) :=
  let cur := s.curr id
  if cur ≠ 0 then
    if (s.heap cur).state = taskStarting then
      some (regsAddr cur, s.setTask cur { s.heap cur with
        state := taskRunning
        r := { (s.heap cur).r with reg1 := r.reg1 } })
    else
      let s₁ := s.setTask cur { s.heap cur with r := r, state := taskActive }
      match nextActive s₁ fuel cur with
      | none => none
      | some a => some (regsAddr a, s₁.setCurr id a)
  else some (rAddr, s)

/-! ## What the constructors do to the ring -/

/-- Between the heaps `h` and `h'` the task `a` has gone into the ring behind `p`; no
other task has changed. -/
structure Inserted (h h' : Addr → Task) (p a : Addr) : Prop where
  new_next : (h' a).next = (h p).next
  prev : h' p = { h p with next := a }
  others : ∀ b, b ≠ a → b ≠ p → h' b = h b

theorem taskInit_spec (s : Tasks) (a : Addr) :
    (taskInit s a).curr = (s.setCurr 0 a).curr ∧ ((taskInit s a).heap a).next = a := by
  refine ⟨rfl, ?_⟩
  simp [taskInit, Tasks.setTask, Tasks.setCurr]

theorem taskInitCpu_spec (s : Tasks) {id : Fin maxCpuNr} {a : Addr} (hid : id ≠ 0)
    (ha : a ≠ s.curr 0) :
    (taskInitCpu s id a).curr = (s.setCurr id a).curr ∧
    Inserted s.heap (taskInitCpu s id a).heap (s.curr 0) a := by
  refine ⟨rfl, ?_, ?_, ?_⟩
  · simp [taskInitCpu, Tasks.setTask, Tasks.setCurr, Ne.symm hid, Ne.symm ha]
  · simp [taskInitCpu, Tasks.setTask, Tasks.setCurr, Ne.symm hid, Ne.symm ha]
  · intro b hba hbp
    simp [taskInitCpu, Tasks.setTask, Tasks.setCurr, Ne.symm hid, hba, hbp]

theorem taskFork_spec (s : Tasks) {a : Addr} (r : AllRegs) (ha : a ≠ s.curr 0) :
    (taskFork s a r).curr = s.curr ∧ Inserted s.heap (taskFork s a r).heap (s.curr 0) a := by
  refine ⟨rfl, ?_, ?_, ?_⟩
  · simp [taskFork, Tasks.setTask, ha, Ne.symm ha]
  · simp [taskFork, Tasks.setTask, Ne.symm ha]
  · intro b hba hbp
    simp [taskFork, Tasks.setTask, hba, hbp]

/-! ## What a tick does -/

/-- The heap after the outgoing task `cur` has been saved: its frame and its state. -/
def saveCurrent (s : Tasks) (cur : Addr) (r : AllRegs) : Tasks :=
  s.setTask cur { s.heap cur with r := r, state := taskActive }

/-- What `task_switch` does: nothing on a processor without a task; for a task that is
starting, mark it running; else save the outgoing task and go on to the task that
the search finds. -/
theorem taskSwitch_cases {fuel : Nat} {s s' : Tasks} {id : Fin maxCpuNr} {rAddr ret : Addr}
    {r : AllRegs} (h : taskSwitch fuel s id rAddr r = some (ret, s')) :
    (s.curr id = 0 ∧ ret = rAddr ∧ s' = s) ∨
    (s.curr id ≠ 0 ∧ (s.heap (s.curr id)).state = taskStarting ∧ ret = regsAddr (s.curr id) ∧
      s' = s.setTask (s.curr id) { s.heap (s.curr id) with
        state := taskRunning
        r := { (s.heap (s.curr id)).r with reg1 := r.reg1 } }) ∨
    (s.curr id ≠ 0 ∧ (s.heap (s.curr id)).state ≠ taskStarting ∧
      ∃ a, nextActive (saveCurrent s (s.curr id) r) fuel (s.curr id) = some a ∧
        ret = regsAddr a ∧ s' = (saveCurrent s (s.curr id) r).setCurr id a) := by
  simp only [taskSwitch] at h
  by_cases h0 : s.curr id = 0
  · left
    rw [if_neg (by simpa using h0)] at h
    cases h
    exact ⟨h0, rfl, rfl⟩
  · right
    rw [if_pos h0] at h
    by_cases hst : (s.heap (s.curr id)).state = taskStarting
    · left
      rw [if_pos hst] at h
      cases h
      exact ⟨h0, hst, rfl, rfl⟩
    · right
      rw [if_neg hst] at h
      refine ⟨h0, hst, ?_⟩
      cases hnext : nextActive (saveCurrent s (s.curr id) r) fuel (s.curr id) with
      | none =>
        rw [saveCurrent] at hnext
        rw [hnext] at h
        cases h
      | some a =>
        rw [saveCurrent] at hnext
        rw [hnext] at h
        cases h
        exact ⟨a, rfl, rfl, rfl⟩

/-- The third case, the other way round. -/
theorem taskSwitch_of_nextActive {fuel : Nat} {s : Tasks} {id : Fin maxCpuNr} {rAddr a : Addr}
    {r : AllRegs} (h0 : s.curr id ≠ 0) (hst : (s.heap (s.curr id)).state ≠ taskStarting)
    (hnext : nextActive (saveCurrent s (s.curr id) r) fuel (s.curr id) = some a) :
    taskSwitch fuel s id rAddr r =
      some (regsAddr a, (saveCurrent s (s.curr id) r).setCurr id a) := by
  unfold saveCurrent at hnext ⊢
  simp only [taskSwitch]
  rw [if_pos h0, if_neg hst, hnext]

theorem saveCurrent_next (s : Tasks) (cur : Addr) (r : AllRegs) (b : Addr) :
    ((saveCurrent s cur r).heap b).next = (s.heap b).next := by
  unfold saveCurrent Tasks.setTask
  by_cases hb : b = cur
  · simp [hb]
  · simp [hb]

theorem saveCurrent_active (s : Tasks) (cur : Addr) (r : AllRegs) (b : Addr) :
    (((saveCurrent s cur r).heap b).state == taskActive) =
      (b == cur || (s.heap b).state == taskActive) := by
  unfold saveCurrent Tasks.setTask
  by_cases hb : b = cur
  · simp [hb]
  · simp [hb]

/-- A tick changes no link. -/
theorem taskSwitch_next {fuel : Nat} {s s' : Tasks} {id : Fin maxCpuNr} {rAddr ret : Addr}
    {r : AllRegs} (h : taskSwitch fuel s id rAddr r = some (ret, s')) (b : Addr) :
    (s'.heap b).next = (s.heap b).next := by
  rcases taskSwitch_cases h with ⟨-, -, rfl⟩ | ⟨-, -, -, rfl⟩ | ⟨-, -, a, -, -, rfl⟩
  · rfl
  · by_cases hb : b = s.curr id
    · simp [Tasks.setTask, hb]
    · simp [Tasks.setTask, hb]
  · exact saveCurrent_next s (s.curr id) r b

/-- A tick changes no number. -/
theorem taskSwitch_pid {fuel : Nat} {s s' : Tasks} {id : Fin maxCpuNr} {rAddr ret : Addr}
    {r : AllRegs} (h : taskSwitch fuel s id rAddr r = some (ret, s')) (b : Addr) :
    (s'.heap b).pid = (s.heap b).pid := by
  rcases taskSwitch_cases h with ⟨-, -, rfl⟩ | ⟨-, -, -, rfl⟩ | ⟨-, -, a, -, -, rfl⟩
  · rfl
  · by_cases hb : b = s.curr id
    · simp [Tasks.setTask, hb]
    · simp [Tasks.setTask, hb]
  · by_cases hb : b = s.curr id
    · simp [saveCurrent, Tasks.setTask, Tasks.setCurr, hb]
    · simp [saveCurrent, Tasks.setTask, Tasks.setCurr, hb]

/-- Where a tick on a processor with current task `cur` looks: the first task behind
it that is active, the outgoing task counting as active. -/
theorem nextActive_eq_walk (s : Tasks) (cur : Addr) (r : AllRegs) (fuel : Nat) :
    nextActive (saveCurrent s cur r) fuel cur =
      walk (fun b => (s.heap b).next) (fun b => b == cur || (s.heap b).state == taskActive) fuel
        cur := by
  unfold nextActive
  simp only [saveCurrent_next, saveCurrent_active]

end OS64.Kernel
