import OS64.X86.TimerRun

/-!
# A program is started

`start_process` turns the task that calls it into the program: it prepares the frame in the task's
structure, marks the task `TASK_STARTING` and waits. The next tick finds the mark, saves nothing,
and returns into the frame.

Which pages the program has is not part of this; `cr3` stays what it is, and the memory that the
tick uses is shared by all address spaces (`TimerImage.shared`). Of the frame, `rflags` is that of
the task's last interruption.
-/

namespace OS64.X86

open OS64.Lib OS64.Lib.X86 OS64.Kernel

/-- `CALC_SELECTOR(3, SEG_GDT | SEG_RPL3)`. -/
def userCode : BitVec 64 := 3 <<< 3 ||| 3

/-- `CALC_SELECTOR(4, SEG_GDT | SEG_RPL3)`. -/
def userData : BitVec 64 := 4 <<< 3 ||| 3

/-- The stack of a program, at the end of the two pages that `start_process` allocates. -/
def userStack : BitVec 64 := 0x100001FF0

/-- The frame that `start_process` prepares, over the frame `r`. -/
def startFrame (entry : BitVec 64) (r : AllRegs) : AllRegs :=
  { r with
    c := AllRegs.zero.c
    i := { r.i with rip := entry, cs := userCode, rsp := userStack, ss := userData } }

/-- `start_process` for a file with the entry `entry`, the descriptor of the console being at
`stdio`. -/
def startProcess (s : Tasks) (id : Fin maxCpuNr) (entry stdio : Addr) : Tasks :=
  s.setTask (s.curr id) { s.heap (s.curr id) with
    state := taskStarting
    r := startFrame entry (s.heap (s.curr id)).r
    files := fun i => if i.val < 3 then stdio else (s.heap (s.curr id)).files i }

theorem startProcess_heap (s : Tasks) (id : Fin maxCpuNr) (entry stdio a : Addr) :
    (startProcess s id entry stdio).heap a =
      if a = s.curr id then { s.heap (s.curr id) with
        state := taskStarting
        r := startFrame entry (s.heap (s.curr id)).r
        files := fun i => if i.val < 3 then stdio else (s.heap (s.curr id)).files i }
      else s.heap a := rfl

variable (img : TimerImage) (code : Cpu → Cpu)

/-- What the compiled `start_process` does to memory up to its `for(;;)`: to the tasks what the C
function does. -/
structure StartProcessCode (entry stdio : Addr) (m m' : ByteMem) : Prop where
  tasks : ∀ a ∈ img.tasks, taskAt m' a = (startProcess (img.tasksAt m) img.id entry stdio).heap a
  curr : ∀ j, img.currAt m' j = img.currAt m j
  lapic_kept : ld m' img.lapicVar = ld m img.lapicVar

/-- The context in which a program begins. -/
def entryContext (entry rflags cr3 : BitVec 64) : Context where
  reg r := if r = .rsp then userStack else 0
  rip := entry
  cs := userCode
  rflags := rflags
  ss := userData
  cr3 := cr3

theorem startFrame_context (entry : BitVec 64) (r : AllRegs) (cr3 : BitVec 64) :
    { startFrame entry r with reg1 := cr3 } = (entryContext entry r.i.rflags cr3).frame := rfl

variable {img code}

/-- The tick behind `start_process`: the task on the processor is resumed in the prepared frame,
with the page tables that are loaded. -/
theorem start_tick {s : TimerRun} (h : TimerInv img s) {entry stdio : Addr} {cpu : Cpu}
    (hstart : StartProcessCode img entry stdio s.cpu.mem cpu.mem)
    (hcode : ∀ c, timerSave img (cpu.interrupt img.ist img.handler) = some c →
      TaskSwitchCode img c (code c)) (spaces : BitVec 64 → ByteMem) :
    ∃ cpu', timerIntr img code spaces (cpu.interrupt img.ist img.handler) = some cpu' ∧
      (∀ r ∈ commRegs, cpu'.reg r = 0) ∧ cpu'.sp = userStack ∧ cpu'.rip = entry ∧
      cpu'.cs = userCode ∧ cpu'.ss = userData ∧ cpu'.cr3 = cpu.cr3 ∧
      cpu'.rflags = (taskAt s.cpu.mem (img.cur s.cpu.mem)).r.i.rflags ∧
      (∀ r ∈ [Reg.r12, .r13, .r14, .r15], cpu'.reg r = cpu.reg r) ∧
      img.cur cpu'.mem = img.cur s.cpu.mem ∧ TimerInv img { s with cpu := cpu' } := by
  obtain ⟨c, hsave, hst, -, hrdi, hreg, hmem⟩ := timerSave_spec img cpu
  obtain ⟨habi, ⟨fuel, t, hswitch, htasks, hcurr⟩, hlapic⟩ := hcode c hsave
  obtain ⟨hsame, hcurSame, hlapicSame⟩ := owned_congr fun x hx => hmem x (owned_off_stack hx)
  have hcur := h.cur_task
  have hcur0 : img.cur s.cpu.mem ≠ 0 := fun h0 => img.task_nonnull (h0 ▸ hcur)
  have hcurc : (img.tasksAt c.mem).curr img.id = img.cur s.cpu.mem :=
    (hcurSame img.id).trans (hstart.curr img.id)
  have hframe : allRegsAt c.mem (c.reg .rdi) = (contextOf cpu).frame := by
    have htail : StackAt c.mem (c.sp + 8).toNat ((contextOf cpu).frame.words ++ []) := by
      rw [Cpu.sp_tail hst, List.append_nil]
      exact hst.2
    rw [hrdi]
    exact allRegsAt_stack htail
  -- the tasks as `task_switch` finds them
  have hfound : ∀ a ∈ img.tasks, taskAt c.mem a =
      if a = img.cur s.cpu.mem then
        { taskAt s.cpu.mem (img.cur s.cpu.mem) with
          state := taskStarting
          r := startFrame entry (taskAt s.cpu.mem (img.cur s.cpu.mem)).r
          files := fun i => if i.val < 3 then stdio
            else (taskAt s.cpu.mem (img.cur s.cpu.mem)).files i }
      else taskAt s.cpu.mem a := by
    intro a ha
    rw [hsame a ha, hstart.tasks a ha, startProcess_heap]
    rfl
  have hstarting := hfound _ hcur
  rw [if_pos rfl] at hstarting
  obtain ⟨hret, ht⟩ : (code c).reg .rax = regsAddr (img.cur s.cpu.mem) ∧
      t = (img.tasksAt c.mem).setTask (img.cur s.cpu.mem)
        { taskAt c.mem (img.cur s.cpu.mem) with
          state := taskRunning
          r := { (taskAt c.mem (img.cur s.cpu.mem)).r with reg1 := cpu.cr3 } } := by
    have hcases := taskSwitch_cases hswitch
    rw [hcurc, hframe] at hcases
    rcases hcases with ⟨h0, -⟩ | ⟨-, -, hret, ht⟩ | ⟨-, hno, -⟩
    · exact absurd h0 hcur0
    · exact ⟨hret, ht⟩
    · have hstate : (taskAt c.mem (img.cur s.cpu.mem)).state = taskStarting := by
        rw [hstarting]
      exact absurd hstate hno
  have hheap : ∀ a ∈ img.tasks, taskAt (code c).mem a =
      if a = img.cur s.cpu.mem then
        { taskAt c.mem (img.cur s.cpu.mem) with
          state := taskRunning
          r := { (taskAt c.mem (img.cur s.cpu.mem)).r with reg1 := cpu.cr3 } }
      else taskAt s.cpu.mem a := by
    intro a ha
    rw [htasks a ha, ht]
    show (if a = img.cur s.cpu.mem then _ else taskAt c.mem a) = _
    by_cases hac : a = img.cur s.cpu.mem
    · rw [if_pos hac, if_pos hac]
    · rw [if_neg hac, if_neg hac, hfound a ha, if_neg hac]
  have hentry : (taskAt (code c).mem (img.cur s.cpu.mem)).r = (entryContext entry
      (taskAt s.cpu.mem (img.cur s.cpu.mem)).r.i.rflags cpu.cr3).frame := by
    rw [hheap _ hcur, if_pos rfl, ← startFrame_context, hstarting]
  have hlapicd : ld (code c).mem img.lapicVar = img.lapic := by
    rw [hlapic, hlapicSame, hstart.lapic_kept]
    exact h.lapic_eq
  obtain ⟨cpu', hrestore, hcomm, hother, hrip, hcs, hrflags, hss, hcr3, -, hkeep⟩ :=
    timerRestore_spec img spaces hcur hret hentry hlapicd
  obtain ⟨hrest, hnextn, hstaten, hcurrs, hlapics⟩ := restoreWrites_keeps hcur hkeep
  have hcurcpu : img.cur cpu'.mem = img.cur s.cpu.mem := by
    rw [TimerImage.cur, hcurrs, hcurr, ht]
    exact hcurc
  have hintr : timerIntr img code spaces (cpu.interrupt img.ist img.handler) = some cpu' := by
    unfold timerIntr
    rw [hsave]
    have hrip' : (code c).rip = img.afterSwitch := habi.rip.trans (Cpu.stack_head hst)
    show (if (code c).rip = img.afterSwitch then _ else _) = _
    rw [if_pos hrip']
    exact hrestore
  have hnexts : ∀ a ∈ img.tasks, (taskAt cpu'.mem a).next = (taskAt s.cpu.mem a).next := by
    intro a ha
    by_cases hac : a = img.cur s.cpu.mem
    · rw [hac, hnextn, hheap _ hcur, if_pos rfl, hstarting]
    · rw [hrest a ha hac, hheap a ha, if_neg hac]
  refine ⟨cpu', hintr, fun r hr => ?_, hcomm .rsp (Or.inr rfl), hrip, hcs, hss, hcr3, hrflags,
    fun r hr => ?_, hcurcpu, ⟨?_, ?_, ?_, ?_, ?_⟩⟩
  · rw [hcomm r (Or.inl hr)]
    have hne : r ≠ .rsp := by
      intro heq
      rw [heq] at hr
      exact absurd hr (by decide)
    exact if_neg hne
  · have hsaved : r ∈ calleeSaved ∧ r ∉ commRegs ∧ r ≠ .rsp ∧ r ≠ .rdi ∧ r ≠ .rax := by
      revert hr
      cases r <;> decide
    rw [hother r hsaved.2.1 hsaved.2.2.1, habi.saved r hsaved.1,
      hreg r hsaved.2.2.1 hsaved.2.2.2.1 hsaved.2.2.2.2]
  · show img.cur cpu'.mem ∈ img.tasks
    rw [hcurcpu]
    exact hcur
  · show (taskAt cpu'.mem (img.cur cpu'.mem)).state ≠ taskStarting
    rw [hcurcpu, hstaten, hheap _ hcur, if_pos rfl]
    show taskRunning ≠ taskStarting
    decide
  · intro a ha
    show (taskAt cpu'.mem a).next ∈ img.tasks
    rw [hnexts a ha]
    exact h.next_task a ha
  · intro a ha hac
    change a ≠ img.cur cpu'.mem at hac
    rw [hcurcpu] at hac
    show (taskAt cpu'.mem a).r = (s.saved a).frame
    rw [hrest a ha hac, hheap a ha, if_neg hac]
    exact h.frames a ha hac
  · exact hlapics.trans hlapicd

/-! ## A program's whole life -/

/-- From the tick behind `start_process` on, whatever the tasks do and whenever the timer
interrupts them: the program begins at its entry on its own stack, and every task, the program
among them, is resumed with the context it was interrupted with, as long as the ticks meet
`timerMeets`. -/
theorem start_process_runs {s : TimerRun} (h : TimerInv img s) {entry stdio : Addr} {cpu : Cpu}
    (hstart : StartProcessCode img entry stdio s.cpu.mem cpu.mem)
    (hcode : ∀ c, timerSave img (cpu.interrupt img.ist img.handler) = some c →
      TaskSwitchCode img c (code c)) (spaces : BitVec 64 → ByteMem) :
    ∃ cpu', timerIntr img code spaces (cpu.interrupt img.ist img.handler) = some cpu' ∧
      (∀ r, r ∈ commRegs ∨ r = .rsp → cpu'.reg r =
        (entryContext entry (taskAt s.cpu.mem (img.cur s.cpu.mem)).r.i.rflags cpu.cr3).reg r) ∧
      cpu'.rip = entry ∧ cpu'.cs = userCode ∧ cpu'.ss = userData ∧ cpu'.cr3 = cpu.cr3 ∧
      img.cur cpu'.mem = img.cur s.cpu.mem ∧
      ∀ s', Relation.ReflTransGen (TimerStep img code (timerMeets img code))
          { s with cpu := cpu', log := [] } s' → ∀ p ∈ s'.log, sameContext p.1 p.2 := by
  obtain ⟨cpu', hintr, hcomm, hsp, hrip, hcs, hss, hcr3, -, -, hcur, hinv⟩ :=
    start_tick h hstart hcode spaces
  refine ⟨cpu', hintr, fun r hr => ?_, hrip, hcs, hss, hcr3, hcur, fun s' hrun => ?_⟩
  · rcases hr with hr | hr
    · have hne : r ≠ .rsp := by
        intro heq
        rw [heq] at hr
        exact absurd hr (by decide)
      exact (hcomm r hr).trans (if_neg hne).symm
    · rw [hr]
      exact hsp
  · have hbegin : TimerInv img { s with cpu := cpu', log := [] } :=
      ⟨hinv.cur_task, hinv.cur_state, hinv.next_task, hinv.frames, hinv.lapic_eq⟩
    exact (run_invariant (fun s => TimerInv img s ∧ ∀ p ∈ s.log, sameContext p.1 p.2)
      (fun s s' hs hstep => timerStep_inv hs.1 hs.2 hstep) hrun
      ⟨hbegin, fun p hp => absurd hp List.not_mem_nil⟩).2

/-! ## One program -/

/-- `task_switch` in machine code, for a task that is starting: set the state, copy `reg1` and
return the address of the frame. -/
def startCode (img : TimerImage) (c : Cpu) : Cpu :=
  let m := st c.mem (regsAddr (img.cur c.mem) + BitVec.ofNat 64 72) (quad c.mem (c.reg .rdi) 72)
  let m' := m.write (img.cur c.mem + BitVec.ofNat 64 144).toNat 1 1
  (({ c with mem := m' }).set .rax (regsAddr (img.cur c.mem))).ret

/-- `startCode` is code for `task_switch` when the current task is starting. -/
theorem startCode_ok {c : Cpu} (hcur : img.cur c.mem ∈ img.tasks)
    (hstate : (taskAt c.mem (img.cur c.mem)).state = taskStarting)
    (hsp : img.ist.toNat - 128 ≤ c.sp.toNat) (hsp' : c.sp.toNat + 8 ≤ img.ist.toNat) :
    TaskSwitchCode img c (startCode img c) := by
  have hcur0 : img.cur c.mem ≠ 0 := fun h0 => img.task_nonnull (h0 ▸ hcur)
  have hfits := img.task_fits _ hcur
  have hregs := regsAddr_toNat hfits
  have hstack := img.task_stack _ hcur
  have hcurr := img.task_curr _ hcur
  have hvar := img.task_lapicVar _ hcur
  have hcfits := img.curr_fits
  have hroom := img.ist_room
  unfold Apart sizeofTask at hstack hcurr hvar
  unfold maxCpuNr at hcfits hcurr
  unfold sizeofTask at hfits
  have hreg1 := add_toNat (a := regsAddr (img.cur c.mem)) (n := 72) (by omega)
  have hstateAddr := add_toNat (a := img.cur c.mem) (n := 144) (by omega)
  obtain ⟨m, hm⟩ : ∃ m, (st c.mem (regsAddr (img.cur c.mem) + BitVec.ofNat 64 72)
      (quad c.mem (c.reg .rdi) 72)).write (img.cur c.mem + BitVec.ofNat 64 144).toNat 1 1 = m :=
    ⟨_, rfl⟩
  have hcode :
      startCode img c = (({ c with mem := m }).set .rax (regsAddr (img.cur c.mem))).ret := by
    rw [← hm]
    rfl
  -- the code writes the slot of `reg1` and the state
  have hout : ∀ x, ¬ ((img.cur c.mem).toNat + 80 ≤ x ∧ x < (img.cur c.mem).toNat + 88) →
      x ≠ (img.cur c.mem).toNat + 144 → m x = c.mem x := by
    intro x hx hx'
    rw [← hm, ByteMem.write_apply_out (by omega), st_apply_out (by rw [hreg1]; omega)]
  have hquad : ∀ n, n + 8 ≤ 285 → (n + 8 ≤ 80 ∨ 88 ≤ n) → (n + 8 ≤ 144 ∨ 144 < n) →
      quad m (img.cur c.mem) n = quad c.mem (img.cur c.mem) n := fun n hn h₁ h₂ =>
    quad_congr (by omega) fun x hx hx' => hout x (by omega) (by omega)
  have hframe : ∀ n, n ≤ 112 → (n + 8 ≤ 72 ∨ 80 ≤ n) →
      quad m (regsAddr (img.cur c.mem)) n = quad c.mem (regsAddr (img.cur c.mem)) n :=
    fun n hn h₁ => quad_congr (by omega) fun x hx hx' => hout x (by omega) (by omega)
  have hslot : quad m (regsAddr (img.cur c.mem)) 72 = quad c.mem (c.reg .rdi) 72 := by
    rw [← hm, quad, ld_congr fun x hx hx' => ByteMem.write_apply_out (by omega)]
    exact ld_st_same _ _ _
  have hrunning : stateAt m (img.cur c.mem) = taskRunning := by
    rw [← hm]
    unfold stateAt
    rw [ByteMem.write, if_pos (by omega)]
    simp [taskRunning]
  have hfiles : ∀ i : Fin maxOpenFiles, quad m (img.cur c.mem) (157 + 8 * i.val) =
      quad c.mem (img.cur c.mem) (157 + 8 * i.val) := by
    intro i
    have hi : i.val < 16 := i.isLt
    exact hquad _ (by omega) (by omega) (by omega)
  have hself : taskAt m (img.cur c.mem) = { taskAt c.mem (img.cur c.mem) with
      state := taskRunning
      r := { (taskAt c.mem (img.cur c.mem)).r with reg1 := quad c.mem (c.reg .rdi) 72 } } := by
    unfold taskAt allRegsAt
    rw [hquad 0 (by omega) (by omega) (by omega), hquad 136 (by omega) (by omega) (by omega),
      hquad 149 (by omega) (by omega) (by omega), hframe 0 (by omega) (by omega),
      hframe 8 (by omega) (by omega), hframe 16 (by omega) (by omega),
      hframe 24 (by omega) (by omega), hframe 32 (by omega) (by omega),
      hframe 40 (by omega) (by omega), hframe 48 (by omega) (by omega),
      hframe 56 (by omega) (by omega), hframe 64 (by omega) (by omega),
      hframe 80 (by omega) (by omega), hframe 88 (by omega) (by omega),
      hframe 96 (by omega) (by omega), hframe 104 (by omega) (by omega),
      hframe 112 (by omega) (by omega), hslot, hrunning]
    simp only [hfiles]
  have hothers : ∀ a ∈ img.tasks, a ≠ img.cur c.mem → taskAt m a = taskAt c.mem a := by
    intro a ha hne
    have hapart := img.tasks_apart a ha _ hcur hne
    unfold Apart sizeofTask at hapart
    refine taskAt_congr (img.task_fits a ha) fun x hx hx' => hout x ?_ ?_
    · unfold sizeofTask at hx'
      omega
    · unfold sizeofTask at hx'
      omega
  rw [hcode]
  refine ⟨⟨?_, rfl, ?_, ?_⟩, ⟨0, (img.tasksAt c.mem).setTask (img.cur c.mem)
    { taskAt c.mem (img.cur c.mem) with
      state := taskRunning
      r := { (taskAt c.mem (img.cur c.mem)).r with reg1 := quad c.mem (c.reg .rdi) 72 } },
    ?_, ?_, ?_⟩, ?_⟩
  · show ld m c.sp = ld c.mem c.sp
    exact ld_congr fun x hx hx' => hout x (by omega) (by omega)
  · intro r hr
    have hne : r ≠ .rsp ∧ r ≠ .rax := by
      revert hr
      cases r <;> decide
    rw [Cpu.ret_reg, if_neg hne.1, Cpu.set_reg, if_neg hne.2]
  · intro x hx hx'
    exact hout x (by omega) (by omega)
  · simp only [taskSwitch]
    have hcurAt : (img.tasksAt c.mem).curr img.id = img.cur c.mem := rfl
    have hheapAt : (img.tasksAt c.mem).heap (img.cur c.mem) = taskAt c.mem (img.cur c.mem) := rfl
    rw [hcurAt, hheapAt, if_pos hcur0, if_pos hstate]
    rfl
  · intro a ha
    show taskAt m a = (if a = img.cur c.mem then _ else taskAt c.mem a)
    by_cases hac : a = img.cur c.mem
    · rw [if_pos hac, hac, hself]
    · rw [if_neg hac, hothers a ha hac]
  · intro j
    have hj : j.val < 16 := j.isLt
    show quad m img.curr (8 * j.val) = quad c.mem img.curr (8 * j.val)
    exact quad_congr (by omega) fun x hx hx' => hout x (by omega) (by omega)
  · show ld m _ = _
    exact ld_congr fun x hx hx' => hout x (by omega) (by omega)

/-- The memory of `pairRun` once its first task has run `start_process` for a file with the entry
`0x400000` and the descriptor `0x50000`. -/
def startedMem : ByteMem := fun x =>
  if x = 0x1005A then 0x40
  else if x = 0x10060 then 0x1B
  else if x = 0x10070 then 0xF0
  else if x = 0x10071 then 0x1F
  else if x = 0x10074 then 1
  else if x = 0x10078 then 0x23
  else if x = 0x10090 then 2
  else if x = 0x1009F then 5
  else if x = 0x100A7 then 5
  else if x = 0x100AF then 5
  else pairRun.cpu.mem x

theorem startedMem_code :
    StartProcessCode pairImage 0x400000 0x50000 pairRun.cpu.mem startedMem where
  tasks := by
    intro a ha
    rcases List.mem_cons.mp ha with rfl | ha
    · exact task_eq (by decide +kernel)
    · rw [List.mem_singleton.mp ha]
      exact task_eq (by decide +kernel)
  curr := by decide +kernel
  lapic_kept := by decide +kernel

/-- The first of two tasks becomes a program. -/
theorem start_process_runs_pair :
    ∃ cpu', timerIntr pairImage (startCode pairImage) pairSpaces
        (({ pairRun.cpu with mem := startedMem } : Cpu).interrupt pairImage.ist pairImage.handler) =
          some cpu' ∧ cpu'.rip = 0x400000 ∧ cpu'.cs = userCode ∧
      ∀ s', Relation.ReflTransGen (TimerStep pairImage (startCode pairImage)
          (timerMeets pairImage (startCode pairImage)))
          { pairRun with cpu := cpu', log := [] } s' → ∀ p ∈ s'.log, sameContext p.1 p.2 := by
  have hcode : ∀ c, timerSave pairImage
      (({ pairRun.cpu with mem := startedMem } : Cpu).interrupt pairImage.ist pairImage.handler) =
        some c → TaskSwitchCode pairImage c (startCode pairImage c) := by
    intro c hc
    obtain ⟨c', hsave, hst, hsp, -, -, hmem⟩ :=
      timerSave_spec pairImage { pairRun.cpu with mem := startedMem }
    have hcc : c = c' := Option.some.inj (hc.symm.trans hsave)
    rw [← hcc] at hsp hmem
    obtain ⟨htasks, hcurr, -⟩ := owned_congr fun x hx => hmem x (owned_off_stack hx)
    have hcur : pairImage.cur c.mem = 0x10000 := by
      refine (hcurr pairImage.id).trans ?_
      decide +kernel
    have hin : (0x10000 : Addr) ∈ pairImage.tasks := List.mem_cons_self
    have hist : pairImage.ist.toNat = 0x8000 := rfl
    refine startCode_ok ?_ ?_ (by omega) (by omega)
    · rw [hcur]
      exact hin
    · rw [hcur, htasks _ hin]
      decide +kernel
  obtain ⟨cpu', hintr, -, hrip, hcs, -, -, -, hruns⟩ :=
    start_process_runs pairRun_inv startedMem_code hcode pairSpaces
  exact ⟨cpu', hintr, hrip, hcs, hruns⟩

end OS64.X86
