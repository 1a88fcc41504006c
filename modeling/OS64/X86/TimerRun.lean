import OS64.X86.SwitchCode
import OS64.Lib.Run

/-!
# Preemption over whole runs

One processor runs its tasks and takes timer interrupts. Of a task's context the
frame in its structure holds all but `r10` to `r15`: those six stay in the processor
and go to whichever task is resumed next, as the outgoing task left them if the
compiled `task_switch` does not use them. `timerMeets` says of the registers before a
tick that this does no harm, and `preempted_task_resumes` that a resumed task finds
its context just where it holds.

Each tick may find any other memory under the `cr3` that it loads, outside of what the
page tables of all tasks share.
-/

namespace OS64.X86

open OS64.Lib OS64.Lib.X86 OS64.Kernel

/-- The processor, and for the record the context each task had when it was last
interrupted and, for each resumption so far, that of the resumed task and the one it
got. -/
structure TimerRun where
  cpu : Cpu
  saved : Addr → Context
  log : List (Context × Context)

variable (img : TimerImage) (code : Cpu → Cpu)

/-- Memory that tasks do not write: the tasks, `curr` and `lapic_addr`. -/
def TimerImage.owned (x : Nat) : Prop :=
  (∃ a ∈ img.tasks, a.toNat ≤ x ∧ x < a.toNat + sizeofTask) ∨
  (img.curr.toNat ≤ x ∧ x < img.curr.toNat + 8 * maxCpuNr) ∨
  (img.lapicVar.toNat ≤ x ∧ x < img.lapicVar.toNat + 8)

/-- The contexts on record once the task on the processor has been interrupted. -/
def TimerRun.savedNow (s : TimerRun) (a : Addr) : Context :=
  if a = img.cur s.cpu.mem then contextOf s.cpu else s.saved a

/-- A timer interrupt that ends with the processor in `cpu`. -/
def TimerRun.resume (s : TimerRun) (cpu : Cpu) : TimerRun where
  cpu := cpu
  saved := s.savedNow img
  log := (s.savedNow img (img.cur cpu.mem), contextOf cpu) :: s.log

/-- The steps: the task on the processor does anything to registers and to memory of
its own; or the timer interrupts, in a state for which `ok` holds. -/
inductive TimerStep (ok : TimerRun → Prop) : TimerRun → TimerRun → Prop
  | run (s : TimerRun) (cpu : Cpu) (h : ∀ x, img.owned x → cpu.mem x = s.cpu.mem x) :
      TimerStep ok s { s with cpu := cpu }
  | tick (s : TimerRun) (cpu : Cpu) (hok : ok s)
      (hcode : ∀ c, timerSave img (s.cpu.interrupt img.ist img.handler) = some c →
        TaskSwitchCode img c (code c)) (spaces : BitVec 64 → ByteMem)
      (h : timerIntr img code spaces (s.cpu.interrupt img.ist img.handler) = some cpu) :
      TimerStep ok s (s.resume img cpu)

/-- The registers of both contexts are the same. -/
def sameContext (x y : Context) : Prop :=
  (∀ r, y.reg r = x.reg r) ∧ y.rip = x.rip ∧ y.rflags = x.rflags ∧ y.cr3 = x.cr3

/-- The registers of a task that its frame does not hold. -/
def lostRegs : List Reg := [.r10, .r11, .r12, .r13, .r14, .r15]

/-- The compiled `task_switch` leaves `r10` and `r11` alone, which the calling convention
lets it use. -/
def KeepsScratch (code : Cpu → Cpu) : Prop := ∀ c, ∀ r ∈ [Reg.r10, .r11], (code c).reg r = c.reg r

/-- A tick loses nothing: `r10` to `r15` are in the processor what they were when the first
active task behind the current one, the current one counting as active, was interrupted,
and `task_switch` leaves them there. -/
def timerMeets (s : TimerRun) : Prop :=
  KeepsScratch code ∧ ∀ fuel n, walk (fun b => (taskAt s.cpu.mem b).next)
    (fun b => b == img.cur s.cpu.mem || (taskAt s.cpu.mem b).state == taskActive) fuel
    (img.cur s.cpu.mem) = some n → ∀ r ∈ lostRegs, s.cpu.reg r = (s.savedNow img n).reg r

/-- A ring of tasks of which all but the one on the processor have been interrupted and
have their frames in their structures. -/
structure TimerInv (s : TimerRun) : Prop where
  cur_task : img.cur s.cpu.mem ∈ img.tasks
  cur_state : (taskAt s.cpu.mem (img.cur s.cpu.mem)).state ≠ taskStarting
  next_task : ∀ a ∈ img.tasks, (taskAt s.cpu.mem a).next ∈ img.tasks
  frames : ∀ a ∈ img.tasks, a ≠ img.cur s.cpu.mem → (taskAt s.cpu.mem a).r = (s.saved a).frame
  lapic_eq : ld s.cpu.mem img.lapicVar = img.lapic

variable {img code}

/-! ## What memory keeps -/

/-- Two memories that agree on the kernel's data show the same tasks. -/
theorem owned_congr {m m' : ByteMem} (h : ∀ x, img.owned x → m' x = m x) :
    (∀ a ∈ img.tasks, taskAt m' a = taskAt m a) ∧ (∀ j, img.currAt m' j = img.currAt m j) ∧
    ld m' img.lapicVar = ld m img.lapicVar := by
  refine ⟨?_, ?_, ?_⟩
  · intro a ha
    exact taskAt_congr (img.task_fits a ha) fun x hx hx' => h x (Or.inl ⟨a, ha, hx, hx'⟩)
  · intro j
    have hfits := img.curr_fits
    have hj : j.val < 16 := j.isLt
    unfold maxCpuNr at hfits
    refine quad_congr (by omega) fun x hx hx' => h x (Or.inr (Or.inl ⟨by omega, ?_⟩))
    unfold maxCpuNr
    omega
  · exact ld_congr fun x hx hx' => h x (Or.inr (Or.inr ⟨hx, hx'⟩))

/-- The kernel's data is the same in every address space. -/
theorem owned_shared {x : Nat} (h : img.owned x) : img.shared x := by
  rcases h with ⟨a, ha, hx, hx'⟩ | ⟨hx, hx'⟩ | ⟨hx, hx'⟩
  · exact img.task_shared a ha x hx hx'
  · exact img.curr_shared x hx hx'
  · exact img.lapicVar_shared x hx hx'

/-- The kernel's data is not on the interrupt stack. -/
theorem owned_off_stack {x : Nat} (h : img.owned x) :
    x < img.ist.toNat - 128 ∨ img.ist.toNat ≤ x := by
  have hroom := img.ist_room
  rcases h with ⟨a, ha, hx⟩ | hx | hx
  · have hapart := img.task_stack a ha
    unfold Apart at hapart
    omega
  · have hapart := img.curr_stack
    unfold Apart at hapart
    omega
  · have hapart := img.lapicVar_stack
    unfold Apart at hapart
    omega

/-- What the second half of the stub writes leaves all the kernel's data as it is but
the structure of the resumed task, and there `next` and `state`. -/
theorem restoreWrites_keeps {m m' : ByteMem} {n : Addr} (hn : n ∈ img.tasks)
    (h : ∀ y, img.shared y → ¬ img.restoreWrites n y → m' y = m y) :
    (∀ a ∈ img.tasks, a ≠ n → taskAt m' a = taskAt m a) ∧
    (taskAt m' n).next = (taskAt m n).next ∧ (taskAt m' n).state = (taskAt m n).state ∧
    (∀ j, img.currAt m' j = img.currAt m j) ∧ ld m' img.lapicVar = ld m img.lapicVar := by
  have hfits := img.task_fits n hn
  have heoi := img.task_eoi n hn
  have hcurr := img.task_curr n hn
  have hvar := img.task_lapicVar n hn
  have hshared := img.task_shared n hn
  unfold sizeofTask at hfits heoi hcurr hvar hshared
  unfold Apart at heoi hcurr hvar
  refine ⟨?_, ?_, ?_, ?_, ?_⟩
  · intro a ha hne
    have hapart := img.tasks_apart a ha n hn hne
    have haeoi := img.task_eoi a ha
    unfold Apart sizeofTask at hapart haeoi
    refine taskAt_congr (img.task_fits a ha) fun x hx hx' => h x (img.task_shared a ha x hx hx') ?_
    unfold sizeofTask at hx'
    unfold TimerImage.restoreWrites TimerImage.eoi
    omega
  · refine quad_congr (by omega) fun x hx hx' => h x (hshared x (by omega) (by omega)) ?_
    unfold TimerImage.restoreWrites TimerImage.eoi
    omega
  · have hstate := add_toNat (a := n) (n := 144) (by omega)
    refine h _ (hshared _ (by omega) (by omega)) ?_
    unfold TimerImage.restoreWrites TimerImage.eoi
    omega
  · intro j
    have hcfits := img.curr_fits
    have hceoi := img.curr_eoi
    have hcshared := img.curr_shared
    have hj : j.val < 16 := j.isLt
    unfold maxCpuNr at hcfits hceoi hcurr hcshared
    unfold Apart at hceoi
    refine quad_congr (by omega) fun x hx hx' => h x (hcshared x (by omega) (by omega)) ?_
    unfold TimerImage.restoreWrites TimerImage.eoi
    omega
  · have hveoi := img.lapicVar_eoi
    unfold Apart at hveoi
    refine ld_congr fun x hx hx' => h x (img.lapicVar_shared x hx hx') ?_
    unfold TimerImage.restoreWrites TimerImage.eoi
    omega

/-! ## One tick -/

/-- What a tick does: it resumes the first active task behind the current one, the
current one counting as active, with all of its context but `r10` to `r15`. -/
theorem timerTick_spec {s : TimerRun} (h : TimerInv img s)
    (hcode : ∀ c, timerSave img (s.cpu.interrupt img.ist img.handler) = some c →
      TaskSwitchCode img c (code c)) (spaces : BitVec 64 → ByteMem) :
    ∃ c cpu fuel n, timerSave img (s.cpu.interrupt img.ist img.handler) = some c ∧
      timerIntr img code spaces (s.cpu.interrupt img.ist img.handler) = some cpu ∧
      walk (fun b => (taskAt s.cpu.mem b).next)
        (fun b => b == img.cur s.cpu.mem || (taskAt s.cpu.mem b).state == taskActive) fuel
        (img.cur s.cpu.mem) = some n ∧
      img.cur cpu.mem = n ∧ TimerInv img (s.resume img cpu) ∧
      (∀ r, r ∈ commRegs ∨ r = .rsp → cpu.reg r = (s.savedNow img n).reg r) ∧
      (∀ r ∈ [Reg.r12, .r13, .r14, .r15], cpu.reg r = s.cpu.reg r) ∧
      (∀ r ∈ [Reg.r10, .r11], cpu.reg r = (code c).reg r ∧ c.reg r = s.cpu.reg r) ∧
      cpu.rip = (s.savedNow img n).rip ∧ cpu.rflags = (s.savedNow img n).rflags ∧
      cpu.cr3 = (s.savedNow img n).cr3 ∧
      ∀ a ∈ img.tasks, (taskAt cpu.mem a).next = (taskAt s.cpu.mem a).next ∧
        (taskAt cpu.mem a).state =
          if a = img.cur s.cpu.mem then taskActive else (taskAt s.cpu.mem a).state := by
  obtain ⟨c, hsave, hst, hsp, hrdi, hreg, hmem⟩ := timerSave_spec img s.cpu
  obtain ⟨habi, ⟨fuel, t, hswitch, htasks, hcurr⟩, hlapic⟩ := hcode c hsave
  obtain ⟨hsame, hcurSame, hlapicSame⟩ := owned_congr fun x hx => hmem x (owned_off_stack hx)
  have hcur0 : img.cur s.cpu.mem ≠ 0 := fun h0 => img.task_nonnull (h0 ▸ h.cur_task)
  have hframe : allRegsAt c.mem (c.reg .rdi) = (contextOf s.cpu).frame := by
    have htail : StackAt c.mem (c.sp + 8).toNat ((contextOf s.cpu).frame.words ++ []) := by
      rw [Cpu.sp_tail hst, List.append_nil]
      exact hst.2
    rw [hrdi]
    exact allRegsAt_stack htail
  have hcurc : (img.tasksAt c.mem).curr img.id = img.cur s.cpu.mem := hcurSame img.id
  -- The C function saves the frame and goes on to the task `n`.
  obtain ⟨n, hnext, hret, ht⟩ : ∃ n,
      nextActive (saveCurrent (img.tasksAt c.mem) (img.cur s.cpu.mem) (contextOf s.cpu).frame) fuel
        (img.cur s.cpu.mem) = some n ∧ (code c).reg .rax = regsAddr n ∧
      t = (saveCurrent (img.tasksAt c.mem) (img.cur s.cpu.mem)
        (contextOf s.cpu).frame).setCurr img.id n := by
    have hcases := taskSwitch_cases hswitch
    rw [hcurc, hframe] at hcases
    rcases hcases with ⟨h0, -⟩ | ⟨-, hstart, -⟩ | ⟨-, -, hn⟩
    · exact absurd h0 hcur0
    · have hstate : ((img.tasksAt c.mem).heap (img.cur s.cpu.mem)).state =
          (taskAt s.cpu.mem (img.cur s.cpu.mem)).state := by
        rw [← hsame _ h.cur_task]
        rfl
      exact absurd (hstate.symm.trans hstart) h.cur_state
    · exact hn
  have hwalk : walk (fun b => (taskAt s.cpu.mem b).next)
      (fun b => b == img.cur s.cpu.mem || (taskAt s.cpu.mem b).state == taskActive) fuel
      (img.cur s.cpu.mem) = some n := by
    rw [nextActive_eq_walk] at hnext
    rw [← hnext]
    refine (walk_congr (S := (· ∈ img.tasks)) h.next_task ?_ ?_ fuel h.cur_task).symm
    · intro a ha
      show (taskAt c.mem a).next = _
      rw [hsame a ha]
    · intro a ha
      show (a == _ || (taskAt c.mem a).state == _) = _
      rw [hsame a ha]
  have hn : n ∈ img.tasks := walk_mem (S := (· ∈ img.tasks)) h.next_task h.cur_task hwalk
  -- The tasks behind `task_switch`: the outgoing one with its frame, the others as before.
  have hheap : ∀ a ∈ img.tasks, taskAt (code c).mem a =
      if a = img.cur s.cpu.mem then
        { taskAt s.cpu.mem a with r := (contextOf s.cpu).frame, state := taskActive }
      else taskAt s.cpu.mem a := by
    intro a ha
    rw [htasks a ha, ht, ← hsame a ha]
    show (if a = img.cur s.cpu.mem then _ else _) = _
    by_cases hac : a = img.cur s.cpu.mem
    · rw [if_pos hac, if_pos hac, hac]
      rfl
    · rw [if_neg hac, if_neg hac]
      rfl
  have hframes : ∀ a ∈ img.tasks, (taskAt (code c).mem a).r = (s.savedNow img a).frame := by
    intro a ha
    rw [hheap a ha]
    unfold TimerRun.savedNow
    by_cases hac : a = img.cur s.cpu.mem
    · rw [if_pos hac, if_pos hac]
    · rw [if_neg hac, if_neg hac]
      exact h.frames a ha hac
  have hnexts : ∀ a ∈ img.tasks, (taskAt (code c).mem a).next = (taskAt s.cpu.mem a).next := by
    intro a ha
    rw [hheap a ha]
    by_cases hac : a = img.cur s.cpu.mem
    · rw [if_pos hac]
    · rw [if_neg hac]
  have hstates : ∀ a ∈ img.tasks, (taskAt (code c).mem a).state =
      if a = img.cur s.cpu.mem then taskActive else (taskAt s.cpu.mem a).state := by
    intro a ha
    rw [hheap a ha]
    by_cases hac : a = img.cur s.cpu.mem
    · rw [if_pos hac, if_pos hac]
    · rw [if_neg hac, if_neg hac]
  have hactive : (taskAt (code c).mem n).state = taskActive := by
    rw [hstates n hn]
    by_cases hac : n = img.cur s.cpu.mem
    · rw [if_pos hac]
    · rw [if_neg hac]
      have hsat := walk_sat hwalk
      simpa [hac] using hsat
  have hcurn : img.currAt (code c).mem img.id = n := by
    rw [hcurr img.id, ht]
    exact if_pos rfl
  have hlapicd : ld (code c).mem img.lapicVar = img.lapic := by
    rw [hlapic, hlapicSame]
    exact h.lapic_eq
  obtain ⟨cpu, hrestore, hcomm, hother, hrip, -, hrflags, -, hcr3, -, hkeep⟩ :=
    timerRestore_spec img spaces hn hret (hframes n hn) hlapicd
  obtain ⟨hrest, hnextn, hstaten, hcurrs, hlapics⟩ := restoreWrites_keeps hn hkeep
  have hcurcpu : img.cur cpu.mem = n := (hcurrs img.id).trans hcurn
  have hintr : timerIntr img code spaces (s.cpu.interrupt img.ist img.handler) = some cpu := by
    unfold timerIntr
    rw [hsave]
    have hrip' : (code c).rip = img.afterSwitch := habi.rip.trans (Cpu.stack_head hst)
    show (if (code c).rip = img.afterSwitch then _ else _) = _
    rw [if_pos hrip']
    exact hrestore
  have hnextcpu : ∀ a ∈ img.tasks, (taskAt cpu.mem a).next = (taskAt s.cpu.mem a).next := by
    intro a ha
    by_cases han : a = n
    · rw [han, hnextn, hnexts n hn]
    · rw [hrest a ha han, hnexts a ha]
  have hstatecpu : ∀ a ∈ img.tasks, (taskAt cpu.mem a).state = (taskAt (code c).mem a).state := by
    intro a ha
    by_cases han : a = n
    · rw [han, hstaten]
    · rw [hrest a ha han]
  refine ⟨c, cpu, fuel, n, hsave, hintr, hwalk, hcurcpu, ⟨?_, ?_, ?_, ?_, ?_⟩, hcomm, ?_, ?_, hrip,
    hrflags, hcr3, fun a ha => ⟨hnextcpu a ha, (hstatecpu a ha).trans (hstates a ha)⟩⟩
  · show img.cur cpu.mem ∈ img.tasks
    rw [hcurcpu]
    exact hn
  · show (taskAt cpu.mem (img.cur cpu.mem)).state ≠ taskStarting
    rw [hcurcpu, hstatecpu n hn, hactive]
    decide
  · intro a ha
    show (taskAt cpu.mem a).next ∈ img.tasks
    rw [hnextcpu a ha]
    exact h.next_task a ha
  · intro a ha hac
    change a ≠ img.cur cpu.mem at hac
    rw [hcurcpu] at hac
    show (taskAt cpu.mem a).r = (s.savedNow img a).frame
    rw [hrest a ha hac]
    exact hframes a ha
  · exact hlapics.trans hlapicd
  · intro r hr
    have hsaved : r ∈ calleeSaved ∧ r ∉ commRegs ∧ r ≠ .rsp ∧ r ≠ .rdi ∧ r ≠ .rax := by
      revert hr
      cases r <;> decide
    rw [hother r hsaved.2.1 hsaved.2.2.1, habi.saved r hsaved.1,
      hreg r hsaved.2.2.1 hsaved.2.2.2.1 hsaved.2.2.2.2]
  · intro r hr
    have hnot : r ∉ commRegs ∧ r ≠ .rsp ∧ r ≠ .rdi ∧ r ≠ .rax := by
      revert hr
      cases r <;> decide
    exact ⟨hother r hnot.1 hnot.2.1, hreg r hnot.2.1 hnot.2.2.1 hnot.2.2.2⟩

/-- Unless `task_switch` uses `r10` or `r11`, a tick resumes the task behind with those of
the registers that no frame holds as they are. -/
theorem timerTick_lost {s : TimerRun} (h : TimerInv img s)
    (hcode : ∀ c, timerSave img (s.cpu.interrupt img.ist img.handler) = some c →
      TaskSwitchCode img c (code c)) (hscratch : KeepsScratch code)
    (spaces : BitVec 64 → ByteMem) :
    ∃ cpu, timerIntr img code spaces (s.cpu.interrupt img.ist img.handler) = some cpu ∧
      TimerInv img (s.resume img cpu) ∧ (∀ r ∈ lostRegs, cpu.reg r = s.cpu.reg r) ∧
      ∃ fuel, walk (fun b => (taskAt s.cpu.mem b).next)
        (fun b => b == img.cur s.cpu.mem || (taskAt s.cpu.mem b).state == taskActive) fuel
        (img.cur s.cpu.mem) = some (img.cur cpu.mem) ∧
      ((∀ r ∈ lostRegs, s.cpu.reg r = (s.savedNow img (img.cur cpu.mem)).reg r) →
        sameContext (s.savedNow img (img.cur cpu.mem)) (contextOf cpu)) := by
  obtain ⟨c, cpu, fuel, n, -, hintr, hwalk, hcur, hinv, hcomm, hkept, hleft, hrip, hrflags, hcr3, -⟩ :=
    timerTick_spec h hcode spaces
  have hlost : ∀ r ∈ lostRegs, cpu.reg r = s.cpu.reg r := by
    intro r hr
    by_cases hr₁ : r ∈ [Reg.r12, .r13, .r14, .r15]
    · exact hkept r hr₁
    · have hr₂ : r ∈ [Reg.r10, .r11] := by
        revert hr hr₁
        cases r <;> decide
      rw [(hleft r hr₂).1, hscratch c r hr₂, (hleft r hr₂).2]
  refine ⟨cpu, hintr, hinv, hlost, fuel, ?_, fun hmeets => ⟨fun r => ?_, ?_, ?_, ?_⟩⟩
  · rw [hcur]
    exact hwalk
  · by_cases hr : r ∈ lostRegs
    · exact (hlost r hr).trans (hmeets r hr)
    · rw [hcur]
      apply hcomm r
      revert hr
      cases r <;> decide
  · rw [hcur]
    exact hrip
  · rw [hcur]
    exact hrflags
  · rw [hcur]
    exact hcr3

/-- A tick resumes a task with its whole context just when `timerMeets` holds. -/
theorem timerTick_same_iff {s : TimerRun} (h : TimerInv img s)
    (hcode : ∀ c, timerSave img (s.cpu.interrupt img.ist img.handler) = some c →
      TaskSwitchCode img c (code c)) (hscratch : KeepsScratch code)
    (spaces : BitVec 64 → ByteMem) :
    ∃ cpu, timerIntr img code spaces (s.cpu.interrupt img.ist img.handler) = some cpu ∧
      TimerInv img (s.resume img cpu) ∧
      (sameContext (s.savedNow img (img.cur cpu.mem)) (contextOf cpu) ↔
        timerMeets img code s) := by
  obtain ⟨cpu, hintr, hinv, hlost, fuel, hwalk, hsame⟩ := timerTick_lost h hcode hscratch spaces
  refine ⟨cpu, hintr, hinv, ?_⟩
  constructor
  · intro hsame'
    refine ⟨hscratch, fun fuel' n' hwalk' r hr => ?_⟩
    rw [walk_det hwalk' hwalk]
    exact (hlost r hr).symm.trans (hsame'.1 r)
  · intro hmeets
    exact hsame (hmeets.2 fuel _ hwalk)

/-! ## Runs -/

/-- What a task does on the processor keeps the invariant. -/
theorem timerRun_inv {s : TimerRun} (h : TimerInv img s) {cpu : Cpu}
    (hmem : ∀ x, img.owned x → cpu.mem x = s.cpu.mem x) : TimerInv img { s with cpu := cpu } := by
  obtain ⟨htasks, hcurr, hlapic⟩ := owned_congr hmem
  have hcur : img.cur cpu.mem = img.cur s.cpu.mem := hcurr img.id
  refine ⟨?_, ?_, ?_, ?_, ?_⟩
  · show img.cur cpu.mem ∈ img.tasks
    rw [hcur]
    exact h.cur_task
  · show (taskAt cpu.mem (img.cur cpu.mem)).state ≠ taskStarting
    rw [hcur, htasks _ h.cur_task]
    exact h.cur_state
  · intro a ha
    show (taskAt cpu.mem a).next ∈ img.tasks
    rw [htasks a ha]
    exact h.next_task a ha
  · intro a ha hac
    change a ≠ img.cur cpu.mem at hac
    rw [hcur] at hac
    show (taskAt cpu.mem a).r = _
    rw [htasks a ha]
    exact h.frames a ha hac
  · exact hlapic.trans h.lapic_eq

/-- A step keeps the invariant, and a record of right resumptions right. -/
theorem timerStep_inv {s s' : TimerRun} (h : TimerInv img s)
    (hlog : ∀ p ∈ s.log, sameContext p.1 p.2)
    (hstep : TimerStep img code (timerMeets img code) s s') :
    TimerInv img s' ∧ ∀ p ∈ s'.log, sameContext p.1 p.2 := by
  cases hstep with
  | run cpu hmem => exact ⟨timerRun_inv h hmem, hlog⟩
  | tick cpu hok hcode spaces hintr =>
    obtain ⟨cpu', hintr', hinv, hiff⟩ := timerTick_same_iff h hcode hok.1 spaces
    have hcpu : cpu' = cpu := Option.some.inj (hintr'.symm.trans hintr)
    rw [hcpu] at hinv hiff
    refine ⟨hinv, ?_⟩
    have hlog' : (s.resume img cpu).log =
        (s.savedNow img (img.cur cpu.mem), contextOf cpu) :: s.log := rfl
    have hlast := hiff.mpr hok
    rw [hlog']
    generalize s.savedNow img (img.cur cpu.mem) = x at *
    generalize contextOf cpu = y at *
    intro p hp
    rcases List.mem_cons.mp hp with heq | hmem
    · rw [heq]
      exact hlast
    · exact hlog p hmem

/-- In every run of a ring of already running tasks whose ticks all meet `timerMeets`,
every task was resumed with the context it had when it was interrupted; and a tick in
the last state, which the stub always brings to its end, resumes a task so just when it
meets `timerMeets` too, if `task_switch` does not use `r10` and `r11`. -/
theorem preempted_task_resumes {s₀ s : TimerRun} (hinv : TimerInv img s₀) (hlog : s₀.log = [])
    (hrun : Relation.ReflTransGen (TimerStep img code (timerMeets img code)) s₀ s) :
    (∀ p ∈ s.log, sameContext p.1 p.2) ∧
    ((∀ c, timerSave img (s.cpu.interrupt img.ist img.handler) = some c →
        TaskSwitchCode img c (code c)) → KeepsScratch code → ∀ spaces,
      ∃ cpu, timerIntr img code spaces (s.cpu.interrupt img.ist img.handler) = some cpu ∧
        (sameContext (s.savedNow img (img.cur cpu.mem)) (contextOf cpu) ↔
          timerMeets img code s)) := by
  have hstart : ∀ p ∈ s₀.log, sameContext p.1 p.2 := by
    rw [hlog]
    exact fun p hp => absurd hp List.not_mem_nil
  obtain ⟨hinv', hlog'⟩ := run_invariant
    (fun s => TimerInv img s ∧ ∀ p ∈ s.log, sameContext p.1 p.2)
    (fun s s' h hstep => timerStep_inv h.1 h.2 hstep) hrun ⟨hinv, hstart⟩
  refine ⟨hlog', fun hcode hscratch spaces => ?_⟩
  obtain ⟨cpu, hintr, -, hiff⟩ := timerTick_same_iff hinv' hcode hscratch spaces
  exact ⟨cpu, hintr, hiff⟩

/-! ## Two tasks -/

/-- The code of `switchCode` serves the stub in every state of a ring whose search ends. -/
theorem switchCode_tick {s : TimerRun} (h : TimerInv img s) {fuel : Nat} {n : Addr}
    (hwalk : walk (fun b => (taskAt s.cpu.mem b).next)
      (fun b => b == img.cur s.cpu.mem || (taskAt s.cpu.mem b).state == taskActive) fuel
      (img.cur s.cpu.mem) = some n) :
    ∀ c, timerSave img (s.cpu.interrupt img.ist img.handler) = some c →
      TaskSwitchCode img c (switchCode img fuel c) := by
  intro c hc
  obtain ⟨c', hsave, hst, hsp, hrdi, -, hmem⟩ := timerSave_spec img s.cpu
  have hcc : c = c' := Option.some.inj (hc.symm.trans hsave)
  subst hcc
  obtain ⟨htasks, hcurr, -⟩ := owned_congr fun x hx => hmem x (owned_off_stack hx)
  have hcur : img.cur c.mem = img.cur s.cpu.mem := hcurr img.id
  have hroom := img.ist_room
  have hist := img.ist.isLt
  have hc' : (c.sp + 8).toNat = c.sp.toNat + 8 := Cpu.sp_tail hst
  apply switchCode_ok (n := n)
  · rw [hcur]
    exact h.cur_task
  · rw [hcur, htasks _ h.cur_task]
    exact h.cur_state
  · intro a ha
    rw [htasks a ha]
    exact h.next_task a ha
  · omega
  · omega
  · rw [hrdi, hc']
    omega
  · rw [← hwalk, hcur]
    refine walk_congr (S := (· ∈ img.tasks)) h.next_task ?_ ?_ fuel h.cur_task
    · intro a ha
      rw [htasks a ha]
    · intro a ha
      rw [htasks a ha]

/-- The image with its task `a` only. -/
def TimerImage.only (img : TimerImage) (a : Addr) (ha : a ∈ img.tasks) : TimerImage where
  __ := img
  tasks := [a]
  task_nonnull h := img.task_nonnull (List.mem_singleton.mp h ▸ ha)
  task_fits b hb := img.task_fits b (List.mem_singleton.mp hb ▸ ha)
  tasks_apart b hb c hc := img.tasks_apart b (List.mem_singleton.mp hb ▸ ha) c
    (List.mem_singleton.mp hc ▸ ha)
  task_stack b hb := img.task_stack b (List.mem_singleton.mp hb ▸ ha)
  task_curr b hb := img.task_curr b (List.mem_singleton.mp hb ▸ ha)
  task_lapicVar b hb := img.task_lapicVar b (List.mem_singleton.mp hb ▸ ha)
  task_eoi b hb := img.task_eoi b (List.mem_singleton.mp hb ▸ ha)
  task_shared b hb := img.task_shared b (List.mem_singleton.mp hb ▸ ha)

/-- Tasks at `0x10000` and `0x20000` in shared memory below `0x50000`, for the examples below. -/
def pairImage : TimerImage where
  id := 0
  tasks := [0x10000, 0x20000]
  curr := 0x30000
  nextPid := 0x31000
  lapicVar := 0x32000
  lapic := 0x40000
  ist := 0x8000
  handler := 0x100
  saveRegs := 0x200
  taskSwitch := 0x300
  restRegs := 0x400
  apicEoi := 0x500
  afterSave := 0x110
  afterSwitch := 0x118
  afterRest := 0x120
  afterEoi := 0x128
  shared x := decide (x < 0x50000)
  ist_room := by decide
  task_nonnull := by decide
  task_fits := by
    intro a ha
    rcases List.mem_cons.mp ha with rfl | ha
    · decide
    · rw [List.mem_singleton.mp ha]
      decide
  tasks_apart := by
    intro a ha b hb hne
    rcases List.mem_cons.mp ha with rfl | ha <;> rcases List.mem_cons.mp hb with rfl | hb
    · exact absurd rfl hne
    · rw [List.mem_singleton.mp hb]
      decide
    · rw [List.mem_singleton.mp ha]
      decide
    · exact absurd ((List.mem_singleton.mp ha).trans (List.mem_singleton.mp hb).symm) hne
  task_stack := by
    intro a ha
    rcases List.mem_cons.mp ha with rfl | ha
    · decide
    · rw [List.mem_singleton.mp ha]
      decide
  task_curr := by
    intro a ha
    rcases List.mem_cons.mp ha with rfl | ha
    · decide
    · rw [List.mem_singleton.mp ha]
      decide
  task_lapicVar := by
    intro a ha
    rcases List.mem_cons.mp ha with rfl | ha
    · decide
    · rw [List.mem_singleton.mp ha]
      decide
  task_eoi := by
    intro a ha
    rcases List.mem_cons.mp ha with rfl | ha
    · decide
    · rw [List.mem_singleton.mp ha]
      decide
  curr_fits := by decide
  curr_stack := by decide
  curr_eoi := by decide
  lapicVar_curr := by decide
  lapicVar_stack := by decide
  lapicVar_eoi := by decide
  stack_shared x _ hx := decide_eq_true (Nat.lt_trans hx (by decide))
  task_shared := by
    intro a ha x _ hx
    rcases List.mem_cons.mp ha with rfl | ha
    · exact decide_eq_true (Nat.lt_trans hx (by decide))
    · rw [List.mem_singleton.mp ha] at hx
      exact decide_eq_true (Nat.lt_trans hx (by decide))
  curr_shared x _ hx := decide_eq_true (Nat.lt_trans hx (by decide))
  lapicVar_shared x _ hx := decide_eq_true (Nat.lt_trans hx (by decide))
  eoi_shared x _ hx := decide_eq_true (Nat.lt_trans hx (by decide))

/-- The two tasks in a ring, both active, all their registers 0, the first one on the
processor. -/
def pairRun : TimerRun where
  cpu :=
    { reg := fun _ => 0
      rip := 0
      cs := 0
      rflags := 0
      ss := 0
      cr3 := 0
      mem := fun x =>
        if x = 0x1008A then 2
        else if x = 0x2008A then 1
        else if x = 0x30002 then 1
        else if x = 0x32002 then 4
        else 0 }
  saved := fun _ => ⟨fun _ => 0, 0, 0, 0, 0, 0⟩
  log := []

theorem pairRun_inv : TimerInv pairImage pairRun where
  cur_task := by decide +kernel
  cur_state := by decide +kernel
  next_task := by
    intro a ha
    rcases List.mem_cons.mp ha with rfl | ha
    · decide +kernel
    · rw [List.mem_singleton.mp ha]
      decide +kernel
  frames := by
    intro a ha hne
    rcases List.mem_cons.mp ha with rfl | ha
    · exact absurd (by decide +kernel) hne
    · rw [List.mem_singleton.mp ha]
      decide +kernel
  lapic_eq := by decide +kernel

/-- From the first task the search finds the second. -/
theorem pairRun_walk : walk (fun b => (taskAt pairRun.cpu.mem b).next)
    (fun b => b == pairImage.cur pairRun.cpu.mem || (taskAt pairRun.cpu.mem b).state == taskActive) 2
    (pairImage.cur pairRun.cpu.mem) = some 0x20000 := by decide +kernel

/-- Memory of the address spaces outside of what they share. -/
def pairSpaces (cr3 : BitVec 64) : ByteMem := fun _ => cr3.setWidth 8

/-- The second task, resumed in the state `cpu`, has put `v` into the register `r`. -/
def pairTurn (cpu : Cpu) (r : Reg) (v : BitVec 64) : TimerRun :=
  { pairRun.resume pairImage cpu with cpu := cpu.set r v }

theorem pairTurn_zero (cpu : Cpu) {r : Reg} {v : BitVec 64}
    (hcur : pairImage.cur (pairTurn cpu r v).cpu.mem = 0x20000) (q : Reg) :
    ((pairTurn cpu r v).savedNow pairImage 0x10000).reg q = 0 := by
  unfold TimerRun.savedNow
  rw [hcur, if_neg (by decide)]
  show (pairRun.savedNow pairImage 0x10000).reg q = 0
  unfold TimerRun.savedNow
  rw [if_pos (by decide +kernel)]
  rfl

/-- A tick to the second task, which sets a register, and one back to the first. -/
theorem pairRun_turns (r : Reg) (v : BitVec 64) :
    ∃ cpu cpu₂, timerIntr pairImage (switchCode pairImage 2) pairSpaces
        (pairRun.cpu.interrupt pairImage.ist pairImage.handler) = some cpu ∧
      (∀ q ∈ lostRegs, cpu.reg q = 0) ∧ TimerInv pairImage (pairTurn cpu r v) ∧
      pairImage.cur (pairTurn cpu r v).cpu.mem = 0x20000 ∧
      walk (fun b => (taskAt (pairTurn cpu r v).cpu.mem b).next)
        (fun b => b == pairImage.cur (pairTurn cpu r v).cpu.mem ||
          (taskAt (pairTurn cpu r v).cpu.mem b).state == taskActive) 2
        (pairImage.cur (pairTurn cpu r v).cpu.mem) = some 0x10000 ∧
      timerIntr pairImage (switchCode pairImage 2) pairSpaces
        ((pairTurn cpu r v).cpu.interrupt pairImage.ist pairImage.handler) = some cpu₂ ∧
      pairImage.cur cpu₂.mem = 0x10000 ∧
      (∀ q ∈ lostRegs, cpu₂.reg q = (pairTurn cpu r v).cpu.reg q) ∧
      ∀ q, q ∈ commRegs ∨ q = .rsp → cpu₂.reg q = 0 := by
  have hcode := switchCode_tick pairRun_inv pairRun_walk
  have hscratch : KeepsScratch (switchCode pairImage 2) := fun c q hq => switchCode_scratch hq
  obtain ⟨cpu₀, hintr₀, -, hlost₀, -⟩ := timerTick_lost pairRun_inv hcode hscratch pairSpaces
  obtain ⟨c, cpu, fuel, n, -, hintr, hwalk, hcur, hinv, -, -, -, -, -, -, hkept⟩ :=
    timerTick_spec pairRun_inv hcode pairSpaces
  have hcpu : cpu₀ = cpu := Option.some.inj (hintr₀.symm.trans hintr)
  rw [hcpu] at hlost₀
  have hn : n = 0x20000 := walk_det hwalk pairRun_walk
  have hinv₁ : TimerInv pairImage (pairTurn cpu r v) := timerRun_inv hinv fun _ _ => rfl
  have hcur₁ : pairImage.cur (pairTurn cpu r v).cpu.mem = 0x20000 := hcur.trans hn
  have hwalk₁ : walk (fun b => (taskAt (pairTurn cpu r v).cpu.mem b).next)
      (fun b => b == pairImage.cur (pairTurn cpu r v).cpu.mem ||
        (taskAt (pairTurn cpu r v).cpu.mem b).state == taskActive) 2
      (pairImage.cur (pairTurn cpu r v).cpu.mem) = some 0x10000 := by
    have hnext : (taskAt (pairTurn cpu r v).cpu.mem 0x20000).next = 0x10000 := by
      refine (hkept 0x20000 (by decide)).1.trans ?_
      decide +kernel
    have hstate : (taskAt (pairTurn cpu r v).cpu.mem 0x10000).state = taskActive := by
      refine (hkept 0x10000 (by decide)).2.trans ?_
      decide +kernel
    rw [hcur₁, walk, hnext, hstate]
    rfl
  have hcode₁ := switchCode_tick hinv₁ hwalk₁
  obtain ⟨cpu₁, hintr₁, -, hlost₁, -⟩ := timerTick_lost hinv₁ hcode₁ hscratch pairSpaces
  obtain ⟨c₂, cpu₂, fuel₂, n₂, -, hintr₂, hwalk₂, hcur₂, -, hcomm₂, -⟩ :=
    timerTick_spec hinv₁ hcode₁ pairSpaces
  have hcpu₁ : cpu₁ = cpu₂ := Option.some.inj (hintr₁.symm.trans hintr₂)
  rw [hcpu₁] at hlost₁
  have hn₂ : n₂ = 0x10000 := walk_det hwalk₂ hwalk₁
  rw [hn₂] at hcur₂ hcomm₂
  exact ⟨cpu, cpu₂, hintr, hlost₀, hinv₁, hcur₁, hwalk₁, hintr₂, hcur₂, hlost₁,
    fun q hq => (hcomm₂ q hq).trans (pairTurn_zero cpu hcur₁ q)⟩

/-- The second task sets `rax` to 5, and the first one is resumed with its own. -/
theorem preempted_task_resumes_pair :
    ∃ s cpu, Relation.ReflTransGen (TimerStep pairImage (switchCode pairImage 2)
        (timerMeets pairImage (switchCode pairImage 2))) pairRun s ∧
      s.log.length = 1 ∧ (∀ p ∈ s.log, sameContext p.1 p.2) ∧ s.cpu.reg .rax = 5 ∧
      timerIntr pairImage (switchCode pairImage 2) pairSpaces
        (s.cpu.interrupt pairImage.ist pairImage.handler) = some cpu ∧ cpu.reg .rax = 0 ∧
      sameContext (s.savedNow pairImage (pairImage.cur cpu.mem)) (contextOf cpu) := by
  have hcode := switchCode_tick pairRun_inv pairRun_walk
  have hscratch : KeepsScratch (switchCode pairImage 2) := fun c q hq => switchCode_scratch hq
  obtain ⟨cpu, cpu₂, hintr, hzero, hinv₁, hcur₁, hwalk₁, hintr₂, -, -, hcomm⟩ := pairRun_turns .rax 5
  have hmeets : timerMeets pairImage (switchCode pairImage 2) pairRun := by
    refine ⟨hscratch, fun fuel n _ r _ => ?_⟩
    unfold TimerRun.savedNow
    by_cases hn : n = pairImage.cur pairRun.cpu.mem
    · rw [if_pos hn]
      rfl
    · rw [if_neg hn]
      rfl
  have hmeets₁ : timerMeets pairImage (switchCode pairImage 2) (pairTurn cpu .rax 5) := by
    refine ⟨hscratch, fun fuel n hwalk r hr => ?_⟩
    have hne : r ≠ .rax := by
      revert hr
      cases r <;> decide
    rw [walk_det hwalk hwalk₁, pairTurn_zero cpu hcur₁]
    exact (if_neg hne).trans (hzero r hr)
  have hrun : Relation.ReflTransGen (TimerStep pairImage (switchCode pairImage 2)
      (timerMeets pairImage (switchCode pairImage 2))) pairRun (pairTurn cpu .rax 5) :=
    (Relation.ReflTransGen.single (.tick pairRun cpu hmeets hcode pairSpaces hintr)).tail
      (.run _ (cpu.set .rax 5) fun _ _ => rfl)
  obtain ⟨hlog, htick⟩ := preempted_task_resumes pairRun_inv rfl hrun
  obtain ⟨cpu', hintr', hiff⟩ := htick (switchCode_tick hinv₁ hwalk₁) hscratch pairSpaces
  have hcpu : cpu' = cpu₂ := Option.some.inj (hintr'.symm.trans hintr₂)
  rw [hcpu] at hiff
  exact ⟨_, cpu₂, hrun, rfl, hlog, rfl, hintr₂, hcomm .rax (Or.inl (by decide)), hiff.mpr hmeets₁⟩

/-- The first task is interrupted with 0 in `r12`; the second one then puts 7 there, and
the first one finds it when it is resumed. -/
theorem preempted_task_loses_r12 :
    ∃ s x y, Relation.ReflTransGen (TimerStep pairImage (switchCode pairImage 2) fun _ => True)
        pairRun s ∧ (x, y) ∈ s.log ∧ x.reg .r12 = 0 ∧ y.reg .r12 = 7 ∧ ¬ sameContext x y := by
  have hcode := switchCode_tick pairRun_inv pairRun_walk
  obtain ⟨cpu, cpu₂, hintr, -, hinv₁, hcur₁, hwalk₁, hintr₂, hcur₂, hlost, -⟩ := pairRun_turns .r12 7
  have hx : ((pairTurn cpu .r12 7).savedNow pairImage (pairImage.cur cpu₂.mem)).reg .r12 = 0 := by
    rw [hcur₂]
    exact pairTurn_zero cpu hcur₁ .r12
  have hy : (contextOf cpu₂).reg .r12 = 7 := hlost .r12 (by decide)
  have hlog : ((pairTurn cpu .r12 7).resume pairImage cpu₂).log =
      ((pairTurn cpu .r12 7).savedNow pairImage (pairImage.cur cpu₂.mem), contextOf cpu₂) ::
        (pairTurn cpu .r12 7).log := rfl
  refine ⟨(pairTurn cpu .r12 7).resume pairImage cpu₂, _, _, ?_,
    by rw [hlog]; exact List.mem_cons_self, hx, hy, ?_⟩
  · have hrun₁ := (Relation.ReflTransGen.refl (r := TimerStep pairImage (switchCode pairImage 2)
      fun _ => True)).tail (.tick pairRun cpu trivial hcode pairSpaces hintr)
    have hrun₂ := hrun₁.tail (.run _ (cpu.set .r12 7) fun _ _ => rfl)
    exact hrun₂.tail
      (.tick (pairTurn cpu .r12 7) cpu₂ trivial (switchCode_tick hinv₁ hwalk₁) pairSpaces hintr₂)
  · intro hsame
    have h := hsame.1 .r12
    rw [hx, hy] at h
    exact absurd h (by decide)

end OS64.X86
