import OS64.Kernel.TaskMem

/-!
# The timer interrupt (`x86_64/timer.S`)

`timer_intr` builds an `all_regs` on the interrupt stack: the frame of the
interrupt, `cr3` in the place of `reg1`, and the registers of `save_regs`. It hands
the address to `task_switch`, which returns the address of the `all_regs` of the task
to go on with, and takes the registers from there: the field `r` of the task is the
stack of the second half, and the pushes of its calls go into the task.

Mirroring notes:
- `timerSave` is the stub up to the first instruction of `task_switch`,
  `timerRestore` the rest of it from the return of `task_switch`.
- `task_switch` is compiled code: a parameter that keeps to the calling convention
  and does to the tasks and to `curr` in memory what the C function does
  (`TaskSwitchCode`).
- The interrupt controller is a word of memory that nobody reads.
- The stub loads `cr3` while its stack is the structure of the task to go on with, and
  takes the rest of the frame from there. The structures of the tasks, and what else
  the stub and `task_switch` use, are in memory that the page tables of all tasks share
  (`TimerImage.shared`); the rest of memory may be any other after the load.
-/

namespace OS64.X86

open OS64.Lib OS64.Lib.X86 OS64.Kernel

/-- The `n` bytes at `a` and the `k` bytes at `b` do not overlap. -/
def Apart (a n b k : Nat) : Prop := a + n ≤ b ∨ b + k ≤ a

instance (a n b k : Nat) : Decidable (Apart a n b k) := inferInstanceAs (Decidable (_ ∨ _))

/-- Where the timer interrupt of one processor finds its data and code, and the tasks:
the variables `curr`, `next_pid` and `lapic_addr` with the value of the last, the
stack of the interrupt gate, of which the stub uses sixteen words, and the tasks, each
in a block of its own. `shared` is the memory that is the same under the `cr3` of every
task; the data of the stub is in it. -/
structure TimerImage where
  id : Fin maxCpuNr
  tasks : List Addr
  curr : Addr
  nextPid : Addr
  lapicVar : Addr
  lapic : Addr
  ist : Addr
  handler : Addr
  saveRegs : Addr
  taskSwitch : Addr
  restRegs : Addr
  apicEoi : Addr
  afterSave : Addr
  afterSwitch : Addr
  afterRest : Addr
  afterEoi : Addr
  shared : Nat → Bool
  ist_room : 128 ≤ ist.toNat
  task_nonnull : 0 ∉ tasks
  task_fits : ∀ a ∈ tasks, a.toNat + sizeofTask ≤ 2 ^ 64
  tasks_apart : ∀ a ∈ tasks, ∀ b ∈ tasks, a ≠ b →
    Apart a.toNat sizeofTask b.toNat sizeofTask
  task_stack : ∀ a ∈ tasks, Apart a.toNat sizeofTask (ist.toNat - 128) 128
  task_curr : ∀ a ∈ tasks, Apart a.toNat sizeofTask curr.toNat (8 * maxCpuNr)
  task_lapicVar : ∀ a ∈ tasks, Apart a.toNat sizeofTask lapicVar.toNat 8
  task_eoi : ∀ a ∈ tasks, Apart a.toNat sizeofTask (lapic + 0xB0).toNat 4
  curr_fits : curr.toNat + 8 * maxCpuNr ≤ 2 ^ 64
  curr_stack : Apart curr.toNat (8 * maxCpuNr) (ist.toNat - 128) 128
  curr_eoi : Apart curr.toNat (8 * maxCpuNr) (lapic + 0xB0).toNat 4
  lapicVar_curr : Apart lapicVar.toNat 8 curr.toNat (8 * maxCpuNr)
  lapicVar_stack : Apart lapicVar.toNat 8 (ist.toNat - 128) 128
  lapicVar_eoi : Apart lapicVar.toNat 8 (lapic + 0xB0).toNat 4
  stack_shared : ∀ x, ist.toNat - 128 ≤ x → x < ist.toNat → shared x
  task_shared : ∀ a ∈ tasks, ∀ x, a.toNat ≤ x → x < a.toNat + sizeofTask → shared x
  curr_shared : ∀ x, curr.toNat ≤ x → x < curr.toNat + 8 * maxCpuNr → shared x
  lapicVar_shared : ∀ x, lapicVar.toNat ≤ x → x < lapicVar.toNat + 8 → shared x
  eoi_shared : ∀ x, (lapic + 0xB0).toNat ≤ x → x < (lapic + 0xB0).toNat + 4 → shared x

variable (img : TimerImage)

/-- `curr[j]` in memory. -/
def TimerImage.currAt (m : ByteMem) (j : Fin maxCpuNr) : Addr := quad m img.curr (8 * j.val)

/-- The task on the processor. -/
def TimerImage.cur (m : ByteMem) : Addr := img.currAt m img.id

/-- The tasks in memory. -/
def TimerImage.tasksAt (m : ByteMem) : Tasks := ⟨taskAt m, img.currAt m, ld m img.nextPid⟩

/-- `apic_eoi`. -/
def apicEoi (s : Cpu) : Cpu :=
  let s₁ := s.push (s.reg .rax)
  let s₂ := s₁.set .rax (ld s₁.mem img.lapicVar)
  let s₃ :=
    if s₂.reg .rax = 0 then s₂
    else
      let s₄ := s₂.set .rax (s₂.reg .rax + 0xB0)
      { s₄ with mem := s₄.mem.write (s₄.reg .rax).toNat 4 0 }
  (s₃.pop .rax).ret

/-- `timer_intr` up to the first instruction of `task_switch`. -/
def timerSave (s : Cpu) : Option Cpu :=
  let s₁ := s.push (s.reg .rax)
  let s₂ := s₁.set .rax s₁.cr3
  let s₃ := s₂.xchg 0 .rax
  let s₄ := saveRegs (s₃.call img.saveRegs img.afterSave)
  if s₄.rip = img.afterSave then
    let s₅ := s₄.set .rdi s₄.sp
    some (s₅.call img.taskSwitch img.afterSwitch)
  else none

/-- `timer_intr` from the return of `task_switch`, the page tables at `v` mapping `spaces v`
where they do not all map the same. -/
def timerRestore (spaces : BitVec 64 → ByteMem) (s : Cpu) : Option Cpu :=
  let s₁ := s.set .rsp (s.reg .rax)
  let s₂ := restRegs (s₁.call img.restRegs img.afterRest)
  if s₂.rip = img.afterRest then
    let s₃ := s₂.xchg 0 .rax
    let s₄ := s₃.loadCr3 img.shared spaces (s₃.reg .rax)
    let s₅ := s₄.pop .rax
    let s₆ := apicEoi img (s₅.call img.apicEoi img.afterEoi)
    if s₆.rip = img.afterEoi then some s₆.iretq else none
  else none

/-- `timer_intr`, the compiled `task_switch` being `code`. -/
def timerIntr (code : Cpu → Cpu) (spaces : BitVec 64 → ByteMem) (s : Cpu) : Option Cpu :=
  match timerSave img s with
  | none => none
  | some c => if (code c).rip = img.afterSwitch then timerRestore img spaces (code c) else none

/-- What the compiled `task_switch` does from its first instruction in `c` to its return
in `d`: by the calling convention, and to the tasks what the C function does. -/
structure TaskSwitchCode (c d : Cpu) : Prop where
  abi : Cpu.CCall img.ist.toNat c d
  result : ∃ fuel t, Kernel.taskSwitch fuel (img.tasksAt c.mem) img.id (c.reg .rdi)
      (allRegsAt c.mem (c.reg .rdi)) = some (d.reg .rax, t) ∧
    (∀ a ∈ img.tasks, taskAt d.mem a = t.heap a) ∧ ∀ j, img.currAt d.mem j = t.curr j
  lapic_kept : ld d.mem img.lapicVar = ld c.mem img.lapicVar

/-! ## The first half -/

/-- `timer_intr` calls `task_switch` on a stack that holds the frame of the interrupted
task, with the address of the frame as the argument. -/
theorem timerSave_spec (s : Cpu) :
    ∃ c, timerSave img (s.interrupt img.ist img.handler) = some c ∧
      c.Stack (img.afterSwitch :: (contextOf s).frame.words) ∧
      c.sp.toNat = img.ist.toNat - 128 ∧ c.reg .rdi = c.sp + 8 ∧
      (∀ r, r ≠ .rsp → r ≠ .rdi → r ≠ .rax → c.reg r = s.reg r) ∧
      ∀ x, x < img.ist.toNat - 128 ∨ img.ist.toNat ≤ x → c.mem x = s.mem x := by
  have hroom := img.ist_room
  obtain ⟨hst, hsp, hreg, hmem, hcr3⟩ := Cpu.interrupt_spec s img.ist img.handler (by omega)
  simp only [timerSave]
  generalize s.interrupt img.ist img.handler = e at *
  -- The slot of `rax` is pushed first and then exchanged for `cr3`.
  have hst₁ := Cpu.stack_push hst (by omega) (e.reg .rax)
  have hsp₁ := Cpu.sp_push (s := e) (by omega) (e.reg .rax)
  have hreg₁ : ∀ r, r ≠ .rsp → (e.push (e.reg .rax)).reg r = s.reg r := by
    intro r hr
    rw [Cpu.push_reg, if_neg hr, hreg r hr]
  have hmem₁ : ∀ x, x < img.ist.toNat - 128 ∨ img.ist.toNat ≤ x →
      (e.push (e.reg .rax)).mem x = s.mem x := by
    intro x hx
    rw [Cpu.push_mem, st_apply_out (by rw [Cpu.sub_eight_toNat (by omega)]; omega)]
    exact hmem x (by omega)
  have hcr3₁ : (e.push (e.reg .rax)).cr3 = s.cr3 := hcr3
  rw [hreg .rax (by simp)] at *
  generalize e.push (s.reg .rax) = e₁ at *
  have hst₂ : (e₁.set .rax e₁.cr3).Stack (s.reg .rax :: s.intrFrame) := hst₁
  have hsp₂ : (e₁.set .rax e₁.cr3).sp = e₁.sp := Cpu.set_sp _ _ _ (by simp)
  have hrax₂ : (e₁.set .rax e₁.cr3).reg .rax = s.cr3 := by
    rw [Cpu.set_reg, if_pos rfl, hcr3₁]
  have hreg₂ : ∀ r, r ≠ .rsp → r ≠ .rax → (e₁.set .rax e₁.cr3).reg r = s.reg r := by
    intro r hr hax
    rw [Cpu.set_reg, if_neg hax, hreg₁ r hr]
  have hmem₂ : (e₁.set .rax e₁.cr3).mem = e₁.mem := rfl
  generalize e₁.set .rax e₁.cr3 = e₂ at *
  obtain ⟨hst₃, hrax₃⟩ := Cpu.stack_xchg hst₂ (i := 0) (r := .rax) (by simp) (by simp)
  rw [show BitVec.ofNat 64 (8 * 0) = 0 from rfl] at hst₃ hrax₃
  rw [hrax₂] at hst₃
  have hsp₃ : (e₂.xchg 0 .rax).sp = e₂.sp := Cpu.xchg_sp _ _ _ (by simp)
  have hreg₃ : ∀ r, r ≠ .rsp → (e₂.xchg 0 .rax).reg r = s.reg r := by
    intro r hr
    by_cases hax : r = .rax
    · rw [hax, hrax₃]
      rfl
    · rw [Cpu.xchg_reg, if_neg hax, hreg₂ r hr hax]
  have hmem₃ : ∀ x, x < img.ist.toNat - 128 ∨ img.ist.toNat ≤ x →
      (e₂.xchg 0 .rax).mem x = s.mem x := by
    intro x hx
    rw [Cpu.xchg_mem, st_apply_out (by rw [show e₂.sp + 0 = e₂.sp by simp, hsp₂]; omega), hmem₂]
    exact hmem₁ x hx
  generalize e₂.xchg 0 .rax = e₃ at *
  have hst₃' : e₃.Stack (s.cr3 :: s.intrFrame) := hst₃
  have hsp₃' : e₃.sp.toNat = img.ist.toNat - 48 := by
    rw [hsp₃, hsp₂]
    omega
  have hst₄ := Cpu.stack_call hst₃' (by omega) img.saveRegs img.afterSave
  have hsp₄ := Cpu.sp_call (s := e₃) (by omega) img.saveRegs img.afterSave
  have hreg₄ : ∀ r, r ≠ .rsp → (e₃.call img.saveRegs img.afterSave).reg r = s.reg r := by
    intro r hr
    rw [Cpu.call_reg, if_neg hr, hreg₃ r hr]
  have hmem₄ : ∀ x, x < img.ist.toNat - 128 ∨ img.ist.toNat ≤ x →
      (e₃.call img.saveRegs img.afterSave).mem x = s.mem x := by
    intro x hx
    rw [Cpu.call_mem, st_apply_out (by rw [Cpu.sub_eight_toNat (by omega)]; omega)]
    exact hmem₃ x hx
  generalize e₃.call img.saveRegs img.afterSave = e₄ at *
  obtain ⟨hrip, hst₅, hsp₅, hreg₅, hmem₅, -⟩ := saveRegs_spec hst₄ (by omega)
  generalize saveRegs e₄ = e₅ at *
  rw [if_pos hrip]
  have hmap : commRegs.map e₄.reg = commRegs.map s.reg :=
    List.map_congr_left fun r hr => hreg₄ r fun heq => by
      rw [heq] at hr
      exact absurd hr (by decide)
  have hwords : e₅.Stack (contextOf s).frame.words := by
    rw [hmap] at hst₅
    exact hst₅
  have hst₆ : (e₅.set .rdi e₅.sp).Stack (contextOf s).frame.words := hwords
  have hsp₆ : (e₅.set .rdi e₅.sp).sp = e₅.sp := Cpu.set_sp _ _ _ (by simp)
  refine ⟨_, rfl, Cpu.stack_call hst₆ (by rw [hsp₆]; omega) _ _, ?_, ?_, ?_, ?_⟩
  · rw [Cpu.sp_call (by rw [hsp₆]; omega), hsp₆]
    omega
  · rw [Cpu.call_sp, hsp₆, BitVec.sub_add_cancel, Cpu.call_reg, if_neg (by simp), Cpu.set_reg,
      if_pos rfl]
  · intro r hr hdi hax
    rw [Cpu.call_reg, if_neg hr, Cpu.set_reg, if_neg hdi, hreg₅ r hr hax, hreg₄ r hr]
  · intro x hx
    rw [Cpu.call_mem, st_apply_out (by rw [hsp₆, Cpu.sub_eight_toNat (by omega)]; omega),
      Cpu.set_mem, hmem₅ x (by omega)]
    exact hmem₄ x hx

/-! ## The second half -/

/-- The word that `apic_eoi` writes. -/
def TimerImage.eoi (x : Nat) : Prop :=
  (img.lapic + 0xB0).toNat ≤ x ∧ x < (img.lapic + 0xB0).toNat + 4

/-- `apic_eoi` returns with all registers as they were; it writes the word below its
stack and the interrupt controller, of which neither may reach `lapic_addr` or the stack. -/
theorem apicEoi_spec {s : Cpu} {next : BitVec 64} {ws : List (BitVec 64)}
    (h : s.Stack (next :: ws)) (hroom : 8 ≤ s.sp.toNat)
    (hlapic : ld s.mem img.lapicVar = img.lapic)
    (hvar : Apart img.lapicVar.toNat 8 (s.sp.toNat - 8) 8)
    (heoi : ∀ x, s.sp.toNat - 8 ≤ x → x < s.sp.toNat + 8 * (ws.length + 1) → ¬ img.eoi x) :
    (apicEoi img s).rip = next ∧ (apicEoi img s).Stack ws ∧
    (∀ r, r ≠ .rsp → (apicEoi img s).reg r = s.reg r) ∧
    (∀ x, (x < s.sp.toNat - 8 ∨ s.sp.toNat ≤ x) → ¬ img.eoi x → (apicEoi img s).mem x = s.mem x) ∧
    (apicEoi img s).cr3 = s.cr3 := by
  have hst₁ := Cpu.stack_push h hroom (s.reg .rax)
  have hsp₁ := Cpu.sp_push hroom (s.reg .rax)
  have hmem₁ : ∀ x, x < s.sp.toNat - 8 ∨ s.sp.toNat ≤ x →
      (s.push (s.reg .rax)).mem x = s.mem x := by
    intro x hx
    rw [Cpu.push_mem]
    exact st_apply_out (by rw [Cpu.sub_eight_toNat hroom]; omega)
  have hreg₁ : ∀ r, r ≠ .rsp → (s.push (s.reg .rax)).reg r = s.reg r := by
    intro r hr
    rw [Cpu.push_reg, if_neg hr]
  have hcr3₁ : (s.push (s.reg .rax)).cr3 = s.cr3 := rfl
  simp only [apicEoi]
  generalize s.push (s.reg .rax) = s₁ at *
  have hload : ld s₁.mem img.lapicVar = img.lapic := by
    rw [← hlapic]
    unfold Apart at hvar
    exact ld_congr fun x hx hx' => hmem₁ x (by omega)
  rw [hload]
  -- Whichever way the test goes: `rax` is a scratch register, the rest is as before.
  obtain ⟨s₃, hs₃, hsp₃, hreg₃, hmem₃, hcr3₃⟩ : ∃ s₃ : Cpu,
      (if (s₁.set .rax img.lapic).reg .rax = 0 then s₁.set .rax img.lapic
        else
          { (s₁.set .rax img.lapic).set .rax ((s₁.set .rax img.lapic).reg .rax + 0xB0) with
            mem := ((s₁.set .rax img.lapic).set .rax
              ((s₁.set .rax img.lapic).reg .rax + 0xB0)).mem.write
                (((s₁.set .rax img.lapic).set .rax
                  ((s₁.set .rax img.lapic).reg .rax + 0xB0)).reg .rax).toNat 4 0 }) = s₃ ∧
      s₃.sp = s₁.sp ∧ (∀ r, r ≠ .rsp → r ≠ .rax → s₃.reg r = s₁.reg r) ∧
      (∀ x, ¬ img.eoi x → s₃.mem x = s₁.mem x) ∧ s₃.cr3 = s₁.cr3 := by
    refine ⟨_, rfl, ?_⟩
    by_cases h0 : (s₁.set .rax img.lapic).reg .rax = 0
    · rw [if_pos h0]
      exact ⟨rfl, fun r _ hax => if_neg hax, fun _ _ => rfl, rfl⟩
    · rw [if_neg h0]
      refine ⟨rfl, ?_, ?_, rfl⟩
      · intro r _ hax
        simp [hax]
      · intro x hx
        refine ByteMem.write_apply_out ?_
        unfold TimerImage.eoi at hx
        simp only [Cpu.set_reg, if_true]
        omega
  rw [hs₃]
  have hst₃ : s₃.Stack (s.reg .rax :: next :: ws) := by
    unfold Cpu.Stack
    rw [hsp₃]
    refine StackAt.congr hst₁ fun x hx hx' => hmem₃ x (heoi x (by omega) ?_)
    simp only [List.length_cons] at hx'
    omega
  have hst₄ : (s₃.pop .rax).Stack (next :: ws) := Cpu.stack_pop hst₃ (by simp)
  obtain ⟨hst₅, hrip⟩ := Cpu.stack_ret hst₄
  refine ⟨hrip, hst₅, ?_, ?_, ?_⟩
  · intro r hr
    rw [Cpu.ret_reg, if_neg hr, Cpu.pop_reg]
    by_cases hax : r = .rax
    · rw [if_pos hax, hax]
      exact Cpu.stack_head hst₃
    · rw [if_neg hax, if_neg hr, hreg₃ r hr hax, hreg₁ r hr]
  · intro x hx hne
    rw [Cpu.ret_mem, Cpu.pop_mem, hmem₃ x hne]
    exact hmem₁ x hx
  · rw [Cpu.ret_cr3, Cpu.pop_cr3, hcr3₃, hcr3₁]

/-- What the second half of the stub writes when it resumes from the frame at `f`: the
word in front of it, the slots of `rax` and `reg1` in it, and the interrupt controller. -/
def TimerImage.frameWrites (f : Addr) (x : Nat) : Prop :=
  (f.toNat - 8 ≤ x ∧ x < f.toNat) ∨ (f.toNat + 64 ≤ x ∧ x < f.toNat + 80) ∨ img.eoi x

/-- With the address of the frame of the context `x` in `rax`, the stub resumes with the
registers of the frame; the registers that no frame holds are what they are. The word in
front of the frame is left with the return address of `rest_regs`. -/
theorem timerRestore_frame (spaces : BitVec 64 → ByteMem) {s : Cpu} {f : Addr} {x : Context}
    (hlow : 8 ≤ f.toNat)
    (hfits : f.toNat + 120 < 2 ^ 64) (hvar : Apart (f.toNat - 8) 128 img.lapicVar.toNat 8)
    (heoi : Apart (f.toNat - 8) 128 (img.lapic + 0xB0).toNat 4)
    (hshared : ∀ y, f.toNat - 8 ≤ y → y < f.toNat + 120 → img.shared y)
    (hrax : s.reg .rax = f) (hframe : allRegsAt s.mem f = x.frame)
    (hlapic : ld s.mem img.lapicVar = img.lapic) :
    ∃ s', timerRestore img spaces s = some s' ∧
      (∀ r, r ∈ commRegs ∨ r = .rsp → s'.reg r = x.reg r) ∧
      (∀ r, r ∉ commRegs → r ≠ .rsp → s'.reg r = s.reg r) ∧
      s'.rip = x.rip ∧ s'.cs = x.cs ∧ s'.rflags = x.rflags ∧ s'.ss = x.ss ∧ s'.cr3 = x.cr3 ∧
      ld s'.mem (f - 8) = img.afterRest ∧
      ∀ y, img.shared y → ¬ img.frameWrites f y → s'.mem y = s.mem y := by
  unfold Apart at hvar heoi
  have hneoi : ∀ y, f.toNat - 8 ≤ y → y < f.toNat + 120 → ¬ img.eoi y := by
    intro y hy hy'
    unfold TimerImage.eoi
    omega
  have hst₁ : (s.set .rsp (s.reg .rax)).Stack (commRegs.map x.reg ++
      (x.cr3 :: [x.rip, x.cs, x.rflags, x.reg .rsp, x.ss])) := by
    have hstack := stack_allRegsAt (m := s.mem) (a := f) hfits
    rw [hframe, frame_words] at hstack
    unfold Cpu.Stack
    rw [show (s.set .rsp (s.reg .rax)).sp = f from hrax]
    exact hstack
  have hsp₁ : (s.set .rsp (s.reg .rax)).sp = f := hrax
  have hreg₁ : ∀ r, r ≠ .rsp → (s.set .rsp (s.reg .rax)).reg r = s.reg r := by
    intro r hr
    rw [Cpu.set_reg, if_neg hr]
  have hmem₁ : (s.set .rsp (s.reg .rax)).mem = s.mem := rfl
  simp only [timerRestore]
  generalize s.set .rsp (s.reg .rax) = s₁ at *
  have hroom₁ : 8 ≤ s₁.sp.toNat := by rw [hsp₁]; exact hlow
  have hst₂ := Cpu.stack_call hst₁ hroom₁ img.restRegs img.afterRest
  have hsp₂ := Cpu.sp_call (s := s₁) hroom₁ img.restRegs img.afterRest
  rw [hsp₁] at hsp₂
  have hreg₂ : ∀ r, r ≠ .rsp → (s₁.call img.restRegs img.afterRest).reg r = s.reg r := by
    intro r hr
    rw [Cpu.call_reg, if_neg hr, hreg₁ r hr]
  have hword₂ : ld (s₁.call img.restRegs img.afterRest).mem (f - 8) = img.afterRest := by
    rw [Cpu.call_mem, hsp₁, ld_st_same]
  have hmem₂ : ∀ y, ¬ img.frameWrites f y → (s₁.call img.restRegs img.afterRest).mem y = s.mem y := by
    intro y hy
    unfold TimerImage.frameWrites at hy
    rw [Cpu.call_mem, hsp₁, st_apply_out (by rw [Cpu.sub_eight_toNat hlow]; omega), hmem₁]
  generalize s₁.call img.restRegs img.afterRest = s₂ at *
  obtain ⟨hrip₃, hst₃, hsp₃, hreg₃, hmem₃, -⟩ := restRegs_spec x.reg hst₂
  generalize restRegs s₂ = s₃ at *
  rw [if_pos hrip₃]
  -- From here on only the frame and the controller are written.
  have hmem₃' : ∀ y, ¬ (f.toNat + 64 ≤ y ∧ y < f.toNat + 80) → s₃.mem y = s₂.mem y := by
    intro y hy
    exact hmem₃ y (by omega)
  -- The slot of `reg1` gives `cr3` and takes `rax` meanwhile.
  obtain ⟨hst₄, hrax₄⟩ := Cpu.stack_xchg hst₃ (i := 0) (r := .rax) (by simp) (by simp)
  rw [show BitVec.ofNat 64 (8 * 0) = 0 from rfl] at hst₄ hrax₄
  have hsp₄ : (s₃.xchg 0 .rax).sp = s₃.sp := Cpu.xchg_sp _ _ _ (by simp)
  have hreg₄ : ∀ r, r ≠ .rax → (s₃.xchg 0 .rax).reg r = s₃.reg r := by
    intro r hax
    rw [Cpu.xchg_reg, if_neg hax]
  have hmem₄ : ∀ y, ¬ (f.toNat + 64 ≤ y ∧ y < f.toNat + 80) →
      (s₃.xchg 0 .rax).mem y = s₂.mem y := by
    intro y hy
    rw [Cpu.xchg_mem, st_apply_out (by
      rw [show s₃.sp + 0 = s₃.sp by simp]
      omega)]
    exact hmem₃' y hy
  generalize s₃.xchg 0 .rax = s₄ at *
  -- The load of `cr3` leaves the frame where it is.
  have hst₅ : (s₄.loadCr3 img.shared spaces (s₄.reg .rax)).Stack
      (s₃.reg .rax :: [x.rip, x.cs, x.rflags, x.reg .rsp, x.ss]) := by
    have hsp₄' : s₄.sp.toNat = f.toNat + 72 := by
      rw [hsp₄]
      omega
    refine Cpu.stack_loadCr3 hst₄ (fun y hy hy' => hshared y (by omega) ?_) _ _
    simp only [List.length_set, List.length_cons, List.length_nil] at hy'
    omega
  have hsp₅ : (s₄.loadCr3 img.shared spaces (s₄.reg .rax)).sp = s₄.sp := rfl
  have hreg₅ : ∀ r, (s₄.loadCr3 img.shared spaces (s₄.reg .rax)).reg r = s₄.reg r := fun _ => rfl
  have hmem₅ : ∀ y, img.shared y →
      (s₄.loadCr3 img.shared spaces (s₄.reg .rax)).mem y = s₄.mem y :=
    fun y hy => Cpu.loadCr3_mem _ _ hy _
  have hcr3₅ : (s₄.loadCr3 img.shared spaces (s₄.reg .rax)).cr3 = x.cr3 := hrax₄
  generalize s₄.loadCr3 img.shared spaces (s₄.reg .rax) = s₅ at *
  have hst₆ : (s₅.pop .rax).Stack [x.rip, x.cs, x.rflags, x.reg .rsp, x.ss] :=
    Cpu.stack_pop hst₅ (by simp)
  have hsp₆ : (s₅.pop .rax).sp.toNat = f.toNat + 80 := by
    rw [Cpu.pop_sp _ _ (by simp), Cpu.sp_tail hst₅, hsp₅, hsp₄]
    omega
  have hreg₆ : ∀ r, r ≠ .rsp → (s₅.pop .rax).reg r = s₃.reg r := by
    intro r hr
    rw [Cpu.pop_reg, if_neg hr]
    by_cases hax : r = .rax
    · rw [if_pos hax, hax]
      exact Cpu.stack_head hst₅
    · rw [if_neg hax, hreg₅ r, hreg₄ r hax]
  have hmem₆ : ∀ y, img.shared y → ¬ (f.toNat + 64 ≤ y ∧ y < f.toNat + 80) →
      (s₅.pop .rax).mem y = s₂.mem y := fun y hy hne => (hmem₅ y hy).trans (hmem₄ y hne)
  have hcr3₆ : (s₅.pop .rax).cr3 = x.cr3 := hcr3₅
  generalize s₅.pop .rax = s₆ at *
  have hst₇ := Cpu.stack_call hst₆ (by omega) img.apicEoi img.afterEoi
  have hsp₇ := Cpu.sp_call (s := s₆) (by omega) img.apicEoi img.afterEoi
  have hreg₇ : ∀ r, r ≠ .rsp → (s₆.call img.apicEoi img.afterEoi).reg r = s₃.reg r := by
    intro r hr
    rw [Cpu.call_reg, if_neg hr, hreg₆ r hr]
  have hmem₇ : ∀ y, img.shared y → ¬ (f.toNat + 64 ≤ y ∧ y < f.toNat + 80) →
      (s₆.call img.apicEoi img.afterEoi).mem y = s₂.mem y := by
    intro y hs hy
    rw [Cpu.call_mem, st_apply_out (by
      rw [Cpu.sub_eight_toNat (by omega)]
      omega)]
    exact hmem₆ y hs hy
  have hcr3₇ : (s₆.call img.apicEoi img.afterEoi).cr3 = x.cr3 := hcr3₆
  generalize s₆.call img.apicEoi img.afterEoi = s₇ at *
  have hload : ld s₇.mem img.lapicVar = img.lapic := by
    rw [← hlapic]
    have hapart := img.lapicVar_eoi
    unfold Apart at hapart
    refine ld_congr fun y hy hy' =>
      (hmem₇ y (img.lapicVar_shared y hy hy') (by omega)).trans (hmem₂ y ?_)
    unfold TimerImage.frameWrites TimerImage.eoi
    omega
  obtain ⟨hrip₈, hst₈, hreg₈, hmem₈, hcr3₈⟩ := apicEoi_spec img hst₇ (by omega) hload
    (by unfold Apart; omega) fun y hy hy' => hneoi y (by omega) (by
      simp only [List.length_cons, List.length_nil] at hy'
      omega)
  generalize apicEoi img s₇ = s₈ at *
  rw [if_pos hrip₈]
  have hst₈' : s₈.Stack (x.rip :: x.cs :: x.rflags :: x.reg .rsp :: x.ss :: []) := hst₈
  obtain ⟨hfin, hreg₉, hmem₉, hcr3₉⟩ := Cpu.iretq_spec hst₈'
  have hkeep : ∀ r, r ≠ .rsp → s₈.iretq.reg r = if r ∈ commRegs then x.reg r else s.reg r := by
    intro r hr
    rw [hreg₉ r hr, hreg₈ r hr, hreg₇ r hr, hreg₃ r hr, hreg₂ r hr]
  unfold Cpu.intrFrame at hfin
  obtain ⟨hf₁, hf₂, hf₃, hf₄, hf₅⟩ : s₈.iretq.rip = x.rip ∧ s₈.iretq.cs = x.cs ∧
      s₈.iretq.rflags = x.rflags ∧ s₈.iretq.sp = x.reg .rsp ∧ s₈.iretq.ss = x.ss := by
    simpa using hfin
  have hlast : ∀ y, img.shared y → ¬ (f.toNat + 64 ≤ y ∧ y < f.toNat + 80) → ¬ img.eoi y →
      s₈.iretq.mem y = s₂.mem y := by
    intro y hs hy hne
    rw [hmem₉, hmem₈ y (by omega) hne]
    exact hmem₇ y hs hy
  refine ⟨_, rfl, ?_, ?_, hf₁, hf₂, hf₃, hf₅, ?_, ?_, ?_⟩
  · intro r hr
    by_cases hrsp : r = .rsp
    · rw [hrsp]
      exact hf₄
    · have hcomm := hr.resolve_right hrsp
      rw [hkeep r hrsp, if_pos hcomm]
  · intro r hr hrsp
    rw [hkeep r hrsp, if_neg hr]
  · rw [hcr3₉, hcr3₈, hcr3₇]
  · rw [← hword₂]
    refine ld_congr fun y hy hy' => ?_
    rw [Cpu.sub_eight_toNat hlow] at hy hy'
    exact hlast y (hshared y (by omega) (by omega)) (by omega) (hneoi y (by omega) (by omega))
  · intro y hs hy
    rw [hlast y hs (fun h => hy (Or.inr (Or.inl h))) (fun h => hy (Or.inr (Or.inr h)))]
    exact hmem₂ y hy

/-- What the second half of the stub writes when it resumes the task at `n`: the word in
front of the frame, the slots of `rax` and `reg1` in it, and the interrupt controller. -/
def TimerImage.restoreWrites (n : Addr) (x : Nat) : Prop :=
  (n.toNat ≤ x ∧ x < n.toNat + 8) ∨ (n.toNat + 72 ≤ x ∧ x < n.toNat + 88) ∨ img.eoi x

/-- The second half of the stub with the frame of a task: the word in front of the frame is
the task's `pid`. -/
theorem timerRestore_spec (spaces : BitVec 64 → ByteMem) {s : Cpu} {n : Addr} {x : Context}
    (hn : n ∈ img.tasks) (hrax : s.reg .rax = regsAddr n) (hframe : (taskAt s.mem n).r = x.frame)
    (hlapic : ld s.mem img.lapicVar = img.lapic) :
    ∃ s', timerRestore img spaces s = some s' ∧
      (∀ r, r ∈ commRegs ∨ r = .rsp → s'.reg r = x.reg r) ∧
      (∀ r, r ∉ commRegs → r ≠ .rsp → s'.reg r = s.reg r) ∧
      s'.rip = x.rip ∧ s'.cs = x.cs ∧ s'.rflags = x.rflags ∧ s'.ss = x.ss ∧ s'.cr3 = x.cr3 ∧
      (taskAt s'.mem n).pid = img.afterRest ∧
      ∀ y, img.shared y → ¬ img.restoreWrites n y → s'.mem y = s.mem y := by
  have hfits := img.task_fits n hn
  have hvar := img.task_lapicVar n hn
  have heoi := img.task_eoi n hn
  have hregs := regsAddr_toNat hfits
  have hshared := img.task_shared n hn
  unfold sizeofTask Apart at hvar heoi
  unfold sizeofTask at hfits hshared
  obtain ⟨s', hs', hcomm, hother, hrip, hcs, hrflags, hss, hcr3, hword, hmem⟩ :=
    timerRestore_frame img spaces (by omega) (by omega) (by unfold Apart; omega)
      (by unfold Apart; omega) (fun y hy hy' => hshared y (by omega) (by omega)) hrax hframe hlapic
  refine ⟨s', hs', hcomm, hother, hrip, hcs, hrflags, hss, hcr3, ?_, ?_⟩
  · rw [← hword, regsAddr, BitVec.add_sub_cancel, taskAt_pid, quad_zero]
  · intro y hs hy
    refine hmem y hs fun h => hy ?_
    rcases h with h | h | h
    · exact Or.inl (by omega)
    · exact Or.inr (Or.inl (by omega))
    · exact Or.inr (Or.inr h)

end OS64.X86
