import OS64.X86.TimerRun

/-!
# The first frame of a task (`read_rip` in `kernel/task.c`)

`task_fork` gives its child the registers that a task has that was interrupted at the return
of `read_rip`: the routine goes over to the `all_regs` of the new task as its stack, pushes
what the processor pushes in an interrupt, and calls `save_regs` for the rest. Meanwhile the
stack pointer of the parent is in `rdx`, and its `rbp` in `rsi`.

`read_rip_spec` has both continuations: the return to the parent, and the second half of
`timer_intr`, with the frame of the child.

Mirroring notes:
- What the four arithmetic instructions leave in the flags is an input, `fl`.
- The new task is one of the tasks of the timer interrupt, and the return address of the call
  is not in its `all_regs`: the task is a block of its own.
-/

namespace OS64.X86

open OS64.Lib OS64.Lib.X86 OS64.Kernel

/-- `read_rip` up to the exchange of the two stacks. -/
def readRipEnter (fl : Fin 4 → BitVec 64) (s : Cpu) : Cpu :=
  let s₁ := s.set .rax s.sp
  let s₂ := s₁.add .rax (s₁.reg .rsi) (fl 0)
  let s₃ := s₂.swap .rbp .rsi
  let s₄ := s₃.add .rbp (s₃.reg .rsi) (fl 1)
  let s₅ := s₄.add .rax 8 (fl 2)
  s₅.swap .rdx .rsp

/-- The pushes in front of `save_regs`. -/
def readRipPush (fl : Fin 4 → BitVec 64) (s : Cpu) : Cpu :=
  let s₁ := s.push 0x10
  let s₂ := s₁.push (s₁.reg .rax)
  let s₃ := s₂.pushf
  let s₄ := s₃.pop .rax
  let s₅ := s₄.or .rax 0x200 (fl 3)
  let s₆ := s₅.push (s₅.reg .rax)
  let s₇ := s₆.push 0x08
  let s₈ := s₇.set .rax (ld s₇.mem (s₇.reg .rdx))
  let s₉ := s₈.push (s₈.reg .rax)
  let s₁₀ := s₉.push (s₉.reg .rdi)
  s₁₀.set .rax 0

/-- `read_rip` from the return of `save_regs` on. -/
def readRipLeave (s : Cpu) : Cpu :=
  let s₁ := s.swap .rdx .rsp
  let s₂ := s₁.swap .rbp .rsi
  let s₃ := s₂.set .rax (ld s₂.mem s₂.sp)
  s₃.ret

/-- `read_rip`, with `save_regs` at `saveRegsAt`, which returns to `afterSave`. -/
def readRip (saveRegsAt afterSave : Addr) (fl : Fin 4 → BitVec 64) (s : Cpu) : Option Cpu :=
  let s₁ := readRipPush fl (readRipEnter fl s)
  let s₂ := saveRegs (s₁.call saveRegsAt afterSave)
  if s₂.rip = afterSave then some (readRipLeave s₂) else none

/-- What the child of `s` starts with, the call of `read_rip` returning to `next`: `rsi` is the
offset of its stack, `rdi` the address of its tables. -/
def childContext (s : Cpu) (next fl : BitVec 64) : Context where
  reg
    | .rax => 0
    | .rbp => s.reg .rbp + s.reg .rsi
    | .rsp => s.sp + s.reg .rsi
    | .rdx => s.sp - 8
    | .rsi => s.reg .rbp
    | r => s.reg r
  rip := next
  cs := 0x08
  rflags := fl ||| 0x200
  ss := 0x10
  cr3 := s.reg .rdi

/-! ## A stack in an `all_regs` -/

/-- The stack pointer of `s` is in the `all_regs` at `f`, with the words `ws` pushed there;
other memory is as in `m`. -/
structure FrameStack (f : Addr) (m : ByteMem) (s : Cpu) (ws : List (BitVec 64)) : Prop where
  stack : s.Stack ws
  sp : s.sp.toNat + 8 * ws.length = f.toNat + 120
  mem : ∀ x, x < f.toNat ∨ f.toNat + 120 ≤ x → s.mem x = m x

namespace FrameStack

variable {f : Addr} {m : ByteMem} {s : Cpu} {ws : List (BitVec 64)} {w v fl a : BitVec 64} {r : Reg}

theorem push (h : FrameStack f m s ws) (hlen : ws.length < 15) (v : BitVec 64) :
    FrameStack f m (s.push v) (v :: ws) := by
  have hsp := h.sp
  have hroom : 8 ≤ s.sp.toNat := by omega
  refine ⟨Cpu.stack_push h.stack hroom v, ?_, fun x hx => ?_⟩
  · rw [Cpu.sp_push hroom, List.length_cons]
    omega
  · rw [Cpu.push_mem, st_apply_out (by rw [Cpu.sub_eight_toNat hroom]; omega)]
    exact h.mem x hx

theorem call (h : FrameStack f m s ws) (hlen : ws.length < 15) (a v : BitVec 64) :
    FrameStack f m (s.call a v) (v :: ws) := by
  obtain ⟨hst, hsp, hmem⟩ := h.push hlen v
  exact ⟨hst, hsp, hmem⟩

theorem pop (h : FrameStack f m s (w :: ws)) (hr : r ≠ .rsp) : FrameStack f m (s.pop r) ws := by
  have hsp := h.sp
  rw [List.length_cons] at hsp
  refine ⟨Cpu.stack_pop h.stack hr, ?_, h.mem⟩
  rw [Cpu.pop_sp _ _ hr, Cpu.sp_tail h.stack]
  omega

theorem set (h : FrameStack f m s ws) (hr : r ≠ .rsp) : FrameStack f m (s.set r v) ws := by
  have hsp : (s.set r v).sp = s.sp := Cpu.set_sp _ _ _ hr
  refine ⟨?_, by rw [hsp]; exact h.sp, h.mem⟩
  unfold Cpu.Stack
  rw [hsp]
  exact h.stack

theorem or (h : FrameStack f m s ws) (hr : r ≠ .rsp) : FrameStack f m (s.or r v fl) ws := by
  obtain ⟨hst, hsp, hmem⟩ := h.set (v := s.reg r ||| v) hr
  exact ⟨hst, hsp, hmem⟩

/-- A word of other memory. -/
theorem ld (h : FrameStack f m s ws) (ha : Apart a.toNat 8 f.toNat 120) : ld s.mem a = X86.ld m a := by
  unfold Apart at ha
  exact ld_congr fun x hx hx' => h.mem x (by omega)

end FrameStack

/-! ## The routine -/

section Routine

variable {saveRegsAt afterSave : Addr} {fl : Fin 4 → BitVec 64} {s : Cpu} {f : Addr} {m : ByteMem}

/-- The registers in front of the pushes. -/
theorem readRipEnter_spec (fl : Fin 4 → BitVec 64) (s : Cpu) :
    (readRipEnter fl s).reg .rax = s.sp + s.reg .rsi + 8 ∧
    (readRipEnter fl s).reg .rbp = s.reg .rsi + s.reg .rbp ∧
    (readRipEnter fl s).reg .rsi = s.reg .rbp ∧ (readRipEnter fl s).reg .rdx = s.sp ∧
    (readRipEnter fl s).sp = s.reg .rdx ∧
    (∀ r, r ∉ [Reg.rax, .rbp, .rsi, .rdx, .rsp] → (readRipEnter fl s).reg r = s.reg r) ∧
    (readRipEnter fl s).rflags = fl 2 ∧ (readRipEnter fl s).mem = s.mem := by
  refine ⟨rfl, rfl, rfl, rfl, rfl, fun r hr => ?_, rfl, rfl⟩
  simp only [List.mem_cons, List.not_mem_nil, or_false, not_or] at hr
  obtain ⟨hax, hbp, hsi, hdx, hsp⟩ := hr
  simp [readRipEnter, Cpu.swap, Cpu.add, hax, hbp, hsi, hdx, hsp]

/-- The six words in front of `save_regs`: what the processor pushes in an interrupt, and
`cr3`. The registers are as they were, `rax` and the stack pointer aside. -/
theorem readRipPush_spec (fl : Fin 4 → BitVec 64) (h : FrameStack f m s [])
    (hapart : Apart (s.reg .rdx).toNat 8 f.toNat 120) :
    FrameStack f m (readRipPush fl s) [s.reg .rdi, ld m (s.reg .rdx), 0x08, s.rflags ||| 0x200,
        s.reg .rax, 0x10] ∧
      (readRipPush fl s).reg .rax = 0 ∧
      ∀ r, r ≠ .rax → r ≠ .rsp → (readRipPush fl s).reg r = s.reg r := by
  unfold readRipPush
  dsimp only
  have h₂ : FrameStack f m ((s.push 0x10).push (s.reg .rax)) [s.reg .rax, 0x10] :=
    (h.push (by simp) _).push (by simp) _
  have hreg₂ : ∀ r, r ≠ .rsp → ((s.push 0x10).push (s.reg .rax)).reg r = s.reg r := by
    intro r hr
    rw [Cpu.push_reg, if_neg hr, Cpu.push_reg, if_neg hr]
  have hfl₂ : ((s.push 0x10).push (s.reg .rax)).rflags = s.rflags := rfl
  have hrax : (s.push 0x10).reg .rax = s.reg .rax := rfl
  rw [hrax]
  generalize (s.push 0x10).push (s.reg .rax) = s₂ at *
  -- the flags come back from the stack into `rax`
  have h₃ : FrameStack f m s₂.pushf (s.rflags :: [s.reg .rax, 0x10]) := by
    rw [← hfl₂]
    exact h₂.push (by simp) _
  have hreg₃ : ∀ r, r ≠ .rsp → s₂.pushf.reg r = s.reg r := by
    intro r hr
    rw [Cpu.pushf, Cpu.push_reg, if_neg hr, hreg₂ r hr]
  generalize s₂.pushf = s₃ at *
  have h₄ := h₃.pop (r := .rax) (by decide)
  have hrax₄ : (s₃.pop .rax).reg .rax = s.rflags := by
    rw [Cpu.pop_reg, if_pos rfl]
    exact Cpu.stack_head h₃.stack
  have hreg₄ : ∀ r, r ≠ .rax → r ≠ .rsp → (s₃.pop .rax).reg r = s.reg r := by
    intro r hax hr
    rw [Cpu.pop_reg, if_neg hax, if_neg hr, hreg₃ r hr]
  generalize s₃.pop .rax = s₄ at *
  have h₅ : FrameStack f m (s₄.or .rax 0x200 (fl 3)) _ := h₄.or (by decide)
  have hrax₅ : (s₄.or .rax 0x200 (fl 3)).reg .rax = s.rflags ||| 0x200 := by
    rw [← hrax₄]
    rfl
  have hreg₅ : ∀ r, r ≠ .rax → r ≠ .rsp → (s₄.or .rax 0x200 (fl 3)).reg r = s.reg r :=
    fun r hax hr => (if_neg hax).trans (hreg₄ r hax hr)
  generalize s₄.or .rax 0x200 (fl 3) = s₅ at *
  rw [hrax₅]
  have h₇ := (h₅.push (by simp) (s.rflags ||| 0x200)).push (by simp) 0x08
  have hreg₇ : ∀ r, r ≠ .rax → r ≠ .rsp →
      ((s₅.push (s.rflags ||| 0x200)).push 0x08).reg r = s.reg r := by
    intro r hax hr
    rw [Cpu.push_reg, if_neg hr, Cpu.push_reg, if_neg hr, hreg₅ r hax hr]
  generalize (s₅.push (s.rflags ||| 0x200)).push 0x08 = s₇ at *
  -- the return address of the parent, which no push has reached
  rw [hreg₇ .rdx (by decide) (by decide), h₇.ld hapart]
  have h₈ := h₇.set (r := .rax) (v := ld m (s.reg .rdx)) (by decide)
  have hrax₈ : (s₇.set .rax (ld m (s.reg .rdx))).reg .rax = ld m (s.reg .rdx) := rfl
  have hreg₈ : ∀ r, r ≠ .rax → r ≠ .rsp → (s₇.set .rax (ld m (s.reg .rdx))).reg r = s.reg r :=
    fun r hax hr => (if_neg hax).trans (hreg₇ r hax hr)
  generalize s₇.set .rax (ld m (s.reg .rdx)) = s₈ at *
  rw [hrax₈]
  have h₉ := h₈.push (by simp) (ld m (s.reg .rdx))
  have hreg₉ : ∀ r, r ≠ .rax → r ≠ .rsp → (s₈.push (ld m (s.reg .rdx))).reg r = s.reg r :=
    fun r hax hr => (if_neg hr).trans (hreg₈ r hax hr)
  generalize s₈.push (ld m (s.reg .rdx)) = s₉ at *
  rw [hreg₉ .rdi (by decide) (by decide)]
  refine ⟨(h₉.push (by simp) _).set (by decide), rfl, fun r hax hr => ?_⟩
  rw [Cpu.set_reg, if_neg hax, Cpu.push_reg, if_neg hr, hreg₉ r hax hr]

/-- The stacks and `rbp` are exchanged back, and the call returns with its return address. -/
theorem readRipLeave_spec {rbp sp : BitVec 64} (hsp : s.reg .rdx = sp) (hbp : s.reg .rsi = rbp) :
    (readRipLeave s).rip = ld s.mem sp ∧ (readRipLeave s).reg .rax = ld s.mem sp ∧
    (readRipLeave s).sp = sp + 8 ∧ (readRipLeave s).reg .rbp = rbp ∧
    (readRipLeave s).reg .rbx = s.reg .rbx ∧ (readRipLeave s).mem = s.mem := by
  subst hsp hbp
  exact ⟨rfl, rfl, rfl, rfl, rfl, rfl⟩

/-- The words of an `all_regs`, with `save_regs` on top of the head. -/
theorem childContext_words (s : Cpu) (next fl : BitVec 64) :
    (childContext s next fl).frame.words =
      commRegs.map (childContext s next fl).reg ++
        [s.reg .rdi, next, 0x08, fl ||| 0x200, s.sp + s.reg .rsi, 0x10] := rfl

/-- What `save_regs` stores: the registers of the parent, its stack moved and `rax` cleared. -/
theorem childContext_regs {s e : Cpu} {next fl : BitVec 64}
    (hkept : ∀ r, r ∉ [Reg.rax, .rbp, .rsi, .rdx, .rsp] → e.reg r = s.reg r)
    (hax : e.reg .rax = 0) (hbp : e.reg .rbp = s.reg .rsi + s.reg .rbp)
    (hsi : e.reg .rsi = s.reg .rbp) (hdx : e.reg .rdx = s.sp - 8) :
    commRegs.map e.reg = commRegs.map (childContext s next fl).reg := by
  show [e.reg .r9, e.reg .r8, e.reg .rbp, e.reg .rdi, e.reg .rsi, e.reg .rdx, e.reg .rcx,
    e.reg .rbx, e.reg .rax] = [s.reg .r9, s.reg .r8, s.reg .rbp + s.reg .rsi, s.reg .rdi,
    s.reg .rbp, s.sp - 8, s.reg .rcx, s.reg .rbx, 0]
  rw [hkept .r9 (by simp), hkept .r8 (by simp), hkept .rdi (by simp), hkept .rcx (by simp),
    hkept .rbx (by simp), hax, hbp, hsi, hdx, BitVec.add_comm]

/-- A call of `read_rip` from `s`, where `rdx` is the end of the `all_regs` at `f`. -/
theorem readRip_frame (readRipAt next : Addr) (hrdx : s.reg .rdx = f + 120)
    (hfits : f.toNat + 120 < 2 ^ 64) (hapart : Apart (s.sp - 8).toNat 8 f.toNat 120) :
    ∃ s', readRip saveRegsAt afterSave fl (s.call readRipAt next) = some s' ∧
      allRegsAt s'.mem f = (childContext s next (fl 2)).frame ∧
      (∀ x, x < f.toNat ∨ f.toNat + 120 ≤ x → s'.mem x = (s.call readRipAt next).mem x) ∧
      s'.rip = next ∧ s'.reg .rax = next ∧ s'.sp = s.sp ∧ s'.reg .rbp = s.reg .rbp ∧
      s'.reg .rbx = s.reg .rbx := by
  obtain ⟨hrax, hrbp, hrsi, hrdx', hsp, hother, hflags, hmem⟩ :=
    readRipEnter_spec fl (s.call readRipAt next)
  have hret : ld (s.call readRipAt next).mem (s.sp - 8) = next := ld_st_same _ _ _
  have hreg : ∀ r, r ≠ .rsp → (s.call readRipAt next).reg r = s.reg r := by
    intro r hr
    rw [Cpu.call_reg, if_neg hr]
  rw [Cpu.call_sp] at hrax hrdx'
  rw [hreg .rsi (by decide)] at hrax hrbp
  rw [hreg .rbp (by decide)] at hrbp hrsi
  rw [hreg .rdx (by decide), hrdx] at hsp
  unfold readRip
  dsimp only
  generalize readRipEnter fl (s.call readRipAt next) = e at *
  -- the stack is now the `all_regs`, from its end down
  have hfs : FrameStack f (s.call readRipAt next).mem e [] := by
    refine ⟨?_, ?_, fun x _ => congrFun hmem x⟩
    · exact e.sp.isLt
    · rw [hsp]
      exact add_toNat hfits
  obtain ⟨hpush, hrax₁, hreg₁⟩ := readRipPush_spec fl hfs (by rw [hrdx']; exact hapart)
  rw [hrdx', hret, hflags, hrax, hother .rdi (by decide), hreg .rdi (by decide)] at hpush
  generalize readRipPush fl e = e₁ at *
  -- the return address that `save_regs` is called with is overwritten by what it saves
  have hcall := hpush.call (by simp) saveRegsAt afterSave
  have hsp₂ := hcall.sp
  simp only [List.length_cons, List.length_nil] at hsp₂
  have hreg₂ : ∀ r, r ≠ .rax → r ≠ .rsp → (e₁.call saveRegsAt afterSave).reg r = e.reg r := by
    intro r hax hr
    rw [Cpu.call_reg, if_neg hr, hreg₁ r hax hr]
  have hrax₂ : (e₁.call saveRegsAt afterSave).reg .rax = 0 := hrax₁
  have hsp₂' : (e₁.call saveRegsAt afterSave).sp.toNat = f.toNat + 64 := by omega
  generalize e₁.call saveRegsAt afterSave = e₂ at *
  obtain ⟨hrip, hst, hsp₃, hreg₃, hmem₃, -⟩ := saveRegs_spec hcall.stack (by omega)
  rw [hsp₂'] at hsp₃ hmem₃
  rw [if_pos hrip]
  have hout : ∀ x, x < f.toNat ∨ f.toNat + 120 ≤ x →
      (saveRegs e₂).mem x = (s.call readRipAt next).mem x := by
    intro x hx
    rw [hmem₃ x (by omega)]
    exact hcall.mem x hx
  have hbp₂ : e₂.reg .rbp = s.reg .rsi + s.reg .rbp := by
    rw [hreg₂ .rbp (by decide) (by decide), hrbp]
  have hsi₂ : e₂.reg .rsi = s.reg .rbp := by
    rw [hreg₂ .rsi (by decide) (by decide), hrsi]
  have hdx₂ : e₂.reg .rdx = s.sp - 8 := by
    rw [hreg₂ .rdx (by decide) (by decide), hrdx']
  have hkept : ∀ r, r ∉ [Reg.rax, .rbp, .rsi, .rdx, .rsp] → e₂.reg r = s.reg r := by
    intro r hr
    have hax : r ≠ .rax := fun heq => hr (by simp [heq])
    have hsp : r ≠ .rsp := fun heq => hr (by simp [heq])
    rw [hreg₂ r hax hsp, hother r hr, hreg r hsp]
  have hregs := @childContext_regs s e₂ next (fl 2) hkept hrax₂ hbp₂ hsi₂ hdx₂
  have hdx₃ : (saveRegs e₂).reg .rdx = s.sp - 8 := by
    rw [hreg₃ _ (by decide) (by decide), hdx₂]
  have hsi₃ : (saveRegs e₂).reg .rsi = s.reg .rbp := by
    rw [hreg₃ _ (by decide) (by decide), hsi₂]
  -- back on the parent's stack, whose top is the return address still
  obtain ⟨hlrip, hlax, hlsp, hlbp, hlbx, hlmem⟩ := readRipLeave_spec hdx₃ hsi₃
  have hword : ld (saveRegs e₂).mem (s.sp - 8) = next := by
    unfold Apart at hapart
    rw [← hret]
    exact ld_congr fun x hx hx' => hout x (by omega)
  rw [hword] at hlrip hlax
  refine ⟨_, rfl, ?_, fun x hx => ?_, hlrip, hlax, ?_, hlbp, ?_⟩
  · have hrsp : s.sp - 8 + s.reg .rsi + 8 = s.sp + s.reg .rsi := by bv_omega
    have hfin : (saveRegs e₂).sp.toNat = f.toNat := by omega
    have hwords : StackAt (saveRegs e₂).mem f.toNat ((childContext s next (fl 2)).frame.words ++ []) := by
      rw [List.append_nil, childContext_words, ← hregs, ← hrsp, ← hfin]
      exact hst
    rw [hlmem]
    exact allRegsAt_stack hwords
  · rw [hlmem]
    exact hout x hx
  · rw [hlsp]
    exact BitVec.sub_add_cancel _ _
  · rw [hlbx, hreg₃ _ (by decide) (by decide), hkept .rbx (by simp)]

end Routine

/-- For all registers of the parent, with `rdi` the tables of the child, `rsi` the offset of its
stack and `rdx` the end of the `all_regs` of the new task `n`: `read_rip` writes that `all_regs`
and nothing else; it returns to the parent with the return address in `rax`; and whenever
`timer_intr` resumes the task with that `all_regs`, the child starts at the same address. -/
theorem read_rip_spec (img : TimerImage) {n : Addr} (hn : n ∈ img.tasks) {s : Cpu}
    (hrdx : s.reg .rdx = regsAddr n + 120)
    (hapart : Apart (s.sp - 8).toNat 8 (regsAddr n).toNat 120)
    (readRipAt next saveRegsAt afterSave : Addr) (fl : Fin 4 → BitVec 64) :
    ∃ s', readRip saveRegsAt afterSave fl (s.call readRipAt next) = some s' ∧
      allRegsAt s'.mem (regsAddr n) = (childContext s next (fl 2)).frame ∧
      (∀ x, x < (regsAddr n).toNat ∨ (regsAddr n).toNat + 120 ≤ x →
        s'.mem x = (s.call readRipAt next).mem x) ∧
      (s'.rip = next ∧ s'.reg .rax = next ∧ s'.sp = s.sp ∧ s'.reg .rbp = s.reg .rbp ∧
        s'.reg .rbx = s.reg .rbx) ∧
      ∀ t : Cpu, t.reg .rax = regsAddr n →
        allRegsAt t.mem (regsAddr n) = allRegsAt s'.mem (regsAddr n) →
        ld t.mem img.lapicVar = img.lapic → ∀ spaces,
        ∃ c, timerRestore img spaces t = some c ∧ c.rip = next ∧ c.reg .rax = 0 ∧ c.cr3 = s.reg .rdi ∧
          c.sp = s'.sp + s.reg .rsi ∧ c.reg .rbp = s'.reg .rbp + s.reg .rsi ∧
          c.reg .rbx = s'.reg .rbx ∧ c.rflags.getLsbD 9 = true := by
  have hfits := img.task_fits n hn
  have hregs := regsAddr_toNat hfits
  unfold sizeofTask at hfits
  obtain ⟨s', hrun, hframe, hout, hrip, hrax, hsp, hrbp, hrbx⟩ :=
    readRip_frame readRipAt next hrdx (by omega) hapart
  refine ⟨s', hrun, hframe, hout, ⟨hrip, hrax, hsp, hrbp, hrbx⟩, fun t htax ht hlapic spaces => ?_⟩
  obtain ⟨c, hc, hcomm, -, hcrip, -, hcflags, -, hccr3, -, -⟩ :=
    timerRestore_spec img spaces hn htax (ht.trans hframe) hlapic
  refine ⟨c, hc, hcrip, hcomm .rax (Or.inl (by decide)), hccr3, ?_, ?_, ?_, ?_⟩
  · show c.reg .rsp = _
    rw [hcomm .rsp (Or.inr rfl), hsp]
    rfl
  · rw [hcomm .rbp (Or.inl (by decide)), hrbp]
    rfl
  · rw [hcomm .rbx (Or.inl (by decide)), hrbx]
    rfl
  · rw [hcflags]
    show (fl 2 ||| 0x200).getLsbD 9 = true
    rw [BitVec.getLsbD_or]
    exact Bool.or_eq_true_iff.mpr (Or.inr rfl)

/-- A parent with its stack at `0x50000`, whose child gets one `0x10000` bytes above. -/
def forkingCpu : Cpu :=
  { pairRun.cpu with
    reg
      | .rdi => 0x150000
      | .rsi => 0x10000
      | .rdx => 0x10080
      | .rsp => 0x50000
      | .rbp => 0x50040
      | _ => 7 }

theorem read_rip_spec_fork :
    ∃ s', readRip 0x200 0x130 (fun _ => 2) (forkingCpu.call 0x600 0x140) = some s' ∧
      s'.reg .rax = 0x140 ∧ s'.sp = 0x50000 ∧
      ∀ t : Cpu, t.reg .rax = regsAddr 0x10000 →
        allRegsAt t.mem (regsAddr 0x10000) = allRegsAt s'.mem (regsAddr 0x10000) →
        ld t.mem pairImage.lapicVar = pairImage.lapic →
        ∃ c, timerRestore pairImage pairSpaces t = some c ∧ c.rip = 0x140 ∧ c.reg .rax = 0 := by
  obtain ⟨s', hrun, -, -, ⟨-, hrax, hsp, -⟩, hchild⟩ :=
    read_rip_spec pairImage (n := 0x10000) List.mem_cons_self (s := forkingCpu) (by decide)
      (by decide) 0x600 0x140 0x200 0x130 fun _ => 2
  refine ⟨s', hrun, hrax, hsp, fun t htax ht hlapic => ?_⟩
  obtain ⟨c, hc, hrip, hcax, -⟩ := hchild t htax ht hlapic pairSpaces
  exact ⟨c, hc, hrip, hcax⟩

end OS64.X86
