import OS64.X86.Regs

/-!
# The system-call gate (`sys/syscall.c`)

`int 0x80` enters `syscall_handler` on the IST stack of system calls with the call
number in `rax`. The handler compares the number with `syscall_ns`, fetches the
function from `syscall_fs`, saves the registers, calls the function, patches the
word on the top of the stack with the result and restores the registers.

Mirroring notes:
- `syscallEnter`, `syscallSelect` and `syscallLeave` are runs of instructions of
  the handler; `syscallDispatch` is its first half, up to the first instruction of
  the function it calls, and `syscallHandler` is all of it.
- A routine is entered by `call`; the handler goes on only if the routine came back
  to the instruction behind the call (`none` says that it did not).
- The system-call function is a parameter, a state transformer from its entry to
  its return.
- `cmp %rax, %rbx; jle` jumps when `rbx ≤ rax` as signed numbers.

What comes of the patch is `syscall_return_iff`: the word on the top of the stack
is the saved `r9`, and the slot of `rax` holds the address of the table entry. What
comes of the signed comparison is `syscall_confined_iff`.
-/

namespace OS64.Sys

open OS64.Lib OS64.Lib.X86 OS64.X86

/-- `syscall_ns`, the number of entries of `syscall_fs`. -/
def syscallNs : Nat := 19

/-- Where the linker and `tss_init` put what the handler works with: the variable
`syscall_ns`, the table `syscall_fs`, the routines, the instructions behind the three
calls, and the stack of the gate, of which the handler uses sixteen words. -/
structure SyscallImage where
  nsAddr : BitVec 64
  fsAddr : BitVec 64
  handler : BitVec 64
  saveRegs : BitVec 64
  restRegs : BitVec 64
  afterSave : BitVec 64
  afterCall : BitVec 64
  afterRest : BitVec 64
  stack : BitVec 64
  stack_room : 128 ≤ stack.toNat
  ns_apart : nsAddr.toNat + 8 ≤ stack.toNat - 128 ∨ stack.toNat ≤ nsAddr.toNat
  fs_apart : fsAddr.toNat + 8 * syscallNs ≤ stack.toNat - 128 ∨ stack.toNat ≤ fsAddr.toNat
  fs_fits : fsAddr.toNat + 8 * syscallNs ≤ 2 ^ 64

/-- `&syscall_fs[n]`. -/
def SyscallImage.slot (img : SyscallImage) (n : BitVec 64) : BitVec 64 := img.fsAddr + 8 * n

/-- How the first half of the handler ends: at `.ret`, or at the first instruction of
the function whose address was read from `slot`. -/
inductive Dispatch
  | ret (s : Cpu)
  | call (slot : BitVec 64) (s : Cpu)

/-- `push %rbx; mov $syscall_ns, %rbx; mov (%rbx), %rbx`. -/
def syscallEnter (img : SyscallImage) (s : Cpu) : Cpu :=
  let s₁ := s.push (s.reg .rbx)
  let s₂ := s₁.set .rbx img.nsAddr
  s₂.set .rbx (ld s₂.mem (s₂.reg .rbx))

/-- `mov $syscall_fs, %rbx; shl $3, %rax; add %rbx, %rax; mov (%rax), %rbx`. -/
def syscallSelect (img : SyscallImage) (s : Cpu) : Cpu :=
  let s₁ := s.set .rbx img.fsAddr
  let s₂ := s₁.set .rax (s₁.reg .rax <<< 3)
  let s₃ := s₂.set .rax (s₂.reg .rax + s₂.reg .rbx)
  s₃.set .rbx (ld s₃.mem (s₃.reg .rax))

/-- `syscall_handler` up to `.ret` or to the entry of the system-call function. -/
def syscallDispatch (img : SyscallImage) (s : Cpu) : Option Dispatch :=
  let s₁ := syscallEnter img s
  if (s₁.reg .rbx).sle (s₁.reg .rax) then some (.ret s₁)
  else
    let s₂ := syscallSelect img s₁
    let s₃ := X86.saveRegs (s₂.call img.saveRegs img.afterSave)
    if s₃.rip = img.afterSave then
      some (.call (s₂.reg .rax) (s₃.call (s₃.reg .rbx) img.afterCall))
    else none

/-- `.ret`: `pop %rbx; iretq`. -/
def syscallLeave (s : Cpu) : Cpu := (s.pop .rbx).iretq

/-- `xchg (%rsp), %rax; call rest_regs` and on through `.ret`. -/
def syscallReturn (img : SyscallImage) (s : Cpu) : Option Cpu :=
  let s₁ := s.xchg 0 .rax
  let s₂ := X86.restRegs (s₁.call img.restRegs img.afterRest)
  if s₂.rip = img.afterRest then some (syscallLeave s₂) else none

/-- `syscall_handler`, the system-call function being `f`. -/
def syscallHandler (img : SyscallImage) (f : Cpu → Cpu) (s : Cpu) : Option Cpu :=
  match syscallDispatch img s with
  | none => none
  | some (.ret s₁) => some (syscallLeave s₁)
  | some (.call _ s₁) =>
    if (f s₁).rip = img.afterCall then syscallReturn img (f s₁) else none

/-- `int 0x80`. -/
def SyscallImage.int80 (img : SyscallImage) (s : Cpu) : Cpu := s.interrupt img.stack img.handler

/-! ## The first half -/

section Dispatch

variable (img : SyscallImage) (s : Cpu)

/-- `shl $3` drops the high bits that a multiplication by 8 drops. -/
theorem shl_add_eq_slot (n : BitVec 64) : n <<< 3 + img.fsAddr = img.slot n := by
  have h : n <<< 3 = 8 * n := by
    apply BitVec.eq_of_toNat_eq
    rw [BitVec.toNat_shiftLeft, BitVec.toNat_mul, Nat.shiftLeft_eq, Nat.mul_comm]
    rfl
  rw [SyscallImage.slot, h, BitVec.add_comm]

/-- After the first three instructions: `rbx` is saved and holds `syscall_ns`. -/
theorem syscallEnter_spec (hns : ld s.mem img.nsAddr = BitVec.ofNat 64 syscallNs) :
    (syscallEnter img (img.int80 s)).Stack (s.reg .rbx :: s.intrFrame) ∧
    (syscallEnter img (img.int80 s)).sp.toNat = img.stack.toNat - 48 ∧
    (syscallEnter img (img.int80 s)).reg .rbx = BitVec.ofNat 64 syscallNs ∧
    (∀ r, r ≠ .rsp → r ≠ .rbx → (syscallEnter img (img.int80 s)).reg r = s.reg r) ∧
    (∀ x, x < img.stack.toNat - 48 ∨ img.stack.toNat ≤ x →
      (syscallEnter img (img.int80 s)).mem x = s.mem x) := by
  have hroom := img.stack_room
  have happart := img.ns_apart
  obtain ⟨hst, hsp, hreg, hmem, -⟩ :=
    Cpu.interrupt_spec s img.stack img.handler (by omega)
  simp only [syscallEnter, SyscallImage.int80]
  generalize s.interrupt img.stack img.handler = e at *
  have hbx : e.reg .rbx = s.reg .rbx := hreg .rbx (by simp)
  have hst₁ := Cpu.stack_push hst (by omega) (e.reg .rbx)
  have hsp₁ := Cpu.sp_push (s := e) (by omega) (e.reg .rbx)
  have hmem₁ : ∀ x, x < img.stack.toNat - 48 ∨ img.stack.toNat ≤ x →
      (e.push (e.reg .rbx)).mem x = s.mem x := by
    intro x hx
    rw [Cpu.push_mem, st_apply_out (by rw [Cpu.sub_eight_toNat (by omega)]; omega)]
    exact hmem x (by omega)
  have hreg₁ : ∀ r, r ≠ .rsp → (e.push (e.reg .rbx)).reg r = s.reg r := by
    intro r hr
    rw [Cpu.push_reg, if_neg hr, hreg r hr]
  rw [hbx] at hst₁ hsp₁ hmem₁ hreg₁
  rw [hbx]
  generalize e.push (s.reg .rbx) = e₁ at *
  -- the pushes stay on the stack, so the number of calls is still there
  have hload : ld e₁.mem img.nsAddr = BitVec.ofNat 64 syscallNs := by
    rw [← hns]
    exact ld_congr fun x hx hx' => hmem₁ x (by omega)
  simp only [Cpu.set_reg, Cpu.set_mem, if_true]
  rw [hload]
  refine ⟨hst₁, ?_, rfl, ?_, hmem₁⟩
  · show e₁.sp.toNat = _
    omega
  · intro r hsp hbx
    rw [if_neg hbx, if_neg hbx]
    exact hreg₁ r hsp

/-- After the next four: `rax` holds the address of the table entry and `rbx` the
entry; the rest is as before. -/
theorem syscallSelect_spec :
    (syscallSelect img s).reg .rax = img.slot (s.reg .rax) ∧
    (syscallSelect img s).reg .rbx = ld s.mem (img.slot (s.reg .rax)) ∧
    (∀ r, r ≠ .rax → r ≠ .rbx → (syscallSelect img s).reg r = s.reg r) ∧
    (syscallSelect img s).mem = s.mem := by
  refine ⟨?_, ?_, ?_, rfl⟩
  · simp [syscallSelect, shl_add_eq_slot]
  · simp [syscallSelect, shl_add_eq_slot]
  · intro r hax hbx
    simp [syscallSelect, hax, hbx]

/-- What the first half does with a number that the comparison lets through: the
function of the table entry is entered on a stack that holds the return address,
`comm_regs`, the user's `rbx` and the interrupt frame. -/
theorem syscallDispatch_call (hns : ld s.mem img.nsAddr = BitVec.ofNat 64 syscallNs)
    (hle : (BitVec.ofNat 64 syscallNs).sle (s.reg .rax) = false) :
    ∃ c f, syscallDispatch img (img.int80 s) = some (.call (img.slot (s.reg .rax)) c) ∧
      c.rip = ld (syscallEnter img (img.int80 s)).mem (img.slot (s.reg .rax)) ∧
      c.Stack (img.afterCall :: (commRegs.map f ++ s.reg .rbx :: s.intrFrame)) ∧
      c.sp.toNat = img.stack.toNat - 128 ∧
      f .rax = img.slot (s.reg .rax) ∧ (∀ r, r ≠ .rax → r ≠ .rbx → r ≠ .rsp → f r = s.reg r) ∧
      ∀ r, r ≠ .rax → r ≠ .rbx → r ≠ .rsp → c.reg r = s.reg r := by
  have hroom := img.stack_room
  obtain ⟨hst₁, hsp₁, hbx₁, hreg₁, -⟩ := syscallEnter_spec img s hns
  have hax₁ : (syscallEnter img (img.int80 s)).reg .rax = s.reg .rax := hreg₁ .rax (by simp) (by simp)
  unfold syscallDispatch
  generalize syscallEnter img (img.int80 s) = e at *
  obtain ⟨hax₂, hbx₂, hreg₂, hmem₂⟩ := syscallSelect_spec img e
  have hsp₂ : (syscallSelect img e).sp = e.sp := hreg₂ .rsp (by simp) (by simp)
  have hst₂ : (syscallSelect img e).Stack (s.reg .rbx :: s.intrFrame) := by
    unfold Cpu.Stack
    rw [hsp₂, hmem₂]
    exact hst₁
  rw [hax₁] at hax₂ hbx₂
  simp only [hbx₁, hax₁, hle]
  generalize syscallSelect img e = e₂ at *
  rw [← hsp₂] at hsp₁
  have hst₃ := Cpu.stack_call hst₂ (by omega) img.saveRegs img.afterSave
  have hsp₃ := Cpu.sp_call (s := e₂) (by omega) img.saveRegs img.afterSave
  obtain ⟨hrip, hst₄, hsp₄, hreg₄, -, -⟩ := saveRegs_spec hst₃ (by omega)
  have hreg₃ : ∀ r, r ≠ .rsp → (e₂.call img.saveRegs img.afterSave).reg r = e₂.reg r := by
    intro r hr
    rw [Cpu.call_reg, if_neg hr]
  generalize e₂.call img.saveRegs img.afterSave = e₃ at *
  generalize saveRegs e₃ = e₄ at *
  -- `save_regs` comes back to its caller, and the function of the entry is called
  rw [if_neg (by simp), if_pos hrip]
  have hkeep : ∀ r, r ≠ .rax → r ≠ .rbx → r ≠ .rsp → e₃.reg r = s.reg r := by
    intro r hax hbx hsp
    rw [hreg₃ r hsp, hreg₂ r hax hbx, hreg₁ r hsp hbx]
  refine ⟨_, e₃.reg, by rw [hax₂], ?_, ?_, ?_, ?_, hkeep, ?_⟩
  · rw [Cpu.call_rip, hreg₄ .rbx (by simp) (by simp), hreg₃ .rbx (by simp), hbx₂]
  · exact Cpu.stack_call hst₄ (by omega) _ _
  · rw [Cpu.call_sp, Cpu.sub_eight_toNat (by omega)]
    omega
  · rw [hreg₃ .rax (by simp), hax₂]
  · intro r hax hbx hsp
    rw [Cpu.call_reg, if_neg hsp, hreg₄ r hsp hax]
    exact hkeep r hax hbx hsp

/-- What it does with a number that the comparison turns away: nothing but save `rbx`. -/
theorem syscallDispatch_ret (hns : ld s.mem img.nsAddr = BitVec.ofNat 64 syscallNs)
    (hle : (BitVec.ofNat 64 syscallNs).sle (s.reg .rax) = true) :
    syscallDispatch img (img.int80 s) = some (.ret (syscallEnter img (img.int80 s))) := by
  obtain ⟨-, -, hbx, hreg, -⟩ := syscallEnter_spec img s hns
  simp only [syscallDispatch, hbx, hreg .rax (by simp) (by simp), hle, if_true]

end Dispatch

/-- `.ret` on a stack with the saved `rbx` and the interrupt frame of `t` on it. -/
theorem syscallLeave_spec {s t : Cpu} {v : BitVec 64} {ws : List (BitVec 64)}
    (h : s.Stack (v :: (t.intrFrame ++ ws))) :
    (syscallLeave s).intrFrame = t.intrFrame ∧ (syscallLeave s).reg .rbx = v ∧
    ∀ r, r ≠ .rsp → r ≠ .rbx → (syscallLeave s).reg r = s.reg r := by
  have hpop : (s.pop .rbx).Stack (t.intrFrame ++ ws) := Cpu.stack_pop h (by simp)
  obtain ⟨hframe, hreg, -, -⟩ := Cpu.iretq_spec hpop
  refine ⟨hframe, ?_, ?_⟩
  · show (s.pop .rbx).iretq.reg .rbx = v
    rw [hreg .rbx (by simp), Cpu.pop_reg, if_pos rfl]
    exact Cpu.stack_head h
  · intro r hsp hbx
    show (s.pop .rbx).iretq.reg r = s.reg r
    rw [hreg r hsp, Cpu.pop_reg, if_neg hbx, if_neg hsp]

/-! ## The result -/

/-- What a caller expects to find: the result `v` in `rax`, the registers of the
arguments and `rbx` and `rbp` as they were. -/
def returnProtocol (v : BitVec 64) (s sf : Cpu) : Prop :=
  sf.reg .rax = v ∧
  ∀ r ∈ [Reg.rbx, .rcx, .rdx, .rsi, .rdi, .rbp, .r8, .r9], sf.reg r = s.reg r

/-- What the second half does with the result `v` of the function: the handler returns
with `v` in `r9` and the address of the table entry in `rax`. -/
theorem syscallHandler_call (img : SyscallImage) {f : Cpu → Cpu} {s : Cpu}
    (hns : ld s.mem img.nsAddr = BitVec.ofNat 64 syscallNs)
    (hle : (BitVec.ofNat 64 syscallNs).sle (s.reg .rax) = false)
    (hf : ∀ slot c, syscallDispatch img (img.int80 s) = some (.call slot c) →
      Cpu.CCall img.stack.toNat c (f c)) :
    ∃ c sf, syscallDispatch img (img.int80 s) = some (.call (img.slot (s.reg .rax)) c) ∧
      syscallHandler img f (img.int80 s) = some sf ∧ sf.intrFrame = s.intrFrame ∧
      sf.reg .rax = img.slot (s.reg .rax) ∧ sf.reg .r9 = (f c).reg .rax ∧
      ∀ r ∈ [Reg.rbx, .rcx, .rdx, .rsi, .rdi, .rbp, .r8], sf.reg r = s.reg r := by
  have hroom := img.stack_room
  obtain ⟨c, g, hdisp, -, hst, hsp, hgax, hg, -⟩ := syscallDispatch_call img s hns hle
  have hcall := hf _ c hdisp
  have hb := StackAt.bound hst
  -- The words above the return address are the caller's, and the function left them alone.
  have hsp' : (f c).sp.toNat = img.stack.toNat - 120 := by
    rw [hcall.sp, Cpu.sp_tail hst]
    omega
  have hst₁ : (f c).Stack (commRegs.map g ++ s.reg .rbx :: s.intrFrame) := by
    have htail : StackAt c.mem (c.sp.toNat + 8) (commRegs.map g ++ s.reg .rbx :: s.intrFrame) :=
      hst.2
    unfold Cpu.Stack
    rw [show (f c).sp.toNat = c.sp.toNat + 8 by omega]
    refine htail.congr fun x hx hx' => hcall.frame x hx ?_
    have hlen : (commRegs.map g ++ s.reg .rbx :: s.intrFrame).length = 15 := rfl
    omega
  have hrip : (f c).rip = img.afterCall := hcall.rip.trans (Cpu.stack_head hst)
  have hhandler : syscallHandler img f (img.int80 s) = syscallReturn img (f c) := by
    unfold syscallHandler
    rw [hdisp]
    exact if_pos hrip
  rw [hhandler]
  refine ⟨c, ?_⟩
  simp only [syscallReturn]
  generalize f c = e at *
  obtain ⟨hst₂, -⟩ := Cpu.stack_xchg hst₁ (i := 0) (r := .rax) (by simp [commRegs]) (by simp)
  rw [show BitVec.ofNat 64 (8 * 0) = 0 from rfl] at hst₂
  have hsp₂ : (e.xchg 0 .rax).sp = e.sp := Cpu.xchg_sp _ _ _ (by simp)
  generalize e.xchg 0 .rax = e₂ at *
  let f' : Reg → BitVec 64 := fun r => if r = .r9 then e.reg .rax else g r
  have hst₂' : e₂.Stack (commRegs.map f' ++ s.reg .rbx :: s.intrFrame) := by
    simpa [commRegs, f'] using hst₂
  have hst₃ := Cpu.stack_call hst₂' (by rw [hsp₂]; omega) img.restRegs img.afterRest
  obtain ⟨hrip₄, hst₄, -, hreg₄, -, -⟩ := restRegs_spec f' hst₃
  generalize e₂.call img.restRegs img.afterRest = e₃ at *
  generalize restRegs e₃ = e₄ at *
  have hst₄' : e₄.Stack (s.reg .rbx :: (s.intrFrame ++ [])) := by
    rw [List.append_nil]
    exact hst₄
  obtain ⟨hframe, hbx, hreg₅⟩ := syscallLeave_spec hst₄'
  refine ⟨_, hdisp, if_pos hrip₄, hframe, ?_, ?_, ?_⟩
  · rw [hreg₅ .rax (by simp) (by simp), hreg₄ .rax (by simp), if_pos (by decide)]
    exact hgax
  · rw [hreg₅ .r9 (by simp) (by simp), hreg₄ .r9 (by simp), if_pos (by decide)]
    rfl
  · intro r hr
    by_cases hrbx : r = .rbx
    · rw [hrbx]
      exact hbx
    · have hmem : r ∈ commRegs ∧ r ≠ .r9 ∧ r ≠ .rax ∧ r ≠ .rsp := by
        revert hr hrbx
        cases r <;> decide
      rw [hreg₅ r hmem.2.2.2 hrbx, hreg₄ r hmem.2.2.2, if_pos hmem.1]
      show (if r = .r9 then _ else g r) = _
      rw [if_neg hmem.2.1]
      exact hg r hmem.2.2.1 hrbx hmem.2.2.2

theorem syscallNs_sle (n : BitVec 64) :
    (BitVec.ofNat 64 syscallNs).sle n = false ↔ n.toNat < syscallNs ∨ 2 ^ 63 ≤ n.toNat := by
  have hn := n.isLt
  rw [BitVec.sle_eq_decide, decide_eq_false_iff_not, BitVec.toInt_eq_toNat_cond,
    BitVec.toInt_eq_toNat_cond, BitVec.toNat_ofNat]
  unfold syscallNs
  split <;> split <;> omega

/-- For a valid call number the handler returns, and the caller finds what it expects
exactly when the result is the address of the table entry and `r9` held it before. -/
theorem syscall_return_iff (img : SyscallImage) {f : Cpu → Cpu} {s : Cpu}
    (hns : ld s.mem img.nsAddr = BitVec.ofNat 64 syscallNs)
    (hvalid : (s.reg .rax).toNat < syscallNs)
    (hf : ∀ slot c, syscallDispatch img (img.int80 s) = some (.call slot c) →
      Cpu.CCall img.stack.toNat c (f c)) :
    ∃ c sf, syscallDispatch img (img.int80 s) = some (.call (img.slot (s.reg .rax)) c) ∧
      syscallHandler img f (img.int80 s) = some sf ∧
      (returnProtocol ((f c).reg .rax) s sf ↔
        (f c).reg .rax = img.slot (s.reg .rax) ∧ s.reg .r9 = (f c).reg .rax) := by
  obtain ⟨c, sf, hdisp, hhandler, -, hax, hr9, hregs⟩ :=
    syscallHandler_call img hns ((syscallNs_sle _).mpr (Or.inl hvalid)) hf
  refine ⟨c, sf, hdisp, hhandler, ?_⟩
  unfold returnProtocol
  rw [hax]
  constructor
  · intro h
    have hsame := h.2 .r9 (by simp)
    rw [hr9] at hsame
    exact ⟨h.1.symm, hsame.symm⟩
  · intro h
    refine ⟨h.1.symm, fun r hr => ?_⟩
    by_cases hr9' : r = .r9
    · rw [hr9', hr9]
      exact h.2.symm
    · apply hregs
      simpa [hr9'] using hr

/-- A placement of the handler's data, for the examples below. -/
def lowImage : SyscallImage where
  nsAddr := 0x2000
  fsAddr := 0x3000
  handler := 0x100
  saveRegs := 0x200
  restRegs := 0x300
  afterSave := 0x110
  afterCall := 0x118
  afterRest := 0x120
  stack := 0x1000
  stack_room := by decide
  ns_apart := by decide
  fs_apart := by decide
  fs_fits := by decide

/-- A task at its `int 0x80` with call number `n`, the other registers 0. -/
def callerCpu (n : BitVec 64) : Cpu where
  reg := fun r => if r = .rax then n else 0
  rip := 0x400000
  cs := 0x08
  rflags := 0x202
  ss := 0x10
  cr3 := 0x1000
  mem := fun a => if a = 0x2000 then 19 else 0

theorem callerCpu_ns (n : BitVec 64) :
    ld (callerCpu n).mem lowImage.nsAddr = BitVec.ofNat 64 syscallNs := by
  show ld (fun a => if a = 0x2000 then 19 else 0) 0x2000 = _
  decide

/-- A C function that returns `v` and touches nothing. -/
def constFn (v : BitVec 64) (c : Cpu) : Cpu := (c.set .rax v).ret

theorem constFn_ccall (v : BitVec 64) (hi : Nat) (c : Cpu) : Cpu.CCall hi c (constFn v c) where
  rip := rfl
  sp := rfl
  saved := by
    intro r hr
    revert hr
    cases r <;> first | exact fun _ => rfl | exact fun h => absurd h (by decide)
  frame := fun _ _ _ => rfl

/-- A `sys_getpid` (call number 6) that finds pid 1. -/
theorem syscall_return_getpid :
    ∃ c sf, syscallDispatch lowImage (lowImage.int80 (callerCpu 6)) =
        some (.call (lowImage.slot ((callerCpu 6).reg .rax)) c) ∧
      syscallHandler lowImage (constFn 1) (lowImage.int80 (callerCpu 6)) = some sf ∧
      (returnProtocol ((constFn 1 c).reg .rax) (callerCpu 6) sf ↔
        (constFn 1 c).reg .rax = lowImage.slot ((callerCpu 6).reg .rax) ∧
          (callerCpu 6).reg .r9 = (constFn 1 c).reg .rax) :=
  syscall_return_iff lowImage (callerCpu_ns 6) (by decide) fun _ c _ => constFn_ccall 1 _ c

/-- The pid is not in `rax` when `sys_getpid` has returned; it is in `r9`. -/
theorem syscall_getpid_lost :
    ∃ c sf, syscallHandler lowImage (constFn 1) (lowImage.int80 (callerCpu 6)) = some sf ∧
      (constFn 1 c).reg .rax = 1 ∧ sf.reg .rax = 0x3030 ∧ sf.reg .r9 = 1 ∧
      (callerCpu 6).reg .r9 = 0 ∧ ¬ returnProtocol 1 (callerCpu 6) sf := by
  obtain ⟨c, sf, -, hhandler, -, hax, hr9, -⟩ :=
    syscallHandler_call lowImage (callerCpu_ns 6) (by decide) fun _ c _ => constFn_ccall 1 _ c
  have hresult : (constFn 1 c).reg .rax = 1 := rfl
  have hslot : lowImage.slot ((callerCpu 6).reg .rax) = 0x3030 := by decide
  rw [hslot] at hax
  refine ⟨c, sf, hhandler, hresult, hax, hr9.trans hresult, rfl, fun h => ?_⟩
  rw [returnProtocol, hax] at h
  exact absurd h.1 (by decide)

/-! ## The table -/

/-- Where a system call may end: it comes back with all registers as they were, or it
enters the function of the table entry that its number names. -/
def dispatchConfined (img : SyscallImage) (s : Cpu) : Option Dispatch → Prop
  | none => False
  | some (.ret t) => (syscallLeave t).intrFrame = s.intrFrame ∧
      ∀ r, r ≠ .rsp → (syscallLeave t).reg r = s.reg r
  | some (.call slot c) => (s.reg .rax).toNat < syscallNs ∧ slot = img.slot (s.reg .rax) ∧
      c.rip = ld s.mem slot

/-- The dispatch is confined to the table exactly for the numbers below `2 ^ 63`. -/
theorem syscall_confined_iff (img : SyscallImage) {s : Cpu}
    (hns : ld s.mem img.nsAddr = BitVec.ofNat 64 syscallNs) :
    dispatchConfined img s (syscallDispatch img (img.int80 s)) ↔ (s.reg .rax).toNat < 2 ^ 63 := by
  have hroom := img.stack_room
  obtain ⟨hst, -, -, hreg, hmem⟩ := syscallEnter_spec img s hns
  by_cases hle : (BitVec.ofNat 64 syscallNs).sle (s.reg .rax) = true
  · have hlt : (s.reg .rax).toNat < 2 ^ 63 := by
      by_contra hge
      rw [(syscallNs_sle _).mpr (Or.inr (by omega))] at hle
      cases hle
    rw [syscallDispatch_ret img s hns hle]
    refine ⟨fun _ => hlt, fun _ => ?_⟩
    have hst' : (syscallEnter img (img.int80 s)).Stack (s.reg .rbx :: (s.intrFrame ++ [])) := by
      rw [List.append_nil]
      exact hst
    obtain ⟨hframe, hbx, hrest⟩ := syscallLeave_spec hst'
    refine ⟨hframe, fun r hsp => ?_⟩
    by_cases hrbx : r = .rbx
    · rw [hrbx]
      exact hbx
    · rw [hrest r hsp hrbx]
      exact hreg r hsp hrbx
  · have hle' : (BitVec.ofNat 64 syscallNs).sle (s.reg .rax) = false := by simpa using hle
    obtain ⟨c, -, hdisp, hrip, -⟩ := syscallDispatch_call img s hns hle'
    rw [hdisp]
    constructor
    · intro h
      have hlt := h.1
      unfold syscallNs at hlt
      omega
    · intro hlt
      have hvalid : (s.reg .rax).toNat < syscallNs :=
        ((syscallNs_sle _).mp hle').resolve_right (by omega)
      refine ⟨hvalid, rfl, ?_⟩
      rw [hrip]
      -- The entry lies in the table, which the stack does not reach.
      have happart := img.fs_apart
      have hfits := img.fs_fits
      have hslot : (img.slot (s.reg .rax)).toNat = img.fsAddr.toNat + 8 * (s.reg .rax).toNat := by
        unfold SyscallImage.slot
        rw [BitVec.toNat_add, BitVec.toNat_mul]
        unfold syscallNs at hvalid hfits
        simp
        omega
      exact ld_congr fun x hx hx' => hmem x (by omega)

/-- The number of `sys_getpid`. -/
theorem syscall_confined_getpid :
    dispatchConfined lowImage (callerCpu 6) (syscallDispatch lowImage (lowImage.int80 (callerCpu 6))) ↔
      ((callerCpu 6).reg .rax).toNat < 2 ^ 63 :=
  syscall_confined_iff lowImage (callerCpu_ns 6)

/-- With `rax = -1` the handler calls through the quadword in front of the table. -/
theorem syscall_calls_before_table :
    (∃ c, syscallDispatch lowImage (lowImage.int80 (callerCpu (-1))) =
      some (.call (lowImage.fsAddr - 8) c)) ∧
    ¬ dispatchConfined lowImage (callerCpu (-1))
      (syscallDispatch lowImage (lowImage.int80 (callerCpu (-1)))) := by
  obtain ⟨c, -, hdisp, -⟩ := syscallDispatch_call lowImage (callerCpu (-1)) (callerCpu_ns _) (by decide)
  have hslot : lowImage.slot ((callerCpu (-1)).reg .rax) = lowImage.fsAddr - 8 := by decide
  rw [hslot] at hdisp
  refine ⟨⟨c, hdisp⟩, fun h => ?_⟩
  rw [hdisp] at h
  exact absurd h.1 (by decide)

end OS64.Sys
