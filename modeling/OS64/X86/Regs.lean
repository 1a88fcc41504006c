import OS64.Lib.X86

/-!
# Saving and restoring registers (`x86_64/regs.S`)

`save_regs` leaves the nine registers of `comm_regs` on the caller's stack and
jumps back through `rax`; `rest_regs` takes them off again. Each hides its return
address in the slot or register of `rax` while the stack is in use: `save_regs`
exchanges it with `rax` before it pushes, `rest_regs` with the saved `rax` before
it pops. `saveRegs_spec` and `restRegs_spec` are all that their callers need.
-/

namespace OS64.X86

open OS64.Lib OS64.Lib.X86

/-- The fields of `comm_regs`, in their order in memory. -/
def commRegs : List Reg := [.r9, .r8, .rbp, .rdi, .rsi, .rdx, .rcx, .rbx, .rax]

/-- `save_regs`, from its first instruction to its `jmp *%rax`. -/
def saveRegs (s : Cpu) : Cpu :=
  let s₁ := s.xchg 0 .rax
  let s₂ := s₁.pushRegs [.rbx, .rcx, .rdx, .rsi, .rdi, .rbp, .r8, .r9]
  s₂.jmp (s₂.reg .rax)

/-- `rest_regs`, from its first instruction to its `ret`. -/
def restRegs (s : Cpu) : Cpu :=
  let s₁ := s.pop .rax
  let s₂ := s₁.xchg 0x40 .rax
  let s₃ := s₂.popRegs [.r9, .r8, .rbp, .rdi, .rsi, .rdx, .rcx, .rbx]
  s₃.ret

variable {s : Cpu} {next : BitVec 64} {ws : List (BitVec 64)}

/-- Called with room for the registers, `save_regs` returns to its caller with
`comm_regs` in the place of the return address. -/
theorem saveRegs_spec (h : s.Stack (next :: ws)) (hroom : 64 ≤ s.sp.toNat) :
    (saveRegs s).rip = next ∧
    (saveRegs s).Stack (commRegs.map s.reg ++ ws) ∧
    (saveRegs s).sp.toNat = s.sp.toNat - 64 ∧
    (∀ r, r ≠ .rsp → r ≠ .rax → (saveRegs s).reg r = s.reg r) ∧
    (∀ x, x < s.sp.toNat - 64 ∨ s.sp.toNat + 8 ≤ x → (saveRegs s).mem x = s.mem x) ∧
    (saveRegs s).cr3 = s.cr3 := by
  obtain ⟨hst₁, hrax⟩ := Cpu.stack_xchg h (i := 0) (r := .rax) (by simp) (by simp)
  rw [show BitVec.ofNat 64 (8 * 0) = 0 from rfl] at hst₁ hrax
  have hsp₁ : (s.xchg 0 .rax).sp = s.sp := Cpu.xchg_sp _ _ _ (by simp)
  have hkeep : ∀ r, r ≠ .rax → (s.xchg 0 .rax).reg r = s.reg r := by
    intro r hr
    rw [Cpu.xchg_reg, if_neg hr]
  have hmem₁ : ∀ x, x < s.sp.toNat ∨ s.sp.toNat + 8 ≤ x → (s.xchg 0 .rax).mem x = s.mem x := by
    intro x hx
    rw [Cpu.xchg_mem]
    exact st_apply_out (by simpa using hx)
  have hpush := Cpu.pushRegs_eq_pushAll [.rbx, .rcx, .rdx, .rsi, .rdi, .rbp, .r8, .r9]
    (s.xchg 0 .rax) (by decide)
  obtain ⟨hst₂, hsp₂, hreg₂, hmem₂, hcr3⟩ := Cpu.stack_pushAll
    ([Reg.rbx, .rcx, .rdx, .rsi, .rdi, .rbp, .r8, .r9].map (s.xchg 0 .rax).reg) hst₁
    (by rw [hsp₁]; exact hroom)
  rw [← hpush] at hst₂ hsp₂ hreg₂ hmem₂ hcr3
  rw [hsp₁] at hsp₂ hmem₂
  refine ⟨?_, ?_, hsp₂, ?_, ?_, hcr3⟩
  · exact (hreg₂ .rax (by simp)).trans hrax
  · simp only [saveRegs, Cpu.stack_jmp]
    simpa [commRegs, hkeep] using hst₂
  · intro r hsp hax
    exact (hreg₂ r hsp).trans (hkeep r hax)
  · intro x hx
    have hlen : ([Reg.rbx, .rcx, .rdx, .rsi, .rdi, .rbp, .r8, .r9].map
      (s.xchg 0 .rax).reg).length = 8 := rfl
    rw [hlen] at hmem₂
    exact (hmem₂ x (by omega)).trans (hmem₁ x (by omega))

/-- Called on top of a `comm_regs` that holds the valuation `f`, `rest_regs` loads it
and returns with the stack pointer behind it. -/
theorem restRegs_spec (f : Reg → BitVec 64) (h : s.Stack (next :: (commRegs.map f ++ ws))) :
    (restRegs s).rip = next ∧
    (restRegs s).Stack ws ∧
    (restRegs s).sp.toNat = s.sp.toNat + 80 ∧
    (∀ r, r ≠ .rsp → (restRegs s).reg r = if r ∈ commRegs then f r else s.reg r) ∧
    (∀ x, x < s.sp.toNat + 72 ∨ s.sp.toNat + 80 ≤ x → (restRegs s).mem x = s.mem x) ∧
    (restRegs s).cr3 = s.cr3 := by
  have hb := StackAt.bound h
  rw [List.length_cons, List.length_append, List.length_map,
    show commRegs.length = 9 from rfl] at hb
  have hst₁ : (s.pop .rax).Stack (commRegs.map f ++ ws) := Cpu.stack_pop h (by simp)
  have hrax₁ : (s.pop .rax).reg .rax = next := by
    rw [Cpu.pop_reg, if_pos rfl]
    exact Cpu.stack_head h
  have hsp₁ : (s.pop .rax).sp.toNat = s.sp.toNat + 8 := by
    rw [Cpu.pop_sp _ _ (by simp)]
    exact Cpu.sp_tail h
  have hreg₁ : ∀ r, r ≠ .rsp → r ≠ .rax → (s.pop .rax).reg r = s.reg r := by
    intro r hsp hax
    rw [Cpu.pop_reg, if_neg hax, if_neg hsp]
  have hmem₁ : (s.pop .rax).mem = s.mem := rfl
  have hcr3₁ : (s.pop .rax).cr3 = s.cr3 := rfl
  simp only [restRegs]
  generalize s.pop .rax = s₁ at *
  -- The word under the eight to be popped is that of `rax`; it becomes the return address.
  obtain ⟨hst₂, hrax₂⟩ := Cpu.stack_xchg hst₁ (i := 8) (r := .rax) (by simp [commRegs]) (by simp)
  rw [show BitVec.ofNat 64 (8 * 8) = 0x40 from rfl] at hst₂ hrax₂
  have hsp₂ : (s₁.xchg 0x40 .rax).sp = s₁.sp := Cpu.xchg_sp _ _ _ (by simp)
  have hreg₂ : ∀ r, r ≠ .rax → (s₁.xchg 0x40 .rax).reg r = s₁.reg r := by
    intro r hax
    rw [Cpu.xchg_reg, if_neg hax]
  have hstore : (s₁.sp + 0x40).toNat = s.sp.toNat + 72 := by
    rw [BitVec.toNat_add, hsp₁]
    simp
    omega
  have hmem₂ : ∀ x, x < s.sp.toNat + 72 ∨ s.sp.toNat + 80 ≤ x →
      (s₁.xchg 0x40 .rax).mem x = s.mem x := by
    intro x hx
    rw [Cpu.xchg_mem, st_apply_out (by rw [hstore]; omega), hmem₁]
  have hcr3₂ : (s₁.xchg 0x40 .rax).cr3 = s₁.cr3 := rfl
  generalize s₁.xchg 0x40 .rax = s₂ at *
  have hst₂' : s₂.Stack
      ([Reg.r9, .r8, .rbp, .rdi, .rsi, .rdx, .rcx, .rbx].map f ++ (next :: ws)) := by
    simpa [commRegs, hrax₁] using hst₂
  obtain ⟨hst₃, hsp₃, hreg₃, hmem₃, hcr3₃⟩ := Cpu.stack_popRegs f hst₂' (by decide)
  generalize s₂.popRegs [.r9, .r8, .rbp, .rdi, .rsi, .rdx, .rcx, .rbx] = s₃ at *
  obtain ⟨hst₄, hrip⟩ := Cpu.stack_ret hst₃
  have hlen : [Reg.r9, .r8, .rbp, .rdi, .rsi, .rdx, .rcx, .rbx].length = 8 := rfl
  refine ⟨hrip, hst₄, ?_, ?_, ?_, ?_⟩
  · rw [Cpu.ret_sp, Cpu.sp_tail hst₃, hsp₃, hsp₂, hsp₁, hlen]
  · intro r hr
    rw [Cpu.ret_reg, if_neg hr, hreg₃ r hr]
    by_cases hax : r = .rax
    · subst hax
      rw [if_neg (by decide), if_pos (by decide), hrax₂]
      rfl
    · have hiff : r ∈ commRegs ↔ r ∈ [Reg.r9, .r8, .rbp, .rdi, .rsi, .rdx, .rcx, .rbx] := by
        simp [commRegs, hax]
      simp only [hiff, hreg₂ r hax, hreg₁ r hr hax]
  · intro x hx
    rw [Cpu.ret_mem, hmem₃]
    exact hmem₂ x hx
  · rw [Cpu.ret_cr3, hcr3₃, hcr3₂, hcr3₁]

end OS64.X86
