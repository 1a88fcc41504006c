import OS64.X86.Regs

/-!
# Interrupt stubs (`x86_64/intr.h`, `mm/pagefault.h`)

`IRQ_HANDLER` wraps a C function in pushes and pops of seven registers, and `page_fault` in
`save_regs` and `rest_regs`, which keep nine. A compiled function gives back six registers as it
found them (`Cpu.CCall`), three of which are on the stack already; the rest is up to the compiler.

Mirroring notes:
- The C function is a parameter, a state transformer from its entry to its return. A stub goes on
  only if the function, or `save_regs` or `rest_regs`, came back to the instruction behind the
  call (`none` says that it did not).
- The stack of a gate is that of its IST entry; the processor pushes its frame there, and for a
  page fault an error code as well.
- `outb %al, $0x20` changes neither a register nor memory.
- `_page_fault` returns when it has repaired a fault of the kernel heap, and never otherwise.
-/

namespace OS64.X86

open OS64.Lib OS64.Lib.X86

/-- What `IRQ_HANDLER` pushes, and pops in reverse. -/
def irqRegs : List Reg := [.rax, .rbx, .rcx, .rdx, .rsi, .rdi, .rbp]

/-- Where a stub, its C function and the instructions behind its calls are, and the stack of its
gate, of which a stub uses at most seventeen words. -/
structure StubImage where
  handler : BitVec 64
  func : BitVec 64
  saveRegs : BitVec 64
  restRegs : BitVec 64
  afterSave : BitVec 64
  afterCall : BitVec 64
  afterRest : BitVec 64
  stack : BitVec 64
  stack_room : 136 ≤ stack.toNat

section Stubs

variable (img : StubImage) (s : Cpu)

/-- The stub of `IRQ_HANDLER` up to the first instruction of the function. -/
def irqEntry : Cpu :=
  ((s.interrupt img.stack img.handler).pushRegs irqRegs).call img.func img.afterCall

/-- `movb $0x20, %al`. -/
def irqEoi (s : Cpu) : Cpu := s.set .rax (s.reg .rax &&& ~~~0xFF ||| 0x20)

/-- An interrupt through a stub of `IRQ_HANDLER`, the function being `f`. -/
def irqHandler (f : Cpu → Cpu) : Option Cpu :=
  if (f (irqEntry img s)).rip = img.afterCall then
    some ((irqEoi (f (irqEntry img s))).popRegs irqRegs.reverse).iretq
  else none

/-- `page_fault` up to the first instruction of `_page_fault`: the processor has pushed the error
code, and the arguments are `cr2` and the stack pointer. -/
def faultEntry (code cr2 : BitVec 64) : Cpu :=
  let s₁ := (s.interrupt img.stack img.handler).push code
  let s₂ := X86.saveRegs (s₁.call img.saveRegs img.afterSave)
  ((s₂.set .rdi cr2).set .rsi s₂.sp).call img.func img.afterCall

/-- `add $0x8, %rsp; iretq`. -/
def faultLeave (s : Cpu) : Cpu := (s.set .rsp (s.sp + 8)).iretq

/-- A page fault, `_page_fault` being `f`. -/
def pageFault (f : Cpu → Cpu) (code cr2 : BitVec 64) : Option Cpu :=
  if (X86.saveRegs (((s.interrupt img.stack img.handler).push code).call img.saveRegs
      img.afterSave)).rip = img.afterSave then
    let s₁ := f (faultEntry img s code cr2)
    if s₁.rip = img.afterCall then
      let s₂ := X86.restRegs (s₁.call img.restRegs img.afterRest)
      if s₂.rip = img.afterRest then some (faultLeave s₂) else none
    else none
  else none

end Stubs

/-- All general-purpose registers are as they were at the interrupted instruction. -/
def Transparent (s : Cpu) (r : Option Cpu) : Prop := ∃ s', r = some s' ∧ s'.reg = s.reg

section Call

variable {img : StubImage} {s : Cpu} {f : Cpu → Cpu}

/-- A C function leaves the words above its return address on the stack of the gate. -/
theorem ccall_stack {hi : Nat} {c d : Cpu} (h : Cpu.CCall hi c d) {next : BitVec 64}
    {ws : List (BitVec 64)} (hst : c.Stack (next :: ws))
    (hhi : c.sp.toNat + 8 + 8 * ws.length ≤ hi) :
    d.rip = next ∧ d.Stack ws ∧ d.sp.toNat = c.sp.toNat + 8 := by
  have hsp : d.sp.toNat = c.sp.toNat + 8 := by
    rw [h.sp]
    exact Cpu.sp_tail hst
  refine ⟨h.rip.trans (Cpu.stack_head hst), ?_, hsp⟩
  unfold Cpu.Stack
  rw [hsp]
  exact hst.2.congr fun x hx hx' => h.frame x hx (by omega)

/-- The stack pointer that `iretq` loads. -/
theorem iretq_sp {rip cs rflags sp ss : BitVec 64} (h : s.intrFrame = [rip, cs, rflags, sp, ss]) :
    s.sp = sp :=
  Option.some.inj (congrArg (fun l : List (BitVec 64) => l[3]?) h)

/-- The stack when the function of `IRQ_HANDLER` is entered. -/
theorem irqEntry_spec (img : StubImage) (s : Cpu) :
    (irqEntry img s).Stack (img.afterCall :: (irqRegs.reverse.map s.reg ++ s.intrFrame)) ∧
      (irqEntry img s).sp.toNat = img.stack.toNat - 104 ∧
      ∀ r, r ≠ .rsp → (irqEntry img s).reg r = s.reg r := by
  have hroom := img.stack_room
  obtain ⟨hst, hsp, hreg, -, -⟩ := Cpu.interrupt_spec s img.stack img.handler (by omega)
  unfold irqEntry
  generalize s.interrupt img.stack img.handler = e at *
  have hvals : irqRegs.map e.reg = irqRegs.map s.reg := by
    refine List.map_congr_left fun r hr => hreg r fun heq => ?_
    rw [heq] at hr
    exact absurd hr (by decide)
  have hlen : (irqRegs.map s.reg).length = 7 := rfl
  have hpush := Cpu.pushRegs_eq_pushAll irqRegs e (by decide)
  rw [hvals] at hpush
  obtain ⟨hst₁, hsp₁, hreg₁, -, -⟩ := Cpu.stack_pushAll (irqRegs.map s.reg) hst (by omega)
  rw [← hpush] at hst₁ hsp₁ hreg₁
  rw [← List.map_reverse] at hst₁
  rw [hlen] at hsp₁
  generalize e.pushRegs irqRegs = e₁ at *
  refine ⟨Cpu.stack_call hst₁ (by omega) img.func img.afterCall, ?_, fun r hr => ?_⟩
  · rw [Cpu.sp_call (by omega)]
    omega
  · rw [Cpu.call_reg, if_neg hr, hreg₁ r hr, hreg r hr]

/-- The registers behind a stub of `IRQ_HANDLER`: those it has on the stack and the stack pointer
are restored, and all others are as the function left them. -/
theorem irqHandler_spec (h : Cpu.CCall img.stack.toNat (irqEntry img s) (f (irqEntry img s))) :
    ∃ s', irqHandler img s f = some s' ∧ ∀ r, s'.reg r =
      if r ∈ irqRegs ∨ r = .rsp then s.reg r else (f (irqEntry img s)).reg r := by
  have hroom := img.stack_room
  obtain ⟨hst, hsp, -⟩ := irqEntry_spec img s
  have hlen : (irqRegs.reverse.map s.reg ++ s.intrFrame).length = 12 := rfl
  obtain ⟨hrip, hst₁, hsp₁⟩ := ccall_stack h hst (by omega)
  unfold irqHandler
  rw [if_pos hrip]
  generalize f (irqEntry img s) = d at *
  have hst₂ : (irqEoi d).Stack (irqRegs.reverse.map s.reg ++ s.intrFrame) := by
    unfold Cpu.Stack irqEoi
    rw [Cpu.set_mem, Cpu.set_sp _ _ _ (by decide)]
    exact hst₁
  obtain ⟨hst₃, -, hreg₃, -, -⟩ := Cpu.stack_popRegs s.reg hst₂ (by decide)
  obtain ⟨hframe, hreg₄, -, -⟩ := Cpu.iretq_spec hst₃
  refine ⟨_, rfl, fun r => ?_⟩
  by_cases hrsp : r = .rsp
  · -- the stack pointer comes from the frame
    rw [hrsp, if_pos (Or.inr rfl)]
    exact iretq_sp hframe
  · rw [hreg₄ r hrsp, hreg₃ r hrsp]
    by_cases hin : r ∈ irqRegs
    · rw [if_pos (List.mem_reverse.mpr hin), if_pos (Or.inl hin)]
    · rw [if_neg fun h => hin (List.mem_reverse.mp h), if_neg (not_or.mpr ⟨hin, hrsp⟩)]
      show (if r = .rax then _ else d.reg r) = d.reg r
      rw [if_neg]
      intro heq
      rw [heq] at hin
      exact hin (by decide)

/-- The stack when `_page_fault` is entered, behind `save_regs`. -/
theorem faultEntry_spec (img : StubImage) (s : Cpu) (code cr2 : BitVec 64) :
    (X86.saveRegs (((s.interrupt img.stack img.handler).push code).call img.saveRegs
      img.afterSave)).rip = img.afterSave ∧
    (faultEntry img s code cr2).Stack
      (img.afterCall :: (commRegs.map s.reg ++ code :: s.intrFrame)) ∧
    (faultEntry img s code cr2).sp.toNat = img.stack.toNat - 128 ∧
    ∀ r, r ∉ commRegs → r ≠ .rsp → (faultEntry img s code cr2).reg r = s.reg r := by
  have hroom := img.stack_room
  obtain ⟨hst, hsp, hreg, -, -⟩ := Cpu.interrupt_spec s img.stack img.handler (by omega)
  unfold faultEntry
  dsimp only
  generalize s.interrupt img.stack img.handler = e at *
  have hst₁ := Cpu.stack_push hst (by omega) code
  have hsp₁ := Cpu.sp_push (show 8 ≤ e.sp.toNat by omega) code
  have hst₂ := Cpu.stack_call hst₁ (by omega) img.saveRegs img.afterSave
  have hsp₂ := Cpu.sp_call (show 8 ≤ (e.push code).sp.toNat by omega) img.saveRegs img.afterSave
  have hreg₂ : ∀ r, r ≠ .rsp → ((e.push code).call img.saveRegs img.afterSave).reg r = s.reg r := by
    intro r hr
    rw [Cpu.call_reg, if_neg hr, Cpu.push_reg, if_neg hr, hreg r hr]
  generalize (e.push code).call img.saveRegs img.afterSave = e₂ at *
  obtain ⟨hrip, hst₃, hsp₃, hreg₃, -, -⟩ := saveRegs_spec hst₂ (by omega)
  have hvals : commRegs.map e₂.reg = commRegs.map s.reg := by
    refine List.map_congr_left fun r hr => hreg₂ r fun heq => ?_
    rw [heq] at hr
    exact absurd hr (by decide)
  rw [hvals] at hst₃
  generalize X86.saveRegs e₂ = e₃ at *
  -- the two arguments are in registers that are on the stack by now
  have hargs : ((e₃.set .rdi cr2).set .rsi e₃.sp).sp = e₃.sp := rfl
  have hst₄ : ((e₃.set .rdi cr2).set .rsi e₃.sp).Stack
      (commRegs.map s.reg ++ code :: s.intrFrame) := hst₃
  refine ⟨hrip, Cpu.stack_call hst₄ (by rw [hargs]; omega) img.func img.afterCall, ?_,
    fun r hin hr => ?_⟩
  · rw [Cpu.sp_call (by rw [hargs]; omega), hargs]
    omega
  · have hrax : r ≠ .rax := fun heq => hin (by rw [heq]; decide)
    have hrdi : r ≠ .rdi := fun heq => hin (by rw [heq]; decide)
    have hrsi : r ≠ .rsi := fun heq => hin (by rw [heq]; decide)
    rw [Cpu.call_reg, if_neg hr, Cpu.set_reg, if_neg hrsi, Cpu.set_reg, if_neg hrdi,
      hreg₃ r hr hrax, hreg₂ r hr]

/-- The registers behind `page_fault`: those of `comm_regs` and the stack pointer are restored, and
all others are as `_page_fault` left them. -/
theorem pageFault_spec {code cr2 : BitVec 64} (h : Cpu.CCall img.stack.toNat
    (faultEntry img s code cr2) (f (faultEntry img s code cr2))) :
    ∃ s', pageFault img s f code cr2 = some s' ∧ ∀ r, s'.reg r =
      if r ∈ commRegs ∨ r = .rsp then s.reg r else (f (faultEntry img s code cr2)).reg r := by
  have hroom := img.stack_room
  obtain ⟨hsave, hst, hsp, -⟩ := faultEntry_spec img s code cr2
  have hlen : (commRegs.map s.reg ++ code :: s.intrFrame).length = 15 := rfl
  obtain ⟨hrip, hst₁, hsp₁⟩ := ccall_stack h hst (by omega)
  unfold pageFault
  rw [if_pos hsave]
  dsimp only
  rw [if_pos hrip]
  generalize f (faultEntry img s code cr2) = d at *
  have hst₂ := Cpu.stack_call hst₁ (by omega) img.restRegs img.afterRest
  obtain ⟨hrip₂, hst₃, -, hreg₃, -, -⟩ := restRegs_spec s.reg hst₂
  have hkeep : ∀ r, r ≠ .rsp → (d.call img.restRegs img.afterRest).reg r = d.reg r := by
    intro r hr
    rw [Cpu.call_reg, if_neg hr]
  rw [if_pos hrip₂]
  generalize X86.restRegs (d.call img.restRegs img.afterRest) = e at *
  -- the error code is dropped
  have hst₄ : (e.set .rsp (e.sp + 8)).Stack s.intrFrame := by
    unfold Cpu.Stack
    rw [Cpu.set_mem, show (e.set .rsp (e.sp + 8)).sp = e.sp + 8 from rfl, Cpu.sp_tail hst₃]
    exact hst₃.2
  obtain ⟨hframe, hreg₄, -, -⟩ := Cpu.iretq_spec hst₄
  refine ⟨_, rfl, fun r => ?_⟩
  unfold faultLeave
  by_cases hrsp : r = .rsp
  · rw [hrsp, if_pos (Or.inr rfl)]
    exact iretq_sp hframe
  · rw [hreg₄ r hrsp, Cpu.set_reg, if_neg hrsp, hreg₃ r hrsp]
    by_cases hin : r ∈ commRegs
    · rw [if_pos hin, if_pos (Or.inl hin)]
    · rw [if_neg hin, if_neg (not_or.mpr ⟨hin, hrsp⟩), hkeep r hrsp]

end Call

/-! ## What the interrupted code sees -/

section Transparent

variable {img : StubImage} {s : Cpu} {f : Cpu → Cpu}

/-- A stub that restores the registers `rs` is transparent just when its function leaves the other
scratch registers as they are. -/
theorem transparent_iff {rs scratch : List Reg} {c d : Cpu} {r : Option Cpu}
    (hrun : ∃ s', r = some s' ∧ ∀ x, s'.reg x = if x ∈ rs ∨ x = .rsp then s.reg x else d.reg x)
    (hentry : ∀ x, x ∉ rs → x ≠ .rsp → c.reg x = s.reg x)
    (hsaved : ∀ x ∈ calleeSaved, d.reg x = c.reg x)
    (hscratch : ∀ x, x ∈ scratch ↔ x ∉ rs ∧ x ≠ .rsp ∧ x ∉ calleeSaved) :
    Transparent s r ↔ ∀ x ∈ scratch, d.reg x = c.reg x := by
  obtain ⟨s', hs', hreg⟩ := hrun
  constructor
  · intro h x hx
    obtain ⟨s'', hs'', hsame⟩ := h
    cases hs'.symm.trans hs''
    obtain ⟨hrs, hrsp, -⟩ := (hscratch x).mp hx
    have hval := hreg x
    rw [if_neg (not_or.mpr ⟨hrs, hrsp⟩), hsame] at hval
    rw [← hval, hentry x hrs hrsp]
  · intro h
    refine ⟨s', hs', funext fun x => ?_⟩
    rw [hreg x]
    by_cases hrestored : x ∈ rs ∨ x = .rsp
    · rw [if_pos hrestored]
    · obtain ⟨hrs, hrsp⟩ := not_or.mp hrestored
      rw [if_neg hrestored]
      by_cases hkept : x ∈ calleeSaved
      · rw [hsaved x hkept, hentry x hrs hrsp]
      · rw [h x ((hscratch x).mpr ⟨hrs, hrsp, hkept⟩), hentry x hrs hrsp]

theorem irq_transparent_iff (h : Cpu.CCall img.stack.toNat (irqEntry img s) (f (irqEntry img s))) :
    Transparent s (irqHandler img s f) ↔
      ∀ x ∈ [Reg.r8, .r9, .r10, .r11], (f (irqEntry img s)).reg x = (irqEntry img s).reg x := by
  obtain ⟨-, -, hentry⟩ := irqEntry_spec img s
  refine transparent_iff (irqHandler_spec h) (fun x _ hx => hentry x hx) h.saved fun x => ?_
  cases x <;> decide

theorem fault_transparent_iff {code cr2 : BitVec 64} (h : Cpu.CCall img.stack.toNat
    (faultEntry img s code cr2) (f (faultEntry img s code cr2))) :
    Transparent s (pageFault img s f code cr2) ↔
      ∀ x ∈ [Reg.r10, .r11],
        (f (faultEntry img s code cr2)).reg x = (faultEntry img s code cr2).reg x := by
  obtain ⟨-, -, -, hentry⟩ := faultEntry_spec img s code cr2
  refine transparent_iff (pageFault_spec h) hentry h.saved fun x => ?_
  cases x <;> decide

/-- For any C functions, a stub of `IRQ_HANDLER` gives all registers back just when its function
leaves `r8` to `r11` as they are, and `page_fault` just when `_page_fault` leaves `r10` and `r11`. -/
theorem stubs_transparent_iff {irq fault : StubImage} {s : Cpu} {f g : Cpu → Cpu}
    {code cr2 : BitVec 64} (hf : ∀ c, Cpu.CCall irq.stack.toNat c (f c))
    (hg : ∀ c, Cpu.CCall fault.stack.toNat c (g c)) :
    (Transparent s (irqHandler irq s f) ↔
      ∀ x ∈ [Reg.r8, .r9, .r10, .r11], (f (irqEntry irq s)).reg x = (irqEntry irq s).reg x) ∧
    (Transparent s (pageFault fault s g code cr2) ↔
      ∀ x ∈ [Reg.r10, .r11],
        (g (faultEntry fault s code cr2)).reg x = (faultEntry fault s code cr2).reg x) :=
  ⟨irq_transparent_iff (hf _), fault_transparent_iff (hg _)⟩

end Transparent

/-- A function that returns at once, with 0 in the register `r`. -/
def clearReg (r : Reg) (c : Cpu) : Cpu := c.ret.set r 0

theorem clearReg_ccall {r : Reg} (hsaved : r ∉ calleeSaved) (hsp : r ≠ .rsp) (hi : Nat) (c : Cpu) :
    Cpu.CCall hi c (clearReg r c) where
  rip := rfl
  sp := (Cpu.set_sp _ _ _ hsp).trans rfl
  saved x hx := by
    have hne : x ≠ r := fun heq => hsaved (heq ▸ hx)
    have hrsp : x ≠ .rsp := by
      intro heq
      rw [heq] at hx
      exact absurd hx (by decide)
    show (if x = r then _ else if x = .rsp then _ else c.reg x) = c.reg x
    rw [if_neg hne, if_neg hrsp]
  frame _ _ _ := rfl

/-- Stubs of which only the stack matters. -/
def plainImage : StubImage := ⟨0, 0, 0, 0, 0, 0, 0, 0x1000, Nat.le_of_ble_eq_true rfl⟩

/-- Code with 1 in every register. -/
def onesCpu : Cpu := ⟨fun _ => 1, 0, 0, 0, 0, 0, fun _ => 0⟩

theorem stubs_transparent_ones :
    (Transparent onesCpu (irqHandler plainImage onesCpu (clearReg .rax)) ↔
      ∀ x ∈ [Reg.r8, .r9, .r10, .r11], (clearReg .rax (irqEntry plainImage onesCpu)).reg x =
        (irqEntry plainImage onesCpu).reg x) ∧
    (Transparent onesCpu (pageFault plainImage onesCpu (clearReg .r10) 0 0x1000) ↔
      ∀ x ∈ [Reg.r10, .r11], (clearReg .r10 (faultEntry plainImage onesCpu 0 0x1000)).reg x =
        (faultEntry plainImage onesCpu 0 0x1000).reg x) :=
  stubs_transparent_iff (clearReg_ccall (by decide) (by decide) _)
    (clearReg_ccall (by decide) (by decide) _)

/-- A handler that uses `r8` changes it for the interrupted code. -/
theorem irq_clobbers_r8 :
    (∀ c, Cpu.CCall plainImage.stack.toNat c (clearReg .r8 c)) ∧
      ¬ Transparent onesCpu (irqHandler plainImage onesCpu (clearReg .r8)) := by
  have hcall := clearReg_ccall (r := .r8) (by decide) (by decide) plainImage.stack.toNat
  refine ⟨hcall, fun h => ?_⟩
  have hkept := (irq_transparent_iff (hcall _)).mp h .r8 (by decide)
  obtain ⟨-, -, hentry⟩ := irqEntry_spec plainImage onesCpu
  rw [hentry .r8 (by decide)] at hkept
  exact absurd hkept (by decide)

end OS64.X86
