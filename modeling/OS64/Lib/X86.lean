import OS64.Lib.ByteMem
import Mathlib.Data.List.Basic

/-!
# Registers and stack of an x86-64 processor

Enough of the machine for code that moves registers to the stack and back:
the sixteen general-purpose registers, the registers an interrupt saves, `cr3`,
and a byte memory. One definition is one instruction, or, for `pushRegs` and
`popRegs`, a row of the same instruction.

`StackAt m a ws` says that the words `ws` lie at `a`, the top of the stack first.
The instructions are specified by what they do to it (`stack_push`,
`stack_popRegs`, `stack_xchg`), so that a proof about a routine follows the words
on the stack and never computes an address.

The memory of a processor is what its page tables map. A load of `cr3` keeps of it what
all page tables map alike and brings the rest of the new space (`loadCr3`).

Only `rflags` as a whole is kept: what an arithmetic instruction leaves in it is an
argument, and a conditional jump is modelled with the comparison in front of it.
-/

namespace OS64.Lib.X86

/-- The general-purpose registers. -/
inductive Reg
  | rax | rbx | rcx | rdx | rsi | rdi | rbp | rsp
  | r8 | r9 | r10 | r11 | r12 | r13 | r14 | r15
deriving DecidableEq, Repr

/-- The registers a called function gives back as it found them (besides `rsp`). -/
def calleeSaved : List Reg := [.rbx, .rbp, .r12, .r13, .r14, .r15]

/-- A processor and the memory that it sees. -/
structure Cpu where
  reg : Reg → BitVec 64
  rip : BitVec 64
  cs : BitVec 64
  rflags : BitVec 64
  ss : BitVec 64
  cr3 : BitVec 64
  mem : ByteMem

/-- The quadword at address `a`. -/
def ld (m : ByteMem) (a : BitVec 64) : BitVec 64 := BitVec.ofNat 64 (m.read a.toNat 8)

/-- Store a quadword at address `a`. -/
def st (m : ByteMem) (a v : BitVec 64) : ByteMem := m.write a.toNat 8 v.toNat

namespace Cpu

/-- The stack pointer. -/
abbrev sp (s : Cpu) : BitVec 64 := s.reg .rsp

/-- `mov v, %r`. -/
def set (s : Cpu) (r : Reg) (v : BitVec 64) : Cpu :=
  { s with reg := fun r' => if r' = r then v else s.reg r' }

/-- `xchg %r, %r'`. -/
def swap (s : Cpu) (r r' : Reg) : Cpu := (s.set r (s.reg r')).set r' (s.reg r)

/-- `add v, %r`, which leaves `fl` in the flags. -/
def add (s : Cpu) (r : Reg) (v fl : BitVec 64) : Cpu := { s.set r (s.reg r + v) with rflags := fl }

/-- `or v, %r`, which leaves `fl` in the flags. -/
def or (s : Cpu) (r : Reg) (v fl : BitVec 64) : Cpu := { s.set r (s.reg r ||| v) with rflags := fl }

/-- `mov v, (a)`. -/
def store (s : Cpu) (a v : BitVec 64) : Cpu := { s with mem := st s.mem a v }

/-- `mov v, %cr3`: at the addresses in `shared` all page tables map the same memory, at
the others the tables at `w` map `spaces w`. -/
def loadCr3 (s : Cpu) (shared : Nat → Bool) (spaces : BitVec 64 → ByteMem) (v : BitVec 64) : Cpu :=
  { s with cr3 := v, mem := fun x => if shared x then s.mem x else spaces v x }

/-- `push` of the value `v`. -/
def push (s : Cpu) (v : BitVec 64) : Cpu := (s.set .rsp (s.sp - 8)).store (s.sp - 8) v

/-- `pushfq`. -/
def pushf (s : Cpu) : Cpu := s.push s.rflags

/-- `pop %r`. -/
def pop (s : Cpu) (r : Reg) : Cpu := (s.set .rsp (s.sp + 8)).set r (ld s.mem s.sp)

/-- `popfq`. -/
def popf (s : Cpu) : Cpu := { s.set .rsp (s.sp + 8) with rflags := ld s.mem s.sp }

/-- The low byte of a register. -/
def low (s : Cpu) (r : Reg) : BitVec 8 := (s.reg r).setWidth 8

/-- `mov v` to the low byte of a register. -/
def setLow (s : Cpu) (r : Reg) (v : BitVec 8) : Cpu :=
  s.set r ((s.reg r &&& ~~~0xFF) ||| v.setWidth 64)

/-- `xchg off(%rsp), %r`. -/
def xchg (s : Cpu) (off : BitVec 64) (r : Reg) : Cpu :=
  (s.set r (ld s.mem (s.sp + off))).store (s.sp + off) (s.reg r)

/-- `jmp a`. -/
def jmp (s : Cpu) (a : BitVec 64) : Cpu := { s with rip := a }

/-- `call f`, the next instruction being at `next`. -/
def call (s : Cpu) (f next : BitVec 64) : Cpu := (s.push next).jmp f

/-- `ret`. -/
def ret (s : Cpu) : Cpu := (s.set .rsp (s.sp + 8)).jmp (ld s.mem s.sp)

/-- `push` of the values `vs`, one after the other. -/
def pushAll (s : Cpu) : List (BitVec 64) → Cpu
  | [] => s
  | v :: vs => (s.push v).pushAll vs

/-- `push` of the registers `rs`, one after the other. -/
def pushRegs (s : Cpu) : List Reg → Cpu
  | [] => s
  | r :: rs => (s.push (s.reg r)).pushRegs rs

/-- `pop` into the registers `rs`, one after the other. -/
def popRegs (s : Cpu) : List Reg → Cpu
  | [] => s
  | r :: rs => (s.pop r).popRegs rs

/-- The words an interrupt pushes, as they lie on the stack. -/
def intrFrame (s : Cpu) : List (BitVec 64) := [s.rip, s.cs, s.rflags, s.sp, s.ss]

/-- An interrupt whose gate names the handler and, through the IST, a stack. The
segment registers that the gate loads are read by nobody before `iretq`. -/
def interrupt (s : Cpu) (ist handler : BitVec 64) : Cpu :=
  ((s.set .rsp ist).pushAll [s.ss, s.sp, s.rflags, s.cs, s.rip]).jmp handler

/-- `iretq`. -/
def iretq (s : Cpu) : Cpu :=
  { s.set .rsp (ld s.mem (s.sp + 24)) with
    rip := ld s.mem s.sp
    cs := ld s.mem (s.sp + 8)
    rflags := ld s.mem (s.sp + 16)
    ss := ld s.mem (s.sp + 32) }

/-- What a compiled C function keeps by the calling convention, from its first
instruction in `s` to its return in `s'`: it returns to the address on the top of the
stack, which it takes off, it gives the callee-saved registers back, and below the
address `hi` it leaves its caller's part of the stack alone. -/
structure CCall (hi : Nat) (s s' : Cpu) : Prop where
  rip : s'.rip = ld s.mem s.sp
  sp : s'.sp = s.sp + 8
  saved : ∀ r ∈ calleeSaved, s'.reg r = s.reg r
  frame : ∀ x, s.sp.toNat + 8 ≤ x → x < hi → s'.mem x = s.mem x

end Cpu

/-! ## Quadwords in memory -/

theorem ld_st_same (m : ByteMem) (a v : BitVec 64) : ld (st m a v) a = v := by
  unfold ld st
  rw [ByteMem.read_write_same, show 256 ^ 8 = 2 ^ 64 from rfl, Nat.mod_eq_of_lt v.isLt,
    BitVec.ofNat_toNat, BitVec.setWidth_eq]

theorem ld_congr {m m' : ByteMem} {a : BitVec 64}
    (h : ∀ x, a.toNat ≤ x → x < a.toNat + 8 → m x = m' x) : ld m a = ld m' a := by
  unfold ld
  rw [ByteMem.read_congr 8 h]

theorem st_apply_out {m : ByteMem} {a v : BitVec 64} {x : Nat}
    (h : x < a.toNat ∨ a.toNat + 8 ≤ x) : st m a v x = m x :=
  ByteMem.write_apply_out h

/-! ## What an instruction leaves alone -/

namespace Cpu

section Fields

variable (s : Cpu) (r r' : Reg) (a v off : BitVec 64)

@[simp] theorem set_reg : (s.set r v).reg r' = if r' = r then v else s.reg r' := rfl
@[simp] theorem set_mem : (s.set r v).mem = s.mem := rfl
@[simp] theorem set_rip : (s.set r v).rip = s.rip := rfl
@[simp] theorem set_cr3 : (s.set r v).cr3 = s.cr3 := rfl
@[simp] theorem store_reg : (s.store a v).reg r = s.reg r := rfl
@[simp] theorem store_mem : (s.store a v).mem = st s.mem a v := rfl
@[simp] theorem store_cr3 : (s.store a v).cr3 = s.cr3 := rfl
@[simp] theorem jmp_reg : (s.jmp a).reg r = s.reg r := rfl
@[simp] theorem jmp_mem : (s.jmp a).mem = s.mem := rfl
@[simp] theorem jmp_rip : (s.jmp a).rip = a := rfl
@[simp] theorem jmp_cr3 : (s.jmp a).cr3 = s.cr3 := rfl
@[simp] theorem push_reg : (s.push v).reg r = if r = .rsp then s.sp - 8 else s.reg r := rfl
@[simp] theorem push_mem : (s.push v).mem = st s.mem (s.sp - 8) v := rfl
@[simp] theorem push_cr3 : (s.push v).cr3 = s.cr3 := rfl
@[simp] theorem call_reg : (s.call a v).reg r = if r = .rsp then s.sp - 8 else s.reg r := rfl
@[simp] theorem call_mem : (s.call a v).mem = st s.mem (s.sp - 8) v := rfl
@[simp] theorem call_rip : (s.call a v).rip = a := rfl
@[simp] theorem call_cr3 : (s.call a v).cr3 = s.cr3 := rfl
@[simp] theorem ret_reg : s.ret.reg r = if r = .rsp then s.sp + 8 else s.reg r := rfl
@[simp] theorem ret_mem : s.ret.mem = s.mem := rfl
@[simp] theorem ret_cr3 : s.ret.cr3 = s.cr3 := rfl
@[simp] theorem pop_mem : (s.pop r).mem = s.mem := rfl
@[simp] theorem pop_cr3 : (s.pop r).cr3 = s.cr3 := rfl
@[simp] theorem xchg_reg :
    (s.xchg off r).reg r' = if r' = r then ld s.mem (s.sp + off) else s.reg r' := rfl
@[simp] theorem xchg_mem : (s.xchg off r).mem = st s.mem (s.sp + off) (s.reg r) := rfl
@[simp] theorem xchg_cr3 : (s.xchg off r).cr3 = s.cr3 := rfl


theorem loadCr3_mem {shared : Nat → Bool} {x : Nat} (h : shared x = true)
    (spaces : BitVec 64 → ByteMem) : (s.loadCr3 shared spaces v).mem x = s.mem x := if_pos h

@[simp] theorem push_sp : (s.push v).sp = s.sp - 8 := rfl
@[simp] theorem call_sp : (s.call a v).sp = s.sp - 8 := rfl
@[simp] theorem ret_sp : s.ret.sp = s.sp + 8 := rfl

theorem set_sp (h : r ≠ .rsp) : (s.set r v).sp = s.sp := if_neg (Ne.symm h)

theorem xchg_sp (h : r ≠ .rsp) : (s.xchg off r).sp = s.sp := if_neg (Ne.symm h)

theorem pop_sp (h : r ≠ .rsp) : (s.pop r).sp = s.sp + 8 := if_neg (Ne.symm h)

theorem setLow_reg (v : BitVec 8) :
    (s.setLow r v).reg r' =
      if r' = r then (s.reg r &&& ~~~0xFF) ||| v.setWidth 64 else s.reg r' := rfl

@[simp] theorem setLow_mem (v : BitVec 8) : (s.setLow r v).mem = s.mem := rfl

@[simp] theorem low_setLow (v : BitVec 8) : (s.setLow r v).low r = v := by
  unfold low
  rw [setLow_reg, if_pos rfl, BitVec.setWidth_or, BitVec.setWidth_and,
    show (~~~0xFF : BitVec 64).setWidth 8 = 0#8 from rfl, BitVec.and_zero, BitVec.zero_or,
    BitVec.setWidth_setWidth_of_le _ (by omega), BitVec.setWidth_eq]

theorem pop_reg :
    (s.pop r).reg r' = if r' = r then ld s.mem s.sp else if r' = .rsp then s.sp + 8 else s.reg r' := by
  unfold pop
  by_cases hr : r' = r
  · simp [hr]
  · simp [hr]

end Fields

end Cpu

/-! ## The stack -/

/-- The words `ws` at address `a`, with an address left behind them. -/
def StackAt (m : ByteMem) : Nat → List (BitVec 64) → Prop
  | a, [] => a < 2 ^ 64
  | a, w :: ws => BitVec.ofNat 64 (m.read a 8) = w ∧ StackAt m (a + 8) ws

theorem StackAt.bound {m : ByteMem} : ∀ {ws : List (BitVec 64)} {a : Nat}, StackAt m a ws →
    a + 8 * ws.length < 2 ^ 64
  | [], _, h => by simpa [StackAt] using h
  | _ :: ws, a, h => by
    have ih := h.2.bound
    rw [List.length_cons]
    omega

/-- A stack depends on its own bytes only. -/
theorem StackAt.congr {m m' : ByteMem} : ∀ {ws : List (BitVec 64)} {a : Nat}, StackAt m a ws →
    (∀ x, a ≤ x → x < a + 8 * ws.length → m' x = m x) → StackAt m' a ws
  | [], _, hend, _ => hend
  | _ :: ws, a, h, heq => by
    refine ⟨?_, h.2.congr fun x hx hx' => heq x (by omega) (by rw [List.length_cons]; omega)⟩
    rw [ByteMem.read_congr 8 fun x hx hx' => heq x hx (by rw [List.length_cons]; omega)]
    exact h.1

theorem StackAt.append {m : ByteMem} : ∀ {ws vs : List (BitVec 64)} {a : Nat},
    StackAt m a (ws ++ vs) ↔ (StackAt m a ws ∧ StackAt m (a + 8 * ws.length) vs)
  | [], vs, a => by
    have hbound (h : StackAt m a vs) : a < 2 ^ 64 := by
      have := h.bound
      omega
    simp only [List.nil_append, StackAt, List.length_nil, Nat.mul_zero, Nat.add_zero]
    exact ⟨fun h => ⟨hbound h, h⟩, fun h => h.2⟩
  | w :: ws, vs, a => by
    simp only [List.cons_append, StackAt, List.length_cons]
    rw [StackAt.append, show a + 8 + 8 * ws.length = a + 8 * (ws.length + 1) by omega]
    exact and_assoc.symm

/-- The word at index `i`. -/
theorem StackAt.get {m : ByteMem} {ws : List (BitVec 64)} {a : BitVec 64} {i : Nat}
    (h : StackAt m a.toNat ws) (hi : i < ws.length) :
    ld m (a + BitVec.ofNat 64 (8 * i)) = ws[i] := by
  have hb := h.bound
  have hsplit : ws = ws.take i ++ ws[i] :: ws.drop (i + 1) := by
    rw [List.getElem_cons_drop, List.take_append_drop]
  rw [hsplit] at h
  have htail := (StackAt.append.mp h).2
  rw [List.length_take, Nat.min_eq_left (by omega)] at htail
  have haddr : (a + BitVec.ofNat 64 (8 * i)).toNat = a.toNat + 8 * i := by
    rw [BitVec.toNat_add, BitVec.toNat_ofNat]
    omega
  unfold ld
  rw [haddr]
  exact htail.1

namespace Cpu

/-- The words from the stack pointer on. -/
def Stack (s : Cpu) (ws : List (BitVec 64)) : Prop := StackAt s.mem s.sp.toNat ws

variable {s : Cpu} {ws : List (BitVec 64)} {w v : BitVec 64}

theorem sub_eight_toNat {a : BitVec 64} (h : 8 ≤ a.toNat) : (a - 8).toNat = a.toNat - 8 := by
  rw [BitVec.toNat_sub]
  have := a.isLt
  simp
  omega

theorem add_eight_toNat {a : BitVec 64} (h : a.toNat + 8 < 2 ^ 64) :
    (a + 8).toNat = a.toNat + 8 := by
  rw [BitVec.toNat_add]
  simp
  omega

theorem stack_head (h : s.Stack (w :: ws)) : ld s.mem s.sp = w := h.1

/-- A stack in shared memory stays what it is when `cr3` is loaded. -/
theorem stack_loadCr3 {shared : Nat → Bool} (h : s.Stack ws)
    (hs : ∀ x, s.sp.toNat ≤ x → x < s.sp.toNat + 8 * ws.length → shared x)
    (spaces : BitVec 64 → ByteMem) (v : BitVec 64) : (s.loadCr3 shared spaces v).Stack ws :=
  StackAt.congr h fun x hx hx' => loadCr3_mem s v (hs x hx hx') spaces

@[simp] theorem stack_jmp {a : BitVec 64} : (s.jmp a).Stack ws ↔ s.Stack ws := Iff.rfl

theorem stack_push (h : s.Stack ws) (hroom : 8 ≤ s.sp.toNat) (v : BitVec 64) :
    (s.push v).Stack (v :: ws) := by
  have hsp : (s.push v).sp.toNat = s.sp.toNat - 8 := by
    rw [push_sp]
    exact sub_eight_toNat hroom
  refine ⟨?_, ?_⟩
  · exact ld_st_same s.mem (s.sp - 8) v
  · rw [hsp, Nat.sub_add_cancel hroom]
    refine h.congr fun x hx _ => ?_
    rw [push_mem]
    exact st_apply_out (Or.inr (by rw [sub_eight_toNat hroom]; omega))

theorem sp_push (hroom : 8 ≤ s.sp.toNat) (v : BitVec 64) :
    (s.push v).sp.toNat = s.sp.toNat - 8 := by
  rw [push_sp]
  exact sub_eight_toNat hroom

theorem stack_call (h : s.Stack ws) (hroom : 8 ≤ s.sp.toNat) (f next : BitVec 64) :
    (s.call f next).Stack (next :: ws) :=
  stack_push h hroom next

theorem sp_call (hroom : 8 ≤ s.sp.toNat) (f next : BitVec 64) :
    (s.call f next).sp.toNat = s.sp.toNat - 8 :=
  sp_push hroom next

/-- The stack pointer above a word taken off. -/
theorem sp_tail (h : s.Stack (w :: ws)) : (s.sp + 8).toNat = s.sp.toNat + 8 := by
  have hb := StackAt.bound h
  rw [List.length_cons] at hb
  exact add_eight_toNat (by omega)

theorem stack_pop (h : s.Stack (w :: ws)) {r : Reg} (hr : r ≠ .rsp) : (s.pop r).Stack ws := by
  unfold Stack
  rw [pop_mem, pop_sp _ _ hr, sp_tail h]
  exact h.2

theorem stack_popf (h : s.Stack (w :: ws)) :
    s.popf.Stack ws ∧ s.popf.rflags = w ∧ (∀ r, r ≠ .rsp → s.popf.reg r = s.reg r) ∧
      s.popf.sp.toNat = s.sp.toNat + 8 := by
  have hsp : s.popf.sp = s.sp + 8 := rfl
  refine ⟨?_, h.1, fun r hr => if_neg hr, ?_⟩
  · unfold Stack
    rw [hsp, sp_tail h]
    exact h.2
  · rw [hsp, sp_tail h]

theorem stack_ret (h : s.Stack (w :: ws)) : s.ret.Stack ws ∧ s.ret.rip = w := by
  refine ⟨?_, h.1⟩
  unfold Stack
  rw [ret_mem, ret_sp, sp_tail h]
  exact h.2

/-- An exchange with the word at index `i` puts the register there. -/
theorem stack_xchg (h : s.Stack ws) {i : Nat} (hi : i < ws.length) {r : Reg} (hr : r ≠ .rsp) :
    (s.xchg (BitVec.ofNat 64 (8 * i)) r).Stack (ws.set i (s.reg r)) ∧
    (s.xchg (BitVec.ofNat 64 (8 * i)) r).reg r = ws[i] := by
  have hb := StackAt.bound h
  have haddr : (s.sp + BitVec.ofNat 64 (8 * i)).toNat = s.sp.toNat + 8 * i := by
    rw [BitVec.toNat_add, BitVec.toNat_ofNat]
    omega
  have hget := StackAt.get h hi
  refine ⟨?_, by rw [xchg_reg, if_pos rfl, hget]⟩
  have hlen : (ws.take i).length = i := by
    rw [List.length_take]
    omega
  have hset : ws.set i (s.reg r) = ws.take i ++ s.reg r :: ws.drop (i + 1) :=
    List.set_eq_take_append_cons_drop.trans (if_pos hi)
  have hsplit : ws = ws.take i ++ ws[i] :: ws.drop (i + 1) := by
    rw [List.getElem_cons_drop, List.take_append_drop]
  unfold Stack at h ⊢
  rw [hsplit] at h
  obtain ⟨hpre, hpost⟩ := StackAt.append.mp h
  rw [hlen] at hpost
  rw [hset, xchg_mem, xchg_sp _ _ _ hr]
  refine StackAt.append.mpr ⟨hpre.congr fun x hx hx' => ?_, ?_⟩
  · exact st_apply_out (Or.inl (by omega))
  · rw [hlen]
    refine ⟨?_, hpost.2.congr fun x hx hx' => ?_⟩
    · have hsame := ld_st_same s.mem (s.sp + BitVec.ofNat 64 (8 * i)) (s.reg r)
      unfold ld at hsame
      rw [haddr] at hsame
      exact hsame
    · exact st_apply_out (Or.inr (by omega))

/-! ## Rows of pushes and pops -/

/-- The pushed words lie on the stack in reverse order; all registers but the stack
pointer are as before, and so is the memory outside the pushed words. -/
theorem stack_pushAll : ∀ (vs : List (BitVec 64)) {s : Cpu} {ws : List (BitVec 64)}, s.Stack ws →
    8 * vs.length ≤ s.sp.toNat →
    (s.pushAll vs).Stack (vs.reverse ++ ws) ∧
    (s.pushAll vs).sp.toNat = s.sp.toNat - 8 * vs.length ∧
    (∀ r, r ≠ .rsp → (s.pushAll vs).reg r = s.reg r) ∧
    (∀ x, x < s.sp.toNat - 8 * vs.length ∨ s.sp.toNat ≤ x → (s.pushAll vs).mem x = s.mem x) ∧
    (s.pushAll vs).cr3 = s.cr3
  | [], _, _, h, _ => ⟨h, rfl, fun _ _ => rfl, fun _ _ => rfl, rfl⟩
  | v :: vs, s, ws, h, hroom => by
    rw [List.length_cons] at hroom
    have hsp := sp_push (s := s) (by omega) v
    have hone := stack_push h (by omega) v
    obtain ⟨hst, hsp', hreg, hmem, hcr3⟩ := stack_pushAll vs hone (by omega)
    refine ⟨?_, ?_, ?_, ?_, hcr3⟩
    · simpa [pushAll] using hst
    · rw [List.length_cons]
      simp only [pushAll]
      omega
    · intro r hr
      refine (hreg r hr).trans ?_
      rw [push_reg, if_neg hr]
    · intro x hx
      rw [List.length_cons] at hx
      refine (hmem x (by omega)).trans ?_
      rw [push_mem]
      exact st_apply_out (by rw [sub_eight_toNat (by omega)]; omega)

/-- No push changes another register, so a row of them pushes the values there were. -/
theorem pushRegs_eq_pushAll : ∀ (rs : List Reg) (s : Cpu), .rsp ∉ rs →
    s.pushRegs rs = s.pushAll (rs.map s.reg)
  | [], _, _ => rfl
  | r :: rs, s, hrsp => by
    obtain ⟨-, hrs⟩ : .rsp ≠ r ∧ .rsp ∉ rs := by simpa using hrsp
    have hmap : rs.map (s.push (s.reg r)).reg = rs.map s.reg := by
      refine List.map_congr_left fun r' hr' => ?_
      rw [push_reg, if_neg fun heq : r' = .rsp => hrs (heq ▸ hr')]
    rw [pushRegs, pushRegs_eq_pushAll _ _ hrs, hmap]
    rfl

/-- Popping words that the valuation `f` gives to the registers `rs` sets them to it. -/
theorem stack_popRegs (f : Reg → BitVec 64) : ∀ {rs : List Reg} {s : Cpu},
    s.Stack (rs.map f ++ ws) → .rsp ∉ rs →
    (s.popRegs rs).Stack ws ∧
    (s.popRegs rs).sp.toNat = s.sp.toNat + 8 * rs.length ∧
    (∀ r, r ≠ .rsp → (s.popRegs rs).reg r = if r ∈ rs then f r else s.reg r) ∧
    (s.popRegs rs).mem = s.mem ∧ (s.popRegs rs).cr3 = s.cr3
  | [], _, h, _ => ⟨h, rfl, fun _ _ => rfl, rfl, rfl⟩
  | r :: rs, s, h, hrsp => by
    obtain ⟨hr, hrs⟩ : .rsp ≠ r ∧ .rsp ∉ rs := by simpa using hrsp
    have hsp : (s.pop r).sp.toNat = s.sp.toNat + 8 := by
      rw [pop_sp _ _ (Ne.symm hr)]
      exact sp_tail h
    have hone : (s.pop r).Stack (rs.map f ++ ws) := stack_pop h (Ne.symm hr)
    obtain ⟨hst, hsp', hreg, hmem, hcr3⟩ := stack_popRegs f hone hrs
    refine ⟨hst, ?_, ?_, hmem, hcr3⟩
    · rw [List.length_cons]
      simp only [popRegs]
      omega
    · intro r' hr'
      refine (hreg r' hr').trans ?_
      rw [pop_reg, if_neg hr', stack_head h]
      by_cases hin : r' ∈ rs
      · simp [hin]
      · by_cases heq : r' = r
        · simp [heq]
        · simp [hin, heq]

/-! ## Interrupts -/

/-- An interrupt leaves its frame on the stack of the IST and nothing else. -/
theorem interrupt_spec (s : Cpu) (ist handler : BitVec 64) (hroom : 40 ≤ ist.toNat) :
    (s.interrupt ist handler).Stack s.intrFrame ∧
    (s.interrupt ist handler).sp.toNat = ist.toNat - 40 ∧
    (∀ r, r ≠ .rsp → (s.interrupt ist handler).reg r = s.reg r) ∧
    (∀ x, x < ist.toNat - 40 ∨ ist.toNat ≤ x → (s.interrupt ist handler).mem x = s.mem x) ∧
    (s.interrupt ist handler).cr3 = s.cr3 := by
  have hempty : (s.set .rsp ist).Stack [] := ist.isLt
  have hsp : (s.set .rsp ist).sp = ist := rfl
  obtain ⟨hst, hsp', hreg, hmem, hcr3⟩ :=
    stack_pushAll [s.ss, s.sp, s.rflags, s.cs, s.rip] hempty (by rw [hsp]; exact hroom)
  rw [hsp] at hsp' hmem
  refine ⟨hst, hsp', ?_, hmem, hcr3⟩
  intro r hr
  refine (hreg r hr).trans ?_
  rw [set_reg, if_neg hr]

/-- `iretq` takes its five registers from the frame on the stack. -/
theorem iretq_spec {rip cs rflags sp ss : BitVec 64} (h : s.Stack (rip :: cs :: rflags :: sp :: ss :: ws)) :
    s.iretq.intrFrame = [rip, cs, rflags, sp, ss] ∧
    (∀ r, r ≠ .rsp → s.iretq.reg r = s.reg r) ∧ s.iretq.mem = s.mem ∧ s.iretq.cr3 = s.cr3 := by
  have h0 : ld s.mem s.sp = rip := h.1
  have h1 : ld s.mem (s.sp + 8) = cs := StackAt.get h (i := 1) (by simp)
  have h2 : ld s.mem (s.sp + 16) = rflags := StackAt.get h (i := 2) (by simp)
  have h3 : ld s.mem (s.sp + 24) = sp := StackAt.get h (i := 3) (by simp)
  have h4 : ld s.mem (s.sp + 32) = ss := StackAt.get h (i := 4) (by simp)
  have hsp : s.iretq.sp = ld s.mem (s.sp + 24) := rfl
  refine ⟨?_, ?_, rfl, rfl⟩
  · rw [intrFrame, hsp, h3]
    show [ld s.mem s.sp, ld s.mem (s.sp + 8), ld s.mem (s.sp + 16), sp, ld s.mem (s.sp + 32)] = _
    rw [h0, h1, h2, h4]
  · intro r hr
    exact if_neg hr

end Cpu

end OS64.Lib.X86
