import OS64.Kernel.Task
import OS64.X86.Regs

/-!
# Tasks in memory (`kernel/task.h`, `x86_64/regs.h`)

The packed layout of `task` and `all_regs`: `taskAt` reads the record at an address,
`allRegsAt` a register frame. The frame is also the stack picture that the interrupt
stubs work on, which `allRegsAt_stack` and `stack_allRegsAt` say in the two
directions.
-/

namespace OS64.Kernel

open OS64.Lib OS64.Lib.X86 OS64.X86

/-- `sizeof(task)`. -/
def sizeofTask : Nat := 285

/-- The quadword at offset `n` of the structure at `a`. -/
def quad (m : ByteMem) (a : Addr) (n : Nat) : BitVec 64 := ld m (a + BitVec.ofNat 64 n)

/-- The `all_regs` at `a`. -/
def allRegsAt (m : ByteMem) (a : Addr) : AllRegs where
  c :=
    { r9 := quad m a 0
      r8 := quad m a 8
      rbp := quad m a 16
      rdi := quad m a 24
      rsi := quad m a 32
      rdx := quad m a 40
      rcx := quad m a 48
      rbx := quad m a 56
      rax := quad m a 64 }
  reg1 := quad m a 72
  i :=
    { rip := quad m a 80
      cs := quad m a 88
      rflags := quad m a 96
      rsp := quad m a 104
      ss := quad m a 112 }

/-- The byte `state` of the task at `a`. -/
def stateAt (m : ByteMem) (a : Addr) : BitVec 8 := m (a + BitVec.ofNat 64 144).toNat

/-- The `task` at `a`. -/
def taskAt (m : ByteMem) (a : Addr) : Task where
  pid := quad m a 0
  r := allRegsAt m (regsAddr a)
  next := quad m a 136
  state := stateAt m a
  tls := quad m a 149
  files := fun i => quad m a (157 + 8 * i.val)

theorem taskAt_pid (m : ByteMem) (a : Addr) : (taskAt m a).pid = quad m a 0 := rfl
theorem taskAt_next (m : ByteMem) (a : Addr) : (taskAt m a).next = quad m a 136 := rfl
theorem taskAt_state (m : ByteMem) (a : Addr) : (taskAt m a).state = stateAt m a := rfl

/-- The words of a frame, in their order in memory. -/
def AllRegs.words (r : AllRegs) : List (BitVec 64) :=
  [r.c.r9, r.c.r8, r.c.rbp, r.c.rdi, r.c.rsi, r.c.rdx, r.c.rcx, r.c.rbx, r.c.rax, r.reg1,
    r.i.rip, r.i.cs, r.i.rflags, r.i.rsp, r.i.ss]

/-- What a task finds in the processor: all it has to find again when it is resumed. -/
structure Context where
  reg : Reg → BitVec 64
  rip : BitVec 64
  cs : BitVec 64
  rflags : BitVec 64
  ss : BitVec 64
  cr3 : BitVec 64

/-- The context of the task on the processor. -/
def contextOf (s : Cpu) : Context := ⟨s.reg, s.rip, s.cs, s.rflags, s.ss, s.cr3⟩

/-- The part of a context that an `all_regs` holds. -/
def Context.frame (x : Context) : AllRegs where
  c :=
    { r9 := x.reg .r9
      r8 := x.reg .r8
      rbp := x.reg .rbp
      rdi := x.reg .rdi
      rsi := x.reg .rsi
      rdx := x.reg .rdx
      rcx := x.reg .rcx
      rbx := x.reg .rbx
      rax := x.reg .rax }
  reg1 := x.cr3
  i :=
    { rip := x.rip
      cs := x.cs
      rflags := x.rflags
      rsp := x.reg .rsp
      ss := x.ss }

theorem frame_words (x : Context) :
    x.frame.words = commRegs.map x.reg ++ x.cr3 :: [x.rip, x.cs, x.rflags, x.reg .rsp, x.ss] := rfl

theorem add_toNat {a : Addr} {n : Nat} (h : a.toNat + n < 2 ^ 64) :
    (a + BitVec.ofNat 64 n).toNat = a.toNat + n := by
  rw [BitVec.toNat_add, BitVec.toNat_ofNat]
  omega

theorem regsAddr_toNat {a : Addr} (ha : a.toNat + sizeofTask ≤ 2 ^ 64) :
    (regsAddr a).toNat = a.toNat + 8 := by
  unfold sizeofTask at ha
  exact add_toNat (n := 8) (by omega)

theorem quad_congr {m m' : ByteMem} {a : Addr} {n : Nat} (ha : a.toNat + n < 2 ^ 64)
    (h : ∀ x, a.toNat + n ≤ x → x < a.toNat + n + 8 → m' x = m x) : quad m' a n = quad m a n := by
  refine ld_congr fun x hx hx' => ?_
  rw [add_toNat ha] at hx hx'
  exact h x hx hx'

theorem quad_zero (m : ByteMem) (a : Addr) : quad m a 0 = ld m a := by
  unfold quad
  rw [show a + BitVec.ofNat 64 0 = a by simp]

/-- A frame depends on its 120 bytes. -/
theorem allRegsAt_congr {m m' : ByteMem} {a : Addr} (ha : a.toNat + 120 ≤ 2 ^ 64)
    (h : ∀ x, a.toNat ≤ x → x < a.toNat + 120 → m' x = m x) : allRegsAt m' a = allRegsAt m a := by
  have hquad : ∀ n, n ≤ 112 → quad m' a n = quad m a n := fun n hn =>
    quad_congr (by omega) fun x hx hx' => h x (by omega) (by omega)
  unfold allRegsAt
  rw [hquad 0 (by omega), hquad 8 (by omega), hquad 16 (by omega), hquad 24 (by omega),
    hquad 32 (by omega), hquad 40 (by omega), hquad 48 (by omega), hquad 56 (by omega),
    hquad 64 (by omega), hquad 72 (by omega), hquad 80 (by omega), hquad 88 (by omega),
    hquad 96 (by omega), hquad 104 (by omega), hquad 112 (by omega)]

/-- A task depends on its own bytes. -/
theorem taskAt_congr {m m' : ByteMem} {a : Addr} (ha : a.toNat + sizeofTask ≤ 2 ^ 64)
    (h : ∀ x, a.toNat ≤ x → x < a.toNat + sizeofTask → m' x = m x) : taskAt m' a = taskAt m a := by
  have hregs := regsAddr_toNat ha
  unfold sizeofTask at ha h
  have hquad : ∀ n, n ≤ 277 → quad m' a n = quad m a n := fun n hn =>
    quad_congr (by omega) fun x hx hx' => h x (by omega) (by omega)
  have hr : allRegsAt m' (regsAddr a) = allRegsAt m (regsAddr a) :=
    allRegsAt_congr (by omega) fun x hx hx' => h x (by omega) (by omega)
  have hstate : stateAt m' a = stateAt m a := by
    have haddr := add_toNat (a := a) (n := 144) (by omega)
    exact h _ (by omega) (by omega)
  have hfiles : ∀ i : Fin maxOpenFiles, quad m' a (157 + 8 * i.val) = quad m a (157 + 8 * i.val) := by
    intro i
    have hi : i.val < 16 := i.isLt
    exact hquad _ (by omega)
  unfold taskAt
  rw [hquad 0 (by omega), hr, hstate, hquad 136 (by omega), hquad 149 (by omega)]
  simp only [hfiles]

/-- Fifteen words on the stack, read as an `all_regs`. -/
theorem allRegsAt_stack {m : ByteMem} {a : Addr} {r : AllRegs} {ws : List (BitVec 64)}
    (h : StackAt m a.toNat (r.words ++ ws)) : allRegsAt m a = r := by
  have hget : ∀ (i : Nat) (hi : i < r.words.length), quad m a (8 * i) = r.words[i] := by
    intro i hi
    have hlen : i < (r.words ++ ws).length := by
      rw [List.length_append]
      exact Nat.lt_add_right _ hi
    exact (StackAt.get h hlen).trans (List.getElem_append_left hi)
  have hlen : r.words.length = 15 := rfl
  unfold allRegsAt
  rw [hget 0 (by omega), hget 1 (by omega), hget 2 (by omega), hget 3 (by omega),
    hget 4 (by omega), hget 5 (by omega), hget 6 (by omega), hget 7 (by omega),
    hget 8 (by omega), hget 9 (by omega), hget 10 (by omega), hget 11 (by omega),
    hget 12 (by omega), hget 13 (by omega), hget 14 (by omega)]
  rfl

/-- An `all_regs` in memory is fifteen words of stack. -/
theorem stack_allRegsAt {m : ByteMem} {a : Addr} (ha : a.toNat + 120 < 2 ^ 64) :
    StackAt m a.toNat (allRegsAt m a).words := by
  have hword : ∀ i, i ≤ 14 → BitVec.ofNat 64 (m.read (a.toNat + 8 * i) 8) = quad m a (8 * i) := by
    intro i hi
    unfold quad ld
    rw [add_toNat (by omega)]
  have hend : a.toNat + 8 * 15 < 2 ^ 64 := by omega
  exact ⟨hword 0 (by omega), hword 1 (by omega), hword 2 (by omega), hword 3 (by omega),
    hword 4 (by omega), hword 5 (by omega), hword 6 (by omega), hword 7 (by omega),
    hword 8 (by omega), hword 9 (by omega), hword 10 (by omega), hword 11 (by omega),
    hword 12 (by omega), hword 13 (by omega), hword 14 (by omega), hend⟩

/-- Tasks with the same fields. -/
theorem task_eq {t t' : Task} (h : t.pid = t'.pid ∧ t.r = t'.r ∧ t.next = t'.next ∧
    t.state = t'.state ∧ t.tls = t'.tls ∧ ∀ i, t.files i = t'.files i) : t = t' := by
  obtain ⟨hpid, hr, hnext, hstate, htls, hfiles⟩ := h
  cases t
  cases t'
  rw [Task.mk.injEq]
  exact ⟨hpid, hr, hnext, hstate, htls, funext hfiles⟩

end OS64.Kernel
