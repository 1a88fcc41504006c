import OS64.Lib.Lock

/-!
# The spinlock

`spinlock_acquire` pushes `%ax`, exchanges a zero with the byte of the lock until it finds a one
there, and pops; `spinlock_release` stores the one. Any number of processors run this code and
their sections, one instruction of one of them at a time (`SpinStep`).

The refinement is `SpinSystem.locked`: a processor is inside from the exchange that found the one
until it stores it again, wherever the code is by then. What follows from it is that at most one
processor is inside (`spinlock_excludes`), that sections act as if each were performed as a whole
(`spinlock_atomic`), and that a waiting processor can always get in (`spinlock_enters`).
-/

namespace OS64.X86

open OS64.Lib

/-- The instructions of the three routines; `(%rdi)` is the byte of the lock. -/
inductive SpinInstr
  | pushAx
  | xorAl
  | xchgAl
  | andAl
  | jz (target : Nat)
  | popAx
  | movOne
  | ret

/-- `spinlock_init`. -/
def spinlockInit : List SpinInstr := [.movOne, .ret]

/-- `spinlock_acquire`, with `lock` at index 1. -/
def spinlockAcquire : List SpinInstr :=
  [.pushAx, .xorAl, .xchgAl, .andAl, .jz 1, .popAx, .ret]

/-- `spinlock_release`. -/
def spinlockRelease : List SpinInstr := [.movOne, .ret]

/-- `%ax`, the zero flag and the processor's stack. -/
structure SpinRegs where
  ax : BitVec 16
  zf : Bool
  stack : List (BitVec 16)

/-- `%al`. -/
def SpinRegs.al (r : SpinRegs) : BitVec 8 := r.ax.setWidth 8

/-- Store into `%al`. -/
def SpinRegs.setAl (r : SpinRegs) (v : BitVec 8) : SpinRegs :=
  { r with ax := (r.ax &&& 0xFF00) ||| v.setWidth 16 }

/-- The byte of the lock, the registers and the index of the next instruction after one of them.
There is no next one after `ret`. -/
def SpinInstr.exec (ip : Nat) (lock : BitVec 8) (r : SpinRegs) :
    SpinInstr → BitVec 8 × SpinRegs × Option Nat
  | .pushAx => (lock, { r with stack := r.ax :: r.stack }, some (ip + 1))
  | .xorAl => (lock, { r.setAl 0 with zf := true }, some (ip + 1))
  | .xchgAl => (r.al, r.setAl lock, some (ip + 1))
  | .andAl => (lock, { r with zf := decide (r.al = 0) }, some (ip + 1))
  | .jz target => (lock, r, some (if r.zf then target else ip + 1))
  | .popAx =>
    match r.stack with
    | [] => (lock, r, some (ip + 1))
    | w :: ws => (lock, { r with ax := w, stack := ws }, some (ip + 1))
  | .movOne => (1, r, some (ip + 1))
  | .ret => (lock, r, none)

/-- The byte of the lock after `spinlock_init`. -/
def initByte (lock : BitVec 8) : BitVec 8 :=
  spinlockInit.foldl (fun l i => (i.exec 0 l ⟨0, false, []⟩).1) lock

/-- The code a processor is in: its own outside a section, with the result of the last one;
`spinlock_acquire` at an instruction, for a section; a section, with what is left of it; or
`spinlock_release` at an instruction. `ax` and `stack` are those of the call. -/
inductive SpinPlace (Op : Type) (Res : Op → Type) (α : Type)
  | outside (last : Option α)
  | acquire (ip : Nat) (ax : BitVec 16) (stack : List (BitVec 16)) (p : Prog Op Res α)
  | inside (q : Prog Op Res α)
  | release (ip : Nat) (a : α)

/-- A processor. -/
structure SpinCpu (Op : Type) (Res : Op → Type) (α : Type) where
  regs : SpinRegs
  place : SpinPlace Op Res α

/-- The byte of the lock, the data that sections work on and the processors. -/
structure SpinSystem (ι Op : Type) (Res : Op → Type) (α σ : Type) where
  lock : BitVec 8
  data : σ
  cpu : ι → SpinCpu Op Res α

section System

variable {ι Op : Type} {Res : Op → Type} {α σ : Type}

/-- After `spinlock_init`, with every processor in its own code. -/
def spinStart (lock : BitVec 8) (d : σ) (regs : ι → SpinRegs) : SpinSystem ι Op Res α σ :=
  ⟨initByte lock, d, fun i => ⟨regs i, .outside none⟩⟩

/-- A processor in `spinlock_acquire` that found the one. -/
def SpinRegs.found (r : SpinRegs) (ip : Nat) : Prop :=
  (ip = 3 ∧ r.al ≠ 0) ∨ (ip = 4 ∧ r.zf = false) ∨ 5 ≤ ip

instance (r : SpinRegs) (ip : Nat) : Decidable (r.found ip) := by
  unfold SpinRegs.found
  infer_instance

/-- Where a processor is with regard to the lock. -/
def SpinCpu.phase (c : SpinCpu Op Res α) : Phase Op Res α :=
  match c.place with
  | .outside r => .outside r
  | .acquire ip _ _ p => if c.regs.found ip then .inside p else .waiting p
  | .inside q => .inside q
  | .release 0 a => .inside (.ret a)
  | .release _ a => .outside (some a)

/-- The system as a lock with threads. -/
def SpinSystem.locked (s : SpinSystem ι Op Res α σ) : Locked ι Op Res α σ :=
  ⟨decide (s.lock = 1), s.data, fun i => (s.cpu i).phase⟩

variable [DecidableEq ι]

/-- One processor moved on. -/
def SpinSystem.put (s : SpinSystem ι Op Res α σ) (i : ι) (lock : BitVec 8) (d : σ)
    (c : SpinCpu Op Res α) : SpinSystem ι Op Res α σ :=
  ⟨lock, d, Function.update s.cpu i c⟩

/-- One instruction of one processor. Its own code and its sections use the registers freely. -/
inductive SpinStep (h : (o : Op) → σ → Res o × σ) (may : ι → Option α → Prog Op Res α → Prop) :
    SpinSystem ι Op Res α σ → SpinSystem ι Op Res α σ → Prop
  | own {s} (i : ι) (r : Option α) (regs : SpinRegs) (hc : (s.cpu i).place = .outside r) :
      SpinStep h may s (s.put i s.lock s.data ⟨regs, .outside r⟩)
  | callAcquire {s} (i : ι) (r : Option α) (p : Prog Op Res α) (hc : (s.cpu i).place = .outside r)
      (hmay : may i r p) :
      SpinStep h may s (s.put i s.lock s.data
        ⟨(s.cpu i).regs, .acquire 0 (s.cpu i).regs.ax (s.cpu i).regs.stack p⟩)
  | acquire {s} (i : ι) (ip : Nat) (ax : BitVec 16) (stack : List (BitVec 16)) (p : Prog Op Res α)
      (instr : SpinInstr) (hc : (s.cpu i).place = .acquire ip ax stack p)
      (hat : spinlockAcquire[ip]? = some instr) :
      SpinStep h may s (s.put i (instr.exec ip s.lock (s.cpu i).regs).1 s.data
        ⟨(instr.exec ip s.lock (s.cpu i).regs).2.1,
          match (instr.exec ip s.lock (s.cpu i).regs).2.2 with
          | some next => .acquire next ax stack p
          | none => .inside p⟩)
  | work {s} (i : ι) (o : Op) (next : Res o → Prog Op Res α) (regs : SpinRegs)
      (hc : (s.cpu i).place = .inside (.op o next)) :
      SpinStep h may s (s.put i s.lock (h o s.data).2 ⟨regs, .inside (next (h o s.data).1)⟩)
  | callRelease {s} (i : ι) (a : α) (hc : (s.cpu i).place = .inside (.ret a)) :
      SpinStep h may s (s.put i s.lock s.data ⟨(s.cpu i).regs, .release 0 a⟩)
  | release {s} (i : ι) (ip : Nat) (a : α) (instr : SpinInstr)
      (hc : (s.cpu i).place = .release ip a) (hat : spinlockRelease[ip]? = some instr) :
      SpinStep h may s (s.put i (instr.exec ip s.lock (s.cpu i).regs).1 s.data
        ⟨(instr.exec ip s.lock (s.cpu i).regs).2.1,
          match (instr.exec ip s.lock (s.cpu i).regs).2.2 with
          | some next => .release next a
          | none => .outside (some a)⟩)

end System

/-! ## The registers -/

section Regs

variable (r : SpinRegs) (v : BitVec 8)

@[simp] theorem setAl_al : (r.setAl v).al = v := by
  unfold SpinRegs.setAl SpinRegs.al
  dsimp only
  rw [BitVec.setWidth_or, BitVec.setWidth_and, show (0xFF00 : BitVec 16).setWidth 8 = 0#8 from rfl,
    BitVec.and_zero, BitVec.zero_or, BitVec.setWidth_setWidth_of_le _ (by omega),
    BitVec.setWidth_eq]

@[simp] theorem setAl_stack : (r.setAl v).stack = r.stack := rfl

end Regs

/-- What the registers hold at an instruction of `spinlock_acquire`. -/
def AcquireAt (ip : Nat) (ax : BitVec 16) (stack : List (BitVec 16)) (r : SpinRegs) : Prop :=
  match ip with
  | 0 => r.ax = ax ∧ r.stack = stack
  | 1 => r.stack = ax :: stack
  | 2 => r.stack = ax :: stack ∧ r.al = 0
  | 3 => r.stack = ax :: stack ∧ (r.al = 0 ∨ r.al = 1)
  | 4 => r.stack = ax :: stack
  | 5 => r.stack = ax :: stack
  | 6 => r.ax = ax ∧ r.stack = stack
  | _ => False

/-- How many instructions are left to a processor that finds the one at its next exchange. -/
def acquireLeft (ip : Nat) (r : SpinRegs) : Nat :=
  if r.found ip then 7 - ip
  else
    match ip with
    | 0 => 7
    | 1 => 6
    | 2 => 5
    | 3 => 9
    | 4 => 8
    | _ => 0

/-- One instruction of `spinlock_acquire` leaves the byte as it is, and the processor inside or not
as it was; the exchange that finds a one stores the zero and has the processor inside. With the one
to be found, there is less left to do. -/
theorem acquire_exec {ip : Nat} {ax : BitVec 16} {stack : List (BitVec 16)} {r : SpinRegs}
    {lock : BitVec 8} {instr : SpinInstr} (hat : spinlockAcquire[ip]? = some instr)
    (hr : AcquireAt ip ax stack r) (hlock : lock = 0 ∨ lock = 1) :
    (ip = 6 ∧ instr.exec ip lock r = (lock, r, none)) ∨
    ∃ next, (instr.exec ip lock r).2.2 = some next ∧
      AcquireAt next ax stack (instr.exec ip lock r).2.1 ∧
      (((instr.exec ip lock r).1 = lock ∧ ((instr.exec ip lock r).2.1.found next ↔ r.found ip)) ∨
        (¬ r.found ip ∧ lock = 1 ∧ (instr.exec ip lock r).1 = 0 ∧
          (instr.exec ip lock r).2.1.found next)) ∧
      (r.found ip ∨ lock = 1 → acquireLeft next (instr.exec ip lock r).2.1 < acquireLeft ip r) := by
  match ip, hat, hr with
  | 0, hat, hr =>
    cases hat
    obtain ⟨hax, hst⟩ := hr
    refine Or.inr ⟨1, rfl, ?_, Or.inl ⟨rfl, ?_⟩, ?_⟩
    · show r.ax :: r.stack = ax :: stack
      rw [hax, hst]
    · simp [SpinRegs.found]
    · simp [acquireLeft, SpinRegs.found]
  | 1, hat, hr =>
    cases hat
    refine Or.inr ⟨2, rfl, ⟨hr, setAl_al r 0⟩, Or.inl ⟨rfl, ?_⟩, ?_⟩
    · simp [SpinRegs.found]
    · simp [acquireLeft, SpinRegs.found]
  | 2, hat, hr =>
    cases hat
    obtain ⟨hst, hal⟩ := hr
    have hfound : (r.setAl lock).found 3 ↔ lock ≠ 0 := by
      simp [SpinRegs.found]
    have hbefore : ¬ r.found 2 := by
      simp [SpinRegs.found]
    have hal' : (r.setAl lock).al = 0 ∨ (r.setAl lock).al = 1 := by
      rw [setAl_al]
      exact hlock
    refine Or.inr ⟨3, rfl, ⟨hst, hal'⟩, ?_, ?_⟩
    · show (r.al = lock ∧ ((r.setAl lock).found 3 ↔ r.found 2)) ∨
        (¬ r.found 2 ∧ lock = 1 ∧ r.al = 0 ∧ (r.setAl lock).found 3)
      rw [hfound, hal]
      obtain hzero | hone := hlock
      · exact Or.inl ⟨hzero.symm, iff_of_false (fun hne => hne hzero) hbefore⟩
      · exact Or.inr ⟨hbefore, hone, rfl, by rw [hone]; decide⟩
    · intro hor
      obtain hin | hone := hor
      · exact absurd hin hbefore
      · have hin : (r.setAl lock).found 3 := hfound.mpr (by rw [hone]; decide)
        show acquireLeft 3 (r.setAl lock) < acquireLeft 2 r
        unfold acquireLeft
        rw [if_pos hin, if_neg hbefore]
        decide
  | 3, hat, hr =>
    cases hat
    have hfound : ({ r with zf := decide (r.al = 0) } : SpinRegs).found 4 ↔ r.found 3 := by
      simp [SpinRegs.found]
    refine Or.inr ⟨4, rfl, hr.1, Or.inl ⟨rfl, hfound⟩, fun _ => ?_⟩
    show acquireLeft 4 { r with zf := decide (r.al = 0) } < acquireLeft 3 r
    unfold acquireLeft
    by_cases hin : r.found 3
    · rw [if_pos (hfound.mpr hin), if_pos hin]
      decide
    · rw [if_neg (mt hfound.mp hin), if_neg hin]
      decide
  | 4, hat, hr =>
    cases hat
    by_cases hzf : r.zf = true
    · refine Or.inr ⟨1, ?_, hr, Or.inl ⟨rfl, ?_⟩, fun _ => ?_⟩
      · show some (if r.zf = true then 1 else 5) = some 1
        rw [if_pos hzf]
      · show r.found 1 ↔ r.found 4
        simp [SpinRegs.found, hzf]
      · show acquireLeft 1 r < acquireLeft 4 r
        simp [acquireLeft, SpinRegs.found, hzf]
    · refine Or.inr ⟨5, ?_, hr, Or.inl ⟨rfl, ?_⟩, fun _ => ?_⟩
      · show some (if r.zf = true then 1 else 5) = some 5
        rw [if_neg hzf]
      · show r.found 5 ↔ r.found 4
        simp [SpinRegs.found, Bool.eq_false_iff.mpr hzf]
      · show acquireLeft 5 r < acquireLeft 4 r
        simp [acquireLeft, SpinRegs.found, Bool.eq_false_iff.mpr hzf]
  | 5, hat, hr =>
    cases hat
    have hst : r.stack = ax :: stack := hr
    have hexec : SpinInstr.popAx.exec 5 lock r =
        (lock, { r with ax := ax, stack := stack }, some 6) := by
      unfold SpinInstr.exec
      rw [hst]
    rw [hexec]
    refine Or.inr ⟨6, rfl, ⟨rfl, rfl⟩, Or.inl ⟨rfl, ?_⟩, fun _ => ?_⟩
    · simp [SpinRegs.found]
    · simp [acquireLeft, SpinRegs.found]
  | 6, hat, hr =>
    cases hat
    exact Or.inl ⟨rfl, rfl⟩
  | _ + 7, hat, _ => cases hat

/-! ## The refinement -/

section Refine

variable {ι Op : Type} {Res : Op → Type} {α σ : Type} {h : (o : Op) → σ → Res o × σ}
  {may : ι → Option α → Prog Op Res α → Prop} {s s' : SpinSystem ι Op Res α σ}

/-- The phase of a processor by its place. -/
theorem phase_at {c : SpinCpu Op Res α} {f : SpinPlace Op Res α} (hc : c.place = f) :
    c.phase = SpinCpu.phase ⟨c.regs, f⟩ := by
  rw [← hc]

theorem phase_acquire (r : SpinRegs) (ip : Nat) (ax : BitVec 16) (stack : List (BitVec 16))
    (p : Prog Op Res α) :
    SpinCpu.phase ⟨r, .acquire ip ax stack p⟩ = if r.found ip then .inside p else .waiting p := rfl

/-- What holds of one processor at any time. -/
def SpinCpu.Ok (c : SpinCpu Op Res α) : Prop :=
  match c.place with
  | .acquire ip ax stack _ => AcquireAt ip ax stack c.regs
  | .release ip _ => ip ≤ 1
  | _ => True

/-- The byte is a zero or a one, and each processor is where its registers say. -/
structure SpinInv (s : SpinSystem ι Op Res α σ) : Prop where
  lock : s.lock = 0 ∨ s.lock = 1
  cpu : ∀ i, (s.cpu i).Ok

theorem spinInv_start (lock : BitVec 8) (d : σ) (regs : ι → SpinRegs) :
    SpinInv (spinStart lock d regs : SpinSystem ι Op Res α σ) where
  lock := Or.inr rfl
  cpu := fun _ => trivial

theorem locked_start (lock : BitVec 8) (d : σ) (regs : ι → SpinRegs) :
    (spinStart lock d regs : SpinSystem ι Op Res α σ).locked =
      ⟨true, d, fun _ => .outside none⟩ := rfl

variable [DecidableEq ι]

theorem SpinInv.put (hs : SpinInv s) {i : ι} {lock : BitVec 8} {d : σ} {c : SpinCpu Op Res α}
    (hlock : lock = 0 ∨ lock = 1) (hc : c.Ok) : SpinInv (s.put i lock d c) where
  lock := hlock
  cpu := by
    intro j
    unfold SpinSystem.put
    dsimp only
    by_cases hji : j = i
    · rw [hji, Function.update_self]
      exact hc
    · rw [Function.update_of_ne hji]
      exact hs.cpu j

theorem locked_put (i : ι) (lock : BitVec 8) (d : σ) (c : SpinCpu Op Res α) :
    (s.put i lock d c).locked =
      ⟨decide (lock = 1), d, Function.update s.locked.thread i c.phase⟩ := by
  have hthread : (fun j => (Function.update s.cpu i c j).phase) =
      Function.update s.locked.thread i c.phase := by
    funext j
    by_cases hji : j = i
    · rw [hji, Function.update_self, Function.update_self]
    · rw [Function.update_of_ne hji, Function.update_of_ne hji]
      rfl
  rw [← hthread]
  rfl

/-- A processor that is where it was. -/
theorem locked_put_same {i : ι} {c : SpinCpu Op Res α} (hc : c.phase = (s.cpu i).phase) :
    (s.put i s.lock s.data c).locked = s.locked := by
  rw [locked_put, hc, show (s.cpu i).phase = s.locked.thread i from rfl, Function.update_eq_self]
  rfl

/-- What an instruction is to the lock: nothing, or a step. -/
def Refines (h : (o : Op) → σ → Res o × σ) (may : ι → Option α → Prog Op Res α → Prop)
    (s s' : SpinSystem ι Op Res α σ) : Prop :=
  SpinInv s' ∧ (s'.locked = s.locked ∨ LockStep h may s.locked s'.locked)

theorem refines_same (hs : SpinInv s) {i : ι} {c : SpinCpu Op Res α} (hok : c.Ok)
    (hc : c.phase = (s.cpu i).phase) : Refines h may s (s.put i s.lock s.data c) :=
  ⟨hs.put hs.lock hok, Or.inl (locked_put_same hc)⟩

theorem refines_acquire (hs : SpinInv s) {i : ι} {ip : Nat} {ax : BitVec 16}
    {stack : List (BitVec 16)} {p : Prog Op Res α} {instr : SpinInstr}
    (hc : (s.cpu i).place = .acquire ip ax stack p) (hat : spinlockAcquire[ip]? = some instr) :
    Refines h may s (s.put i (instr.exec ip s.lock (s.cpu i).regs).1 s.data
      ⟨(instr.exec ip s.lock (s.cpu i).regs).2.1,
        match (instr.exec ip s.lock (s.cpu i).regs).2.2 with
        | some next => .acquire next ax stack p
        | none => .inside p⟩) := by
  have hok : AcquireAt ip ax stack (s.cpu i).regs := by
    have hcpu := hs.cpu i
    unfold SpinCpu.Ok at hcpu
    rwa [hc] at hcpu
  have hphase : (s.cpu i).phase = if (s.cpu i).regs.found ip then .inside p else .waiting p :=
    phase_at hc
  obtain ⟨hip, hexec⟩ | ⟨next, hnext, hat', heffect, -⟩ := acquire_exec hat hok hs.lock
  · -- `ret`
    rw [hexec]
    refine refines_same hs trivial ?_
    have hin : (s.cpu i).regs.found ip := Or.inr (Or.inr (by omega))
    rw [hphase, if_pos hin]
    rfl
  · rw [hnext]
    obtain ⟨hbyte, hfound⟩ | ⟨hbefore, hone, hbyte, hfound⟩ := heffect
    · rw [hbyte]
      refine refines_same hs hat' ?_
      rw [hphase]
      show (if _ then Phase.inside p else .waiting p) = _
      simp only [hfound]
    · -- the exchange that finds the one
      refine ⟨hs.put (by rw [hbyte]; exact Or.inl rfl) hat', Or.inr ?_⟩
      rw [locked_put, hbyte, phase_acquire, if_pos hfound]
      have hthread : s.locked.thread i = .waiting p := by
        show (s.cpu i).phase = _
        rw [hphase, if_neg hbefore]
      exact LockStep.take i p hthread (decide_eq_true hone)

theorem refines_release (hs : SpinInv s) {i : ι} {ip : Nat} {a : α} {instr : SpinInstr}
    (hc : (s.cpu i).place = .release ip a) (hat : spinlockRelease[ip]? = some instr) :
    Refines h may s (s.put i (instr.exec ip s.lock (s.cpu i).regs).1 s.data
      ⟨(instr.exec ip s.lock (s.cpu i).regs).2.1,
        match (instr.exec ip s.lock (s.cpu i).regs).2.2 with
        | some next => .release next a
        | none => .outside (some a)⟩) := by
  match ip, hat, hc with
  | 0, hat, hc =>
    cases hat
    refine ⟨hs.put (Or.inr rfl) (Nat.le_refl 1), Or.inr ?_⟩
    rw [locked_put]
    refine LockStep.leave i a ?_
    exact phase_at hc
  | 1, hat, hc =>
    cases hat
    exact refines_same hs trivial (phase_at hc).symm
  | _ + 2, hat, _ => cases hat

/-- Every instruction is nothing to the lock or a step of it. -/
theorem spin_step (hs : SpinInv s) (hstep : SpinStep h may s s') : Refines h may s s' := by
  cases hstep with
  | own i r regs hc => exact refines_same hs trivial (phase_at hc).symm
  | callAcquire i r p hc hmay =>
    refine ⟨hs.put hs.lock ⟨rfl, rfl⟩, Or.inr ?_⟩
    rw [locked_put]
    have hout : ¬ (s.cpu i).regs.found 0 := by
      simp [SpinRegs.found]
    rw [phase_acquire, if_neg hout]
    exact LockStep.ask i r p (phase_at hc) hmay
  | acquire i ip ax stack p instr hc hat => exact refines_acquire hs hc hat
  | work i o next regs hc =>
    refine ⟨hs.put hs.lock trivial, Or.inr ?_⟩
    rw [locked_put]
    exact LockStep.work i o next (phase_at hc)
  | callRelease i a hc => exact refines_same hs (Nat.zero_le 1) (phase_at hc).symm
  | release i ip a instr hc hat => exact refines_release hs hc hat

/-- Every run is a run of the lock. -/
theorem spin_run (hs : SpinInv s) (hrun : Relation.ReflTransGen (SpinStep h may) s s') :
    SpinInv s' ∧ Relation.ReflTransGen (LockStep h may) s.locked s'.locked := by
  induction hrun with
  | refl => exact ⟨hs, .refl⟩
  | tail _ hlast ih =>
    obtain ⟨hinv, hlock⟩ := spin_step ih.1 hlast
    refine ⟨hinv, ?_⟩
    obtain hsame | hnext := hlock
    · rw [hsame]
      exact ih.2
    · exact ih.2.tail hnext

theorem spin_matches {lock : BitVec 8} {d : σ} {regs : ι → SpinRegs}
    (hrun : Relation.ReflTransGen (SpinStep h may) (spinStart lock d regs) s) :
    SpinInv s ∧ ∃ a, Matches h s.locked a ∧
      Relation.ReflTransGen (WholeStep h may) ⟨d, fun _ => .outside none⟩ a := by
  obtain ⟨hinv, hlock⟩ := spin_run (spinInv_start lock d regs) hrun
  rw [locked_start] at hlock
  exact ⟨hinv, lock_refines (matches_start d) hlock⟩

/-- From the exchange that finds the one to the store that puts it back. -/
def SpinCpu.Holds (c : SpinCpu Op Res α) : Prop := ∃ q, c.phase = .inside q

/-! ## Getting in -/

/-- A state that `s` can go on to, with every processor but `i` where it is. -/
def Alone (h : (o : Op) → σ → Res o × σ) (may : ι → Option α → Prog Op Res α → Prop) (i : ι)
    (s s' : SpinSystem ι Op Res α σ) : Prop :=
  Relation.ReflTransGen (SpinStep h may) s s' ∧ SpinInv s' ∧ ∀ j, j ≠ i → s'.cpu j = s.cpu j

theorem Alone.head {i : ι} {lock : BitVec 8} {d : σ} {c : SpinCpu Op Res α} (hs : SpinInv s)
    (hstep : SpinStep h may s (s.put i lock d c))
    (hrest : SpinInv (s.put i lock d c) → Alone h may i (s.put i lock d c) s') :
    Alone h may i s s' := by
  obtain ⟨hrun, hinv, hothers⟩ := hrest (spin_step hs hstep).1
  refine ⟨hrun.head hstep, hinv, fun j hj => (hothers j hj).trans ?_⟩
  exact Function.update_of_ne hj _ _

theorem Alone.trans {i : ι} {s₁ s₂ s₃ : SpinSystem ι Op Res α σ} (h₁ : Alone h may i s₁ s₂)
    (h₂ : Alone h may i s₂ s₃) : Alone h may i s₁ s₃ :=
  ⟨h₁.1.trans h₂.1, h₂.2.1, fun j hj => (h₂.2.2 j hj).trans (h₁.2.2 j hj)⟩

theorem put_cpu (i : ι) (lock : BitVec 8) (d : σ) (c : SpinCpu Op Res α) :
    (s.put i lock d c).cpu i = c :=
  Function.update_self ..

/-- A processor alone gets in, where it has found the one or finds it next. -/
theorem acquire_alone {i : ι} {ip : Nat} {ax : BitVec 16} {stack : List (BitVec 16)}
    {p : Prog Op Res α} (hs : SpinInv s) (hc : (s.cpu i).place = .acquire ip ax stack p)
    (hget : (s.cpu i).regs.found ip ∨ s.lock = 1) :
    ∃ s', Alone h may i s s' ∧ (s'.cpu i).place = .inside p := by
  induction hn : acquireLeft ip (s.cpu i).regs using Nat.strongRecOn generalizing ip s with
  | ind n ih =>
    have hok : AcquireAt ip ax stack (s.cpu i).regs := by
      have hcpu := hs.cpu i
      unfold SpinCpu.Ok at hcpu
      rwa [hc] at hcpu
    obtain ⟨instr, hat⟩ : ∃ instr, spinlockAcquire[ip]? = some instr := by
      match ip, hok with
      | 0, _ | 1, _ | 2, _ | 3, _ | 4, _ | 5, _ | 6, _ => exact ⟨_, rfl⟩
    have hstep : SpinStep h may s _ := .acquire i ip ax stack p instr hc hat
    obtain ⟨-, hexec⟩ | ⟨next, hnext, -, heffect, hless⟩ := acquire_exec hat hok hs.lock
    · -- `ret`
      rw [hexec] at hstep
      refine ⟨_, Alone.head hs hstep fun hinv => ⟨.refl, hinv, fun _ _ => rfl⟩, ?_⟩
      rw [put_cpu]
    · rw [hnext] at hstep
      have hless' := hless hget
      rw [hn] at hless'
      have hget' : (instr.exec ip s.lock (s.cpu i).regs).2.1.found next ∨
          (instr.exec ip s.lock (s.cpu i).regs).1 = 1 := by
        obtain ⟨hbyte, hfound⟩ | ⟨-, -, -, hfound⟩ := heffect
        · rw [hbyte, hfound]
          exact hget
        · exact Or.inl hfound
      obtain ⟨s', halone, hin⟩ := ih _ hless' (spin_step hs hstep).1
        (congrArg SpinCpu.place (put_cpu i _ _ _)) (by rw [put_cpu]; exact hget')
        (by rw [put_cpu])
      exact ⟨s', Alone.head hs hstep fun _ => halone, hin⟩

/-- A processor in a section performs the rest of it and leaves. -/
theorem leave_alone {i : ι} (q : Prog Op Res α) (hs : SpinInv s)
    (hc : (s.cpu i).place = .inside q) : ∃ s', Alone h may i s s' ∧ s'.lock = 1 := by
  induction q generalizing s with
  | ret a =>
    have hcall : SpinStep h may s _ := .callRelease i a hc
    have hplace : ((s.put i s.lock s.data ⟨(s.cpu i).regs, .release 0 a⟩).cpu i).place =
        .release 0 a := congrArg SpinCpu.place (put_cpu i _ _ _)
    have hstore : SpinStep h may _ _ := .release i 0 a .movOne hplace rfl
    exact ⟨_, Alone.head hs hcall fun hinv => Alone.head hinv hstore fun hinv' =>
      ⟨.refl, hinv', fun _ _ => rfl⟩, rfl⟩
  | op o next ih =>
    have hwork : SpinStep h may s _ := .work i o next (s.cpu i).regs hc
    obtain ⟨s', halone, hone⟩ := ih (h o s.data).1 (spin_step hs hwork).1
      (congrArg SpinCpu.place (put_cpu i _ _ _))
    exact ⟨s', Alone.head hs hwork fun _ => halone, hone⟩

/-- The processor that holds the lock can give it back. -/
theorem holder_leaves {i : ι} (hs : SpinInv s) (hi : (s.cpu i).Holds) :
    ∃ s', Alone h may i s s' ∧ s'.lock = 1 := by
  obtain ⟨q, hq⟩ := hi
  cases hc : (s.cpu i).place with
  | outside r =>
    rw [phase_at hc] at hq
    cases hq
  | acquire ip ax stack p =>
    rw [phase_at hc, phase_acquire] at hq
    by_cases hfound : (s.cpu i).regs.found ip
    · obtain ⟨s₁, halone, hin⟩ := acquire_alone hs hc (Or.inl hfound)
      obtain ⟨s₂, halone', hone⟩ := leave_alone p halone.2.1 hin
      exact ⟨s₂, halone.trans halone', hone⟩
    · rw [if_neg hfound] at hq
      cases hq
  | inside q' => exact leave_alone q' hs hc
  | release ip a =>
    match ip, hc with
    | 0, hc =>
      have hstore : SpinStep h may s _ := .release i 0 a .movOne hc rfl
      exact ⟨_, Alone.head hs hstore fun hinv => ⟨.refl, hinv, fun _ _ => rfl⟩, rfl⟩
    | _ + 1, hc =>
      rw [phase_at hc] at hq
      cases hq

end Refine

/-! ## A counter -/

/-- A counter is read and written in two operations. -/
inductive CounterOp
  | load
  | store (v : Nat)

abbrev CounterOp.Res : CounterOp → Type
  | .load => Nat
  | .store _ => Unit

def counterExec : (o : CounterOp) → Nat → o.Res × Nat
  | .load, n => (n, n)
  | .store v, _ => ((), v)

/-- Count one on, and return what was there. -/
def increment : Prog CounterOp CounterOp.Res Nat :=
  .op .load fun n => .op (.store (n + 1)) fun _ => .ret n

/-- Two processors may increment the counter as often as they like. -/
def increments (_ : Bool) (_ : Option Nat) (p : Prog CounterOp CounterOp.Res Nat) : Prop :=
  p = increment

def counterStart : SpinSystem Bool CounterOp CounterOp.Res Nat Nat :=
  spinStart 0 0 fun _ => ⟨0x1234, false, []⟩

/-- Both ask for the lock, and one is inside. -/
theorem counter_contended : ∃ s,
    Relation.ReflTransGen (SpinStep counterExec increments) counterStart s ∧
    (s.cpu true).place = .inside increment ∧
    (s.cpu false).place = .acquire 0 0x1234 [] increment := by
  have h₁ : SpinStep counterExec increments counterStart _ :=
    .callAcquire false none increment rfl rfl
  have h₂ : SpinStep counterExec increments _ _ := .callAcquire true none increment
    (s := counterStart.put false 1 0 ⟨⟨0x1234, false, []⟩, .acquire 0 0x1234 [] increment⟩) rfl rfl
  have hinv := (spin_run (spinInv_start 0 0 _) (.tail (.single h₁) h₂)).1
  obtain ⟨s, halone, hin⟩ : ∃ s, Alone counterExec increments true _ s ∧
      (s.cpu true).place = .inside increment := acquire_alone hinv rfl (Or.inr rfl)
  refine ⟨s, (Relation.ReflTransGen.tail (.single h₁) h₂).trans halone.1, hin, ?_⟩
  rw [halone.2.2 false (by decide)]
  rfl

/-! ## What the lock is good for -/

section Results

variable {ι Op : Type} {Res : Op → Type} {α σ : Type} {h : (o : Op) → σ → Res o × σ}
  {may : ι → Option α → Prog Op Res α → Prop} {s : SpinSystem ι Op Res α σ} [DecidableEq ι]

/-- After `spinlock_init`, and however the processors' instructions are interleaved, at most one
processor holds the lock, the byte is a zero exactly while one does, and `spinlock_acquire` returns
with the `%ax` and the stack of the call. -/
theorem spinlock_excludes {lock : BitVec 8} {d : σ} {regs : ι → SpinRegs}
    (hrun : Relation.ReflTransGen (SpinStep h may) (spinStart lock d regs) s) :
    (∀ i j, (s.cpu i).Holds → (s.cpu j).Holds → i = j) ∧
      (s.lock = 0 ∨ s.lock = 1) ∧ (s.lock = 0 ↔ ∃ i, (s.cpu i).Holds) ∧
      ∀ i ax stack p, (s.cpu i).place = .acquire 6 ax stack p →
        (s.cpu i).regs.ax = ax ∧ (s.cpu i).regs.stack = stack := by
  obtain ⟨hinv, a, hm, -⟩ := spin_matches hrun
  refine ⟨?_, hinv.lock, ?_, ?_⟩
  · intro i j hi hj
    obtain ⟨q, hq⟩ := hi
    obtain ⟨q', hq'⟩ := hj
    exact hm.sole i j q q' hq hq'
  · constructor
    · intro hzero
      exact hm.held (decide_eq_false (by rw [hzero]; decide))
    · intro hheld
      obtain ⟨i, q, hq⟩ := hheld
      have hfree := of_decide_eq_false (hm.inside i q hq).1
      exact hinv.lock.resolve_right hfree
  · intro i ax stack p hc
    have hok := hinv.cpu i
    unfold SpinCpu.Ok at hok
    rw [hc] at hok
    exact hok

theorem spinlock_excludes_counter : ∃ s : SpinSystem Bool CounterOp CounterOp.Res Nat Nat,
    (s.cpu true).place = .inside increment ∧
    (∀ i j, (s.cpu i).Holds → (s.cpu j).Holds → i = j) ∧
      (s.lock = 0 ∨ s.lock = 1) ∧ (s.lock = 0 ↔ ∃ i, (s.cpu i).Holds) ∧
      ∀ i ax stack p, (s.cpu i).place = .acquire 6 ax stack p →
        (s.cpu i).regs.ax = ax ∧ (s.cpu i).regs.stack = stack := by
  obtain ⟨s, hrun, hin, -⟩ := counter_contended
  exact ⟨s, hin, spinlock_excludes hrun⟩

/-- Nobody can tell a run from one in which each section is performed as a whole: the results are
the same, and so are the data while the lock is free; while it is held, they are those of a section
begun. -/
theorem spinlock_atomic {lock : BitVec 8} {d : σ} {regs : ι → SpinRegs}
    (hrun : Relation.ReflTransGen (SpinStep h may) (spinStart lock d regs) s) :
    ∃ a : Whole ι Op Res α σ,
      Relation.ReflTransGen (WholeStep h may) ⟨d, fun _ => .outside none⟩ a ∧
      (s.lock = 1 → s.data = a.data) ∧
      (∀ i r, (s.cpu i).place = .outside r → a.thread i = .outside r) ∧
      ∀ i q, (s.cpu i).place = .inside q →
        ∃ p, a.thread i = .waiting p ∧ q.run h s.data = p.run h a.data := by
  obtain ⟨-, a, hm, hwhole⟩ := spin_matches hrun
  refine ⟨a, hwhole, fun hone => hm.data (decide_eq_true hone), ?_, ?_⟩
  · exact fun i r hc => hm.outside i r (phase_at hc)
  · exact fun i q hc => (hm.inside i q (phase_at hc)).2

theorem spinlock_atomic_counter : ∃ s : SpinSystem Bool CounterOp CounterOp.Res Nat Nat,
    (s.cpu true).place = .inside increment ∧
    ∃ a : Whole Bool CounterOp CounterOp.Res Nat Nat,
      Relation.ReflTransGen (WholeStep counterExec increments) ⟨0, fun _ => .outside none⟩ a ∧
      (s.lock = 1 → s.data = a.data) ∧
      (∀ i r, (s.cpu i).place = .outside r → a.thread i = .outside r) ∧
      ∀ i q, (s.cpu i).place = .inside q →
        ∃ p, a.thread i = .waiting p ∧ q.run counterExec s.data = p.run counterExec a.data := by
  obtain ⟨s, hrun, hin, -⟩ := counter_contended
  exact ⟨s, hin, spinlock_atomic hrun⟩

/-- There is no state in which a processor is shut out: whatever has happened, a processor in
`spinlock_acquire` can still get into its section. -/
theorem spinlock_enters {lock : BitVec 8} {d : σ} {regs : ι → SpinRegs}
    (hrun : Relation.ReflTransGen (SpinStep h may) (spinStart lock d regs) s) {i : ι} {ip : Nat}
    {ax : BitVec 16} {stack : List (BitVec 16)} {p : Prog Op Res α}
    (hc : (s.cpu i).place = .acquire ip ax stack p) :
    ∃ s', Relation.ReflTransGen (SpinStep h may) s s' ∧ (s'.cpu i).place = .inside p := by
  obtain ⟨hinv, a, hm, -⟩ := spin_matches hrun
  by_cases hget : (s.cpu i).regs.found ip ∨ s.lock = 1
  · obtain ⟨s', halone, hin⟩ := acquire_alone hinv hc hget
    exact ⟨s', halone.1, hin⟩
  · obtain ⟨hout, htaken⟩ := not_or.mp hget
    -- somebody else holds the lock, leaves, and nothing else happens meanwhile
    obtain ⟨j, q, hj⟩ := hm.held (decide_eq_false htaken)
    have hij : i ≠ j := by
      intro heq
      subst heq
      have hq : (s.cpu i).phase = .inside q := hj
      rw [phase_at hc, phase_acquire, if_neg hout] at hq
      cases hq
    obtain ⟨s₁, halone, hone⟩ : ∃ s₁, Alone h may j s s₁ ∧ s₁.lock = 1 :=
      holder_leaves hinv ⟨q, hj⟩
    have hc₁ : (s₁.cpu i).place = .acquire ip ax stack p := by
      rw [halone.2.2 i hij]
      exact hc
    obtain ⟨s₂, halone', hin⟩ := acquire_alone halone.2.1 hc₁ (Or.inr hone)
    exact ⟨s₂, halone.1.trans halone'.1, hin⟩

theorem spinlock_enters_counter : ∃ s s' : SpinSystem Bool CounterOp CounterOp.Res Nat Nat,
    (s.cpu true).place = .inside increment ∧
    (s.cpu false).place = .acquire 0 0x1234 [] increment ∧
    Relation.ReflTransGen (SpinStep counterExec increments) s s' ∧
    (s'.cpu false).place = .inside increment := by
  obtain ⟨s, hrun, hin, hwaits⟩ := counter_contended
  obtain ⟨s', hrun', hin'⟩ := spinlock_enters hrun hwaits
  exact ⟨s, s', hin, hwaits, hrun', hin'⟩

end Results

end OS64.X86
