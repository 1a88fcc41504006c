import OS64.Lib.Bits
import OS64.Lib.X86
import OS64.X86.Pic
import OS64.X86.Tss

/-!
# The interrupt table (`x86_64/intr.c`)

`intr_install` writes the sixteen bytes of a gate, `intr_setup` the ten that `lidt` reads, and
`intr_init` installs four gates and sets the controllers up. Behind it the kernel calls
`ext_intr_install`, `mask_irq` and `unmask_irq`.

A table of handlers is what this is for: `Vectors`. `IdtHolds` says that the processor finds such a
table in memory, where it reads the bytes of a gate by its own layout (`gateAt`), and
`intrCalls_hold` that it does in every run.

Mirroring notes:
- `IDT` is in memory that is zero at first, so a gate that nobody has installed is not present.
- `IDT_addr` is `&IDT[0]` from `intr_init` on.
- `intr_disable` and `intr_enable` around `intr_init` are not part of this.
-/

namespace OS64.X86

open OS64.Lib OS64.Lib.X86
open OS64.Kernel (maxCpuNr)

/-! ## The processor -/

/-- What the processor finds in the sixteen bytes of a gate. `access` has the type, the privilege
level and bit 7 for a gate that is present. -/
structure Gate where
  offset : BitVec 64
  selector : BitVec 16
  ist : BitVec 3
  access : BitVec 8
  deriving DecidableEq

/-- The gate at `a`. -/
def gateAt (m : ByteMem) (a : Nat) : Gate where
  offset := m (a + 11) ++ m (a + 10) ++ m (a + 9) ++ m (a + 8) ++ m (a + 7) ++ m (a + 6) ++
    m (a + 1) ++ m a
  selector := m (a + 3) ++ m (a + 2)
  ist := (m (a + 4)).extractLsb' 0 3
  access := m (a + 5)

namespace Gate

/-- Bit 7. -/
def present (g : Gate) : Bool := g.access.getLsbD 7

/-- The privilege level from which `int` may use the gate. -/
def dpl (g : Gate) : BitVec 2 := g.access.extractLsb' 5 2

end Gate

/-- What `lidt` loads. -/
structure Idtr where
  limit : BitVec 16
  base : BitVec 64

/-- `lidt` of the ten bytes at `a`. -/
def lidt (m : ByteMem) (a : Nat) : Idtr where
  limit := BitVec.ofNat 16 (m.read a 2)
  base := BitVec.ofNat 64 (m.read (a + 2) 8)

/-- The gate of a vector, where the limit covers it and it is present. -/
def Idtr.gate (r : Idtr) (m : ByteMem) (v : BitVec 8) : Option Gate :=
  if 16 * v.toNat + 15 ≤ r.limit.toNat ∧ (gateAt m (r.base.toNat + 16 * v.toNat)).present then
    some (gateAt m (r.base.toNat + 16 * v.toNat))
  else none

/-- The gate that `int` finds in a program. -/
def Idtr.intGate (r : Idtr) (m : ByteMem) (v : BitVec 8) : Option Gate :=
  (r.gate m v).filter fun g => g.dpl == 3

/-! ## The functions -/

/-- `INTR_PRESENT|INTR_INTR_GATE`. -/
def intrGate : BitVec 8 := 0x80 ||| 0x0E

/-- `INTR_DPL3`. -/
def intrDpl3 : BitVec 8 := 0x60

/-- `SYS_CODE_SELECTOR`. -/
def sysCodeSelector : BitVec 16 := 0x8

/-- `SYS_IST`. -/
def sysIst : BitVec 8 := 1

/-- `PAGE_IST`. -/
def pageIst : BitVec 8 := 2

/-- `CALL_IST`. -/
def callIst : BitVec 8 := 3

/-- The array `b` of `intr_install`. -/
def intrBytes (func : BitVec 64) (type ist : BitVec 8) (selector : BitVec 16) : List (BitVec 8) :=
  [(func &&& 0x00000000000000FF).setWidth 8,
    ((func &&& 0x000000000000FF00) >>> 8).setWidth 8,
    (selector &&& 0xFF).setWidth 8,
    (selector >>> 8).setWidth 8,
    ist &&& 0x07,
    type &&& 0xFF,
    ((func &&& 0x0000000000FF0000) >>> 16).setWidth 8,
    ((func &&& 0x00000000FF000000) >>> 24).setWidth 8,
    ((func &&& 0x000000FF00000000) >>> 32).setWidth 8,
    ((func &&& 0x0000FF0000000000) >>> 40).setWidth 8,
    ((func &&& 0x00FF000000000000) >>> 48).setWidth 8,
    ((func &&& 0xFF00000000000000) >>> 56).setWidth 8,
    0x00, 0x00, 0x00, 0x00]

/-- The loop of `intr_install`, from byte `i` on. -/
def installLoop (dst : Nat) : List (BitVec 8) → Nat → ByteMem → ByteMem
  | [], _, m => m
  | b :: bs, i, m => installLoop dst bs (i + 1) fun x => if x = dst + i then b else m x

/-- Where the table, the operand of `lidt` and the handlers of `intr_init` are, and the
task-state segments, which are in none of them. -/
structure IdtImage extends TssImage where
  idt : BitVec 64
  idtReg : BitVec 64
  timerIntr : BitVec 64
  kbdIntr : BitVec 64
  pageFault : BitVec 64
  syscallHandler : BitVec 64
  reg_apart : idt.toNat + 4096 ≤ idtReg.toNat ∨ idtReg.toNat + 16 ≤ idt.toNat
  tss_idt : intrTss.toNat + 104 * maxCpuNr ≤ idt.toNat ∨ idt.toNat + 4096 ≤ intrTss.toNat
  tss_reg : intrTss.toNat + 104 * maxCpuNr ≤ idtReg.toNat ∨ idtReg.toNat + 16 ≤ intrTss.toNat

/-- The memory, and what the processor and the controllers have loaded. -/
structure IntrHw where
  mem : ByteMem
  idtr : Idtr
  pic : PicPair

section Code

variable (img : IdtImage)

/-- `intr_install`. -/
def intrInstall (m : ByteMem) (vector : BitVec 8) (func : BitVec 64) (type ist : BitVec 8)
    (selector : BitVec 16) : ByteMem :=
  installLoop (img.idt.toNat + vector.toNat * 16) (intrBytes func type ist selector) 0 m

/-- `s_intr_install`. -/
def sIntrInstall (m : ByteMem) (vector : BitVec 8) (func : BitVec 64) (type : BitVec 8) : ByteMem :=
  intrInstall img m vector func type sysIst sysCodeSelector

/-- `ext_intr_install`. -/
def extIntrInstall (m : ByteMem) (vector : BitVec 8) (func : BitVec 64) : ByteMem :=
  sIntrInstall img m vector func intrGate

/-- `intr_setup`. -/
def intrSetup (s : IntrHw) : IntrHw :=
  let m := (s.mem.write img.idtReg.toNat 2 (256 * 16 - 1)).write (img.idtReg.toNat + 2) 8
    img.idt.toNat
  ⟨m, lidt m img.idtReg.toNat, picSetup s.pic⟩

/-- The gates of `intr_init`. -/
def initGates (m : ByteMem) : ByteMem :=
  let m := sIntrInstall img m 0x20 img.timerIntr intrGate
  let m := sIntrInstall img m 0x21 img.kbdIntr intrGate
  let m := intrInstall img m 0x0E img.pageFault intrGate pageIst sysCodeSelector
  intrInstall img m 0x80 img.syscallHandler (intrGate ||| intrDpl3) callIst sysCodeSelector

/-- `intr_init`. -/
def intrInit (bus : BitVec 16 → BitVec 8) (s : IntrHw) : IntrHw :=
  let s := intrSetup img { s with mem := initGates img s.mem }
  { s with pic := picMasks bus s.pic }

/-- The calls behind `intr_init`. -/
inductive IntrCall
  | install (vector : BitVec 8) (func : BitVec 64)
  | irq (c : IrqCall)

/-- What a call does. -/
def idtCall (bus : BitVec 16 → BitVec 8) (s : IntrHw) : IntrCall → IntrHw
  | .install vector func => { s with mem := extIntrInstall img s.mem vector func }
  | .irq c => { s with pic := irqCall bus s.pic c }

end Code

/-! ## The table of handlers -/

/-- A handler with its interrupt stack, and whether programs may call it. -/
structure Handler where
  func : BitVec 64
  ist : BitVec 3
  user : Bool
  deriving DecidableEq

/-- Which handler there is for a vector. -/
abbrev Vectors := BitVec 8 → Option Handler

/-- The gate of a handler. -/
def Handler.gate (e : Handler) : Gate :=
  ⟨e.func, 0x8, e.ist, if e.user then 0xEE else 0x8E⟩

/-- The table behind `intr_init`. -/
def initVectors (img : IdtImage) : Vectors := fun v =>
  if v = 0x80 then some ⟨img.syscallHandler, 3, true⟩
  else if v = 0x0E then some ⟨img.pageFault, 2, false⟩
  else if v = 0x21 then some ⟨img.kbdIntr, 1, false⟩
  else if v = 0x20 then some ⟨img.timerIntr, 1, false⟩
  else none

/-- What a call is to do to the table. -/
def vectorCall (t : Vectors) : IntrCall → Vectors
  | .install vector func => Function.update t vector (some ⟨func, 1, false⟩)
  | .irq _ => t

/-- The gates in the table, of which only the handlers of `t` are present. -/
def HoldsGates (m : ByteMem) (base : Nat) (t : Vectors) : Prop :=
  ∀ v, match t v with
    | none => (gateAt m (base + 16 * v.toNat)).access = 0
    | some e => gateAt m (base + 16 * v.toNat) = e.gate

/-- The processor has the table, it is in memory, and the task-state segments are as
`tss_init_common` has left them. -/
structure IdtHolds (img : IdtImage) (s : IntrHw) (t : Vectors) : Prop where
  idtr : s.idtr = ⟨4095, img.idt⟩
  gates : HoldsGates s.mem img.idt.toNat t
  segments : ∃ m, ∀ x, img.intrTss.toNat ≤ x → x < img.intrTss.toNat + 104 * maxCpuNr →
    s.mem x = tssInitCommon img.toTssImage m x

/-! ## One gate -/

/-- A byte of a word by mask and shift. -/
theorem masked_byte {n k : Nat} (x m : BitVec n) (hn : 8 ≤ n)
    (h : m.extractLsb' k 8 = BitVec.allOnes 8) :
    ((x &&& m) >>> k).setWidth 8 = x.extractLsb' k 8 := by
  rw [BitVec.setWidth_eq_extractLsb' hn, extract_shiftRight, Nat.add_zero, extract_and_ones h]

/-- The bytes of an address are put together again. -/
theorem bytes_append (x : BitVec 64) :
    x.extractLsb' 56 8 ++ x.extractLsb' 48 8 ++ x.extractLsb' 40 8 ++ x.extractLsb' 32 8 ++
      x.extractLsb' 24 8 ++ x.extractLsb' 16 8 ++ x.extractLsb' 8 8 ++ x.extractLsb' 0 8 = x := by
  apply BitVec.eq_of_getLsbD_eq
  intro i hi
  simp only [BitVec.getLsbD_append, BitVec.getLsbD_extractLsb']
  grind

/-- So are the two of a selector. -/
theorem halves_append (x : BitVec 16) : x.extractLsb' 8 8 ++ x.extractLsb' 0 8 = x := by
  apply BitVec.eq_of_getLsbD_eq
  intro i hi
  simp only [BitVec.getLsbD_append, BitVec.getLsbD_extractLsb']
  grind

theorem installLoop_apply (dst x : Nat) : ∀ (bs : List (BitVec 8)) (i : Nat) (m : ByteMem),
    installLoop dst bs i m x =
      if dst + i ≤ x ∧ x < dst + i + bs.length then bs.getD (x - (dst + i)) 0 else m x := by
  intro bs
  induction bs with
  | nil =>
    intro i m
    rw [if_neg (by rw [List.length_nil]; omega)]
    rfl
  | cons b bs ih =>
    intro i m
    rw [installLoop, ih, List.length_cons]
    by_cases hx : x = dst + i
    · rw [if_neg (by omega), if_pos hx, if_pos (by omega), hx, Nat.sub_self]
      rfl
    · by_cases hin : dst + (i + 1) ≤ x ∧ x < dst + (i + 1) + bs.length
      · rw [if_pos hin, if_pos (by omega), show x - (dst + i) = x - (dst + (i + 1)) + 1 by omega]
        rfl
      · rw [if_neg hin, if_neg hx, if_neg (by omega)]

section Install

variable {img : IdtImage} {m : ByteMem} {vector : BitVec 8} {func : BitVec 64} {type ist : BitVec 8}
  {selector : BitVec 16}

/-- The gate that was installed is the one that the processor finds. -/
theorem intrInstall_same :
    gateAt (intrInstall img m vector func type ist selector) (img.idt.toNat + 16 * vector.toNat) =
      ⟨func, selector, ist.extractLsb' 0 3, type⟩ := by
  have hbyte : ∀ k, k < 16 → intrInstall img m vector func type ist selector
      (img.idt.toNat + 16 * vector.toNat + k) = (intrBytes func type ist selector).getD k 0 := by
    intro k hk
    have hlen : (intrBytes func type ist selector).length = 16 := rfl
    rw [intrInstall, installLoop_apply, if_pos (by omega)]
    congr 1
    omega
  have hfirst := hbyte 0 (by omega)
  rw [Nat.add_zero] at hfirst
  unfold gateAt
  rw [hbyte 11 (by omega), hbyte 10 (by omega), hbyte 9 (by omega), hbyte 8 (by omega),
    hbyte 7 (by omega), hbyte 6 (by omega), hbyte 1 (by omega), hfirst, hbyte 3 (by omega),
    hbyte 2 (by omega), hbyte 4 (by omega), hbyte 5 (by omega)]
  have hfunc : ∀ k (mask : BitVec 64), mask.extractLsb' k 8 = BitVec.allOnes 8 →
      ((func &&& mask) >>> k).setWidth 8 = func.extractLsb' k 8 :=
    fun k mask h => masked_byte func mask (by omega) h
  rw [Gate.mk.injEq]
  refine ⟨?_, ?_, ?_, ?_⟩
  · have hbytes := bytes_append func
    rw [← hfunc 56 0xFF00000000000000 (by decide), ← hfunc 48 0x00FF000000000000 (by decide),
      ← hfunc 40 0x0000FF0000000000 (by decide), ← hfunc 32 0x000000FF00000000 (by decide),
      ← hfunc 24 0x00000000FF000000 (by decide), ← hfunc 16 0x0000000000FF0000 (by decide),
      ← hfunc 8 0x000000000000FF00 (by decide), ← hfunc 0 0x00000000000000FF (by decide)] at hbytes
    exact hbytes
  · have hhalves := halves_append selector
    have hhigh : (selector >>> 8).setWidth 8 = selector.extractLsb' 8 8 := by
      rw [BitVec.setWidth_eq_extractLsb' (by decide), extract_shiftRight]
    have hlow : (selector &&& 0xFF).setWidth 8 = selector.extractLsb' 0 8 :=
      @masked_byte 16 0 selector 0xFF (by decide) (by decide)
    rw [← hhigh, ← hlow] at hhalves
    exact hhalves
  · show (ist &&& 0x07).extractLsb' 0 3 = ist.extractLsb' 0 3
    exact extract_and_ones (by decide)
  · show type &&& 0xFF = type
    exact BitVec.and_allOnes

/-- No other byte is written. -/
theorem intrInstall_out {x : Nat} (h : x < img.idt.toNat + 16 * vector.toNat ∨
    img.idt.toNat + 16 * vector.toNat + 16 ≤ x) :
    intrInstall img m vector func type ist selector x = m x := by
  have hlen : (intrBytes func type ist selector).length = 16 := rfl
  rw [intrInstall, installLoop_apply, if_neg (by omega)]

theorem gateAt_congr {m m' : ByteMem} {a : Nat} (h : ∀ x, a ≤ x → x < a + 16 → m' x = m x) :
    gateAt m' a = gateAt m a := by
  have hbyte : ∀ k, k < 16 → m' (a + k) = m (a + k) := fun k hk => h _ (by omega) (by omega)
  have hfirst := h a (by omega) (by omega)
  unfold gateAt
  rw [hbyte 11 (by omega), hbyte 10 (by omega), hbyte 9 (by omega), hbyte 8 (by omega),
    hbyte 7 (by omega), hbyte 6 (by omega), hbyte 1 (by omega), hfirst, hbyte 3 (by omega),
    hbyte 2 (by omega), hbyte 4 (by omega), hbyte 5 (by omega)]

/-- A gate more in the table. -/
theorem holds_install {t : Vectors} (h : HoldsGates m img.idt.toNat t) (vector : BitVec 8)
    {e : Handler} (he : (⟨func, selector, ist.extractLsb' 0 3, type⟩ : Gate) = e.gate) :
    HoldsGates (intrInstall img m vector func type ist selector) img.idt.toNat
      (Function.update t vector (some e)) := by
  intro v
  by_cases hv : v = vector
  · rw [hv, Function.update_self]
    exact intrInstall_same.trans he
  · have hne : v.toNat ≠ vector.toNat := fun heq => hv (BitVec.eq_of_toNat_eq heq)
    rw [Function.update_of_ne hv, gateAt_congr fun x hx hx' => intrInstall_out (by omega)]
    exact h v

/-- The task-state segments are elsewhere. -/
theorem intrInstall_tss {x : Nat} (hx : img.intrTss.toNat ≤ x)
    (hx' : x < img.intrTss.toNat + 104 * maxCpuNr) :
    intrInstall img m vector func type ist selector x = m x := by
  have hapart := img.tss_idt
  have hlt := vector.isLt
  exact intrInstall_out (by omega)

end Install

/-! ## Runs -/

section Runs

variable {img : IdtImage} (bus : BitVec 16 → BitVec 8) {s : IntrHw} {m : ByteMem}

theorem intrSetup_mem (s : IntrHw) {x : Nat}
    (hx : x < img.idtReg.toNat ∨ img.idtReg.toNat + 16 ≤ x) :
    (intrSetup img s).mem x = s.mem x := by
  show ((s.mem.write _ 2 _).write _ 8 _) x = _
  rw [ByteMem.write_apply_out (by omega), ByteMem.write_apply_out (by omega)]

/-- `lidt` finds what `intr_setup` has written. -/
theorem intrSetup_idtr (s : IntrHw) : (intrSetup img s).idtr = ⟨4095, img.idt⟩ := by
  show lidt ((s.mem.write img.idtReg.toNat 2 (256 * 16 - 1)).write (img.idtReg.toNat + 2) 8
    img.idt.toNat) img.idtReg.toNat = _
  unfold lidt
  rw [ByteMem.read_write_disjoint (Or.inl (Nat.le_refl _)), ByteMem.read_write_same,
    ByteMem.read_write_same, show 256 ^ 8 = 2 ^ 64 from rfl, Nat.mod_eq_of_lt img.idt.isLt,
    BitVec.ofNat_toNat, BitVec.setWidth_eq]
  rfl

theorem intrInit_eq (s : IntrHw) : (intrInit img bus s).mem =
      (intrSetup img { s with mem := initGates img s.mem }).mem ∧
    (intrInit img bus s).idtr = (intrSetup img { s with mem := initGates img s.mem }).idtr ∧
    (intrInit img bus s).pic = picInit bus s.pic := by
  unfold intrInit picInit intrSetup
  exact ⟨rfl, rfl, rfl⟩

/-- The state behind `intr_init`, when the table was zero and `tss_init_common` had been called. -/
theorem intrInit_holds (hzero : HoldsGates (tssInitCommon img.toTssImage m) img.idt.toNat
      fun _ => none) (hs : s.mem = tssInitCommon img.toTssImage m) :
    IdtHolds img (intrInit img bus s) (initVectors img) := by
  have hinit : initVectors img = Function.update (Function.update (Function.update (Function.update
      (fun _ => none) 0x20 (some ⟨img.timerIntr, 1, false⟩)) 0x21 (some ⟨img.kbdIntr, 1, false⟩))
      0x0E (some ⟨img.pageFault, 2, false⟩)) 0x80 (some ⟨img.syscallHandler, 3, true⟩) := by
    funext v
    simp only [initVectors, Function.update_apply]
  have hgates : HoldsGates (initGates img s.mem) img.idt.toNat (initVectors img) := by
    rw [hinit, hs]
    exact holds_install (holds_install (holds_install (holds_install hzero 0x20 rfl) 0x21 rfl) 0x0E
      rfl) 0x80 rfl
  have htssMem : ∀ x, img.intrTss.toNat ≤ x → x < img.intrTss.toNat + 104 * maxCpuNr →
      initGates img s.mem x = s.mem x := fun x hx hx' =>
    (intrInstall_tss hx hx').trans ((intrInstall_tss hx hx').trans
      ((intrInstall_tss hx hx').trans (intrInstall_tss hx hx')))
  obtain ⟨hmem, hidtr, -⟩ := @intrInit_eq img bus s
  obtain ⟨s', hs'⟩ : ∃ s' : IntrHw, { s with mem := initGates img s.mem } = s' := ⟨_, rfl⟩
  have hmem' : s'.mem = initGates img s.mem := by rw [← hs']
  rw [← hmem'] at hgates htssMem
  rw [hs'] at hmem hidtr
  have hreg := img.reg_apart
  have htss := img.tss_reg
  refine ⟨hidtr.trans (intrSetup_idtr s'), fun v => ?_, m, fun x hx hx' => ?_⟩
  · have hlt := v.isLt
    rw [hmem, gateAt_congr fun x hx hx' => intrSetup_mem s' (by omega)]
    exact hgates v
  · rw [hmem, intrSetup_mem s' (by omega), htssMem x hx hx', hs]

/-- What a call does to the table. -/
theorem intrCall_holds {t : Vectors} (h : IdtHolds img s t) (c : IntrCall) :
    IdtHolds img (idtCall img bus s c) (vectorCall t c) := by
  cases c with
  | install vector func =>
    obtain ⟨m, hm⟩ := h.segments
    exact ⟨h.idtr, holds_install h.gates vector rfl, m,
      fun x hx hx' => (intrInstall_tss hx hx').trans (hm x hx hx')⟩
  | irq c => exact ⟨h.idtr, h.gates, h.segments⟩

theorem intrCalls_hold (calls : List IntrCall) : ∀ {s : IntrHw} {t : Vectors}, IdtHolds img s t →
    IdtHolds img (calls.foldl (idtCall img bus) s) (calls.foldl vectorCall t) := by
  induction calls with
  | nil => exact fun h => h
  | cons c calls ih => exact fun h => ih (intrCall_holds bus h c)

theorem Handler.gate_present (e : Handler) : e.gate.present = true := by
  obtain ⟨func, ist, user⟩ := e
  cases user
  · show (0x8E : BitVec 8).getLsbD 7 = true
    decide
  · show (0xEE : BitVec 8).getLsbD 7 = true
    decide

theorem Handler.gate_dpl (e : Handler) : (e.gate.dpl == 3) = e.user := by
  obtain ⟨func, ist, user⟩ := e
  cases user
  · show ((0x8E : BitVec 8).extractLsb' 5 2 == 3) = false
    decide
  · show ((0xEE : BitVec 8).extractLsb' 5 2 == 3) = true
    decide

/-- The processor finds the handlers of the table, and no others. -/
theorem idtr_gate {t : Vectors} (h : IdtHolds img s t) (v : BitVec 8) :
    s.idtr.gate s.mem v = (t v).map Handler.gate := by
  have hlt := v.isLt
  have hv := h.gates v
  have hlimit : 16 * v.toNat + 15 ≤ (4095 : BitVec 16).toNat := by
    show 16 * v.toNat + 15 ≤ 4095
    omega
  unfold Idtr.gate
  rw [h.idtr]
  dsimp only
  cases ht : t v with
  | none =>
    rw [ht] at hv
    have habsent : ¬ (gateAt s.mem (img.idt.toNat + 16 * v.toNat)).present = true := by
      unfold Gate.present
      rw [show (gateAt s.mem (img.idt.toNat + 16 * v.toNat)).access = 0 from hv]
      decide
    exact if_neg fun hand => habsent hand.2
  | some e =>
    rw [ht] at hv
    have hgate : gateAt s.mem (img.idt.toNat + 16 * v.toNat) = e.gate := hv
    rw [hgate]
    exact if_pos ⟨hlimit, e.gate_present⟩

theorem idtr_intGate {t : Vectors} (h : IdtHolds img s t) (v : BitVec 8) :
    s.idtr.intGate s.mem v = ((t v).filter Handler.user).map Handler.gate := by
  unfold Idtr.intGate
  rw [idtr_gate h]
  cases t v with
  | none => rfl
  | some e =>
    rw [Option.map_some, Option.filter_some, Option.filter_some, e.gate_dpl]
    cases e.user <;> rfl

/-! ## What can be in the table -/

/-- Programs may call only `syscall_handler`, and that under `0x80`; and every handler is on one of
the three kinds of stacks. -/
structure Vectors.Sound (img : IdtImage) (t : Vectors) : Prop where
  user : ∀ v e, t v = some e → e.user = true → v = 0x80 ∧ e = ⟨img.syscallHandler, 3, true⟩
  ist : ∀ v e, t v = some e → e.ist = 1 ∨ e.ist = 2 ∨ e.ist = 3

theorem initVectors_sound (img : IdtImage) : (initVectors img).Sound img := by
  have hcases : ∀ v e, initVectors img v = some e →
      (v = 0x80 ∧ e = ⟨img.syscallHandler, 3, true⟩) ∨ e = ⟨img.pageFault, 2, false⟩ ∨
      e = ⟨img.kbdIntr, 1, false⟩ ∨ e = ⟨img.timerIntr, 1, false⟩ := by
    intro v e he
    unfold initVectors at he
    split at he
    · next hv => exact Or.inl ⟨hv, (Option.some.inj he).symm⟩
    · split at he
      · exact Or.inr (Or.inl (Option.some.inj he).symm)
      · split at he
        · exact Or.inr (Or.inr (Or.inl (Option.some.inj he).symm))
        · split at he
          · exact Or.inr (Or.inr (Or.inr (Option.some.inj he).symm))
          · cases he
  refine ⟨fun v e he huser => ?_, fun v e he => ?_⟩
  · rcases hcases v e he with h | h | h | h
    · exact h
    all_goals
      rw [h] at huser
      cases huser
  · rcases hcases v e he with ⟨-, h⟩ | h | h | h
    · rw [h]
      exact Or.inr (Or.inr rfl)
    · rw [h]
      exact Or.inr (Or.inl rfl)
    · rw [h]
      exact Or.inl rfl
    · rw [h]
      exact Or.inl rfl

theorem vectorCall_sound {t : Vectors} (h : t.Sound img) (c : IntrCall) :
    (vectorCall t c).Sound img := by
  cases c with
  | irq c => exact h
  | install vector func =>
    have hcases : ∀ v e, vectorCall t (.install vector func) v = some e →
        e = ⟨func, 1, false⟩ ∨ t v = some e := by
      intro v e he
      by_cases hv : v = vector
      · rw [hv, vectorCall, Function.update_self] at he
        exact Or.inl (Option.some.inj he).symm
      · rw [vectorCall, Function.update_of_ne hv] at he
        exact Or.inr he
    refine ⟨fun v e he huser => ?_, fun v e he => ?_⟩
    · rcases hcases v e he with h₁ | h₁
      · rw [h₁] at huser
        cases huser
      · exact h.user v e h₁ huser
    · rcases hcases v e he with h₁ | h₁
      · rw [h₁]
        exact Or.inl rfl
      · exact h.ist v e h₁

theorem vectorCalls_sound (calls : List IntrCall) : ∀ {t : Vectors}, t.Sound img →
    (calls.foldl vectorCall t).Sound img := by
  induction calls with
  | nil => exact fun h => h
  | cons c calls ih => exact fun h => ih (vectorCall_sound h c)

/-- The handler of system calls stays until another one is installed in its place. -/
theorem syscall_stays (calls : List IntrCall) : ∀ {t : Vectors},
    t 0x80 = some ⟨img.syscallHandler, 3, true⟩ →
    ((∀ func, .install 0x80 func ∉ calls) ∧
        calls.foldl vectorCall t 0x80 = some ⟨img.syscallHandler, 3, true⟩) ∨
      (¬ (∀ func, .install 0x80 func ∉ calls) ∧
        ∃ func, calls.foldl vectorCall t 0x80 = some ⟨func, 1, false⟩) := by
  induction calls using List.reverseRecOn with
  | nil => exact fun h => Or.inl ⟨fun _ => List.not_mem_nil, h⟩
  | append_singleton calls c ih =>
    intro t h
    have hfold : (calls ++ [c]).foldl vectorCall t = vectorCall (calls.foldl vectorCall t) c :=
      List.foldl_concat ..
    rw [hfold]
    by_cases hc : ∃ func, c = .install 0x80 func
    · obtain ⟨func, hc⟩ := hc
      refine Or.inr ⟨fun hno => hno func (List.mem_append_right _ (by rw [hc]; simp)), func, ?_⟩
      rw [hc, vectorCall, Function.update_self]
    · have hsame :
          vectorCall (calls.foldl vectorCall t) c 0x80 = calls.foldl vectorCall t 0x80 := by
        cases c with
        | irq c => rfl
        | install vector func =>
          have hne : (0x80 : BitVec 8) ≠ vector := fun heq => hc ⟨func, by rw [heq]⟩
          rw [vectorCall, Function.update_of_ne hne]
      have hmem : (∀ func, IntrCall.install 0x80 func ∉ calls ++ [c]) ↔
          ∀ func, .install 0x80 func ∉ calls := by
        refine forall_congr' fun func => not_congr ?_
        rw [List.mem_append, List.mem_singleton]
        exact ⟨fun hor => hor.resolve_right fun heq => hc ⟨func, heq.symm⟩, Or.inl⟩
      rw [hsame, hmem]
      exact ih h

end Runs

/-! ## Interrupts -/

section Main

variable (img : IdtImage) (bus : BitVec 16 → BitVec 8)

/-- The state behind `tss_init_common` and `intr_init`. -/
def intrBoot (s : IntrHw) : IntrHw :=
  intrInit img bus { s with mem := tssInitCommon img.toTssImage s.mem }

/-- The vector of a line. -/
def PicPair.vector (p : PicPair) (irq : Nat) : BitVec 8 :=
  if irq < 8 then p.master.vector + BitVec.ofNat 8 irq
  else p.slave.vector + BitVec.ofNat 8 (irq - 8)

/-- An interrupt on the processor `id`, through the gate `g`. -/
def IntrHw.enter (s : IntrHw) (id : Nat) (cpu : Cpu) (g : Gate) : Cpu :=
  ({ cpu with mem := s.mem } : Cpu).interrupt (istStack img.toTssImage s.mem id g.ist) g.offset

/-- An interrupt on a line. -/
def IntrHw.line (s : IntrHw) (id : Nat) (cpu : Cpu) (irq : Nat) : Option Cpu :=
  if s.pic.delivers irq then
    (s.idtr.gate s.mem (s.pic.vector irq)).map (s.enter img id cpu)
  else none

/-- `int` in a program. -/
def IntrHw.int (s : IntrHw) (id : Nat) (cpu : Cpu) (v : BitVec 8) : Option Cpu :=
  (s.idtr.intGate s.mem v).map (s.enter img id cpu)

/-- The calls among `calls` that are for a line. -/
def irqCalls (calls : List IntrCall) : List IrqCall :=
  calls.filterMap fun
    | .install _ _ => none
    | .irq c => some c

section Spec

variable {img : IdtImage} {bus : BitVec 16 → BitVec 8} {s : IntrHw}

theorem intrBoot_holds (hzero : ∀ x, img.idt.toNat ≤ x → x < img.idt.toNat + 4096 → s.mem x = 0) :
    IdtHolds img (intrBoot img bus s) (initVectors img) := by
  have hapart := img.tss_idt
  have hgates : HoldsGates (tssInitCommon img.toTssImage s.mem) img.idt.toNat fun _ => none := by
    intro v
    have hlt := v.isLt
    show tssInitCommon img.toTssImage s.mem (img.idt.toNat + 16 * v.toNat + 5) = 0
    rw [tssInitCommon_out _ _ (by omega)]
    exact hzero _ (by omega) (by omega)
  unfold intrBoot
  obtain ⟨s', hs', hmem⟩ : ∃ s' : IntrHw,
      { s with mem := tssInitCommon img.toTssImage s.mem } = s' ∧
      s'.mem = tssInitCommon img.toTssImage s.mem := ⟨_, rfl, rfl⟩
  rw [hs']
  exact intrInit_holds bus hgates hmem

theorem IdtHolds.stack {t : Vectors} (h : IdtHolds img s t) {id : Nat} (hid : id < maxCpuNr)
    {ist : BitVec 3} (hist : ist ≠ 0) :
    istStack img.toTssImage s.mem id ist = stackOf img.toTssImage id ist := by
  obtain ⟨m, hm⟩ := h.segments
  exact istStack_eq img.toTssImage hm hid hist

/-- The controllers see the calls for lines only. -/
theorem intrCalls_pic (calls : List IntrCall) : ∀ s : IntrHw,
    (calls.foldl (idtCall img bus) s).pic = (irqCalls calls).foldl (irqCall bus) s.pic := by
  induction calls with
  | nil => exact fun _ => rfl
  | cons c calls ih =>
    intro s
    rw [List.foldl_cons, ih]
    cases c with
    | install vector func => rfl
    | irq c => rfl

end Spec

/-- A kernel in low memory. -/
def lowIdt : IdtImage where
  intrTss := 0x10000
  intrS := 0x100000
  faultS := 0x200000
  callS := 0x300000
  tss_fits := by decide
  intrS_fits := by decide
  faultS_fits := by decide
  callS_fits := by decide
  intr_fault := by decide
  intr_call := by decide
  fault_call := by decide
  idt := 0x20000
  idtReg := 0x30000
  timerIntr := 0x1000
  kbdIntr := 0x2000
  pageFault := 0x3000
  syscallHandler := 0x4000
  reg_apart := by decide
  tss_idt := by decide
  tss_reg := by decide

/-- Zeroed memory, and controllers that nobody has set up. -/
def zeroHw : IntrHw := ⟨fun _ => 0, ⟨0, 0⟩, ⟨⟨0, 0, 0, 0⟩, ⟨0, 0, 0, 0⟩⟩⟩

/-- A processor before its first instruction. -/
def zeroCpu : Cpu := ⟨fun _ => 0, 0, 0, 0, 0, 0, fun _ => 0⟩

/-- The spurious interrupt of `apic_init`, and two lines. -/
def spurious : List IntrCall := [.install 0x27 0x5000, .irq (.mask 1), .irq (.unmask 9)]

variable {bus : BitVec 16 → BitVec 8} {s : IntrHw}

/-- In every run of calls behind `intr_init`, the processor finds for every vector the handler that
was installed last, with its stack, and no handler where none was. -/
theorem intr_vectors (hzero : ∀ x, img.idt.toNat ≤ x → x < img.idt.toNat + 4096 → s.mem x = 0)
    (calls : List IntrCall) (v : BitVec 8) :
    let s' := calls.foldl (idtCall img bus) (intrBoot img bus s)
    s'.idtr.gate s'.mem v = (calls.foldl vectorCall (initVectors img) v).map Handler.gate :=
  idtr_gate (intrCalls_hold bus calls (intrBoot_holds hzero)) v

/-- The gate of the spurious interrupt. -/
theorem intr_vectors_spurious :
    let s' := spurious.foldl (idtCall lowIdt fun _ => 0xFF)
      (intrBoot lowIdt (fun _ => 0xFF) zeroHw)
    s'.idtr.gate s'.mem 0x27 = some ⟨0x5000, 0x8, 1, 0x8E⟩ :=
  intr_vectors lowIdt (fun _ _ _ => rfl) spurious 0x27

/-- In every run of calls behind `intr_init`, a program gets into the kernel by `int` with the
number `0x80` only, and as long as no other handler is installed there: to `syscall_handler`, on the
stack of its processor for system calls. -/
theorem intr_user_gate (hzero : ∀ x, img.idt.toNat ≤ x → x < img.idt.toNat + 4096 → s.mem x = 0)
    (calls : List IntrCall) {id : Nat} (hid : id < maxCpuNr) (cpu : Cpu) (v : BitVec 8) :
    let s' := calls.foldl (idtCall img bus) (intrBoot img bus s)
    (v = 0x80 ∧ (∀ func, .install 0x80 func ∉ calls) →
      s'.int img id cpu v = some (({ cpu with mem := s'.mem } : Cpu).interrupt
        (stackTop img.callS id) img.syscallHandler)) ∧
    (¬ (v = 0x80 ∧ ∀ func, .install 0x80 func ∉ calls) → s'.int img id cpu v = none) := by
  intro s'
  have hholds : IdtHolds img s' (calls.foldl vectorCall (initVectors img)) :=
    intrCalls_hold bus calls (intrBoot_holds hzero)
  have hsound := vectorCalls_sound calls (initVectors_sound img)
  have hstays := syscall_stays calls (show initVectors img 0x80 = _ from rfl)
  clear_value s'
  generalize calls.foldl vectorCall (initVectors img) = t at *
  unfold IntrHw.int
  rw [idtr_intGate hholds]
  refine ⟨fun hv => ?_, fun hv => ?_⟩
  · rcases hstays with ⟨-, hsys⟩ | ⟨hno, -⟩
    · rw [hv.1, hsys]
      show some (s'.enter img id cpu ⟨img.syscallHandler, 0x8, 3, 0xEE⟩) = _
      have hstack := hholds.stack hid (show (3 : BitVec 3) ≠ 0 by decide)
      unfold IntrHw.enter
      rw [hstack]
      rfl
    · exact absurd hv.2 hno
  · have hnone : (t v).filter Handler.user = none := by
      cases ht : t v with
      | none => rfl
      | some e =>
        rw [Option.filter_some]
        refine if_neg fun huser => hv ?_
        obtain ⟨hv80, he⟩ := hsound.user v e ht huser
        refine ⟨hv80, ?_⟩
        rcases hstays with ⟨hyes, -⟩ | ⟨-, func, hother⟩
        · exact hyes
        · rw [hv80, hother] at ht
          rw [← Option.some.inj ht] at huser
          cases huser
    rw [hnone]
    rfl

/-- A system call on the first processor. -/
theorem intr_user_gate_syscall :
    ∃ m, (spurious.foldl (idtCall lowIdt fun _ => 0xFF)
        (intrBoot lowIdt (fun _ => 0xFF) zeroHw)).int lowIdt 0 zeroCpu 0x80 =
      some (({ zeroCpu with mem := m } : Cpu).interrupt (stackTop 0x300000 0) 0x4000) :=
  ⟨_, (intr_user_gate lowIdt (fun _ _ _ => rfl) spurious (by decide) zeroCpu 0x80).1
    ⟨rfl, fun _ h => by simp [spurious] at h⟩⟩

/-- In every run of calls behind `intr_init`, an interrupt on a line that is open enters the handler
that was installed last for its vector, on the stack that the handler has on this processor; and one
on a line that is not open does not get through. A line of the second controller is open when line
2 is. -/
theorem intr_enters (hzero : ∀ x, img.idt.toNat ≤ x → x < img.idt.toNat + 4096 → s.mem x = 0)
    (calls : List IntrCall) {id : Nat} (hid : id < maxCpuNr) (cpu : Cpu) {irq : Nat}
    (hirq : irq < 16) :
    let s' := calls.foldl (idtCall img bus) (intrBoot img bus s)
    s'.line img id cpu irq =
      if (irqCalls calls).foldl setLine keyboardOnly (if irq < 8 then irq else 2) = true then
        (calls.foldl vectorCall (initVectors img) (0x20 + BitVec.ofNat 8 irq)).map fun e =>
          ({ cpu with mem := s'.mem } : Cpu).interrupt (stackOf img.toTssImage id e.ist) e.func
      else none := by
  intro s'
  have hholds : IdtHolds img s' (calls.foldl vectorCall (initVectors img)) :=
    intrCalls_hold bus calls (intrBoot_holds hzero)
  have hsound := vectorCalls_sound calls (initVectors_sound img)
  have hpic : s'.pic = (irqCalls calls).foldl (irqCall bus) (picInit bus s.pic) := by
    have hboot : (intrBoot img bus s).pic = picInit bus s.pic := (intrInit_eq bus _).2.2
    rw [← hboot]
    exact intrCalls_pic calls _
  obtain ⟨hmaster, hslave, hlines⟩ := pic_lines_spec bus s.pic (irqCalls calls)
  rw [← hpic] at hmaster hslave hlines
  clear_value s'
  generalize calls.foldl vectorCall (initVectors img) = t at *
  have hvector : s'.pic.vector irq = 0x20 + BitVec.ofNat 8 irq := by
    unfold PicPair.vector
    rw [hmaster, hslave]
    revert irq
    decide
  unfold IntrHw.line
  rw [hvector, idtr_gate hholds]
  by_cases hopen : s'.pic.delivers irq
  · rw [if_pos hopen, if_pos ((hlines irq).mp hopen), Option.map_map]
    cases ht : t (0x20 + BitVec.ofNat 8 irq) with
    | none => rw [Option.map_none, Option.map_none]
    | some e =>
      have hist : e.ist ≠ 0 := by
        rcases hsound.ist _ e ht with h | h | h
        all_goals
          rw [h]
          decide
      have hstack := hholds.stack hid hist
      rw [Option.map_some, Option.map_some, Function.comp_apply]
      unfold IntrHw.enter
      rw [show e.gate.ist = e.ist from rfl, hstack]
      rfl
  · rw [if_neg hopen, if_neg fun h => hopen ((hlines irq).mpr h)]

/-- The keyboard's line is closed, the one of the spurious interrupt is open, and line 9, which has
been asked for, is not: the second controller is behind line 2. -/
def lineCalls : List IntrCall := spurious ++ [.irq (.unmask 7)]

theorem intr_enters_spurious :
    (∃ m, (lineCalls.foldl (idtCall lowIdt fun _ => 0xFF)
        (intrBoot lowIdt (fun _ => 0xFF) zeroHw)).line lowIdt 0 zeroCpu 7 =
      some (({ zeroCpu with mem := m } : Cpu).interrupt (stackTop 0x100000 0) 0x5000)) ∧
    ∀ irq ∈ [1, 9], (lineCalls.foldl (idtCall lowIdt fun _ => 0xFF)
      (intrBoot lowIdt (fun _ => 0xFF) zeroHw)).line lowIdt 0 zeroCpu irq = none := by
  have hline {irq : Nat} (hirq : irq < 16) := @intr_enters lowIdt (fun _ => 0xFF) zeroHw
    (fun _ _ _ => rfl) lineCalls 0 (by decide) zeroCpu irq hirq
  refine ⟨⟨_, (hline (by decide)).trans (if_pos (by decide))⟩, fun irq hirq => ?_⟩
  have hlt : irq < 16 := by
    rcases List.mem_cons.mp hirq with rfl | h
    · decide
    · rw [List.mem_singleton.mp h]
      decide
  refine (hline hlt).trans (if_neg ?_)
  revert irq
  decide

/-- In every run of calls behind `intr_init`, two handlers do not share a byte of stack on different
processors, nor on one when their stacks have different numbers. -/
theorem interrupt_stacks_apart (calls : List IntrCall) {i j : Nat} (hi : i < maxCpuNr)
    (hj : j < maxCpuNr) {v w : BitVec 8} {e f : Handler}
    (he : calls.foldl vectorCall (initVectors img) v = some e)
    (hf : calls.foldl vectorCall (initVectors img) w = some f) (h : i ≠ j ∨ e.ist ≠ f.ist) :
    (stackOf img.toTssImage i e.ist).toNat + 16 ≤ (stackOf img.toTssImage j f.ist).toNat - 8176 ∨
      (stackOf img.toTssImage j f.ist).toNat + 16 ≤
        (stackOf img.toTssImage i e.ist).toNat - 8176 := by
  have hsound := vectorCalls_sound calls (initVectors_sound img)
  have hv := hsound.ist v e he
  have hw := hsound.ist w f hf
  have hdistinct :
      e.ist ≠ f.ist → stackArray img.toTssImage e.ist ≠ stackArray img.toTssImage f.ist := by
    intro hne heq
    have hIF := img.intr_fault
    have hIC := img.intr_call
    have hFC := img.fault_call
    unfold maxCpuNr at hIF hIC hFC
    have heqNat := congrArg BitVec.toNat heq
    rcases hv with hv | hv | hv
    all_goals
      rcases hw with hw | hw | hw
      all_goals
        rw [hv, hw] at hne heqNat
        first
        | exact absurd rfl hne
        | (simp [stackArray] at heqNat; omega)
  exact stacks_apart img.toTssImage hi hj (h.imp_right hdistinct)

/-- A page fault and a system call on one processor. -/
theorem interrupt_stacks_apart_fault :
    (stackOf lowIdt.toTssImage 0 2).toNat + 16 ≤ (stackOf lowIdt.toTssImage 0 3).toNat - 8176 ∨
      (stackOf lowIdt.toTssImage 0 3).toNat + 16 ≤ (stackOf lowIdt.toTssImage 0 2).toNat - 8176 :=
  interrupt_stacks_apart lowIdt spurious (by decide) (by decide) (v := 0x0E) (w := 0x80)
    (e := ⟨0x3000, 2, false⟩) (f := ⟨0x4000, 3, true⟩) rfl rfl (Or.inr (by decide))

end Main

end OS64.X86
