import Mathlib.Data.BitVec
import Mathlib.Logic.Function.Basic

/-!
# The lines of the interrupt controllers (`x86_64/intr.c`)

`intr_setup` gives the two controllers their vectors, `mask_irq` and `unmask_irq` close and open one
of sixteen lines. The data ports of the two are `0x21` and `0xA1`; for the lines of the second one
the functions compute the port `0x29`, which belongs to neither.

The controllers are the part of an 8259A that the kernel talks to: four initialisation words, and
the mask register. What a read of another port gives is a parameter. The end-of-interrupt commands
of the stubs go to the command port and change nothing here.
-/

namespace OS64.X86

/-! ## The controllers -/

/-- A controller: its vectors, its mask register, the first initialisation word and the number of
the one that is due, 0 for none. -/
structure Pic where
  vector : BitVec 8
  mask : BitVec 8
  icw1 : BitVec 8
  icw : Nat

/-- A byte to the command port. The first initialisation word clears the mask. -/
def Pic.command (p : Pic) (v : BitVec 8) : Pic :=
  if v &&& 0x10 ≠ 0 then { p with mask := 0, icw1 := v, icw := 2 } else p

/-- The word behind the third one: bit 0 of the first word asks for it. -/
def Pic.fourth (p : Pic) : Nat := if p.icw1 &&& 0x01 ≠ 0 then 4 else 0

/-- A byte to the data port. -/
def Pic.data (p : Pic) (v : BitVec 8) : Pic :=
  if p.icw = 2 then
    { p with vector := v &&& 0xF8, icw := if p.icw1 &&& 0x02 ≠ 0 then p.fourth else 3 }
  else if p.icw = 3 then { p with icw := p.fourth }
  else if p.icw = 4 then { p with icw := 0 }
  else { p with mask := v }

/-- The controller of lines 0 to 7 and that of lines 8 to 15, which is on line 2 of the other. -/
structure PicPair where
  master : Pic
  slave : Pic

/-- `outb`. -/
def PicPair.out (p : PicPair) (port : BitVec 16) (v : BitVec 8) : PicPair :=
  if port = 0x20 then { p with master := p.master.command v }
  else if port = 0x21 then { p with master := p.master.data v }
  else if port = 0xA0 then { p with slave := p.slave.command v }
  else if port = 0xA1 then { p with slave := p.slave.data v }
  else p

/-- `inb`, of the data ports or of one of other hardware. -/
def PicPair.inp (bus : BitVec 16 → BitVec 8) (p : PicPair) (port : BitVec 16) : BitVec 8 :=
  if port = 0x21 then p.master.mask else if port = 0xA1 then p.slave.mask else bus port

/-- An interrupt on the line gets to the processor. -/
def PicPair.delivers (p : PicPair) (irq : Nat) : Prop :=
  if irq < 8 then p.master.mask.getLsbD irq = false
  else p.slave.mask.getLsbD (irq - 8) = false ∧ p.master.mask.getLsbD 2 = false

instance (p : PicPair) (irq : Nat) : Decidable (p.delivers irq) :=
  inferInstanceAs (Decidable (if irq < 8 then _ else _))

/-! ## The functions -/

/-- `0x21 + 8*(irq>>3)`. -/
def irqPort (irq : BitVec 8) : BitVec 16 := 0x21 + 8 * (irq >>> 3).setWidth 16

/-- `1<<(irq&7)`. -/
def irqBit (irq : BitVec 8) : BitVec 8 := (1 : BitVec 8) <<< (irq &&& 7).toNat

section Code

variable (bus : BitVec 16 → BitVec 8)

/-- `unmask_irq`. -/
def unmaskIrq (p : PicPair) (irq : BitVec 8) : PicPair :=
  if irq > 15 then p else p.out (irqPort irq) (p.inp bus (irqPort irq) &&& ~~~irqBit irq)

/-- `mask_irq`. -/
def maskIrq (p : PicPair) (irq : BitVec 8) : PicPair :=
  if irq > 15 then p else p.out (irqPort irq) (p.inp bus (irqPort irq) ||| irqBit irq)

/-- The ports of `intr_setup`. -/
def picSetup (p : PicPair) : PicPair :=
  let p := (p.out 0x20 0x15).out 0xA0 0x15
  let p := (p.out 0x21 0x20).out 0xA1 0x28
  let p := (p.out 0x21 0x04).out 0xA1 0x02
  (p.out 0x21 0x01).out 0xA1 0x01

/-- The loop of `intr_init` and the call behind it. -/
@[irreducible] def picMasks (p : PicPair) : PicPair :=
  unmaskIrq bus ((List.range 15).foldl (fun p i => maskIrq bus p (BitVec.ofNat 8 i)) p) 1

/-- The ports of `intr_init`. -/
def picInit (p : PicPair) : PicPair := picMasks bus (picSetup p)

/-- A call of `mask_irq` or `unmask_irq`. -/
inductive IrqCall
  | mask (irq : BitVec 8)
  | unmask (irq : BitVec 8)

/-- What the call does. -/
def irqCall (p : PicPair) : IrqCall → PicPair
  | .mask irq => maskIrq bus p irq
  | .unmask irq => unmaskIrq bus p irq

end Code

/-- The line of a call, and whether it is open then. -/
def IrqCall.line : IrqCall → Nat × Bool
  | .mask irq => (irq.toNat, false)
  | .unmask irq => (irq.toNat, true)

/-- The open lines among the first eight, by the calls: a call sets its line. -/
def setLine (f : Nat → Bool) (c : IrqCall) : Nat → Bool := Function.update f c.line.1 c.line.2

/-- Behind `intr_init` only the keyboard's line is open. -/
def keyboardOnly : Nat → Bool := fun i => i == 1

/-! ## One call -/

section Step

variable (bus : BitVec 16 → BitVec 8) {p : PicPair}

/-- Both controllers take masks, and the second one has all its lines open. -/
structure PicReady (p : PicPair) : Prop where
  master_icw : p.master.icw = 0
  master_vector : p.master.vector = 0x20
  slave : p.slave = ⟨0x28, 0, 0x15, 0⟩

theorem irqPort_low {irq : BitVec 8} (h : irq.toNat < 8) : irqPort irq = 0x21 := by
  have hz : irq >>> 3 = 0 := by
    apply BitVec.eq_of_toNat_eq
    rw [BitVec.toNat_ushiftRight, Nat.shiftRight_eq_div_pow, Nat.div_eq_of_lt h]
    rfl
  rw [irqPort, hz]
  rfl

/-- A line of the second controller leads to no controller. -/
theorem irqPort_high {irq : BitVec 8} (h : 8 ≤ irq.toNat) (h15 : irq.toNat ≤ 15) :
    irqPort irq = 0x29 := by
  have hone : irq >>> 3 = 1 := by
    apply BitVec.eq_of_toNat_eq
    rw [BitVec.toNat_ushiftRight, Nat.shiftRight_eq_div_pow]
    show irq.toNat / 8 = 1
    omega
  rw [irqPort, hone]
  rfl

theorem irqBit_getLsbD {irq : BitVec 8} (h : irq.toNat < 8) {i : Nat} (_ : i < 8) :
    (irqBit irq).getLsbD i = decide (i = irq.toNat) := by
  have hand : (irq &&& 7).toNat = irq.toNat := by
    rw [BitVec.toNat_and]
    show irq.toNat &&& (2 ^ 3 - 1) = irq.toNat
    rw [Nat.and_two_pow_sub_one_eq_mod, Nat.mod_eq_of_lt h]
  unfold irqBit
  rw [hand, BitVec.getLsbD_shiftLeft, show (1 : BitVec 8) = 1#8 from rfl, BitVec.getLsbD_one]
  rw [Bool.eq_iff_iff]
  simp only [Bool.and_eq_true, Bool.not_eq_true', decide_eq_true_eq, decide_eq_false_iff_not]
  omega

/-- A call for a line of the first controller sets its bit, and any other one does nothing. -/
theorem irqCall_spec (h : PicReady p) (c : IrqCall) :
    PicReady (irqCall bus p c) ∧ ∀ i, i < 8 →
      (!(irqCall bus p c).master.mask.getLsbD i) =
        setLine (fun i => !p.master.mask.getLsbD i) c i := by
  obtain ⟨irq, hcall, hline⟩ : ∃ irq : BitVec 8, (c = .mask irq ∨ c = .unmask irq) ∧
      c.line.1 = irq.toNat := by
    cases c with
    | mask irq => exact ⟨irq, Or.inl rfl, rfl⟩
    | unmask irq => exact ⟨irq, Or.inr rfl, rfl⟩
  by_cases hlow : irq.toNat < 8
  · have hgt : ¬ irq > 15 := by
      intro hgt
      have hlt : (15 : BitVec 8).toNat < irq.toNat := hgt
      rw [show (15 : BitVec 8).toNat = 15 from rfl] at hlt
      omega
    have hout : ∀ v, p.out 0x21 v = { p with master := { p.master with mask := v } } := by
      intro v
      have hdata : p.master.data v = { p.master with mask := v } := by
        unfold Pic.data
        rw [if_neg (by rw [h.master_icw]; decide), if_neg (by rw [h.master_icw]; decide),
          if_neg (by rw [h.master_icw]; decide)]
      show ({ p with master := p.master.data v } : PicPair) = _
      rw [hdata]
    have hin : p.inp bus 0x21 = p.master.mask := rfl
    rcases hcall with hc | hc
    · have hcall : irqCall bus p c =
          { p with master := { p.master with mask := p.master.mask ||| irqBit irq } } := by
        rw [hc]
        show maskIrq bus p irq = _
        rw [maskIrq, if_neg hgt, irqPort_low hlow, hin, hout]
      rw [hcall]
      refine ⟨⟨h.master_icw, h.master_vector, h.slave⟩, fun i hi => ?_⟩
      show (!(p.master.mask ||| irqBit irq).getLsbD i) = _
      rw [BitVec.getLsbD_or, irqBit_getLsbD hlow hi, hc]
      unfold setLine
      show _ = Function.update (fun i => !p.master.mask.getLsbD i) irq.toNat false i
      by_cases heq : i = irq.toNat
      · rw [heq, Function.update_self]
        simp
      · rw [Function.update_of_ne heq]
        simp [heq]
    · have hcall : irqCall bus p c =
          { p with master := { p.master with mask := p.master.mask &&& ~~~irqBit irq } } := by
        rw [hc]
        show unmaskIrq bus p irq = _
        rw [unmaskIrq, if_neg hgt, irqPort_low hlow, hin, hout]
      rw [hcall]
      refine ⟨⟨h.master_icw, h.master_vector, h.slave⟩, fun i hi => ?_⟩
      show (!(p.master.mask &&& ~~~irqBit irq).getLsbD i) = _
      rw [BitVec.getLsbD_and, BitVec.getLsbD_not, irqBit_getLsbD hlow hi, hc]
      unfold setLine
      show _ = Function.update (fun i => !p.master.mask.getLsbD i) irq.toNat true i
      by_cases heq : i = irq.toNat
      · rw [heq, Function.update_self]
        simp
      · rw [Function.update_of_ne heq]
        simp [hi, heq]
  · have hsame : irqCall bus p c = p := by
      have hboth : ∀ v, p.out (irqPort irq) v = p ∨ irq > 15 := by
        intro v
        by_cases hgt : irq > 15
        · exact Or.inr hgt
        · have h15 : irq.toNat ≤ 15 := Nat.not_lt.mp hgt
          rw [irqPort_high (by omega) h15]
          exact Or.inl rfl
      rcases hcall with hc | hc
      · rw [hc]
        show maskIrq bus p irq = p
        unfold maskIrq
        split
        · rfl
        · next hgt => exact (hboth _).resolve_right hgt
      · rw [hc]
        show unmaskIrq bus p irq = p
        unfold unmaskIrq
        split
        · rfl
        · next hgt => exact (hboth _).resolve_right hgt
    rw [hsame]
    refine ⟨h, fun i hi => ?_⟩
    unfold setLine
    rw [Function.update_of_ne (by omega)]

/-- All the calls of a run. -/
theorem irqCalls_spec (calls : List IrqCall) : ∀ {p : PicPair} {f : Nat → Bool}, PicReady p →
    (∀ i, i < 8 → (!p.master.mask.getLsbD i) = f i) →
    PicReady (calls.foldl (irqCall bus) p) ∧ ∀ i, i < 8 →
      (!(calls.foldl (irqCall bus) p).master.mask.getLsbD i) = calls.foldl setLine f i := by
  induction calls with
  | nil => exact fun h hf => ⟨h, hf⟩
  | cons c calls ih =>
    intro p f h hf
    obtain ⟨hready, hbits⟩ := irqCall_spec bus h c
    refine ih hready fun i hi => ?_
    rw [hbits i hi]
    unfold setLine
    by_cases heq : i = c.line.1
    · rw [heq, Function.update_self, Function.update_self]
    · rw [Function.update_of_ne heq, Function.update_of_ne heq]
      exact hf i hi

/-- The four initialisation words of `intr_setup`. -/
theorem pic_initialised (p : Pic) (v w : BitVec 8) :
    (((p.command 0x15).data v).data w).data 0x01 = ⟨v &&& 0xF8, 0, 0x15, 0⟩ := by
  simp [Pic.command, Pic.data, Pic.fourth]

theorem picSetup_eq (p : PicPair) : picSetup p = ⟨⟨0x20, 0, 0x15, 0⟩, ⟨0x28, 0, 0x15, 0⟩⟩ := by
  have hchips : picSetup p = ⟨(((p.master.command 0x15).data 0x20).data 0x04).data 0x01,
      (((p.slave.command 0x15).data 0x28).data 0x02).data 0x01⟩ := rfl
  rw [hchips, pic_initialised, pic_initialised]
  rfl

end Step

/-! ## Runs -/

section Main

variable (bus : BitVec 16 → BitVec 8)

/-- The calls of `picMasks`. -/
def initCalls : List IrqCall :=
  (List.range 15).map (fun i => .mask (BitVec.ofNat 8 i)) ++ [.unmask 1]

theorem picInit_eq (p : PicPair) :
    picInit bus p = initCalls.foldl (irqCall bus) (picSetup p) := by
  unfold initCalls picInit picMasks
  rw [List.foldl_append, List.foldl_map]
  rfl

theorem picInit_spec (p : PicPair) :
    PicReady (picInit bus p) ∧ ∀ i, i < 8 →
      (!(picInit bus p).master.mask.getLsbD i) = keyboardOnly i := by
  have hready : PicReady (picSetup p) := by
    rw [picSetup_eq]
    exact ⟨rfl, rfl, rfl⟩
  have hopen : ∀ i, i < 8 → (!(picSetup p).master.mask.getLsbD i) = true := by
    intro i _
    rw [picSetup_eq]
    simp
  obtain ⟨hready', hbits⟩ := irqCalls_spec bus initCalls hready hopen
  rw [picInit_eq]
  refine ⟨hready', fun i hi => (hbits i hi).trans ?_⟩
  revert i
  decide

/-- Whatever the controllers were, in every run of `mask_irq` and `unmask_irq` behind `intr_init`: a
line of the first controller is open just when the last call for it opened it, the keyboard's being
the only one that is open at first; and the lines of the second one are all open just when line 2
is, whatever calls there were for them. -/
theorem pic_lines_spec (p : PicPair) (calls : List IrqCall) :
    let q := calls.foldl (irqCall bus) (picInit bus p)
    q.master.vector = 0x20 ∧ q.slave.vector = 0x28 ∧ ∀ irq,
      q.delivers irq ↔ calls.foldl setLine keyboardOnly (if irq < 8 then irq else 2) = true := by
  intro q
  obtain ⟨hready, hbits⟩ := picInit_spec bus p
  obtain ⟨hq, hlines⟩ := irqCalls_spec bus calls hready hbits
  refine ⟨hq.master_vector, ?_, fun irq => ?_⟩
  · rw [hq.slave]
  · have hline : ∀ i, i < 8 →
        (q.master.mask.getLsbD i = false ↔ calls.foldl setLine keyboardOnly i = true) := by
      intro i hi
      rw [← hlines i hi, Bool.not_eq_true']
    unfold PicPair.delivers
    by_cases hlow : irq < 8
    · rw [if_pos hlow, if_pos hlow]
      exact hline irq hlow
    · have hslave : q.slave.mask.getLsbD (irq - 8) = false := by
        rw [hq.slave]
        simp
      rw [if_neg hlow, if_neg hlow, ← hline 2 (by decide)]
      exact ⟨fun h => h.2, fun h => ⟨hslave, h⟩⟩

end Main

end OS64.X86
