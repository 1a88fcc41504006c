import OS64.Lib.ByteMem
import OS64.Lib.Lock
import Mathlib.Data.Fintype.Card
import Mathlib.Data.List.Induction

/-!
# The boot floppy of `smp.S`

Every processor comes to `code32`, takes `is_locked`, writes its APIC ID on a line of the screen of
its own and gives `is_locked` back. It then exchanges a one with `bsp_on`: who finds a zero copies
the jump at `ap_jump` to `0x8000` and sends the other processors there; who finds a one halts.

The processors go one memory access of one of them at a time (`SmpBootStep`). `.l2`, `.l3` and
`.l10` wait in loops without an effect and are passed at some time or never. A processor that a
Startup IPI sends to something else than the jump is `lost`.

With `is_locked` this is the lock of `OS64.Lib.Lock`, where each processor has one section to
perform, its line (`printLine`): the screen shows a line for each (`smp_lines`). What the leader
does is followed apart from it, instruction by instruction (`LeaderInv`, `smp_leader`). All get to
`.lh` in the end, unless they are never given the time: `smp_finishes`.
-/

namespace OS64.X86

open OS64.Lib

/-! ## A line of the screen -/

/-- What a processor works on while it has `is_locked`: `apic_id`, `vid_mem` and the screen. -/
structure PrintMem where
  apicId : BitVec 8
  vidMem : BitVec 32
  screen : ByteMem

/-- The accesses of `code32` to it. -/
inductive PrintOp
  | storeApicId (v : BitVec 8)
  | loadVidMem
  | lodsb (esi : Nat)
  | stosw (edi : BitVec 32) (ax : BitVec 16)
  | storeVidMem (v : BitVec 32)

abbrev PrintOp.Res : PrintOp → Type
  | .storeApicId _ => Unit
  | .loadVidMem => BitVec 32
  | .lodsb _ => BitVec 8
  | .stosw _ _ => Unit
  | .storeVidMem _ => Unit

/-- `text_apic_id`, in front of `apic_id`. -/
def textApicId : List (BitVec 8) := [0x41, 0x50, 0x49, 0x43, 0x20, 0x49, 0x44, 0x20]

def printExec : (o : PrintOp) → PrintMem → o.Res × PrintMem
  | .storeApicId v, m => ((), { m with apicId := v })
  | .loadVidMem, m => (m.vidMem, m)
  | .lodsb esi, m => (textApicId.getD esi m.apicId, m)
  | .stosw edi ax, m => ((), { m with screen := m.screen.write edi.toNat 2 ax.toNat })
  | .storeVidMem v, m => ((), { m with vidMem := v })

/-- `.l1`: `ecx` characters from `text_apic_id + esi` on, white on black. -/
def printLoop : (ecx esi : Nat) → (edi : BitVec 32) → Prog PrintOp PrintOp.Res (BitVec 32)
  | 0, _, edi => .ret edi
  | ecx + 1, esi, edi =>
    .op (.lodsb esi) fun al =>
      .op (.stosw edi (0x07#8 ++ (al : BitVec 8))) fun _ => printLoop ecx (esi + 1) (edi + 2)

/-- The character of the register at `0xFEE00020`. -/
def apicDigit (reg : BitVec 32) : BitVec 8 := ((reg.rotateLeft 8).setWidth 8 &&& 0xF) ||| 0x30

/-- From the local APIC's register to the new `vid_mem`. -/
def printLine (reg : BitVec 32) : Prog PrintOp PrintOp.Res Unit :=
  .op (.storeApicId (apicDigit reg)) fun _ => .op .loadVidMem fun edi => do
    let edi ← printLoop 9 0 edi
    .op (.storeVidMem (edi + (80 - 9) * 2)) fun _ => .ret ()

/-! ## The leader -/

/-- What the leader does: `rep movsb` byte by byte, ports, the ICR, and its loops. -/
inductive LeadInstr
  | movsb (k : Nat)
  | inAl (port : BitVec 16)
  | andOr (a o : BitVec 8)
  | outAl (port : BitVec 16)
  | movAl (v : BitVec 8)
  | icr (v : BitVec 32)
  | icrWait
  | pitWait
deriving DecidableEq

/-- `wait`, for `eax` microseconds: the low and the high byte of the divisor, and `.l10`. -/
def waitCode (eax : Nat) : List LeadInstr :=
  let ax : BitVec 16 := BitVec.ofNat 16 (1193182 / (100000 / eax))
  [.movAl (ax.setWidth 8), .outAl 0x42, .inAl 0x60, .movAl ((ax >>> 8).setWidth 8), .outAl 0x42,
    .pitWait]

/-- One pass of `.l4`. -/
def sipiCode : List LeadInstr := [.icr 0x000C4608, .icrWait] ++ waitCode 200

/-- Behind `xchg bsp_on`, up to `.lh`. -/
def leadCode : List LeadInstr :=
  (List.range 15).map .movsb ++
    [.inAl 0x61, .andOr 0xFD 0x01, .outAl 0x61, .movAl 0xB0, .outAl 0x43, .icr 0x000C4500,
      .icrWait] ++
      waitCode 0x10000 ++ sipiCode ++ sipiCode

/-- The delivery mode of a command: 101 is INIT, 110 Startup. -/
def icrInit (v : BitVec 32) : Prop := v &&& 0x700 = 0x500

def icrStartup (v : BitVec 32) : Prop := v &&& 0x700 = 0x600

instance (v : BitVec 32) : Decidable (icrInit v) := inferInstanceAs (Decidable (_ = _))

instance (v : BitVec 32) : Decidable (icrStartup v) := inferInstanceAs (Decidable (_ = _))

/-! ## The processors -/

/-- Where a processor is: waiting for a Startup IPI, somewhere else, at `.l0`, on its line, at the
exchange with `bsp_on`, at an instruction of the leader with its `%al`, or at `.lh`. -/
inductive SmpPlace
  | off
  | lost
  | spin
  | print (q : Prog PrintOp PrintOp.Res Unit)
  | elect
  | lead (ip : Nat) (al : BitVec 8)
  | halt

/-- The variables of the floppy's sector, the low memory, the commands sent, what the ports were
given and the processors. -/
structure SmpBoot (ι : Type) where
  isLocked : BitVec 8
  bspOn : BitVec 8
  print : PrintMem
  low : ByteMem
  sent : List (ι × BitVec 32)
  ports : List (BitVec 16 × BitVec 8)
  cpu : ι → SmpPlace

/-- What there is at `0x8000` is the jump `ljmp $0x00, $ap_start`. -/
def jumps (low : ByteMem) (apStart : BitVec 16) (a : Nat) : Prop :=
  low a = 0xEA ∧ low (a + 1) = apStart.setWidth 8 ∧ low (a + 2) = (apStart >>> 8).setWidth 8 ∧
    low (a + 3) = 0 ∧ low (a + 4) = 0

instance (low : ByteMem) (apStart : BitVec 16) (a : Nat) : Decidable (jumps low apStart a) := by
  unfold jumps
  infer_instance

section Steps

variable {ι : Type} [DecidableEq ι]

/-- A processor moved on. -/
def SmpBoot.move (s : SmpBoot ι) (i : ι) (p : SmpPlace) : SmpBoot ι :=
  { s with cpu := Function.update s.cpu i p }

/-- The low memory after an instruction of the leader. -/
def LeadInstr.store (apJump : Nat) (low : ByteMem) : LeadInstr → ByteMem
  | .movsb k => low.copy (0x8000 + k) (apJump + k) 1
  | _ => low

/-- It is one of `rep movsb`. -/
def LeadInstr.isCopy : LeadInstr → Bool
  | .movsb _ => true
  | _ => false

/-- The command it sends. -/
def LeadInstr.command : LeadInstr → Option (BitVec 32)
  | .icr v => some v
  | _ => none

/-- What it gives a port. -/
def LeadInstr.output (al : BitVec 8) : LeadInstr → Option (BitVec 16 × BitVec 8)
  | .outAl port => some (port, al)
  | _ => none

/-- `%al` after it; `v` is what a port gives. -/
def LeadInstr.next (v al : BitVec 8) : LeadInstr → BitVec 8
  | .inAl _ => v
  | .andOr a o => (al &&& a) ||| o
  | .movAl w => w
  | _ => al

/-- It by the processor `i`. INIT to all but itself resets the others. -/
def LeadInstr.exec (apJump : Nat) (i : ι) (al : BitVec 8) (s : SmpBoot ι) (instr : LeadInstr) :
    SmpBoot ι :=
  { s with
    low := instr.store apJump s.low
    sent := s.sent ++ instr.command.toList.map fun v => (i, v)
    ports := s.ports ++ (instr.output al).toList
    cpu := fun j => if (∃ v ∈ instr.command, icrInit v) ∧ j ≠ i then .off else s.cpu j }

/-- One access of one processor. `reg i` is what processor `i` finds at `0xFEE00020`, and `apJump`
and `apStart` are the addresses of these labels. -/
inductive SmpBootStep (reg : ι → BitVec 32) (apJump : Nat) (apStart : BitVec 16) :
    SmpBoot ι → SmpBoot ι → Prop
  | start {s} (i j : ι) (v : BitVec 32) (hc : s.cpu i = .off) (hsent : (j, v) ∈ s.sent)
      (hij : i ≠ j)
      (hv : icrStartup v) :
      SmpBootStep reg apJump apStart s
        (s.move i (if jumps s.low apStart ((v &&& 0xFF).toNat * 0x1000) then .spin else .lost))
  | spin {s} (i : ι) (hc : s.cpu i = .spin) :
      SmpBootStep reg apJump apStart s
        ({ s with isLocked := 0x01 }.move i
          (if s.isLocked &&& 0x1 = 0 then .print (printLine (reg i)) else .spin))
  | print {s} (i : ι) (o : PrintOp) (next : o.Res → Prog PrintOp PrintOp.Res Unit)
      (hc : s.cpu i = .print (.op o next)) :
      SmpBootStep reg apJump apStart s
        ({ s with print := (printExec o s.print).2 }.move i (.print (next (printExec o s.print).1)))
  | unlock {s} (i : ι) (hc : s.cpu i = .print (.ret ())) :
      SmpBootStep reg apJump apStart s ({ s with isLocked := 0x00 }.move i .elect)
  | elect {s} (i : ι) (hc : s.cpu i = .elect) :
      SmpBootStep reg apJump apStart s
        ({ s with bspOn := 0x01 }.move i (if s.bspOn &&& 0x1 = 0 then .lead 0 0 else .halt))
  | lead {s} (i : ι) (ip : Nat) (al v : BitVec 8) (instr : LeadInstr) (hc : s.cpu i = .lead ip al)
      (hat : leadCode[ip]? = some instr) :
      SmpBootStep reg apJump apStart s
        ((instr.exec apJump i al s).move i (.lead (ip + 1) (instr.next v al)))
  | leadEnd {s} (i : ι) (ip : Nat) (al : BitVec 8) (hc : s.cpu i = .lead ip al)
      (hat : leadCode[ip]? = none) : SmpBootStep reg apJump apStart s (s.move i .halt)

/-- The floppy's sector in memory, and one processor at work. -/
def smpBootStart (boot : ι) (m : ByteMem) (screen : ByteMem) : SmpBoot ι where
  isLocked := 0x00
  bspOn := 0x00
  print := ⟨0x00, 0xB8000, screen⟩
  low := m
  sent := []
  ports := []
  cpu := fun i => if i = boot then .spin else .off

end Steps

/-! ## The leader's code -/

section Code

/-- The commands of the first `ip` instructions. -/
def commandsOf (ip : Nat) : List (BitVec 32) := (leadCode.take ip).filterMap LeadInstr.command

/-- The low memory after them. -/
def lowOf (apJump : Nat) (m : ByteMem) (ip : Nat) : ByteMem :=
  (leadCode.take ip).foldl (LeadInstr.store apJump) m

/-- INIT, and Startup for `0x8000` twice. -/
def startCommands : List (BitVec 32) := [0x000C4500, 0x000C4608, 0x000C4608]

theorem commandsOf_isInitial (ip : Nat) : commandsOf ip <+: startCommands := by
  have hall : leadCode.filterMap LeadInstr.command = startCommands := by decide
  rw [← hall]
  exact (List.take_prefix ip leadCode).filterMap _

theorem take_next {ip : Nat} {instr : LeadInstr} (hat : leadCode[ip]? = some instr) :
    leadCode.take (ip + 1) = leadCode.take ip ++ [instr] := by
  rw [List.take_add_one, hat]
  rfl

theorem commandsOf_next {ip : Nat} {instr : LeadInstr} (hat : leadCode[ip]? = some instr) :
    commandsOf (ip + 1) = commandsOf ip ++ instr.command.toList := by
  unfold commandsOf
  rw [take_next hat, List.filterMap_append, List.filterMap_cons]
  cases instr.command <;> rfl

theorem lowOf_next (apJump : Nat) (m : ByteMem) {ip : Nat} {instr : LeadInstr}
    (hat : leadCode[ip]? = some instr) :
    lowOf apJump m (ip + 1) = instr.store apJump (lowOf apJump m ip) := by
  unfold lowOf
  rw [take_next hat, List.foldl_append]
  rfl

/-- A Startup command comes after the copy, and names the page of `0x8000`. -/
theorem startup_late {ip : Nat} {v : BitVec 32} (hmem : v ∈ commandsOf ip) (hv : icrStartup v) :
    15 ≤ ip ∧ (v &&& 0xFF).toNat * 0x1000 = 0x8000 := by
  constructor
  · by_contra hlt
    have hearly : ∀ n < 15, commandsOf n = [] := by decide
    rw [hearly ip (by omega)] at hmem
    cases hmem
  · have hin := (commandsOf_isInitial ip).subset hmem
    simp only [startCommands, List.mem_cons, List.not_mem_nil, or_false, or_self] at hin
    obtain rfl | rfl := hin
    · exact absurd hv (by decide)
    · decide

/-- INIT comes before every other command. -/
theorem init_first {ip : Nat} {v : BitVec 32} (hat : leadCode[ip]? = some (.icr v))
    (hv : icrInit v) : commandsOf ip = [] := by
  have hpre := commandsOf_isInitial (ip + 1)
  rw [commandsOf_next hat] at hpre
  generalize commandsOf ip = l at hpre
  match l, hpre with
  | [], _ => rfl
  | [a], hpre =>
    obtain ⟨t, ht⟩ := hpre
    have hsecond : v = 0x000C4608 := (List.cons.inj (List.cons.inj ht).2).1
    rw [hsecond] at hv
    exact absurd hv (by decide)
  | [a, b], hpre =>
    obtain ⟨t, ht⟩ := hpre
    have hthird : v = 0x000C4608 := (List.cons.inj (List.cons.inj (List.cons.inj ht).2).2).1
    rw [hthird] at hv
    exact absurd hv (by decide)
  | a :: b :: c :: l, hpre =>
    have hlen := hpre.length_le
    rw [List.length_append, List.length_cons, List.length_cons, List.length_cons] at hlen
    have hone : (LeadInstr.icr v).command.toList.length = 1 := rfl
    have hthree : startCommands.length = 3 := rfl
    omega

/-- `rep movsb`, as far as it got. -/
theorem copied {apJump : Nat} {m : ByteMem} (hjump : apJump + 15 ≤ 0x8000) : ∀ n, n ≤ 15 → ∀ k < n,
    (((List.range n).map .movsb).foldl (LeadInstr.store apJump) m) (0x8000 + k) = m (apJump + k) ∧
    ∀ x < 0x8000, (((List.range n).map .movsb).foldl (LeadInstr.store apJump) m) x = m x := by
  intro n
  induction n with
  | zero =>
    intro _ k hk
    omega
  | succ n ih =>
    intro hn k hk
    have hlow : ∀ x < 0x8000,
        (((List.range n).map .movsb).foldl (LeadInstr.store apJump) m) x = m x := by
      match n with
      | 0 => exact fun _ _ => rfl
      | n + 1 => exact (ih (by omega) 0 (by omega)).2
    rw [List.range_succ, List.map_append, List.foldl_append]
    simp only [List.map_cons, List.map_nil, List.foldl_cons, List.foldl_nil, LeadInstr.store]
    refine ⟨?_, fun x hx => ?_⟩
    · by_cases hkn : k = n
      · subst hkn
        unfold ByteMem.copy
        rw [if_pos (by omega), Nat.sub_self, Nat.add_zero]
        exact hlow _ (by omega)
      · rw [ByteMem.copy_apply_out (by omega)]
        exact (ih (by omega) k (by omega)).1
    · rw [ByteMem.copy_apply_out (by omega)]
      exact hlow x hx

/-- Once it is copied, the jump stays at `0x8000`. -/
theorem jumps_lowOf {apJump : Nat} {apStart : BitVec 16} {m : ByteMem}
    (hjump : apJump + 15 ≤ 0x8000)
    (hm : jumps m apStart apJump) {ip : Nat} (hip : 15 ≤ ip) :
    jumps (lowOf apJump m ip) apStart 0x8000 := by
  have hfirst : leadCode.take 15 = (List.range 15).map .movsb := by decide
  have hrest : ∀ instr ∈ leadCode.drop 15, ∀ low, instr.store apJump low = low := by
    have hnone : ∀ instr ∈ leadCode.drop 15, instr.isCopy = false := by decide
    intro instr hin low
    cases instr with
    | movsb k => cases hnone _ hin
    | _ => rfl
  have htake : leadCode.take ip = leadCode.take 15 ++ (leadCode.drop 15).take (ip - 15) := by
    rw [← List.take_add, Nat.add_sub_cancel' hip]
  have hfold : ∀ (l : List LeadInstr) (low : ByteMem), (∀ instr ∈ l, instr ∈ leadCode.drop 15) →
      l.foldl (LeadInstr.store apJump) low = low := by
    intro l
    induction l with
    | nil => exact fun _ _ => rfl
    | cons instr l ih =>
      intro low hl
      rw [List.foldl_cons, hrest instr (hl instr List.mem_cons_self)]
      exact ih low fun i hi => hl i (List.mem_cons_of_mem _ hi)
  have hlow : lowOf apJump m ip =
      ((List.range 15).map .movsb).foldl (LeadInstr.store apJump) m := by
    unfold lowOf
    rw [htake, List.foldl_append, hfirst]
    exact hfold _ _ fun instr hin => List.mem_of_mem_take hin
  have hbyte (k : Nat) (hk : k < 15) : lowOf apJump m ip (0x8000 + k) = m (apJump + k) := by
    rw [hlow]
    exact (copied hjump 15 (Nat.le_refl _) k hk).1
  unfold jumps at hm ⊢
  rw [show 0x8000 = 0x8000 + 0 from rfl, hbyte 0 (by omega), hbyte 1 (by omega), hbyte 2 (by omega),
    hbyte 3 (by omega), hbyte 4 (by omega)]
  exact hm

end Code

/-! ## Lines -/

section Lines

/-- The character in column `c` of a processor's line. -/
def lineChar (reg : BitVec 32) (c : Nat) : BitVec 8 := textApicId.getD c (apicDigit reg)

/-- Characters `chars c` for `c < n`, white on black, from `a` on, and nothing else. -/
structure Drawn (before after : ByteMem) (a n : Nat) (chars : Nat → BitVec 8) : Prop where
  char : ∀ c < n, after (a + 2 * c) = chars c
  attr : ∀ c < n, after (a + 2 * c + 1) = 0x07
  rest : ∀ x, x < a ∨ a + 2 * n ≤ x → after x = before x

/-- The word of a character. -/
theorem write_char (m : ByteMem) (a : Nat) (c : BitVec 8) :
    m.write a 2 (0x07#8 ++ c).toNat a = c ∧ m.write a 2 (0x07#8 ++ c).toNat (a + 1) = 0x07 := by
  have hword : (0x07#8 ++ c).toNat = 7 * 256 + c.toNat := by
    rw [BitVec.toNat_append, Nat.shiftLeft_eq, Nat.mul_comm, ← Nat.two_pow_add_eq_or_of_lt c.isLt]
    rfl
  have hlt := c.isLt
  constructor
  · unfold ByteMem.write
    rw [if_pos (by omega), Nat.sub_self, hword]
    apply BitVec.eq_of_toNat_eq
    rw [BitVec.toNat_ofNat]
    omega
  · unfold ByteMem.write
    rw [if_pos (by omega), Nat.add_sub_cancel_left, hword]
    apply BitVec.eq_of_toNat_eq
    rw [BitVec.toNat_ofNat]
    show (7 * 256 + c.toNat) / 256 ^ 1 % 2 ^ 8 = 7
    omega

theorem printLoop_run : ∀ (n esi : Nat) (edi : BitVec 32) {m : PrintMem},
    edi.toNat + 2 * n < 2 ^ 32 →
    ((printLoop n esi edi).run printExec m).1 = edi + BitVec.ofNat 32 (2 * n) ∧
    ((printLoop n esi edi).run printExec m).2.apicId = m.apicId ∧
    ((printLoop n esi edi).run printExec m).2.vidMem = m.vidMem ∧
    Drawn m.screen ((printLoop n esi edi).run printExec m).2.screen edi.toNat n
      fun c => textApicId.getD (esi + c) m.apicId
  | 0, esi, edi, m, _ => by
    refine ⟨(BitVec.add_zero edi).symm, rfl, rfl, ?_, ?_, fun _ _ => rfl⟩
    · exact fun c hc => absurd hc (Nat.not_lt_zero c)
    · exact fun c hc => absurd hc (Nat.not_lt_zero c)
  | n + 1, esi, edi, m, hfit => by
    have hnext : (edi + 2).toNat = edi.toNat + 2 := by
      rw [BitVec.toNat_add]
      exact Nat.mod_eq_of_lt (by show edi.toNat + 2 < 2 ^ 32; omega)
    obtain ⟨hedi, hid, hvid, hdrawn⟩ := printLoop_run n (esi + 1) (edi + 2)
      (m := { m with screen :=
        m.screen.write edi.toNat 2 (0x07#8 ++ textApicId.getD esi m.apicId).toNat })
      (by omega)
    rw [hnext] at hdrawn
    refine ⟨?_, hid, hvid, ?_, ?_, ?_⟩
    · refine hedi.trans ?_
      rw [BitVec.add_assoc]
      congr 1
      apply BitVec.eq_of_toNat_eq
      rw [BitVec.toNat_add, BitVec.toNat_ofNat, BitVec.toNat_ofNat,
        show (2 : BitVec 32).toNat = 2 from rfl]
      omega
    · intro c hc
      match c with
      | 0 =>
        refine (hdrawn.rest _ (Or.inl (by omega))).trans ?_
        exact (write_char m.screen edi.toNat _).1
      | c + 1 =>
        have hchar := hdrawn.char c (by omega)
        rw [show edi.toNat + 2 + 2 * c = edi.toNat + 2 * (c + 1) by omega,
          show esi + 1 + c = esi + (c + 1) by omega] at hchar
        exact hchar
    · intro c hc
      match c with
      | 0 =>
        refine (hdrawn.rest _ (Or.inl (by omega))).trans ?_
        exact (write_char m.screen edi.toNat _).2
      | c + 1 =>
        have hattr := hdrawn.attr c (by omega)
        rw [show edi.toNat + 2 + 2 * c + 1 = edi.toNat + 2 * (c + 1) + 1 by omega] at hattr
        exact hattr
    · intro x hx
      refine (hdrawn.rest x (by omega)).trans ?_
      exact ByteMem.write_apply_out (by omega)

/-- A processor's section draws its line and moves `vid_mem` to the next one. -/
theorem printLine_run (reg : BitVec 32) {m : PrintMem} (hfit : m.vidMem.toNat + 160 < 2 ^ 32) :
    ((printLine reg).run printExec m).2.vidMem.toNat = m.vidMem.toNat + 160 ∧
    Drawn m.screen ((printLine reg).run printExec m).2.screen m.vidMem.toNat 9 (lineChar reg) := by
  obtain ⟨hedi, -, -, hdrawn⟩ := printLoop_run 9 0 m.vidMem
    (m := { m with apicId := apicDigit reg }) (by omega)
  have hrun : ((printLine reg).run printExec m).2 =
      { ((printLoop 9 0 m.vidMem).run printExec { m with apicId := apicDigit reg }).2 with
        vidMem :=
          ((printLoop 9 0 m.vidMem).run printExec { m with apicId := apicDigit reg }).1 +
            142 } := by
    unfold printLine
    simp only [Prog.run_op, Prog.run_bind, Prog.run_ret, printExec]
    rfl
  rw [hrun]
  generalize (printLoop 9 0 m.vidMem).run printExec { m with apicId := apicDigit reg } = r
    at hedi hdrawn
  refine ⟨?_, ?_⟩
  · dsimp only
    rw [hedi, BitVec.add_assoc, BitVec.toNat_add,
      show (BitVec.ofNat 32 (2 * 9) + 142).toNat = 160 from rfl]
    exact Nat.mod_eq_of_lt hfit
  · have hzero (c : Nat) : 0 + c = c := Nat.zero_add c
    simp only [hzero] at hdrawn
    exact hdrawn

/-- The lines of the processors in `order`, one under the other, and nothing else. -/
structure Lines {ι : Type} (reg : ι → BitVec 32) (before : ByteMem) (order : List ι)
    (m : PrintMem) :
    Prop where
  vidMem : m.vidMem.toNat = 0xB8000 + 160 * order.length
  char : ∀ k (hk : k < order.length), ∀ c < 9,
    m.screen (0xB8000 + 160 * k + 2 * c) = lineChar (reg order[k]) c ∧
      m.screen (0xB8000 + 160 * k + 2 * c + 1) = 0x07
  rest : ∀ x, (∀ k < order.length, x < 0xB8000 + 160 * k ∨ 0xB8000 + 160 * k + 18 ≤ x) →
    m.screen x = before x

theorem lines_inOrder {ι : Type} (reg : ι → BitVec 32) (screen : ByteMem) (order : List ι)
    (hfit : 0xB8000 + 160 * order.length < 2 ^ 32) :
    Lines reg screen order
      (inOrder printExec (fun i => printLine (reg i)) ⟨0x00, 0xB8000, screen⟩ order) := by
  induction order using List.reverseRecOn with
  | nil =>
    refine ⟨rfl, ?_, fun _ _ => rfl⟩
    exact fun k hk => absurd hk (Nat.not_lt_zero k)
  | append_singleton order i ih =>
    rw [List.length_append, List.length_singleton] at hfit
    obtain ⟨hvid, hchar, hrest⟩ := ih (by omega)
    rw [inOrder_append]
    obtain ⟨hvid', hdrawn⟩ := printLine_run (reg i)
      (m := inOrder printExec (fun i => printLine (reg i)) ⟨0x00, 0xB8000, screen⟩ order)
      (by rw [hvid]; omega)
    rw [hvid] at hvid' hdrawn
    refine ⟨?_, ?_, ?_⟩
    · rw [hvid', List.length_append, List.length_singleton]
      omega
    · intro k hk c hc
      rw [List.length_append, List.length_singleton] at hk
      by_cases hlast : k = order.length
      · subst hlast
        rw [List.getElem_concat_length rfl]
        exact ⟨hdrawn.char c hc, hdrawn.attr c hc⟩
      · rw [List.getElem_append_left (by omega), hdrawn.rest _ (Or.inl (by omega)),
          hdrawn.rest _ (Or.inl (by omega))]
        exact hchar k (by omega) c hc
    · intro x hx
      rw [List.length_append, List.length_singleton] at hx
      have hown := hx order.length (by omega)
      rw [hdrawn.rest x (by omega)]
      exact hrest x fun k hk => hx k (by omega)

end Lines

/-! ## The protocol -/

section Protocol

variable {ι : Type} {reg : ι → BitVec 32} {apJump : Nat} {apStart : BitVec 16} {boot : ι}
  {m screen : ByteMem} {s s' : SmpBoot ι} {ip : Nat}

/-- A processor that is not the boot processor: not started, or started by a command that was sent,
and then never lost and never at the leader's code. -/
def FollowerAt (commands : List (BitVec 32)) : SmpPlace → Prop
  | .off => True
  | .lost => False
  | .lead _ _ => False
  | _ => ∃ v ∈ commands, icrStartup v

/-- The boot processor at the instruction `ip` of the leader, and `bsp_on` with it. Before the
exchange `ip` is 0. -/
def LeaderAt (bspOn : BitVec 8) (ip : Nat) : SmpPlace → Prop
  | .lead ip' _ => ip' = ip ∧ bspOn = 0x01
  | .halt => ip = leadCode.length ∧ bspOn = 0x01
  | .off => False
  | .lost => False
  | _ => ip = 0 ∧ bspOn = 0x00

/-- What the boot processor has done as the leader, and where the others are. -/
structure LeaderInv (boot : ι) (apJump : Nat) (m : ByteMem) (s : SmpBoot ι) (ip : Nat) : Prop where
  leader : LeaderAt s.bspOn ip (s.cpu boot)
  within : ip ≤ leadCode.length
  sent : s.sent = (commandsOf ip).map fun v => (boot, v)
  low : s.low = lowOf apJump m ip
  others : ∀ i, i ≠ boot → FollowerAt (commandsOf ip) (s.cpu i)
  locked : s.isLocked = 0x00 ∨ s.isLocked = 0x01

theorem FollowerAt.mono {ip ip' : Nat} {p : SmpPlace} (hle : ip ≤ ip')
    (h : FollowerAt (commandsOf ip) p) : FollowerAt (commandsOf ip') p := by
  have hsub : ∀ v ∈ commandsOf ip, v ∈ commandsOf ip' := by
    intro v hv
    exact ((List.take_prefix_take_left hle).filterMap _).subset hv
  cases p with
  | off => trivial
  | lost => exact h
  | lead _ _ => exact h
  | _ =>
    obtain ⟨v, hv, hstart⟩ := h
    exact ⟨v, hsub v hv, hstart⟩

/-- Somebody besides the boot processor is at work only after a Startup command, and `bsp_on` is
taken then. -/
theorem LeaderInv.taken (hs : LeaderInv boot apJump m s ip) {v : BitVec 32}
    (hv : v ∈ commandsOf ip) (hstart : icrStartup v) : s.bspOn = 0x01 := by
  have hip := (startup_late hv hstart).1
  have hleader := hs.leader
  unfold LeaderAt at hleader
  split at hleader <;> first | exact hleader.2 | exact hleader.elim | omega

/-- Where a processor is with regard to `is_locked`. -/
def SmpPlace.phase (reg : BitVec 32) : SmpPlace → Phase PrintOp PrintOp.Res Unit
  | .off => .outside none
  | .lost => .outside none
  | .spin => .waiting (printLine reg)
  | .print q => .inside q
  | _ => .outside (some ())

/-- The floppy as a lock with threads. -/
def SmpBoot.locked (reg : ι → BitVec 32) (s : SmpBoot ι) :
    Locked ι PrintOp PrintOp.Res Unit PrintMem :=
  ⟨decide (s.isLocked &&& 0x1 = 0), s.print, fun i => (s.cpu i).phase (reg i)⟩

/-- Before the exchange with `bsp_on`. -/
def SmpPlace.Early : SmpPlace → Prop
  | .spin => True
  | .print _ => True
  | .elect => True
  | _ => False

/-- A place that fits the processor `i`. -/
def PlaceFits (boot : ι) (bspOn : BitVec 8) (ip : Nat) (i : ι) (p : SmpPlace) : Prop :=
  (i = boot → LeaderAt bspOn ip p) ∧ (i ≠ boot → FollowerAt (commandsOf ip) p)

theorem LeaderInv.fits (hs : LeaderInv boot apJump m s ip) (i : ι) :
    PlaceFits boot s.bspOn ip i (s.cpu i) :=
  ⟨fun heq => heq ▸ hs.leader, hs.others i⟩

/-- One place before the exchange fits where another does. -/
theorem PlaceFits.early {bspOn : BitVec 8} {ip : Nat} {i : ι} {p p' : SmpPlace}
    (h : PlaceFits boot bspOn ip i p) (hp : p.Early) (hp' : p'.Early) :
    PlaceFits boot bspOn ip i p' := by
  have hleader : LeaderAt bspOn ip p ↔ LeaderAt bspOn ip p' := by
    cases p <;> cases p' <;> first | exact hp.elim | exact hp'.elim | exact Iff.rfl
  have hfollow : FollowerAt (commandsOf ip) p ↔ FollowerAt (commandsOf ip) p' := by
    cases p <;> cases p' <;> first | exact hp.elim | exact hp'.elim | exact Iff.rfl
  exact ⟨fun heq => hleader.mp (h.1 heq), fun hne => hfollow.mp (h.2 hne)⟩

theorem leaderInv_start (boot : ι) (apJump : Nat) (m screen : ByteMem) [DecidableEq ι] :
    LeaderInv boot apJump m (smpBootStart boot m screen) 0 where
  leader := by
    unfold smpBootStart
    dsimp only
    rw [if_pos rfl]
    exact ⟨rfl, rfl⟩
  within := Nat.zero_le _
  sent := rfl
  low := rfl
  others := by
    intro i hi
    unfold smpBootStart
    dsimp only
    rw [if_neg hi]
    trivial
  locked := Or.inl rfl

/-- A processor that gets a Startup command finds the jump. -/
theorem LeaderInv.started (hs : LeaderInv boot apJump m s ip) (hjump : apJump + 15 ≤ 0x8000)
    (hm : jumps m apStart apJump) {j : ι} {v : BitVec 32} (hsent : (j, v) ∈ s.sent)
    (hv : icrStartup v) :
    v ∈ commandsOf ip ∧ jumps s.low apStart ((v &&& 0xFF).toNat * 0x1000) := by
  rw [hs.sent] at hsent
  obtain ⟨w, hw, hpair⟩ := List.mem_map.mp hsent
  cases hpair
  obtain ⟨hip, haddr⟩ := startup_late hw hv
  rw [haddr, hs.low]
  exact ⟨hw, jumps_lowOf hjump hm hip⟩

/-- INIT finds the others waiting. -/
theorem LeaderInv.init_idle (hs : LeaderInv boot apJump m s ip) {instr : LeadInstr}
    (hat : leadCode[ip]? = some instr) (hinit : ∃ v ∈ instr.command, icrInit v) {j : ι}
    (hj : j ≠ boot) : s.cpu j = .off := by
  obtain ⟨v, hv, hvinit⟩ := hinit
  have hinstr : instr = .icr v := by
    cases instr <;> cases hv
    rfl
  rw [hinstr] at hat
  have hfollow := hs.others j hj
  rw [init_first hat hvinit] at hfollow
  unfold FollowerAt at hfollow
  split at hfollow
  · assumption
  · exact hfollow.elim
  · exact hfollow.elim
  · obtain ⟨w, hw, -⟩ := hfollow
    cases hw

variable [DecidableEq ι]

/-- A processor moves on while the leader does not. -/
theorem LeaderInv.moved (hs : LeaderInv boot apJump m s ip) {i : ι} {p : SmpPlace}
    (hp : PlaceFits boot s.bspOn ip i p) {isLocked : BitVec 8}
    (hlocked : isLocked = 0x00 ∨ isLocked = 0x01) (print : PrintMem) :
    LeaderInv boot apJump m
      { s with isLocked := isLocked, print := print, cpu := Function.update s.cpu i p } ip where
  leader := by
    dsimp only
    by_cases hi : i = boot
    · rw [hi, Function.update_self]
      exact hp.1 hi
    · rw [Function.update_of_ne (Ne.symm hi)]
      exact hs.leader
  within := hs.within
  sent := hs.sent
  low := hs.low
  others := by
    intro j hj
    dsimp only
    by_cases hji : j = i
    · subst hji
      rw [Function.update_self]
      exact hp.2 hj
    · rw [Function.update_of_ne hji]
      exact hs.others j hj
  locked := hlocked

/-- The boot processor finds `bsp_on` free. -/
theorem LeaderInv.elected (hs : LeaderInv boot apJump m s 0) :
    LeaderInv boot apJump m ({ s with bspOn := 0x01 }.move boot (.lead 0 0)) 0 where
  leader := by
    unfold SmpBoot.move
    dsimp only
    rw [Function.update_self]
    exact ⟨rfl, rfl⟩
  within := hs.within
  sent := hs.sent
  low := hs.low
  others := by
    intro j hj
    unfold SmpBoot.move
    dsimp only
    rw [Function.update_of_ne hj]
    exact hs.others j hj
  locked := hs.locked

/-- The processor that is at the leader's code is the boot processor. -/
theorem LeaderInv.leads (hs : LeaderInv boot apJump m s ip) {i : ι} {ip' : Nat} {al : BitVec 8}
    (hc : s.cpu i = .lead ip' al) : i = boot ∧ ip' = ip ∧ s.bspOn = 0x01 := by
  by_cases hi : i = boot
  · have hleader := hs.leader
    rw [← hi, hc] at hleader
    exact ⟨hi, hleader⟩
  · have hfollow := hs.others i hi
    rw [hc] at hfollow
    exact hfollow.elim

/-- So no instruction of the leader changes where another processor is. -/
theorem LeaderInv.exec_cpu (hs : LeaderInv boot apJump m s ip) {instr : LeadInstr}
    (hat : leadCode[ip]? = some instr) (al : BitVec 8) :
    (instr.exec apJump boot al s).cpu = s.cpu := by
  funext j
  unfold LeadInstr.exec
  dsimp only
  split
  · next hinit => exact (hs.init_idle hat hinit.1 hinit.2).symm
  · rfl

/-- An instruction of the leader. -/
theorem LeaderInv.lead (hs : LeaderInv boot apJump m s ip) {instr : LeadInstr} {al al' : BitVec 8}
    (hc : s.cpu boot = .lead ip al) (hat : leadCode[ip]? = some instr) :
    LeaderInv boot apJump m ((instr.exec apJump boot al s).move boot (.lead (ip + 1) al'))
      (ip + 1) where
  leader := by
    unfold SmpBoot.move
    dsimp only
    rw [Function.update_self]
    exact ⟨rfl, (hs.leads hc).2.2⟩
  within := by
    obtain ⟨hlt, -⟩ := List.getElem?_eq_some_iff.mp hat
    exact hlt
  sent := by
    show s.sent ++ _ = _
    rw [hs.sent, commandsOf_next hat, List.map_append]
  low := by
    show instr.store apJump s.low = _
    rw [hs.low, lowOf_next apJump m hat]
  others := by
    intro j hj
    unfold SmpBoot.move
    dsimp only
    rw [Function.update_of_ne hj, hs.exec_cpu hat]
    exact (hs.others j hj).mono (Nat.le_succ ip)
  locked := hs.locked

theorem smp_locked_put (s : SmpBoot ι) (i : ι) (p : SmpPlace) (isLocked : BitVec 8)
    (print : PrintMem) :
    SmpBoot.locked reg
      { s with isLocked := isLocked, print := print, cpu := Function.update s.cpu i p } =
      ⟨decide (isLocked &&& 0x1 = 0), print,
        Function.update (s.locked reg).thread i (p.phase (reg i))⟩ := by
  have hthread : (fun j => (Function.update s.cpu i p j).phase (reg j)) =
      Function.update (s.locked reg).thread i (p.phase (reg i)) := by
    funext j
    by_cases hji : j = i
    · rw [hji, Function.update_self, Function.update_self]
    · rw [Function.update_of_ne hji, Function.update_of_ne hji]
      rfl
  rw [← hthread]
  rfl

/-- A processor where it was, with regard to `is_locked`. -/
theorem smp_locked_same {i : ι} {p : SmpPlace} (hp : p.phase (reg i) = (s.cpu i).phase (reg i)) :
    SmpBoot.locked reg { s with cpu := Function.update s.cpu i p } = s.locked reg := by
  rw [smp_locked_put s i p s.isLocked s.print, hp, show (s.cpu i).phase (reg i) =
    (s.locked reg).thread i from rfl, Function.update_eq_self]
  rfl

/-- One access: the leader's invariant stays, and to `is_locked` it is nothing or a step. -/
theorem smp_step (hjump : apJump + 15 ≤ 0x8000) (hm : jumps m apStart apJump)
    (hs : LeaderInv boot apJump m s ip) (hstep : SmpBootStep reg apJump apStart s s') :
    ∃ ip', LeaderInv boot apJump m s' ip' ∧
      (s'.locked reg = s.locked reg ∨
        LockStep printExec (once fun i => printLine (reg i)) (s.locked reg) (s'.locked reg)) := by
  have hthread {i : ι} {p : SmpPlace} (hc : s.cpu i = p) :
      (s.locked reg).thread i = p.phase (reg i) := by
    rw [← hc]
    rfl
  cases hstep with
  | start i j v hc hsent hij hv =>
    obtain ⟨hv', hfound⟩ := hs.started hjump hm hsent hv
    rw [if_pos hfound]
    have hfits := hs.fits i
    rw [hc] at hfits
    have hnew : PlaceFits boot s.bspOn ip i .spin :=
      ⟨fun hi => (hfits.1 hi).elim, fun _ => ⟨v, hv', hv⟩⟩
    refine ⟨ip, hs.moved hnew hs.locked s.print, Or.inr ?_⟩
    unfold SmpBoot.move
    rw [smp_locked_put s i .spin s.isLocked s.print]
    exact LockStep.ask i none _ (hthread hc) ⟨rfl, rfl⟩
  | spin i hc =>
    have hfits := hs.fits i
    rw [hc] at hfits
    obtain hfree | htaken := hs.locked
    · rw [if_pos (by rw [hfree]; rfl)]
      have hnew : PlaceFits boot s.bspOn ip i (.print (printLine (reg i))) :=
        hfits.early trivial trivial
      refine ⟨ip, hs.moved hnew (Or.inr rfl) s.print, Or.inr ?_⟩
      unfold SmpBoot.move
      dsimp only
      rw [smp_locked_put s i (.print (printLine (reg i))) 0x01 s.print]
      exact LockStep.take i _ (hthread hc) (decide_eq_true (by rw [hfree]; rfl))
    · rw [if_neg (by rw [htaken]; decide)]
      refine ⟨ip, hs.moved hfits (Or.inr rfl) s.print, Or.inl ?_⟩
      have hsame : { s with isLocked := 0x01 } = s := by
        rw [← htaken]
      rw [hsame]
      exact smp_locked_same (by rw [hc])
  | print i o next hc =>
    have hfits := hs.fits i
    rw [hc] at hfits
    have hnew : PlaceFits boot s.bspOn ip i (.print (next (printExec o s.print).1)) :=
      hfits.early trivial trivial
    refine ⟨ip, hs.moved hnew hs.locked _, Or.inr ?_⟩
    unfold SmpBoot.move
    dsimp only
    rw [smp_locked_put s i _ s.isLocked _]
    exact LockStep.work i o next (hthread hc)
  | unlock i hc =>
    have hfits := hs.fits i
    rw [hc] at hfits
    have hnew : PlaceFits boot s.bspOn ip i .elect := hfits.early trivial trivial
    refine ⟨ip, hs.moved hnew (Or.inl rfl) s.print, Or.inr ?_⟩
    unfold SmpBoot.move
    dsimp only
    rw [smp_locked_put s i .elect 0x00 s.print]
    exact LockStep.leave i () (hthread hc)
  | elect i hc =>
    by_cases hi : i = boot
    · subst hi
      obtain ⟨hip, hfree⟩ : ip = 0 ∧ s.bspOn = 0x00 := by
        have hleader := hs.leader
        rwa [hc] at hleader
      subst hip
      rw [if_pos (by rw [hfree]; rfl)]
      exact ⟨0, hs.elected, Or.inl (smp_locked_same (by rw [hc]; rfl))⟩
    · obtain ⟨v, hv, hstart⟩ : ∃ v ∈ commandsOf ip, icrStartup v := by
        have hfollow := hs.others i hi
        rwa [hc] at hfollow
      have htaken := hs.taken hv hstart
      rw [if_neg (by rw [htaken]; decide), show { s with bspOn := 0x01 } = s by rw [← htaken]]
      have hnew : PlaceFits boot s.bspOn ip i .halt :=
        ⟨fun heq => absurd heq hi, fun _ => ⟨v, hv, hstart⟩⟩
      exact ⟨ip, hs.moved hnew hs.locked s.print, Or.inl (smp_locked_same (by rw [hc]; rfl))⟩
  | lead i ip' al v instr hc hat =>
    obtain ⟨rfl, rfl, -⟩ := hs.leads hc
    refine ⟨ip' + 1, hs.lead hc hat, Or.inl ?_⟩
    have hsame : SmpBoot.locked reg
        { s with cpu := Function.update s.cpu i (.lead (ip' + 1) (instr.next v al)) } =
        s.locked reg := smp_locked_same (by rw [hc]; rfl)
    rw [← hs.exec_cpu hat al] at hsame
    exact hsame
  | leadEnd i ip' al hc hat =>
    obtain ⟨rfl, rfl, hbsp⟩ := hs.leads hc
    have hend : ip' = leadCode.length :=
      Nat.le_antisymm hs.within (List.getElem?_eq_none_iff.mp hat)
    have hnew : PlaceFits i s.bspOn ip' i .halt :=
      ⟨fun _ => ⟨hend, hbsp⟩, fun hne => absurd rfl hne⟩
    exact ⟨ip', hs.moved hnew hs.locked s.print, Or.inl (smp_locked_same (by rw [hc]; rfl))⟩

/-- At the start the boot processor has asked for its line. -/
theorem smp_locked_start :
    (smpBootStart boot m screen).locked reg =
      ⟨true, ⟨0x00, 0xB8000, screen⟩,
        Function.update (fun _ => .outside none) boot (.waiting (printLine (reg boot)))⟩ := by
  have hthread : (fun i => (if i = boot then SmpPlace.spin else .off).phase (reg i)) =
      Function.update (fun _ => .outside none) boot (.waiting (printLine (reg boot))) := by
    funext i
    by_cases hi : i = boot
    · rw [hi, if_pos rfl, Function.update_self]
      rfl
    · rw [if_neg hi, Function.update_of_ne hi]
      rfl
  have hfree : decide ((smpBootStart boot m screen).isLocked &&& 0x1 = 0) = true :=
    decide_eq_true (show (0x00 : BitVec 8) &&& 0x1 = 0 by decide)
  unfold SmpBoot.locked
  rw [hfree, ← hthread]
  rfl

/-- A run keeps the leader's invariant and is a run of `is_locked`. -/
theorem smp_run (hjump : apJump + 15 ≤ 0x8000) (hm : jumps m apStart apJump)
    (hrun : Relation.ReflTransGen (SmpBootStep reg apJump apStart) (smpBootStart boot m screen) s) :
    (∃ ip, LeaderInv boot apJump m s ip) ∧
      Relation.ReflTransGen (LockStep printExec (once fun i => printLine (reg i)))
        ⟨true, ⟨0x00, 0xB8000, screen⟩, fun _ => .outside none⟩ (s.locked reg) := by
  induction hrun with
  | refl =>
    refine ⟨⟨0, leaderInv_start boot apJump m screen⟩, .single ?_⟩
    rw [smp_locked_start]
    exact LockStep.ask boot none _ rfl ⟨rfl, rfl⟩
  | tail _ hlast ih =>
    obtain ⟨⟨ip, hinv⟩, hlock⟩ := ih
    obtain ⟨ip', hinv', hstep⟩ := smp_step hjump hm hinv hlast
    refine ⟨⟨ip', hinv'⟩, ?_⟩
    obtain hsame | hnext := hstep
    · rw [hsame]
      exact hlock
    · exact hlock.tail hnext

/-- Going on while every processor but `i` stays where it is. -/
def GoesOn (reg : ι → BitVec 32) (apJump : Nat) (apStart : BitVec 16) (i : ι) (s s' : SmpBoot ι) :
    Prop :=
  Relation.ReflTransGen (SmpBootStep reg apJump apStart) s s' ∧ ∀ j, j ≠ i → s'.cpu j = s.cpu j

theorem GoesOn.refl (i : ι) (s : SmpBoot ι) : GoesOn reg apJump apStart i s s :=
  ⟨.refl, fun _ _ => rfl⟩

theorem GoesOn.trans {i : ι} {s₁ s₂ s₃ : SmpBoot ι} (h₁ : GoesOn reg apJump apStart i s₁ s₂)
    (h₂ : GoesOn reg apJump apStart i s₂ s₃) : GoesOn reg apJump apStart i s₁ s₃ :=
  ⟨h₁.1.trans h₂.1, fun j hj => (h₂.2 j hj).trans (h₁.2 j hj)⟩

/-- One step of the processor itself. -/
theorem GoesOn.step {i : ι} {s₀ : SmpBoot ι} {p : SmpPlace}
    (hstep : SmpBootStep reg apJump apStart s (s₀.move i p)) (hcpu : s₀.cpu = s.cpu) :
    GoesOn reg apJump apStart i s (s₀.move i p) ∧ (s₀.move i p).cpu i = p := by
  refine ⟨⟨.single hstep, fun j hj => ?_⟩, Function.update_self ..⟩
  unfold SmpBoot.move
  dsimp only
  rw [Function.update_of_ne hj, hcpu]

/-- A processor on its line gets to the exchange with `bsp_on`. -/
theorem print_alone {i : ι} (q : Prog PrintOp PrintOp.Res Unit) (hc : s.cpu i = .print q) :
    ∃ s', GoesOn reg apJump apStart i s s' ∧ s'.cpu i = .elect ∧ s'.isLocked = 0x00 := by
  induction q generalizing s with
  | ret a =>
    have hstep : SmpBootStep reg apJump apStart s _ := .unlock i hc
    obtain ⟨hgo, hat⟩ := GoesOn.step hstep rfl
    exact ⟨_, hgo, hat, rfl⟩
  | op o next ih =>
    have hstep : SmpBootStep reg apJump apStart s _ := .print i o next hc
    obtain ⟨hgo, hat⟩ := GoesOn.step hstep rfl
    obtain ⟨s', hgo', hend⟩ := ih _ hat
    exact ⟨s', hgo.trans hgo', hend⟩

/-- The leader gets to `.lh`. -/
theorem lead_alone (n : Nat) : ∀ {ip : Nat} {al : BitVec 8} {s : SmpBoot ι},
    LeaderInv boot apJump m s ip → s.cpu boot = .lead ip al → leadCode.length - ip = n →
    ∃ s', GoesOn reg apJump apStart boot s s' ∧ s'.cpu boot = .halt ∧ s'.isLocked = s.isLocked := by
  induction n with
  | zero =>
    intro ip al s hs hc hleft
    have hstep : SmpBootStep reg apJump apStart s _ :=
      .leadEnd boot ip al hc (List.getElem?_eq_none (by omega))
    obtain ⟨hgo, hat⟩ := GoesOn.step hstep rfl
    exact ⟨_, hgo, hat, rfl⟩
  | succ n ih =>
    intro ip al s hs hc hleft
    have hlt : ip < leadCode.length := by omega
    have hinstr : leadCode[ip]? = some leadCode[ip] := List.getElem?_eq_getElem hlt
    have hstep : SmpBootStep reg apJump apStart s _ := .lead boot ip al 0 leadCode[ip] hc hinstr
    obtain ⟨hgo, hat⟩ := GoesOn.step hstep (hs.exec_cpu hinstr al)
    obtain ⟨s', hgo', hend, hsame⟩ := ih (hs.lead hc hinstr) hat (by omega)
    exact ⟨s', hgo.trans hgo', hend, hsame⟩

/-- At the exchange with `bsp_on`, a processor gets to `.lh`, the boot processor over the leader's
code. -/
theorem elect_alone {i : ι} (hs : LeaderInv boot apJump m s ip) (hc : s.cpu i = .elect) :
    ∃ s', GoesOn reg apJump apStart i s s' ∧ s'.cpu i = .halt ∧ s'.isLocked = s.isLocked := by
  have hstep : SmpBootStep reg apJump apStart s _ := .elect i hc
  by_cases hi : i = boot
  · subst hi
    obtain ⟨hip, hfree⟩ : ip = 0 ∧ s.bspOn = 0x00 := by
      have hleader := hs.leader
      rwa [hc] at hleader
    subst hip
    rw [if_pos (by rw [hfree]; rfl)] at hstep
    obtain ⟨hgo, hat⟩ := GoesOn.step hstep rfl
    obtain ⟨s', hgo', hend⟩ := lead_alone _ hs.elected hat rfl
    exact ⟨s', hgo.trans hgo', hend⟩
  · obtain ⟨v, hv, hstart⟩ : ∃ v ∈ commandsOf ip, icrStartup v := by
      have hfollow := hs.others i hi
      rwa [hc] at hfollow
    rw [if_neg (by rw [hs.taken hv hstart]; decide)] at hstep
    obtain ⟨hgo, hat⟩ := GoesOn.step hstep rfl
    exact ⟨_, hgo, hat, rfl⟩

/-- While `is_locked` is free, the boot processor gets to `.lh`, and once it is there every other
one does. -/
theorem halt_alone (hjump : apJump + 15 ≤ 0x8000) (hm : jumps m apStart apJump)
    (hrun : Relation.ReflTransGen (SmpBootStep reg apJump apStart) (smpBootStart boot m screen) s)
    {i : ι} (hfree : s.isLocked = 0x00) (hboot : i ≠ boot → s.cpu boot = .halt) :
    ∃ s', GoesOn reg apJump apStart i s s' ∧ s'.cpu i = .halt ∧ s'.isLocked = 0x00 := by
  have helect {s₁ : SmpBoot ι} (hgo : GoesOn reg apJump apStart i s s₁) (hc : s₁.cpu i = .elect)
      (hfree₁ : s₁.isLocked = 0x00) :
      ∃ s', GoesOn reg apJump apStart i s s' ∧ s'.cpu i = .halt ∧ s'.isLocked = 0x00 := by
    obtain ⟨⟨ip, hs₁⟩, -⟩ := smp_run hjump hm (hrun.trans hgo.1)
    obtain ⟨s', hgo', hat, hsame⟩ : ∃ s', GoesOn reg apJump apStart i s₁ s' ∧ s'.cpu i = .halt ∧
        s'.isLocked = s₁.isLocked := elect_alone hs₁ hc
    exact ⟨s', hgo.trans hgo', hat, hsame.trans hfree₁⟩
  have hspin {s₁ : SmpBoot ι} (hgo : GoesOn reg apJump apStart i s s₁) (hc : s₁.cpu i = .spin)
      (hfree₁ : s₁.isLocked = 0x00) :
      ∃ s', GoesOn reg apJump apStart i s s' ∧ s'.cpu i = .halt ∧ s'.isLocked = 0x00 := by
    have hstep : SmpBootStep reg apJump apStart s₁ _ := .spin i hc
    rw [if_pos (by rw [hfree₁]; rfl)] at hstep
    obtain ⟨hgo₂, hat₂⟩ := GoesOn.step hstep rfl
    obtain ⟨s₃, hgo₃, hat₃, hfree₃⟩ := print_alone _ hat₂
    exact helect ((hgo.trans hgo₂).trans hgo₃) hat₃ hfree₃
  obtain ⟨⟨ip, hs⟩, -⟩ := smp_run hjump hm hrun
  cases hc : s.cpu i with
  | off =>
    -- the leader is done, so a Startup command has been sent
    have hi : i ≠ boot := by
      intro heq
      have hleader := hs.leader
      rw [← heq, hc] at hleader
      exact hleader
    have hip : ip = leadCode.length := by
      have hleader := hs.leader
      rw [hboot hi] at hleader
      exact hleader.1
    have hsent : (boot, 0x000C4608) ∈ s.sent := by
      rw [hs.sent, hip]
      exact List.mem_map_of_mem
        (show (0x000C4608 : BitVec 32) ∈ commandsOf leadCode.length by decide)
    have hv : icrStartup 0x000C4608 := by decide
    have hstep : SmpBootStep reg apJump apStart s _ := .start i boot 0x000C4608 hc hsent hi hv
    rw [if_pos (hs.started hjump hm hsent hv).2] at hstep
    obtain ⟨hgo, hat⟩ := GoesOn.step hstep rfl
    exact hspin hgo hat hfree
  | lost =>
    have hfits := hs.fits i
    rw [hc] at hfits
    by_cases hi : i = boot
    · exact (hfits.1 hi).elim
    · exact (hfits.2 hi).elim
  | spin => exact hspin (.refl i s) hc hfree
  | print q =>
    obtain ⟨s₁, hgo, hat, hfree₁⟩ := print_alone q hc
    exact helect hgo hat hfree₁
  | elect => exact helect (.refl i s) hc hfree
  | lead ip' al =>
    obtain ⟨rfl, rfl, -⟩ := hs.leads hc
    obtain ⟨s', hgo, hat, hsame⟩ := lead_alone _ hs hc rfl
    exact ⟨s', hgo, hat, hsame.trans hfree⟩
  | halt => exact ⟨s, .refl i s, hc, hfree⟩

/-- Somebody is on its line while `is_locked` is taken, and can leave. -/
theorem unlock_alone (hjump : apJump + 15 ≤ 0x8000) (hm : jumps m apStart apJump)
    (hrun : Relation.ReflTransGen (SmpBootStep reg apJump apStart) (smpBootStart boot m screen) s) :
    ∃ s', Relation.ReflTransGen (SmpBootStep reg apJump apStart) s s' ∧ s'.isLocked = 0x00 := by
  obtain ⟨⟨ip, hs⟩, hlock⟩ := smp_run hjump hm hrun
  obtain hfree | htaken := hs.locked
  · exact ⟨s, .refl, hfree⟩
  · obtain ⟨-, -, -, -, hheld, -, -⟩ := lock_once hlock
    obtain ⟨i, q, hi⟩ := hheld (decide_eq_false (by rw [htaken]; decide))
    have hc : s.cpu i = .print q := by
      have hphase : (s.cpu i).phase (reg i) = .inside q := hi
      cases hc : s.cpu i <;> rw [hc] at hphase <;> cases hphase
      rfl
    obtain ⟨s', hgo, -, hfree⟩ : ∃ s', GoesOn reg apJump apStart i s s' ∧ s'.cpu i = .elect ∧
        s'.isLocked = 0x00 := print_alone q hc
    exact ⟨s', hgo.1, hfree⟩

/-- Once the boot processor is at `.lh`, any others get there one after the other. -/
theorem all_halt (hjump : apJump + 15 ≤ 0x8000) (hm : jumps m apStart apJump) (l : List ι) :
    ∀ {s : SmpBoot ι},
      Relation.ReflTransGen (SmpBootStep reg apJump apStart) (smpBootStart boot m screen) s →
      s.isLocked = 0x00 → s.cpu boot = .halt →
      ∃ s', Relation.ReflTransGen (SmpBootStep reg apJump apStart) s s' ∧ s'.isLocked = 0x00 ∧
        (∀ i, s.cpu i = .halt → s'.cpu i = .halt) ∧ ∀ i ∈ l, s'.cpu i = .halt := by
  induction l with
  | nil =>
    intro s _ hfree _
    exact ⟨s, .refl, hfree, fun _ hi => hi, fun _ hi => by cases hi⟩
  | cons i l ih =>
    intro s hrun hfree hboot
    obtain ⟨s₁, hgo, hat, hfree₁⟩ := halt_alone (i := i) hjump hm hrun hfree fun _ => hboot
    have hkept : ∀ j, s.cpu j = .halt → s₁.cpu j = .halt := by
      intro j hj
      by_cases hji : j = i
      · rw [hji]
        exact hat
      · rw [hgo.2 j hji]
        exact hj
    obtain ⟨s', hrun', hfree', hkept', hall⟩ := ih (hrun.trans hgo.1) hfree₁ (hkept boot hboot)
    refine ⟨s', hgo.1.trans hrun', hfree', fun j hj => hkept' j (hkept j hj), ?_⟩
    intro j hj
    obtain rfl | hj := List.mem_cons.mp hj
    · exact hkept' j hat
    · exact hall j hj

/-- A processor that has written its line. -/
def SmpPlace.Past : SmpPlace → Prop
  | .elect => True
  | .lead _ _ => True
  | .halt => True
  | _ => False

end Protocol

/-! ## The results -/

/-- A sector with `ap_jump` at `0x7C40` and `ap_start` at `0x7C07`. -/
def floppySector : ByteMem := fun a =>
  if a = 0x7C40 then 0xEA else if a = 0x7C41 then 0x07 else if a = 0x7C42 then 0x7C else 0x00

/-- Two processors, whose APIC IDs are 0 and 1, come to `.lh`. -/
theorem pair_halts : ∃ s : SmpBoot Bool,
    Relation.ReflTransGen (SmpBootStep (fun i => if i then 0 else 0x01000000) 0x7C40 0x7C07)
      (smpBootStart true floppySector fun _ => 0) s ∧
    s.isLocked = 0x00 ∧ ∀ i, s.cpu i = .halt := by
  have hm : jumps floppySector 0x7C07 0x7C40 := by decide
  obtain ⟨s₁, hgo₁, hboot, hfree₁⟩ : ∃ s₁ : SmpBoot Bool,
      GoesOn (fun i => if i then 0 else 0x01000000) 0x7C40 0x7C07 true
        (smpBootStart true floppySector fun _ => 0) s₁ ∧
      s₁.cpu true = .halt ∧ s₁.isLocked = 0x00 :=
    halt_alone (by decide) hm .refl rfl fun hne => absurd rfl hne
  obtain ⟨s₂, hrun₂, hfree₂, -, hall⟩ := all_halt (by decide) hm [true, false] hgo₁.1 hfree₁ hboot
  refine ⟨s₂, hgo₁.1.trans hrun₂, hfree₂, ?_⟩
  intro i
  exact hall i (by cases i <;> simp)

section Results

variable {ι : Type} [DecidableEq ι] {reg : ι → BitVec 32} {apJump : Nat} {apStart : BitVec 16}
  {boot : ι} {m screen : ByteMem} {s : SmpBoot ι}

/-- The screen while `is_locked` is free. -/
theorem lines_at [Fintype ι] (hjump : apJump + 15 ≤ 0x8000) (hm : jumps m apStart apJump)
    (hfit : 160 * Fintype.card ι ≤ 0x8000)
    (hrun : Relation.ReflTransGen (SmpBootStep reg apJump apStart) (smpBootStart boot m screen) s) :
    ∃ order : List ι, order.Nodup ∧ (∀ i, i ∈ order ↔ (s.cpu i).Past) ∧
      (s.isLocked = 0x00 → Lines reg screen order s.print) := by
  obtain ⟨-, hlock⟩ := smp_run hjump hm hrun
  obtain ⟨order, hnodup, hdone, hdata, -, -, -⟩ := lock_once hlock
  refine ⟨order, hnodup, ?_, ?_⟩
  · intro i
    rw [hdone i]
    show (∃ r, (s.cpu i).phase (reg i) = .outside (some r)) ↔ _
    cases s.cpu i <;> simp [SmpPlace.phase, SmpPlace.Past]
  · intro hfree
    have hlen := hnodup.length_le_card
    have hprint := hdata (decide_eq_true (by rw [hfree]; rfl))
    rw [show s.print = inOrder printExec (fun i => printLine (reg i)) ⟨0x00, 0xB8000, screen⟩ order
      from hprint]
    exact lines_inOrder reg screen order (by omega)

/-- However the processors' accesses are interleaved, at most one of them is on its line, and the
screen shows, while nobody is, one line for each processor that has been there, in some order, one
under the other, and else what was there before. -/
theorem smp_lines [Fintype ι] (hjump : apJump + 15 ≤ 0x8000) (hm : jumps m apStart apJump)
    (hfit : 160 * Fintype.card ι ≤ 0x8000)
    (hrun : Relation.ReflTransGen (SmpBootStep reg apJump apStart) (smpBootStart boot m screen) s) :
    (∀ i j q q', s.cpu i = .print q → s.cpu j = .print q' → i = j) ∧
    ∃ order : List ι, order.Nodup ∧ (∀ i, i ∈ order ↔ (s.cpu i).Past) ∧
      (s.isLocked = 0x00 → Lines reg screen order s.print) := by
  obtain ⟨-, hlock⟩ := smp_run hjump hm hrun
  obtain ⟨-, -, -, -, -, -, hsole⟩ := lock_once hlock
  have hthread {i : ι} {p : SmpPlace} (hc : s.cpu i = p) :
      (s.locked reg).thread i = p.phase (reg i) := by
    rw [← hc]
    rfl
  exact ⟨fun i j q q' hi hj => hsole i j q q' (hthread hi) (hthread hj),
    lines_at hjump hm hfit hrun⟩

theorem smp_lines_pair : ∃ s : SmpBoot Bool,
    (∀ i, s.cpu i = .halt) ∧ s.isLocked = 0x00 ∧
    (∀ i j q q', s.cpu i = .print q → s.cpu j = .print q' → i = j) ∧
    ∃ order : List Bool, order.Nodup ∧ (∀ i, i ∈ order ↔ (s.cpu i).Past) ∧
      (s.isLocked = 0x00 →
        Lines (fun i => if i then 0 else 0x01000000) (fun _ => 0) order s.print) := by
  obtain ⟨s, hrun, hfree, hhalt⟩ := pair_halts
  exact ⟨s, hhalt, hfree, smp_lines (by decide) (by decide) (by decide) hrun⟩

/-- However the processors' accesses are interleaved, the boot processor is the only leader, the
commands sent are its INIT and its two Startup commands in this order, no processor is lost, and
none that has started is ever reset. -/
theorem smp_leader (hjump : apJump + 15 ≤ 0x8000) (hm : jumps m apStart apJump)
    (hrun : Relation.ReflTransGen (SmpBootStep reg apJump apStart) (smpBootStart boot m screen) s) :
    (∀ i ip al, s.cpu i = .lead ip al → i = boot) ∧
    s.sent <+: startCommands.map (fun v => (boot, v)) ∧
    (∀ i, s.cpu i ≠ .lost) ∧
    ∀ s' i, SmpBootStep reg apJump apStart s s' → s.cpu i ≠ .off → s'.cpu i ≠ .off := by
  obtain ⟨⟨ip, hinv⟩, -⟩ := smp_run hjump hm hrun
  refine ⟨fun i _ _ hc => (hinv.leads hc).1, ?_, ?_, ?_⟩
  · rw [hinv.sent]
    exact (commandsOf_isInitial ip).map _
  · intro i hc
    have hfits := hinv.fits i
    rw [hc] at hfits
    by_cases hi : i = boot
    · exact hfits.1 hi
    · exact hfits.2 hi
  · intro s' i hstep hon
    -- only the leader's INIT turns a processor off, and it finds all the others so
    have hupdate {j : ι} {p : SmpPlace} (hp : p ≠ .off) : Function.update s.cpu j p i ≠ .off := by
      by_cases hij : i = j
      · rw [hij, Function.update_self]
        exact hp
      · rw [Function.update_of_ne hij]
        exact hon
    cases hstep with
    | start j _ _ _ _ _ _ =>
      refine hupdate ?_
      split <;> exact fun heq => by cases heq
    | spin j _ =>
      refine hupdate ?_
      split <;> exact fun heq => by cases heq
    | print j _ _ _ => exact hupdate fun heq => by cases heq
    | unlock j _ => exact hupdate fun heq => by cases heq
    | elect j _ =>
      refine hupdate ?_
      split <;> exact fun heq => by cases heq
    | lead j ip' al v instr hc hat =>
      obtain ⟨rfl, rfl, -⟩ := hinv.leads hc
      unfold SmpBoot.move
      dsimp only
      rw [hinv.exec_cpu hat]
      exact hupdate fun heq => by cases heq
    | leadEnd j _ _ _ _ => exact hupdate fun heq => by cases heq

theorem smp_leader_pair : ∃ s : SmpBoot Bool,
    (∀ i, s.cpu i = .halt) ∧
    (∀ i ip al, s.cpu i = .lead ip al → i = true) ∧
    s.sent <+: startCommands.map (fun v => (true, v)) ∧
    (∀ i, s.cpu i ≠ .lost) ∧
    ∀ s' i, SmpBootStep (fun i => if i then 0 else 0x01000000) 0x7C40 0x7C07 s s' →
      s.cpu i ≠ .off → s'.cpu i ≠ .off := by
  obtain ⟨s, hrun, -, hhalt⟩ := pair_halts
  exact ⟨s, hhalt, smp_leader (by decide) (by decide) hrun⟩

/-- Whatever has happened, it can still end with every processor at `.lh` and a line on the screen
for each of them. -/
theorem smp_finishes [Fintype ι] (hjump : apJump + 15 ≤ 0x8000) (hm : jumps m apStart apJump)
    (hfit : 160 * Fintype.card ι ≤ 0x8000)
    (hrun : Relation.ReflTransGen (SmpBootStep reg apJump apStart) (smpBootStart boot m screen) s) :
    ∃ s', Relation.ReflTransGen (SmpBootStep reg apJump apStart) s s' ∧ (∀ i, s'.cpu i = .halt) ∧
      ∃ order : List ι, order.Nodup ∧ (∀ i, i ∈ order) ∧ Lines reg screen order s'.print := by
  obtain ⟨s₁, hrun₁, hfree₁⟩ := unlock_alone hjump hm hrun
  obtain ⟨s₂, hgo₂, hboot, hfree₂⟩ := halt_alone (i := boot) hjump hm (hrun.trans hrun₁) hfree₁
    fun hne => absurd rfl hne
  have hrun₂ := (hrun.trans hrun₁).trans hgo₂.1
  obtain ⟨s₃, hrun₃, hfree₃, -, hall⟩ := all_halt hjump hm Finset.univ.toList hrun₂ hfree₂ hboot
  have hhalt (i : ι) : s₃.cpu i = .halt := hall i (Finset.mem_toList.mpr (Finset.mem_univ i))
  obtain ⟨order, hnodup, hmem, hlines⟩ := lines_at hjump hm hfit (hrun₂.trans hrun₃)
  refine ⟨s₃, (hrun₁.trans hgo₂.1).trans hrun₃, hhalt, order, hnodup, ?_, hlines hfree₃⟩
  intro i
  rw [hmem i, hhalt i]
  trivial

theorem smp_finishes_pair : ∃ s' : SmpBoot Bool,
    Relation.ReflTransGen (SmpBootStep (fun i => if i then 0 else 0x01000000) 0x7C40 0x7C07)
      (smpBootStart true floppySector fun _ => 0) s' ∧ (∀ i, s'.cpu i = .halt) ∧
    ∃ order : List Bool, order.Nodup ∧ (∀ i, i ∈ order) ∧
      Lines (fun i => if i then 0 else 0x01000000) (fun _ => 0) order s'.print :=
  smp_finishes (by decide) (by decide) (by decide) .refl

end Results

end OS64.X86
