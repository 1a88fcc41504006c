import OS64.Lib.ByteMem
import OS64.Lib.Pieces
import Mathlib.Data.BitVec

/-!
# Starting the other processors

`smp_init` finds the multiprocessor tables of the firmware, walks the entries of the configuration
table and has `ap_init` start the processors that are listed there. Memory is what the kernel sees
from `0xFFFFFFFFC0000000` on; `apic_init` and `ioapic_init` mount the registers of their devices over
two pages of it, so it changes while the table is read.

`smpConfig_starts_iff` says for which tables every usable processor is started once and on its own
slot. Four things are in the way: a table under one of the two pages, an entry of type 4 (a local
interrupt) that is not the last one, since the loop does not know this type and stops; a processor
whose `enabled` and whose identifier disagree, since the loop does not look at `enabled` and takes 0
for the boot processor; and two identifiers with the same lower four bits.
-/

namespace OS64.X86

open OS64.Lib
open OS64.Lib.ByteMem

/-! ## An entry -/

/-- What the loop finds at an entry: `SMP_proc`, `SMP_bus`, `SMP_ioapic` with the fields that are
used or printed, `SMP_intrsrc`, or a byte that is no type it knows. -/
inductive SmpEntry
  | processor (apicId : BitVec 8) (enabled bsp : Bool)
  | bus (id : BitVec 8) (name : List (BitVec 8))
  | ioapic (apicId flags : BitVec 8) (address : BitVec 32)
  | intrsrc
  | unknown (type : BitVec 8)
  deriving DecidableEq

/-- The entry at `addr2`. -/
def smpEntry (m : ByteMem) (addr2 : Nat) : SmpEntry :=
  match (m addr2).toNat with
  | 0 => .processor (m (addr2 + 1)) ((m (addr2 + 3)).getLsbD 0) ((m (addr2 + 3)).getLsbD 1)
  | 1 => .bus (m (addr2 + 1)) ((List.range 6).map fun k => m (addr2 + (2 + k)))
  | 2 => .ioapic (m (addr2 + 1)) (m (addr2 + 3)) (BitVec.ofNat 32 (m.read (addr2 + 4) 4))
  | 3 => .intrsrc
  | _ => .unknown (m addr2)

/-- How far `addr2` moves. -/
def SmpEntry.step : SmpEntry → Nat
  | .processor .. => 20
  | .bus .. => 8
  | .ioapic .. => 8
  | .intrsrc => 8
  | .unknown _ => 0

/-! ## The functions -/

/-- What `smp_init` does, as far as it can be seen from outside. -/
inductive SmpEvent
  /-- The entry that the switch has looked at, and where. -/
  | entry (addr2 : Nat) (e : SmpEntry)
  /-- The call of `ap_init`. -/
  | apInit (apicId : BitVec 8)
  /-- A store to a register of the local APIC. -/
  | lapic (reg : Nat) (value : BitVec 32)
  /-- The loop until bit 12 of `ICRL` is clear. -/
  | delivered
  | pitWait (microsec : Nat)
  | apicInit (lapicAddr : BitVec 32)
  | ioapicInit (address : BitVec 32)
  | mountPage (page : Nat)
  | umountPage (page : Nat)
  | notFound
  | configuration (number : BitVec 8)
  deriving DecidableEq

/-- `APIC_ICRL`. -/
def apicIcrl : Nat := 0x300 / 4

/-- `APIC_ICRH`. -/
def apicIcrh : Nat := 0x310 / 4

/-- `ap_init`: an INIT to the processor, and the startup message twice. -/
def apInit (apicId : BitVec 8) : List SmpEvent :=
  let target := SmpEvent.lapic apicIcrh (apicId.setWidth 32 <<< 24)
  let startup := SmpEvent.lapic apicIcrl (0x4600 ||| (0x8000 >>> 12))
  [.apInit apicId, target, .lapic apicIcrl 0x4500, .delivered, .pitWait 10000,
    target, startup, .pitWait 200, target, startup]

section Init

variable (regs : BitVec 32 → ByteMem)

/-- `mount_page_hw`: the device at a physical address shows in a page. -/
def mountHw (m : ByteMem) (page : Nat) (phys : BitVec 32) : ByteMem := m.fill page (regs phys) 0 0x1000

/-- What the switch does with an entry, and what memory is afterwards. -/
def smpSwitch (m : ByteMem) : SmpEntry → List SmpEvent × ByteMem
  | .processor apicId _ bsp => (if !bsp && apicId != 0 then apInit apicId else [], m)
  | .bus .. => ([], m)
  | .ioapic _ flags address =>
    if flags &&& 0x01 ≠ 0 then ([.ioapicInit address], mountHw regs m 0xF1000 address) else ([], m)
  | .intrsrc => ([], m)
  | .unknown _ => ([], m)

variable (sc : Nat)

/-- `sc->count`. -/
def smpCount (m : ByteMem) : Nat := m.read (sc + 34) 2

/-- The next `i`. An unknown entry sets it to the count, and then the loop adds 1. -/
def smpNext (m : ByteMem) (i : Nat) : SmpEntry → Nat
  | .unknown _ => smpCount sc m + 1
  | _ => i + 1

/-- The loop over the entries. The count has 16 bits, so fuel for `0x10000` rounds is enough. -/
def smpEntries : Nat → Nat → Nat → ByteMem → List SmpEvent
  | 0, _, _, _ => []
  | fuel + 1, i, addr2, m =>
    if i < smpCount sc m then
      let e := smpEntry m addr2
      .entry addr2 e :: (smpSwitch regs m e).1 ++
        smpEntries fuel (smpNext sc m i e) (addr2 + e.step) (smpSwitch regs m e).2
    else []

/-- What `smp_init` does with the configuration table at `sc`. -/
def smpConfig (m : ByteMem) : List SmpEvent :=
  let lapicAddr := BitVec.ofNat 32 (m.read (sc + 36) 4)
  .apicInit lapicAddr :: smpEntries regs sc 0x10000 0 (sc + 44) (mountHw regs m 0xF0000 lapicAddr)

end Init

/-- The two places where the signature is searched for. -/
def smpPlaces : List Nat :=
  (List.range (0x400 / 4)).map (fun i => 0x9FC00 + 4 * i) ++
    (List.range (0x10000 / 4)).map (fun i => 0xF0000 + 4 * i)

/-- `smp_init`. -/
def smpInit (regs : BitVec 32 → ByteMem) (m : ByteMem) : List SmpEvent :=
  .mountPage 0x9F000 ::
    (match smpPlaces.find? fun a => m.read a 4 == 0x5F504D5F with
      | none => [.notFound]
      | some s =>
        if m (s + 11) = 0 then smpConfig regs (m.read (s + 4) 4) m
        else [.configuration (m (s + 11))]) ++
    [.umountPage 0x9F000]

/-- `apic_get_id`, from the register: `rol $8, %eax; and $0xF, %al`. -/
def apicGetId (reg : BitVec 32) : BitVec 8 := (reg.rotateLeft 8).setWidth 8 &&& 0xF

/-- The index of a processor in the arrays that have an element for each: what it finds with its
identifier in the upper byte of the register. -/
def slot (apicId : BitVec 8) : BitVec 8 := apicGetId (apicId ++ 0#24)

/-! ## The table -/

/-- An entry as the specification has it: a type from 0 to 4, and 20 bytes for a processor or 8. -/
structure MpEntry where
  bytes : List (BitVec 8)
  kind_le : (bytes.headD 0).toNat ≤ 4
  length_eq : bytes.length = if (bytes.headD 0).toNat = 0 then 20 else 8

def MpEntry.kind (e : MpEntry) : Nat := (e.bytes.headD 0).toNat

/-- What is to be found in it. -/
def MpEntry.found (e : MpEntry) : SmpEntry := smpEntry (fun k => e.bytes.getD k 0) 0

/-- The processor of an entry, if the loop starts it. -/
def SmpEntry.started : SmpEntry → Option (BitVec 8)
  | .processor apicId _ bsp => if !bsp && apicId != 0 then some apicId else none
  | _ => none

/-- The processor of an entry, if it can be used and is not the boot processor. -/
def SmpEntry.usable : SmpEntry → Option (BitVec 8)
  | .processor apicId enabled bsp => if enabled && !bsp then some apicId else none
  | _ => none

/-- The configuration table at `sc`. -/
structure MpTable (m : ByteMem) (sc : Nat) (es : List MpEntry) : Prop where
  count : smpCount sc m = es.length
  stored : Stored m (sc + 44) (es.flatMap MpEntry.bytes)

/-- Where each entry is, and what is to be found there. -/
def atOffsets : Nat → List MpEntry → List (Nat × SmpEntry)
  | _, [] => []
  | a, e :: es => (a, e.found) :: atOffsets (a + e.bytes.length) es

/-- The entries that the switch has looked at. -/
def entriesOf (l : List SmpEvent) : List (Nat × SmpEntry) :=
  l.filterMap fun
    | .entry a e => some (a, e)
    | _ => none

/-- The processors that `ap_init` was called for. -/
def startsOf (l : List SmpEvent) : List (BitVec 8) :=
  l.filterMap fun
    | .apInit apicId => some apicId
    | _ => none

/-- Each entry is read where it is, `ap_init` is called once for each usable processor and for no
other, and no two of the processors that run afterwards share a slot. -/
structure StartsEach (sc : Nat) (es : List MpEntry) (boot : BitVec 8) (l : List SmpEvent) : Prop where
  reads : entriesOf l = atOffsets (sc + 44) es
  starts : (startsOf l).Perm (es.filterMap fun e => e.found.usable)
  apart : ((boot :: startsOf l).map slot).Nodup

/-! ## What an entry depends on -/

/-- An entry is read from its own bytes. -/
theorem smpEntry_congr {m m' : ByteMem} {a a' n : Nat} (hn : n = if (m a).toNat = 0 then 20 else 8)
    (h : ∀ k, k < n → m (a + k) = m' (a' + k)) : smpEntry m a = smpEntry m' a' := by
  have hpos : 8 ≤ n := by split_ifs at hn <;> omega
  have hhead : m a = m' a' := h 0 (by omega)
  have hname : (List.range 6).map (fun k => m (a + (2 + k))) =
      (List.range 6).map fun k => m' (a' + (2 + k)) :=
    List.map_congr_left fun k hk => h (2 + k) (by have := List.mem_range.mp hk; omega)
  have haddress : m.read (a + 4) 4 = m'.read (a' + 4) 4 := by
    refine read_congr_at 4 fun k hk => ?_
    rw [Nat.add_assoc, Nat.add_assoc]
    exact h (4 + k) (by omega)
  unfold smpEntry
  rw [← hhead, h 1 (by omega), h 3 (by omega), hname, haddress]

theorem MpEntry.length_pos (e : MpEntry) : 8 ≤ e.bytes.length := by
  have hlen := e.length_eq
  split_ifs at hlen <;> omega

/-- An entry that lies in memory is found there. -/
theorem smpEntry_found {m : ByteMem} {a : Nat} {e : MpEntry} (h : Stored m a e.bytes) :
    smpEntry m a = e.found := by
  have hpos := e.length_pos
  have hbytes : ∀ k, k < e.bytes.length → m (a + k) = e.bytes.getD (0 + k) 0 := by
    intro k hk
    rw [stored_get h k hk, Nat.zero_add, List.getD_eq_getElem?_getD, List.getElem?_eq_getElem hk]
    rfl
  refine smpEntry_congr ?_ hbytes
  have hhead := hbytes 0 (by omega)
  have hheadD : e.bytes.getD (0 + 0) 0 = e.bytes.headD 0 := by
    cases e.bytes <;> rfl
  rw [Nat.add_zero] at hhead
  rw [hhead, hheadD]
  exact e.length_eq

/-- An entry of type 4 is not known to the loop; of any other, it knows the length. -/
theorem found_cases (e : MpEntry) :
    (e.kind = 4 ∧ ∃ b, e.found = .unknown b) ∨
      (e.kind ≠ 4 ∧ e.found.step = e.bytes.length ∧ ∀ b, e.found ≠ .unknown b) := by
  have hhead : (fun k => e.bytes.getD k 0) 0 = e.bytes.headD 0 := by cases e.bytes <;> rfl
  have hle := e.kind_le
  have hlen := e.length_eq
  unfold MpEntry.kind MpEntry.found smpEntry
  rw [hhead]
  generalize e.bytes.headD 0 = b at *
  generalize b.toNat = k at *
  match k, hle with
  | 0, _ => exact Or.inr ⟨by decide, hlen.symm, fun _ h => by cases h⟩
  | 1, _ => exact Or.inr ⟨by decide, hlen.symm, fun _ h => by cases h⟩
  | 2, _ => exact Or.inr ⟨by decide, hlen.symm, fun _ h => by cases h⟩
  | 3, _ => exact Or.inr ⟨by decide, hlen.symm, fun _ h => by cases h⟩
  | 4, _ => exact Or.inl ⟨rfl, _, rfl⟩

/-! ## What the loop reads -/

section Walk

variable (regs : BitVec 32 → ByteMem) (sc : Nat)

/-- Memory behind an entry: the registers of an I/O APIC that is enabled show in their page. -/
def SmpEntry.mounts (v : ByteMem) : SmpEntry → ByteMem
  | .ioapic _ flags address => if flags &&& 0x01 ≠ 0 then mountHw regs v 0xF1000 address else v
  | _ => v

/-- From the `i`-th entry on, at `a`, the loop sees the entries of the table that lies in `m`, and
not more of them, though memory is `v` now: the registers of the devices hide nothing. -/
def Unhidden (m : ByteMem) : ByteMem → Nat → Nat → List MpEntry → Prop
  | v, i, _, [] => smpCount sc v ≤ i
  | v, i, a, e :: es =>
    i < smpCount sc v ∧ smpEntry v a = smpEntry m a ∧
      (e.kind ≠ 4 → Unhidden m (e.found.mounts regs v) (i + 1) (a + e.bytes.length) es)

/-- No local interrupt but in the last entry. -/
def LintLast (es : List MpEntry) : Prop := ∀ e ∈ es.dropLast, e.kind ≠ 4

variable {regs sc}

theorem lintLast_cons {e : MpEntry} {es : List MpEntry} (h : e.kind ≠ 4) :
    LintLast (e :: es) ↔ LintLast es := by
  cases es with
  | nil => exact iff_of_true (fun _ h => by cases h) (fun _ h => by cases h)
  | cons e' es =>
    rw [LintLast, List.dropLast_cons_cons, List.forall_mem_cons]
    exact and_iff_right h

theorem lintLast_lint {e : MpEntry} {es : List MpEntry} (h : e.kind = 4) :
    LintLast (e :: es) ↔ es = [] := by
  cases es with
  | nil => exact iff_of_true (fun _ h => by cases h) rfl
  | cons e' es =>
    rw [LintLast, List.dropLast_cons_cons, List.forall_mem_cons]
    exact iff_of_false (fun hall => hall.1 h) (by simp)

theorem entriesOf_append (l l' : List SmpEvent) :
    entriesOf (l ++ l') = entriesOf l ++ entriesOf l' :=
  List.filterMap_append

theorem startsOf_append (l l' : List SmpEvent) : startsOf (l ++ l') = startsOf l ++ startsOf l' :=
  List.filterMap_append

theorem entriesOf_switch (v : ByteMem) (e : SmpEntry) : entriesOf (smpSwitch regs v e).1 = [] := by
  cases e with
  | processor apicId enabled bsp =>
    unfold smpSwitch
    dsimp only
    split <;> rfl
  | ioapic apicId flags address =>
    unfold smpSwitch
    dsimp only
    split <;> rfl
  | _ => rfl

theorem startsOf_switch (v : ByteMem) (e : SmpEntry) :
    startsOf (smpSwitch regs v e).1 = e.started.toList := by
  cases e with
  | processor apicId enabled bsp =>
    unfold smpSwitch SmpEntry.started
    dsimp only
    split <;> rfl
  | ioapic apicId flags address =>
    unfold smpSwitch
    dsimp only
    split <;> rfl
  | _ => rfl

theorem smpSwitch_mounts (v : ByteMem) (e : SmpEntry) : (smpSwitch regs v e).2 = e.mounts regs v := by
  cases e with
  | ioapic apicId flags address =>
    unfold smpSwitch SmpEntry.mounts
    dsimp only
    split <;> rfl
  | _ => rfl

/-- What one round looks at, and the rest. -/
theorem entriesOf_round {fuel i a : Nat} {v : ByteMem} (h : i < smpCount sc v) :
    entriesOf (smpEntries regs sc (fuel + 1) i a v) = (a, smpEntry v a) ::
      entriesOf (smpEntries regs sc fuel (smpNext sc v i (smpEntry v a))
        (a + (smpEntry v a).step) ((smpEntry v a).mounts regs v)) := by
  rw [smpEntries, if_pos h, List.cons_append, ← smpSwitch_mounts]
  show (a, smpEntry v a) :: entriesOf ((smpSwitch regs v (smpEntry v a)).1 ++ _) = _
  rw [entriesOf_append, entriesOf_switch, List.nil_append]

/-- Behind an unknown entry nothing is read. -/
theorem entriesOf_stopped {fuel i a : Nat} {v : ByteMem} {b : BitVec 8} :
    entriesOf (smpEntries regs sc fuel (smpNext sc v i (.unknown b)) a
      (SmpEntry.mounts regs v (.unknown b))) = [] := by
  have hstop : ¬ smpCount sc v + 1 < smpCount sc v := by omega
  cases fuel with
  | zero => rfl
  | succ fuel =>
    show entriesOf (smpEntries regs sc (fuel + 1) (smpCount sc v + 1) a v) = []
    rw [smpEntries, if_neg hstop]
    rfl

theorem nil_eq_atOffsets {a : Nat} {es : List MpEntry} : [] = atOffsets a es ↔ es = [] := by
  cases es with
  | nil => exact iff_of_true rfl rfl
  | cons e es => exact iff_of_false (List.cons_ne_nil _ _).symm (List.cons_ne_nil _ _)

/-- The loop reads the entries of the table, all of them and each where it is, if nothing of it is
hidden and it has no local interrupt before the end. -/
theorem entriesOf_smpEntries {m : ByteMem} {es : List MpEntry} : ∀ {fuel i a : Nat} {v : ByteMem},
    es.length ≤ fuel → Stored m a (es.flatMap MpEntry.bytes) →
    (entriesOf (smpEntries regs sc (fuel + 1) i a v) = atOffsets a es ↔
      Unhidden regs sc m v i a es ∧ LintLast es) := by
  induction es with
  | nil =>
    intro fuel i a v _ _
    have hlint : LintLast [] := fun _ h => by cases h
    rw [and_iff_left hlint]
    by_cases hi : i < smpCount sc v
    · rw [entriesOf_round hi]
      exact iff_of_false (List.cons_ne_nil _ _) (Nat.not_le_of_lt hi)
    · rw [smpEntries, if_neg hi]
      exact iff_of_true rfl (Nat.le_of_not_lt hi)
  | cons e es ih =>
    intro fuel i a v hfuel hst
    obtain ⟨fuel, rfl⟩ : ∃ k, fuel = k + 1 := Nat.exists_eq_succ_of_ne_zero (by
      rw [List.length_cons] at hfuel
      omega)
    rw [List.flatMap_cons, stored_append] at hst
    have hfound : smpEntry m a = e.found := smpEntry_found hst.1
    rw [Unhidden, hfound]
    by_cases hi : i < smpCount sc v
    · rw [entriesOf_round hi, atOffsets, List.cons.injEq, Prod.mk.injEq]
      by_cases hsame : smpEntry v a = e.found
      · rw [hsame, and_iff_right ⟨rfl, rfl⟩, and_iff_right hi, and_iff_right rfl]
        obtain ⟨hlint, b, hb⟩ | ⟨hlint, hstep, hknown⟩ := found_cases e
        · -- the entry stops the loop, so it has to be the last one
          rw [lintLast_lint hlint, and_iff_right fun h => absurd hlint h, hb]
          rw [entriesOf_stopped]
          exact nil_eq_atOffsets
        · have hnext : smpNext sc v i e.found = i + 1 := by
            unfold smpNext
            split
            · exact absurd ‹_› (hknown _)
            · rfl
          rw [hnext, hstep, lintLast_cons hlint, ih (Nat.le_of_succ_le_succ hfuel) hst.2]
          exact and_congr_left fun _ => ⟨fun h _ => h, fun h => h hlint⟩
      · exact iff_of_false (fun h => hsame h.1.2) fun h => hsame h.1.2.1
    · rw [smpEntries, if_neg hi]
      exact iff_of_false (List.cons_ne_nil _ _).symm fun h => hi h.1.1

/-! ## What the loop starts -/

/-- The loop starts the processors that it has read of. -/
theorem startsOf_smpEntries {fuel i a : Nat} {v : ByteMem} :
    startsOf (smpEntries regs sc fuel i a v) =
      (entriesOf (smpEntries regs sc fuel i a v)).filterMap fun p => p.2.started := by
  induction fuel generalizing i a v with
  | zero => rfl
  | succ fuel ih =>
    by_cases hi : i < smpCount sc v
    · rw [entriesOf_round hi, smpEntries, if_pos hi, List.cons_append]
      show startsOf ((smpSwitch regs v (smpEntry v a)).1 ++ _) = _
      rw [startsOf_append, startsOf_switch, ih, smpSwitch_mounts, List.filterMap_cons]
      cases (smpEntry v a).started <;> rfl
    · rw [smpEntries, if_neg hi]
      rfl

theorem filterMap_atOffsets {β : Type} (f : SmpEntry → Option β) (es : List MpEntry) : ∀ a,
    (atOffsets a es).filterMap (fun p => f p.2) = es.filterMap fun e => f e.found := by
  induction es with
  | nil => exact fun _ => rfl
  | cons e es ih =>
    intro a
    rw [atOffsets, List.filterMap_cons, List.filterMap_cons, ih]

end Walk

/-- One of two partial functions extends the other; they keep equally many of a list if they agree
on it. -/
theorem filterMap_agree {α β : Type} {f g : α → Option β} {l : List α}
    (h : ∀ e ∈ l, g e = none ∨ g e = f e) :
    (l.filterMap g).length ≤ (l.filterMap f).length ∧
      ((l.filterMap f).length = (l.filterMap g).length → ∀ e ∈ l, f e = g e) := by
  induction l with
  | nil => exact ⟨Nat.le_refl _, fun _ e he => by cases he⟩
  | cons e l ih =>
    obtain ⟨he, hl⟩ := List.forall_mem_cons.mp h
    obtain ⟨hle, hagree⟩ := ih hl
    rw [List.filterMap_cons, List.filterMap_cons, List.forall_mem_cons]
    rcases he with hnone | hsame
    · rw [hnone]
      cases hf : f e with
      | none => exact ⟨hle, fun hlen => ⟨rfl, hagree hlen⟩⟩
      | some b =>
        refine ⟨Nat.le_succ_of_le hle, fun hlen => ?_⟩
        have hlt : (l.filterMap f).length < (l.filterMap g).length := Nat.lt_of_succ_le hlen.le
        omega
    · rw [hsame]
      cases hf : f e with
      | none => exact ⟨hle, fun hlen => ⟨rfl, hagree hlen⟩⟩
      | some b =>
        exact ⟨Nat.succ_le_succ hle, fun hlen => ⟨rfl, hagree (Nat.succ.inj hlen)⟩⟩

theorem started_processor (apicId : BitVec 8) (enabled : Bool) :
    (SmpEntry.processor apicId enabled false).started = if apicId = 0 then none else some apicId := by
  show (if (!false && apicId != 0) = true then some apicId else none) = _
  by_cases h : apicId = 0
  · rw [if_pos h, h]
    rfl
  · have hne : (apicId != 0) = true := bne_iff_ne.mpr h
    rw [if_neg h, hne]
    rfl

/-- The processor with the identifier 0 is not started. -/
theorem started_ne_zero (e : SmpEntry) : e.started ≠ some 0 := by
  cases e with
  | processor apicId enabled bsp =>
    cases bsp with
    | true => exact fun h => by cases h
    | false =>
      rw [started_processor]
      by_cases hzero : apicId = 0
      · rw [if_pos hzero]
        exact fun h => by cases h
      · rw [if_neg hzero]
        exact fun h => hzero (Option.some.inj h)
  | _ => exact fun h => by cases h

/-- A processor that can be used and has another identifier is started. -/
theorem usable_cases {e : SmpEntry} (h : e.usable ≠ some 0) :
    e.usable = none ∨ e.usable = e.started := by
  cases e with
  | processor apicId enabled bsp =>
    cases enabled with
    | false => exact Or.inl rfl
    | true =>
      cases bsp with
      | true => exact Or.inl rfl
      | false =>
        have hne : apicId ≠ 0 := fun hzero => h (congrArg some hzero)
        exact Or.inr (by rw [started_processor, if_neg hne]; rfl)
  | _ => exact Or.inl rfl

/-- What is started is what can be used if `enabled` and the identifier agree. -/
theorem started_eq_usable {e : SmpEntry} : e.started = e.usable ↔
    ∀ apicId enabled, e = .processor apicId enabled false → (enabled = true ↔ apicId ≠ 0) := by
  cases e with
  | processor apicId enabled bsp =>
    cases bsp with
    | true => exact iff_of_true (by cases enabled <;> rfl) (fun _ _ h => by cases h)
    | false =>
      rw [started_processor]
      constructor
      · intro h apicId' enabled' heq
        cases heq
        cases enabled with
        | false =>
          by_cases hzero : apicId = 0
          · exact iff_of_false Bool.false_ne_true fun h => h hzero
          · rw [if_neg hzero] at h
            cases h
        | true =>
          by_cases hzero : apicId = 0
          · rw [if_pos hzero] at h
            cases h
          · exact ⟨fun _ => hzero, fun _ => rfl⟩
      · intro h
        have hagree := h apicId enabled rfl
        by_cases hzero : apicId = 0
        · rw [if_pos hzero]
          cases enabled with
          | false => rfl
          | true => exact absurd hzero (hagree.mp rfl)
        · rw [if_neg hzero, hagree.mpr hzero]
          rfl
  | _ => exact iff_of_true rfl (fun _ _ h => by cases h)

/-! ## The table as a whole -/

section Table

variable {regs : BitVec 32 → ByteMem} {m : ByteMem} {sc : Nat} {es : List MpEntry} {boot : BitVec 8}

/-- The loop starts the processors that can be used and no others only if it decides right for each
entry: of an entry that can be used it misses the identifier 0 alone, which it never starts. -/
theorem starts_perm_iff : (es.filterMap fun e => e.found.started).Perm
    (es.filterMap fun e => e.found.usable) ↔ ∀ e ∈ es, e.found.started = e.found.usable := by
  constructor
  · intro hperm
    refine (filterMap_agree fun e he => ?_).2 hperm.length_eq
    refine usable_cases fun hzero => ?_
    have hmem : (0 : BitVec 8) ∈ es.filterMap fun e => e.found.usable :=
      List.mem_filterMap.mpr ⟨e, he, hzero⟩
    obtain ⟨e', -, hstarted⟩ := List.mem_filterMap.mp (hperm.mem_iff.mpr hmem)
    exact started_ne_zero e'.found hstarted
  · intro h
    rw [List.filterMap_congr h]

/-- Two memories differ in the pages of the devices at most. -/
def Agree (v m : ByteMem) : Prop := ∀ x, ¬ (0xF0000 ≤ x ∧ x < 0xF2000) → v x = m x

theorem agree_mount {v : ByteMem} {page : Nat} {phys : BitVec 32} (h : Agree v m)
    (hpage : page = 0xF0000 ∨ page = 0xF1000) : Agree (mountHw regs v page phys) m := by
  intro x hx
  rw [mountHw, fill_apply_out (by omega)]
  exact h x hx

theorem agree_mounts {v : ByteMem} (h : Agree v m) (e : SmpEntry) : Agree (e.mounts regs v) m := by
  cases e with
  | ioapic apicId flags address =>
    unfold SmpEntry.mounts
    dsimp only
    split
    · exact agree_mount h (Or.inr rfl)
    · exact h
  | _ => exact h

/-- Memory when the loop begins: the registers of the local APIC show in their page. -/
def smpView (regs : BitVec 32 → ByteMem) (sc : Nat) (m : ByteMem) : ByteMem :=
  mountHw regs m 0xF0000 (BitVec.ofNat 32 (m.read (sc + 36) 4))

theorem smpCount_lt (sc : Nat) (v : ByteMem) : smpCount sc v < 0x10000 := read_lt v 2 (sc + 34)

/-- `apic_init` is no reading and no starting. -/
theorem events_apicInit (a : BitVec 32) (l : List SmpEvent) :
    entriesOf (.apicInit a :: l) = entriesOf l ∧ startsOf (.apicInit a :: l) = startsOf l :=
  ⟨rfl, rfl⟩

theorem smpConfig_eq : smpConfig regs sc m = .apicInit (BitVec.ofNat 32 (m.read (sc + 36) 4)) ::
    smpEntries regs sc (0xFFFF + 1) 0 (sc + 44) (smpView regs sc m) := rfl

/-- The entries that `smp_init` reads. -/
theorem entriesOf_smpConfig (h : MpTable m sc es) :
    entriesOf (smpConfig regs sc m) = atOffsets (sc + 44) es ↔
      Unhidden regs sc m (smpView regs sc m) 0 (sc + 44) es ∧ LintLast es := by
  have hlen : es.length ≤ 0xFFFF := by
    have hcount := h.count
    have hlt := smpCount_lt sc m
    omega
  rw [smpConfig_eq, (events_apicInit _ _).1]
  exact entriesOf_smpEntries hlen h.stored

/-- The processors that it starts, where it reads all entries. -/
theorem startsOf_smpConfig (hread : entriesOf (smpConfig regs sc m) = atOffsets (sc + 44) es) :
    startsOf (smpConfig regs sc m) = es.filterMap fun e => e.found.started := by
  rw [smpConfig_eq, (events_apicInit _ _).1] at hread
  rw [smpConfig_eq, (events_apicInit _ _).2, startsOf_smpEntries, hread, filterMap_atOffsets]

/-- The entries that lie away from the two pages are seen. -/
theorem unhidden_of_agree (hcount : ∀ v, Agree v m → smpCount sc v = smpCount sc m) :
    ∀ {i a : Nat} {v : ByteMem}, Agree v m → i + es.length = smpCount sc m →
      Stored m a (es.flatMap MpEntry.bytes) →
      (∀ x, a ≤ x → x < a + (es.flatMap MpEntry.bytes).length → ¬ (0xF0000 ≤ x ∧ x < 0xF2000)) →
      Unhidden regs sc m v i a es := by
  induction es with
  | nil =>
    intro i a v hv hi _ _
    rw [Unhidden, hcount v hv]
    exact hi.ge
  | cons e es ih =>
    intro i a v hv hi hst hclear
    rw [List.flatMap_cons, stored_append] at hst
    rw [List.flatMap_cons, List.length_append] at hclear
    rw [List.length_cons] at hi
    have hstv : Stored v a e.bytes :=
      stored_congr (fun x hx hx' => (hv x (hclear x hx (by omega))).symm) hst.1
    refine ⟨by rw [hcount v hv]; omega, ?_, fun _ => ?_⟩
    · rw [smpEntry_found hstv, smpEntry_found hst.1]
    · exact ih (agree_mounts hv e.found) (by omega) hst.2
        fun x hx hx' => hclear x (by omega) (by omega)

/-- A table away from the two pages is not hidden. -/
theorem unhidden_of_clear (h : MpTable m sc es) (hclear : ∀ x, sc ≤ x →
    x < sc + 44 + (es.flatMap MpEntry.bytes).length → ¬ (0xF0000 ≤ x ∧ x < 0xF2000)) :
    Unhidden regs sc m (smpView regs sc m) 0 (sc + 44) es := by
  have hcount : ∀ v, Agree v m → smpCount sc v = smpCount sc m := fun v hv =>
    read_congr 2 fun x hx hx' => hv x (hclear x (by omega) (by omega))
  have hview : Agree (smpView regs sc m) m := agree_mount (fun _ _ => rfl) (Or.inl rfl)
  have hall : 0 + es.length = smpCount sc m := by rw [h.count, Nat.zero_add]
  exact unhidden_of_agree hcount hview hall h.stored fun x hx hx' => hclear x (by omega) hx'

/-- Every usable processor is started once and on its own slot, exactly when nothing of the table is
hidden behind the registers of a device, only its last entry is a local interrupt, a processor other
than the boot processor is enabled if its identifier is not 0 and only then, and the identifiers of
the processors differ in their lower four bits. -/
theorem smpConfig_starts_iff (h : MpTable m sc es) :
    StartsEach sc es boot (smpConfig regs sc m) ↔
      (Unhidden regs sc m (smpView regs sc m) 0 (sc + 44) es ∧ LintLast es) ∧
      (∀ e ∈ es, ∀ apicId enabled, e.found = .processor apicId enabled false →
        (enabled = true ↔ apicId ≠ 0)) ∧
      ((boot :: es.filterMap fun e => e.found.usable).map slot).Nodup := by
  rw [← entriesOf_smpConfig h]
  constructor
  · intro hstarts
    have hagree := hstarts.starts
    have hapart := hstarts.apart
    rw [startsOf_smpConfig hstarts.reads] at hagree hapart
    rw [starts_perm_iff] at hagree
    rw [List.filterMap_congr hagree] at hapart
    exact ⟨hstarts.reads, fun e he => started_eq_usable.mp (hagree e he), hapart⟩
  · intro hcond
    obtain ⟨hread, hprocs, hapart⟩ := hcond
    have hagree : ∀ e ∈ es, e.found.started = e.found.usable :=
      fun e he => started_eq_usable.mpr (hprocs e he)
    have hstarted := startsOf_smpConfig hread
    rw [List.filterMap_congr hagree] at hstarted
    exact ⟨hread, hstarted ▸ List.Perm.refl _, hstarted ▸ hapart⟩

/-- The entry of a processor. -/
def mpProcessor (apicId flags : BitVec 8) : MpEntry where
  bytes := [0, apicId, 0x14, flags] ++ List.replicate 16 0
  kind_le := by
    rw [List.cons_append, List.headD_cons]
    decide
  length_eq := rfl

/-- A memory with a configuration table at `sc`. -/
def mpMemory (sc : Nat) (es : List MpEntry) : ByteMem := fun x =>
  (List.replicate 34 0 ++ [BitVec.ofNat 8 es.length, 0] ++ List.replicate 8 0 ++
    es.flatMap MpEntry.bytes).getD (x - sc) 0

/-- The boot processor and another one, both enabled. -/
def twoProcessors : List MpEntry := [mpProcessor 0 3, mpProcessor 1 1]

theorem smpConfig_starts_two : StartsEach 0x9FC00 twoProcessors 0
    (smpConfig (fun _ _ => 0) 0x9FC00 (mpMemory 0x9FC00 twoProcessors)) := by
  have htable : MpTable (mpMemory 0x9FC00 twoProcessors) 0x9FC00 twoProcessors := ⟨rfl, by decide⟩
  refine (smpConfig_starts_iff htable).mpr ⟨⟨unhidden_of_clear htable ?_, ?_⟩, ?_, by decide⟩
  · intro x _ hx
    have hlen : (twoProcessors.flatMap MpEntry.bytes).length = 40 := rfl
    omega
  · intro e he
    rw [List.mem_singleton.mp he]
    decide
  · refine List.forall_mem_cons.mpr ⟨?_, List.forall_mem_singleton.mpr ?_⟩
    · intro apicId enabled h
      cases h
    · intro apicId enabled h
      cases h
      exact iff_of_true rfl (by decide)

/-- The boot processor and another one, which is disabled. -/
def oneDisabled : List MpEntry := [mpProcessor 0 3, mpProcessor 1 0]

/-- The disabled processor is started. -/
theorem smpConfig_starts_disabled : MpTable (mpMemory 0x9FC00 oneDisabled) 0x9FC00 oneDisabled ∧
    ¬ StartsEach 0x9FC00 oneDisabled 0
      (smpConfig (fun _ _ => 0) 0x9FC00 (mpMemory 0x9FC00 oneDisabled)) := by
  refine ⟨⟨rfl, by decide⟩, fun h => ?_⟩
  have hlen := h.starts.length_eq
  rw [startsOf_smpConfig h.reads] at hlen
  exact absurd hlen (by decide)

/-! ## The whole function -/

/-- Mounting a page and taking it away is no reading and no starting. -/
theorem startsEach_mounted (l : List SmpEvent) (page : Nat) :
    StartsEach sc es boot (.mountPage page :: l ++ [.umountPage page]) ↔ StartsEach sc es boot l := by
  have hentries : entriesOf (.mountPage page :: l ++ [.umountPage page]) = entriesOf l := by
    rw [entriesOf_append]
    exact List.append_nil _
  have hstarts : startsOf (.mountPage page :: l ++ [.umountPage page]) = startsOf l := by
    rw [startsOf_append]
    exact List.append_nil _
  constructor
  · exact fun h => ⟨hentries ▸ h.reads, hstarts ▸ h.starts, hstarts ▸ h.apart⟩
  · exact fun h => ⟨hentries ▸ h.reads, hstarts ▸ h.starts, hstarts ▸ h.apart⟩

/-- Where `smp_init` finds a table, it reads and starts what `smpConfig` does. -/
theorem smpInit_found {s : Nat} (hs : smpPlaces.find? (fun a => m.read a 4 == 0x5F504D5F) = some s)
    (hfeatures : m (s + 11) = 0) : StartsEach sc es boot (smpInit regs m) ↔
      StartsEach sc es boot (smpConfig regs (m.read (s + 4) 4) m) := by
  rw [smpInit, hs]
  dsimp only
  rw [if_pos hfeatures]
  exact startsEach_mounted _ _

end Table

end OS64.X86
