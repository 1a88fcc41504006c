import OS64.Lib.X86

/-!
# The disk by its ports

`ata_pio_read` gives the drive a number of 28 bits and a count, and reads sector after sector from
the data port, each as soon as the status has bit 3 set.

The drive is the part of one on the first channel that the driver talks to, addressed by LBA. How
many polls find a sector not ready yet, and what else is in the status, is up to it (`AtaTiming`).

`ataPioRead_returns` says what a call for at least one sector does to the whole machine: it returns,
with all registers as they were, and has stored the sectors, and nothing else above its stack. A
count of 0 is 256 sectors for the drive and `2 ^ 64` for the driver: the call never returns
(`ataPioRead_hangs`).
-/

namespace OS64.X86

open OS64.Lib OS64.Lib.X86

/-! ## The drive -/

/-- How often a poll finds sector `k` of a command not ready, and the status of poll `t` apart from
bit 3. -/
structure AtaTiming where
  delay : Nat → Nat
  status : Nat → BitVec 8

/-- The registers behind ports `0x1F2` to `0x1F6`, and the command under way: the sector at hand,
the number of sectors left, how many are done, the polls before this one is ready, whether it is,
and its doublewords read. -/
structure AtaDevice where
  count : BitVec 8
  lbaLow : BitVec 8
  lbaMid : BitVec 8
  lbaHigh : BitVec 8
  head : BitVec 8
  sector : Nat
  left : Nat
  done : Nat
  waits : Nat
  ready : Bool
  dword : Nat
  clock : Nat

/-- The number that the registers hold. -/
def AtaDevice.lba (d : AtaDevice) : Nat :=
  (d.head &&& 0x0F).toNat * 2 ^ 24 + d.lbaHigh.toNat * 2 ^ 16 + d.lbaMid.toNat * 2 ^ 8 +
    d.lbaLow.toNat

/-- A byte to a port. The only command is READ SECTORS, with bit 6 of `head` for LBA. -/
def AtaDevice.out (t : AtaTiming) (d : AtaDevice) (port : BitVec 16) (v : BitVec 8) : AtaDevice :=
  if port = 0x01F2 then { d with count := v }
  else if port = 0x01F3 then { d with lbaLow := v }
  else if port = 0x01F4 then { d with lbaMid := v }
  else if port = 0x01F5 then { d with lbaHigh := v }
  else if port = 0x01F6 then { d with head := v }
  else if port = 0x01F7 ∧ v = 0x20 ∧ d.head &&& 0x40 ≠ 0 then
    { d with
      sector := d.lba
      left := if d.count = 0 then 256 else d.count.toNat
      done := 0
      waits := t.delay 0
      ready := false
      dword := 0 }
  else d

/-- The status, from port `0x1F7`. -/
def AtaDevice.poll (t : AtaTiming) (d : AtaDevice) : BitVec 8 × AtaDevice :=
  if d.ready = true ∨ (0 < d.left ∧ d.waits = 0) then
    (t.status d.clock ||| 0x08, { d with ready := true, clock := d.clock + 1 })
  else (t.status d.clock &&& ~~~0x08, { d with waits := d.waits - 1, clock := d.clock + 1 })

/-- The drive after a doubleword is read from port `0x1F0`. -/
def AtaDevice.taken (t : AtaTiming) (d : AtaDevice) : AtaDevice :=
  if d.ready = false then d
  else if d.dword + 1 = 128 then
    { d with
      sector := d.sector + 1
      left := d.left - 1
      done := d.done + 1
      waits := t.delay (d.done + 1)
      ready := false
      dword := 0 }
  else { d with dword := d.dword + 1 }

/-! ## The driver -/

/-- `out %al, %dx`. -/
def outAl (t : AtaTiming) (s : Cpu) (d : AtaDevice) : AtaDevice :=
  d.out t ((s.reg .rdx).setWidth 16) (s.low .rax)

/-- `insl`: four bytes of the sector at hand, or of an empty bus, to `(%rdi)`. -/
def insl (t : AtaTiming) (disk : ByteMem) (s : Cpu) (d : AtaDevice) : Cpu × AtaDevice :=
  let mem := if d.ready = true then
      s.mem.fill (s.reg .rdi).toNat disk (512 * d.sector + 4 * d.dword) 4
    else s.mem.write (s.reg .rdi).toNat 4 0xFFFFFFFF
  ({ s with mem := mem }.set .rdi (s.reg .rdi + 4), d.taken t)

/-- `rep insl`. -/
def repInsl (t : AtaTiming) (disk : ByteMem) : Nat → Cpu → AtaDevice → Cpu × AtaDevice
  | 0, s, d => (s.set .rcx 0, d)
  | n + 1, s, d => repInsl t disk n (insl t disk s d).1 (insl t disk s d).2

/-- What is pushed, in this order, behind the flags. -/
def ataPioSaved : List Reg := [.rax, .rbx, .rcx, .rdx, .rsi, .rdi]

/-- The entry of `ata_pio_read`. -/
def ataPioSave (s : Cpu) : Cpu := s.pushf.pushRegs ataPioSaved

/-- The registers up to the first port: `%rax` and `%rbx` have the 28 bits of the number, `%rcx` the
count. -/
def ataPioArgs (s : Cpu) : Cpu :=
  let s := ((s.set .rax 0).set .rbx 0).set .rcx 0
  let s := (s.set .rax (s.reg .rsi)).set .rcx (s.reg .rdx)
  let s := s.set .rax (s.reg .rax &&& 0x0FFFFFFF)
  s.set .rbx (s.reg .rax)

/-- From port `0x1F6` to the command. -/
def ataPioSelect (t : AtaTiming) (s : Cpu) (d : AtaDevice) : Cpu × AtaDevice :=
  let s := (s.set .rdx 0x01F6).set .rax (s.reg .rax >>> 24)
  let s := s.setLow .rax (s.low .rax ||| 0xE0)
  let d := outAl t s d
  let s := (s.set .rdx 0x01F2).setLow .rax (s.low .rcx)
  let d := outAl t s d
  let s := (s.set .rdx 0x01F3).set .rax (s.reg .rbx)
  let d := outAl t s d
  let s := (s.set .rdx 0x01F4).set .rax (s.reg .rax >>> 8)
  let d := outAl t s d
  let s := (s.set .rdx 0x01F5).set .rax (s.reg .rax >>> 8)
  let d := outAl t s d
  let s := (s.set .rdx 0x01F7).setLow .rax 0x20
  let d := outAl t s d
  ((s.set .rbx 0).setLow .rbx (s.low .rcx), d)

/-- A sector that is ready, and one less to go. -/
def ataPioSector (t : AtaTiming) (disk : ByteMem) (s : Cpu) (d : AtaDevice) : Cpu × AtaDevice :=
  let s := (s.set .rdx 0x01F0).set .rcx 128
  let r := repInsl t disk (s.reg .rcx).toNat s d
  (r.1.set .rbx (r.1.reg .rbx - 1), r.2)

/-- `wait`, to the end of the loop, with `fuel` for its passes. -/
def ataPioWait (t : AtaTiming) (disk : ByteMem) :
    (fuel : Nat) → Cpu → AtaDevice → Option (Cpu × AtaDevice)
  | 0, _, _ => none
  | fuel + 1, s, d =>
    let s := (s.set .rdx 0x01F7).setLow .rax (d.poll t).1
    let d := (d.poll t).2
    if s.low .rax &&& 8 = 0 then ataPioWait t disk fuel s d
    else
      let r := ataPioSector t disk s d
      if r.1.reg .rbx ≠ 0 then ataPioWait t disk fuel r.1 r.2 else some r

/-- The end of `ata_pio_read`. -/
def ataPioRest (s : Cpu) : Cpu := (s.popRegs ataPioSaved.reverse).popf.ret

/-- `ata_pio_read`. -/
def ataPioRead (t : AtaTiming) (disk : ByteMem) (fuel : Nat) (s : Cpu) (d : AtaDevice) :
    Option (Cpu × AtaDevice) :=
  let r := ataPioSelect t (ataPioArgs (ataPioSave s)) d
  (ataPioWait t disk fuel r.1 r.2).map fun r => (ataPioRest r.1, r.2)

/-- The passes of the loop for the `n` sectors from sector `k` of the command on. -/
def pollsFor (t : AtaTiming) : (k n : Nat) → Nat
  | _, 0 => 0
  | k, n + 1 => pollsFor t (k + 1) n + (t.delay k + 1)

/-! ## One sector -/

section Sector

variable {t : AtaTiming} {disk : ByteMem} {s : Cpu} {d : AtaDevice}

/-- A poll that finds nothing ready. -/
theorem poll_busy (hready : d.ready = false) (hbusy : d.left = 0 ∨ 0 < d.waits) :
    (d.poll t).1 &&& 8 = 0 ∧
      (d.poll t).2 = { d with waits := d.waits - 1, clock := d.clock + 1 } := by
  have hno : ¬ (d.ready = true ∨ (0 < d.left ∧ d.waits = 0)) := by
    rw [hready]
    simp only [Bool.false_eq_true, false_or]
    omega
  unfold AtaDevice.poll
  rw [if_neg hno]
  refine ⟨?_, rfl⟩
  rw [BitVec.and_assoc, show (~~~0x08 &&& 8 : BitVec 8) = 0#8 from rfl, BitVec.and_zero]
  rfl

/-- A poll that finds a sector ready. -/
theorem poll_ready (hleft : 0 < d.left) (hwaits : d.waits = 0) :
    (d.poll t).1 &&& 8 ≠ 0 ∧
      (d.poll t).2 = { d with ready := true, clock := d.clock + 1 } := by
  unfold AtaDevice.poll
  rw [if_pos (Or.inr ⟨hleft, hwaits⟩)]
  refine ⟨fun hzero => ?_, rfl⟩
  have hbit := congrArg (fun v => BitVec.getLsbD v 3) hzero
  simp only [BitVec.getLsbD_and, BitVec.getLsbD_or,
    show (0x08 : BitVec 8).getLsbD 3 = true from rfl,
    show (0 : BitVec 8).getLsbD 3 = false from rfl, Bool.or_true, Bool.and_true] at hbit
  cases hbit

/-- The drive with the sector after the one at hand. -/
def AtaDevice.nextSector (t : AtaTiming) (d : AtaDevice) : AtaDevice :=
  { d with
    sector := d.sector + 1
    left := d.left - 1
    done := d.done + 1
    waits := t.delay (d.done + 1)
    ready := false
    dword := 0 }

/-- A doubleword of a sector that is ready. -/
theorem insl_ready (t : AtaTiming) (disk : ByteMem) (s : Cpu) (hready : d.ready = true) :
    (insl t disk s d).1.mem =
      s.mem.fill (s.reg .rdi).toNat disk (512 * d.sector + 4 * d.dword) 4 ∧
    (insl t disk s d).1.reg .rdi = s.reg .rdi + 4 ∧
    (∀ r, r ≠ .rdi → (insl t disk s d).1.reg r = s.reg r) ∧
    (insl t disk s d).2 =
      if d.dword + 1 = 128 then d.nextSector t else { d with dword := d.dword + 1 } := by
  refine ⟨?_, rfl, fun r hr => if_neg hr, ?_⟩
  · unfold insl
    rw [if_pos hready]
    rfl
  · show d.taken t = _
    unfold AtaDevice.taken
    rw [if_neg (by rw [hready]; decide)]
    rfl

/-- The rest of a sector, `n + 1` doublewords. -/
theorem repInsl_rest (t : AtaTiming) (disk : ByteMem) (n : Nat) : ∀ (s : Cpu) {d : AtaDevice},
    d.ready = true → d.dword + (n + 1) = 128 →
    ((s.reg .rdi).toNat + 4 * (n + 1) < 2 ^ 64 →
      (repInsl t disk (n + 1) s d).1.mem =
        s.mem.fill (s.reg .rdi).toNat disk (512 * d.sector + 4 * d.dword) (4 * (n + 1)) ∧
      ((repInsl t disk (n + 1) s d).1.reg .rdi).toNat = (s.reg .rdi).toNat + 4 * (n + 1)) ∧
    (∀ r, r ≠ .rdi → r ≠ .rcx → (repInsl t disk (n + 1) s d).1.reg r = s.reg r) ∧
    (repInsl t disk (n + 1) s d).2 = d.nextSector t := by
  have hnext {a : BitVec 64} (h : a.toNat + 4 < 2 ^ 64) : (a + 4).toNat = a.toNat + 4 := by
    rw [BitVec.toNat_add]
    exact Nat.mod_eq_of_lt h
  induction n with
  | zero =>
    intro s d hready hdword
    obtain ⟨hmem, hrdi, hreg, hdev⟩ := insl_ready t disk s hready
    rw [if_pos hdword] at hdev
    refine ⟨fun hfit => ⟨hmem, ?_⟩, fun r hdi hcx => (if_neg hcx).trans (hreg r hdi), hdev⟩
    exact (congrArg BitVec.toNat hrdi).trans (hnext (by omega))
  | succ n ih =>
    intro s d hready hdword
    obtain ⟨hmem, hrdi, hreg, hdev⟩ := insl_ready t disk s hready
    rw [if_neg (by omega)] at hdev
    obtain ⟨hstored, hreg', hdev'⟩ := ih (insl t disk s d).1 (d := (insl t disk s d).2)
      (by rw [hdev]; exact hready) (by rw [hdev]; dsimp only; omega)
    have hsector : (insl t disk s d).2.sector = d.sector := by rw [hdev]
    have hdword' : (insl t disk s d).2.dword = d.dword + 1 := by rw [hdev]
    rw [repInsl]
    refine ⟨fun hfit => ?_, fun r hdi hcx => (hreg' r hdi hcx).trans (hreg r hdi), ?_⟩
    · rw [hrdi, hnext (by omega), hmem, hsector, hdword'] at hstored
      obtain ⟨hmem', hrdi'⟩ := hstored (by omega)
      refine ⟨?_, by rw [hrdi']; omega⟩
      rw [hmem',
        show 512 * d.sector + 4 * (d.dword + 1) = 512 * d.sector + 4 * d.dword + 4 by omega,
        ByteMem.fill_fill, show 4 + 4 * (n + 1) = 4 * (n + 1 + 1) by omega]
    · rw [hdev', hdev]
      rfl

/-- What a pass that finds a sector ready does. -/
theorem ataPioSector_spec (t : AtaTiming) (disk : ByteMem) (s : Cpu) (hready : d.ready = true)
    (hdword : d.dword = 0) :
    ((s.reg .rdi).toNat + 512 < 2 ^ 64 →
      (ataPioSector t disk s d).1.mem =
        s.mem.fill (s.reg .rdi).toNat disk (512 * d.sector) 512 ∧
      ((ataPioSector t disk s d).1.reg .rdi).toNat = (s.reg .rdi).toNat + 512) ∧
    (ataPioSector t disk s d).1.reg .rbx = s.reg .rbx - 1 ∧
    (∀ r ∉ ataPioSaved, (ataPioSector t disk s d).1.reg r = s.reg r) ∧
    (ataPioSector t disk s d).2 = d.nextSector t := by
  have hrest := repInsl_rest t disk 127 ((s.set .rdx 0x01F0).set .rcx 128) (d := d) hready
    (by omega)
  have hsector : ataPioSector t disk s d =
      ((repInsl t disk (127 + 1) ((s.set .rdx 0x01F0).set .rcx 128) d).1.set .rbx
        ((repInsl t disk (127 + 1) ((s.set .rdx 0x01F0).set .rcx 128) d).1.reg .rbx - 1),
        (repInsl t disk (127 + 1) ((s.set .rdx 0x01F0).set .rcx 128) d).2) := rfl
  rw [hsector]
  generalize repInsl t disk (127 + 1) ((s.set .rdx 0x01F0).set .rcx 128) d = r at hrest
  obtain ⟨hstored, hreg, hdev⟩ := hrest
  refine ⟨fun hfit => ?_, ?_, fun q hq => ?_, hdev⟩
  · obtain ⟨hmem, hrdi⟩ := hstored hfit
    rw [hdword] at hmem
    refine ⟨hmem, ?_⟩
    rw [Cpu.set_reg, if_neg (by decide), hrdi]
    rfl
  · rw [Cpu.set_reg, if_pos rfl, hreg .rbx (by decide) (by decide)]
    rfl
  · simp only [ataPioSaved, List.mem_cons, List.not_mem_nil, or_false, not_or] at hq
    obtain ⟨-, hbx, hcx, hdx, -, hdi⟩ := hq
    rw [Cpu.set_reg, if_neg hbx, hreg q hdi hcx, Cpu.set_reg, if_neg hcx, Cpu.set_reg, if_neg hdx]

end Sector

/-! ## The loop -/

section Loop

variable {t : AtaTiming} {disk : ByteMem} {s₀ s : Cpu} {d : AtaDevice} {lba n k : Nat}

/-- After `k` of `n` sectors from `lba` on, of a loop that `s₀` began. -/
structure Transfer (disk : ByteMem) (s₀ : Cpu) (lba n k : Nat) (s : Cpu) (d : AtaDevice) :
    Prop where
  mem : s.mem = s₀.mem.fill (s₀.reg .rdi).toNat disk (512 * lba) (512 * k)
  rdi : (s.reg .rdi).toNat = (s₀.reg .rdi).toNat + 512 * k
  rbx : (s.reg .rbx).toNat = n - k
  reg : ∀ r ∉ ataPioSaved, s.reg r = s₀.reg r
  sector : d.sector = lba + k
  left : d.left = n - k
  done : d.done = k
  ready : d.ready = false
  dword : d.dword = 0

/-- The machine after a poll. -/
def polled (t : AtaTiming) (s : Cpu) (d : AtaDevice) : Cpu :=
  (s.set .rdx 0x01F7).setLow .rax (d.poll t).1

theorem polled_reg {r : Reg} (h : r ∉ ataPioSaved) : (polled t s d).reg r = s.reg r := by
  simp only [ataPioSaved, List.mem_cons, List.not_mem_nil, or_false, not_or] at h
  unfold polled
  rw [Cpu.setLow_reg, if_neg h.1, Cpu.set_reg, if_neg h.2.2.2.1]

/-- A pass that finds nothing ready. -/
theorem ataPioWait_busy (fuel : Nat) (h : (d.poll t).1 &&& 8 = 0) :
    ataPioWait t disk (fuel + 1) s d = ataPioWait t disk fuel (polled t s d) (d.poll t).2 := by
  unfold polled
  rw [ataPioWait]
  dsimp only
  rw [Cpu.low_setLow, if_pos h]

/-- A pass that finds a sector. -/
theorem ataPioWait_ready (disk : ByteMem) (s : Cpu) (fuel : Nat) (h : (d.poll t).1 &&& 8 ≠ 0) :
    ataPioWait t disk (fuel + 1) s d =
      if (ataPioSector t disk (polled t s d) (d.poll t).2).1.reg .rbx ≠ 0 then
        ataPioWait t disk fuel (ataPioSector t disk (polled t s d) (d.poll t).2).1
          (ataPioSector t disk (polled t s d) (d.poll t).2).2
      else some (ataPioSector t disk (polled t s d) (d.poll t).2) := by
  unfold polled
  rw [ataPioWait]
  dsimp only
  rw [Cpu.low_setLow, if_neg h]

/-- The passes up to the one that reads the next sector. -/
theorem transfer_sector (hk : k < n) (hfit : (s₀.reg .rdi).toNat + 512 * n < 2 ^ 64) (w : Nat) :
    ∀ {s : Cpu} {d : AtaDevice}, Transfer disk s₀ lba n k s d → d.waits = w →
      ∃ s' d', Transfer disk s₀ lba n (k + 1) s' d' ∧ d'.waits = t.delay (k + 1) ∧
        ∀ fuel, ataPioWait t disk (fuel + (w + 1)) s d =
          if k + 1 < n then ataPioWait t disk fuel s' d' else some (s', d') := by
  induction w with
  | zero =>
    intro s d h hwaits
    obtain ⟨hstatus, hdev⟩ := poll_ready (t := t) (d := d) (by rw [h.left]; omega) hwaits
    have hrun (fuel : Nat) := ataPioWait_ready disk s fuel hstatus
    rw [hdev] at hrun
    obtain ⟨hstored, hrbx, hreg, hnext⟩ := ataPioSector_spec t disk (polled t s d)
      (d := { d with ready := true, clock := d.clock + 1 }) rfl h.dword
    obtain ⟨hmem, hrdi⟩ := hstored (by show (s.reg .rdi).toNat + 512 < _; rw [h.rdi]; omega)
    obtain ⟨r, hr⟩ : ∃ r, ataPioSector t disk (polled t s d)
      { d with ready := true, clock := d.clock + 1 } = r := ⟨_, rfl⟩
    rw [hr] at hmem hrdi hrbx hreg hnext hrun
    have hcount : (r.1.reg .rbx).toNat = n - (k + 1) := by
      have hleft : ((polled t s d).reg .rbx).toNat = n - k := h.rbx
      rw [hrbx, BitVec.toNat_sub, hleft, show (1 : BitVec 64).toNat = 1 from rfl]
      have hlt : n - k < 2 ^ 64 := by omega
      omega
    refine ⟨r.1, r.2, ⟨?_, ?_, hcount, fun q hq => ?_, ?_, ?_, ?_, ?_, ?_⟩, ?_, ?_⟩
    · rw [hmem, show ((polled t s d).reg .rdi).toNat = _ from h.rdi,
        show (polled t s d).mem = _ from h.mem, show 512 * d.sector = 512 * lba + 512 * k by
          rw [h.sector]; omega, ByteMem.fill_fill, Nat.mul_succ]
    · rw [hrdi, show ((polled t s d).reg .rdi).toNat = _ from h.rdi]
      omega
    · rw [hreg q hq, polled_reg hq, h.reg q hq]
    · rw [hnext]
      exact congrArg (· + 1) h.sector
    · rw [hnext]
      exact congrArg (· - 1) h.left
    · rw [hnext]
      exact congrArg (· + 1) h.done
    · rw [hnext]
      rfl
    · rw [hnext]
      rfl
    · rw [hnext]
      exact congrArg (fun k => t.delay (k + 1)) h.done
    · intro fuel
      rw [Nat.zero_add, hrun fuel]
      by_cases hlast : k + 1 < n
      · rw [if_pos hlast, if_pos]
        intro hzero
        rw [hzero] at hcount
        exact absurd hcount (by show ¬ 0 = _; omega)
      · rw [if_neg hlast, if_neg]
        exact not_not.mpr (BitVec.eq_of_toNat_eq (by rw [hcount]; show _ = 0; omega))
  | succ w ih =>
    intro s d h hwaits
    obtain ⟨hstatus, hdev⟩ := poll_busy (t := t) (d := d) h.ready (Or.inr (by omega))
    have hnext : Transfer disk s₀ lba n k (polled t s d) (d.poll t).2 := by
      rw [hdev]
      exact ⟨h.mem, h.rdi, h.rbx, fun q hq => (polled_reg hq).trans (h.reg q hq), h.sector,
        h.left, h.done, h.ready, h.dword⟩
    obtain ⟨s', d', htrans, hwaits', hrun⟩ := ih hnext (by rw [hdev]; dsimp only; omega)
    refine ⟨s', d', htrans, hwaits', fun fuel => ?_⟩
    rw [← hrun fuel, ← ataPioWait_busy _ hstatus]
    rfl

/-- The passes for all the sectors that are left. -/
theorem transfer_all (hfit : (s₀.reg .rdi).toNat + 512 * n < 2 ^ 64) (j : Nat) :
    ∀ {k : Nat} {s : Cpu} {d : AtaDevice}, k + (j + 1) = n → Transfer disk s₀ lba n k s d →
      d.waits = t.delay k →
      ∃ s' d', Transfer disk s₀ lba n n s' d' ∧
        ∀ fuel, ataPioWait t disk (fuel + pollsFor t k (j + 1)) s d = some (s', d') := by
  induction j with
  | zero =>
    intro k s d hk h hwaits
    obtain ⟨s', d', htrans, -, hrun⟩ := transfer_sector (t := t) (by omega) hfit _ h hwaits
    rw [show k + 1 = n by omega] at htrans
    refine ⟨s', d', htrans, fun fuel => ?_⟩
    rw [pollsFor, pollsFor, Nat.zero_add, hrun fuel, if_neg (by omega)]
  | succ j ih =>
    intro k s d hk h hwaits
    obtain ⟨s₁, d₁, htrans₁, hwaits₁, hrun₁⟩ :=
      transfer_sector (t := t) (by omega) hfit _ h hwaits
    obtain ⟨s', d', htrans, hrun⟩ := ih (by omega) htrans₁ hwaits₁
    refine ⟨s', d', htrans, fun fuel => ?_⟩
    rw [pollsFor, ← Nat.add_assoc, hrun₁, if_pos (by omega), hrun fuel]

/-- The driver goes on for `2 ^ 64` sectors, and the drive has 256. -/
structure Endless (s : Cpu) (d : AtaDevice) : Prop where
  rbx : s.reg .rbx = 0 - BitVec.ofNat 64 d.done
  left : d.left + d.done = 256
  ready : d.ready = false
  dword : d.dword = 0

/-- So it comes to no end. -/
theorem endless_wait (t : AtaTiming) (disk : ByteMem) (fuel : Nat) :
    ∀ {s : Cpu} {d : AtaDevice}, Endless s d → ataPioWait t disk fuel s d = none := by
  induction fuel with
  | zero => exact fun _ => rfl
  | succ fuel ih =>
    intro s d h
    by_cases hwait : d.left = 0 ∨ 0 < d.waits
    · obtain ⟨hstatus, hdev⟩ := poll_busy (t := t) h.ready hwait
      rw [ataPioWait_busy _ hstatus]
      refine ih ?_
      rw [hdev]
      exact ⟨h.rbx, h.left, h.ready, h.dword⟩
    · obtain ⟨hstatus, hdev⟩ := poll_ready (t := t) (d := d) (by omega) (by omega)
      have hrun := ataPioWait_ready disk s fuel hstatus
      rw [hdev] at hrun
      obtain ⟨-, hrbx, -, hnext⟩ := ataPioSector_spec t disk (polled t s d)
        (d := { d with ready := true, clock := d.clock + 1 }) rfl h.dword
      obtain ⟨r, hr⟩ : ∃ r, ataPioSector t disk (polled t s d)
        { d with ready := true, clock := d.clock + 1 } = r := ⟨_, rfl⟩
      rw [hr] at hrbx hnext hrun
      have hleft := h.left
      have hcount : r.1.reg .rbx = 0 - BitVec.ofNat 64 (d.done + 1) := by
        have hbefore : (polled t s d).reg .rbx = 0 - BitVec.ofNat 64 d.done := h.rbx
        refine BitVec.eq_of_toNat_eq ?_
        rw [hrbx, hbefore]
        simp only [BitVec.toNat_sub, BitVec.toNat_ofNat, show (0 : BitVec 64).toNat = 0 from rfl,
          show (1 : BitVec 64).toNat = 1 from rfl]
        omega
      have hmore : r.1.reg .rbx ≠ 0 := by
        intro hzero
        have hnat := congrArg BitVec.toNat (hcount.symm.trans hzero)
        simp only [BitVec.toNat_sub, BitVec.toNat_ofNat, show (0 : BitVec 64).toNat = 0 from rfl]
          at hnat
        omega
      rw [hrun, if_pos hmore]
      refine ih ?_
      rw [hnext]
      exact ⟨hcount, by show d.left - 1 + (d.done + 1) = 256; omega, rfl, rfl⟩

end Loop

/-! ## The command -/

section Select

variable {t : AtaTiming} {s : Cpu} {d : AtaDevice}

/-- The drive after the registers of a command are set and it is given. -/
theorem ataPioSelect_device (t : AtaTiming) (s : Cpu) (d : AtaDevice) :
    (ataPioSelect t (ataPioArgs s) d).2 =
      AtaDevice.out t
        { d with
          count := s.low .rdx
          lbaLow := (s.reg .rsi &&& 0x0FFFFFFF).setWidth 8
          lbaMid := ((s.reg .rsi &&& 0x0FFFFFFF) >>> 8).setWidth 8
          lbaHigh := ((s.reg .rsi &&& 0x0FFFFFFF) >>> 8 >>> 8).setWidth 8
          head := ((s.reg .rsi &&& 0x0FFFFFFF) >>> 24).setWidth 8 ||| 0xE0 } 0x01F7 0x20 := by
  simp [ataPioSelect, ataPioArgs, outAl, Cpu.low, Cpu.setLow, AtaDevice.out]

/-- The bytes of a number of 28 bits. -/
theorem number_bytes {a : BitVec 64} (h : a.toNat < 2 ^ 28) :
    (((a >>> 24).setWidth 8 ||| 0xE0) &&& (0x0F : BitVec 8)).toNat * 2 ^ 24 +
      ((a >>> 8 >>> 8).setWidth 8 : BitVec 8).toNat * 2 ^ 16 +
      ((a >>> 8).setWidth 8 : BitVec 8).toNat * 2 ^ 8 + (a.setWidth 8 : BitVec 8).toNat =
        a.toNat := by
  have hhead : (((a >>> 24).setWidth 8 ||| 0xE0) &&& (0x0F : BitVec 8)).toNat =
      a.toNat / 2 ^ 24 := by
    rw [BitVec.and_or_distrib_right, show (0xE0 &&& 0x0F : BitVec 8) = 0#8 from rfl, BitVec.or_zero,
      BitVec.toNat_and, show (0x0F : BitVec 8).toNat = 2 ^ 4 - 1 from rfl,
      Nat.and_two_pow_sub_one_eq_mod, BitVec.toNat_setWidth, BitVec.toNat_ushiftRight,
      Nat.shiftRight_eq_div_pow]
    omega
  rw [hhead]
  simp only [BitVec.toNat_setWidth, BitVec.toNat_ushiftRight, Nat.shiftRight_eq_div_pow]
  omega

/-- What the loop begins with. -/
theorem ataPioSelect_spec (t : AtaTiming) (s : Cpu) (d : AtaDevice) :
    (ataPioSelect t (ataPioArgs s) d).1.mem = s.mem ∧
    (ataPioSelect t (ataPioArgs s) d).1.reg .rdi = s.reg .rdi ∧
    (∀ r ∉ ataPioSaved, (ataPioSelect t (ataPioArgs s) d).1.reg r = s.reg r) ∧
    (ataPioSelect t (ataPioArgs s) d).1.reg .rbx = (s.low .rdx).setWidth 64 ∧
    (ataPioSelect t (ataPioArgs s) d).2.sector = (s.reg .rsi).toNat % 2 ^ 28 ∧
    (ataPioSelect t (ataPioArgs s) d).2.left =
      (if s.low .rdx = 0 then 256 else (s.low .rdx).toNat) ∧
    (ataPioSelect t (ataPioArgs s) d).2.done = 0 ∧
    (ataPioSelect t (ataPioArgs s) d).2.waits = t.delay 0 ∧
    (ataPioSelect t (ataPioArgs s) d).2.ready = false ∧
    (ataPioSelect t (ataPioArgs s) d).2.dword = 0 := by
  have hmask : (s.reg .rsi &&& 0x0FFFFFFF).toNat = (s.reg .rsi).toNat % 2 ^ 28 := by
    rw [BitVec.toNat_and, show (0x0FFFFFFF : BitVec 64).toNat = 2 ^ 28 - 1 from rfl,
      Nat.and_two_pow_sub_one_eq_mod]
  have hlba :
      ((((s.reg .rsi &&& 0x0FFFFFFF) >>> 24).setWidth 8 : BitVec 8) ||| 0xE0) &&& 0x40 ≠ 0 := by
    intro hzero
    have hbit := congrArg (fun v => BitVec.getLsbD v 6) hzero
    simp only [BitVec.getLsbD_and, BitVec.getLsbD_or,
      show (0xE0 : BitVec 8).getLsbD 6 = true from rfl,
      show (0x40 : BitVec 8).getLsbD 6 = true from rfl,
      show (0 : BitVec 8).getLsbD 6 = false from rfl, Bool.or_true, Bool.and_true] at hbit
    cases hbit
  rw [ataPioSelect_device t s d]
  refine ⟨rfl, rfl, fun r hr => ?_, ?_, ?_⟩
  · simp only [ataPioSaved, List.mem_cons, List.not_mem_nil, or_false, not_or] at hr
    simp [ataPioSelect, ataPioArgs, Cpu.setLow, hr]
  · simp [ataPioSelect, ataPioArgs, Cpu.low, Cpu.setLow]
  · unfold AtaDevice.out
    rw [if_neg (by decide), if_neg (by decide), if_neg (by decide), if_neg (by decide),
      if_neg (by decide), if_pos ⟨rfl, rfl, hlba⟩]
    refine ⟨?_, rfl, rfl, rfl, rfl, rfl⟩
    exact (number_bytes (by rw [hmask]; exact Nat.mod_lt _ (by decide))).trans hmask

end Select

/-! ## The call -/

section Call

variable {s s₁ : Cpu} {f : Reg → BitVec 64} {ra fl : BitVec 64}

/-- What the entry leaves on the stack. -/
theorem ataPioSave_spec (hra : s.Stack [ra]) (hroom : 56 ≤ s.sp.toNat) :
    (ataPioSave s).Stack (ataPioSaved.reverse.map s.reg ++ [s.rflags, ra]) ∧
    (ataPioSave s).sp.toNat = s.sp.toNat - 56 ∧
    (∀ r, r ≠ .rsp → (ataPioSave s).reg r = s.reg r) ∧
    ∀ x, x < s.sp.toNat - 56 ∨ s.sp.toNat ≤ x → (ataPioSave s).mem x = s.mem x := by
  have hmap : ataPioSaved.map s.pushf.reg = ataPioSaved.map s.reg := rfl
  have hsave : ataPioSave s = s.pushAll (s.rflags :: ataPioSaved.map s.reg) := by
    unfold ataPioSave
    rw [Cpu.pushRegs_eq_pushAll _ _ (by decide), hmap, Cpu.pushAll, Cpu.pushf]
  obtain ⟨hst, hsp, hreg, hmem, -⟩ :=
    Cpu.stack_pushAll (s.rflags :: ataPioSaved.map s.reg) hra hroom
  rw [hsave]
  exact ⟨hst, hsp, hreg, hmem⟩

/-- What the end takes from it. -/
theorem ataPioRest_spec (hst : s₁.Stack (ataPioSaved.reverse.map f ++ [fl, ra])) :
    (ataPioRest s₁).rip = ra ∧ (ataPioRest s₁).rflags = fl ∧
    (ataPioRest s₁).sp.toNat = s₁.sp.toNat + 64 ∧ (ataPioRest s₁).mem = s₁.mem ∧
    ∀ r, r ≠ .rsp → (ataPioRest s₁).reg r = if r ∈ ataPioSaved then f r else s₁.reg r := by
  obtain ⟨hst₂, hsp₂, hreg₂, hmem₂, -⟩ := Cpu.stack_popRegs f hst (by decide)
  obtain ⟨hst₃, hfl, hreg₃, hsp₃⟩ := Cpu.stack_popf hst₂
  obtain ⟨-, hrip⟩ := Cpu.stack_ret hst₃
  have hsp₄ := Cpu.sp_tail hst₃
  have hlen : ataPioSaved.reverse.length = 6 := rfl
  rw [hlen] at hsp₂
  unfold ataPioRest
  generalize s₁.popRegs ataPioSaved.reverse = s₂ at *
  refine ⟨hrip, hfl, ?_, hmem₂, fun r hr => ?_⟩
  · rw [Cpu.ret_sp, hsp₄, hsp₃, hsp₂]
  · have hlast := hreg₂ r hr
    simp only [List.mem_reverse] at hlast
    rw [Cpu.ret_reg, if_neg hr, hreg₃ r hr, hlast]

/-- A call for at least one sector returns, after so many polls, with all registers as they were
and the sectors stored. Else only the routine's part of the stack is written. -/
theorem ataPioRead_returns (t : AtaTiming) (disk : ByteMem) (s : Cpu) (d : AtaDevice)
    (hcount : s.low .rdx ≠ 0) (hroom : 56 ≤ s.sp.toNat) (hsp : s.sp.toNat + 8 < 2 ^ 64)
    (hfit : (s.reg .rdi).toNat + 512 * (s.low .rdx).toNat < 2 ^ 64)
    (hoff : (s.reg .rdi).toNat + 512 * (s.low .rdx).toNat ≤ s.sp.toNat - 56 ∨
      s.sp.toNat + 8 ≤ (s.reg .rdi).toNat) :
    ∃ s' d',
      (∀ fuel, ataPioRead t disk (fuel + pollsFor t 0 (s.low .rdx).toNat) s d = some (s', d')) ∧
      s'.rip = ld s.mem s.sp ∧ s'.rflags = s.rflags ∧ s'.sp.toNat = s.sp.toNat + 8 ∧
      (∀ r, r ≠ .rsp → s'.reg r = s.reg r) ∧
      (∀ x, x < s.sp.toNat - 56 ∨ s.sp.toNat ≤ x → s'.mem x =
        s.mem.fill (s.reg .rdi).toNat disk (512 * ((s.reg .rsi).toNat % 2 ^ 28))
          (512 * (s.low .rdx).toNat) x) ∧
      d'.left = 0 ∧ d'.ready = false := by
  have hra : s.Stack [ld s.mem s.sp] := ⟨rfl, hsp⟩
  obtain ⟨hst, hsp₁, hreg₁, hmem₁⟩ := ataPioSave_spec hra hroom
  have hlow : (ataPioSave s).low .rdx = s.low .rdx := by
    unfold Cpu.low
    rw [hreg₁ .rdx (by decide)]
  obtain ⟨hmem₂, hrdi₂, hreg₂, hrbx₂, hsector, hleft, hdone, hwaits, hready, hdword⟩ :=
    ataPioSelect_spec t (ataPioSave s) d
  rw [hlow] at hrbx₂ hleft
  rw [hreg₁ .rsi (by decide)] at hsector
  rw [hreg₁ .rdi (by decide)] at hrdi₂
  rw [if_neg hcount] at hleft
  obtain ⟨r, hr⟩ : ∃ r, ataPioSelect t (ataPioArgs (ataPioSave s)) d = r := ⟨_, rfl⟩
  rw [hr] at hmem₂ hrdi₂ hreg₂ hrbx₂ hsector hleft hdone hwaits hready hdword
  obtain ⟨j, hj⟩ : ∃ j, (s.low .rdx).toNat = j + 1 :=
    ⟨(s.low .rdx).toNat - 1, by
      have hpos : (s.low .rdx).toNat ≠ 0 := fun h => hcount (BitVec.eq_of_toNat_eq h)
      omega⟩
  have hstart : Transfer disk r.1 ((s.reg .rsi).toNat % 2 ^ 28) (s.low .rdx).toNat 0 r.1 r.2 := by
    refine ⟨?_, rfl, ?_, fun _ _ => rfl, hsector, hleft, hdone, hready, hdword⟩
    · funext x
      exact (ByteMem.fill_apply_out (by omega)).symm
    · rw [hrbx₂, BitVec.toNat_setWidth]
      have hbyte := (s.low .rdx).isLt
      omega
  obtain ⟨s', d', htrans, hrun⟩ := transfer_all (t := t) (by rw [hrdi₂]; exact hfit) j
    (by omega) hstart hwaits
  have hmem' : s'.mem = (ataPioSave s).mem.fill (s.reg .rdi).toNat disk
      (512 * ((s.reg .rsi).toNat % 2 ^ 28)) (512 * (s.low .rdx).toNat) := by
    rw [htrans.mem, hmem₂, hrdi₂]
  have hsp' : s'.sp = (ataPioSave s).sp :=
    (htrans.reg .rsp (by decide)).trans (hreg₂ .rsp (by decide))
  -- the sectors are not stored on the saved registers
  have hst' : s'.Stack (ataPioSaved.reverse.map s.reg ++ [s.rflags, ld s.mem s.sp]) := by
    unfold Cpu.Stack at hst ⊢
    rw [hsp']
    refine hst.congr fun x hx hx' => ?_
    have hlen : (ataPioSaved.reverse.map s.reg ++ [s.rflags, ld s.mem s.sp]).length = 8 := rfl
    rw [hlen] at hx'
    rw [hmem']
    exact ByteMem.fill_apply_out (by omega)
  obtain ⟨hrip, hfl, hspRest, hmemRest, hregRest⟩ := ataPioRest_spec hst'
  refine ⟨ataPioRest s', d', fun fuel => ?_, hrip, hfl, ?_, fun q hq => ?_, fun x hx => ?_,
    by rw [htrans.left, Nat.sub_self], htrans.ready⟩
  · unfold ataPioRead
    dsimp only
    rw [hr, hj, hrun fuel]
    rfl
  · rw [hspRest, hsp', hsp₁]
    omega
  · rw [hregRest q hq]
    by_cases hsaved : q ∈ ataPioSaved
    · rw [if_pos hsaved]
    · rw [if_neg hsaved, htrans.reg q hsaved, hreg₂ q hsaved, hreg₁ q hq]
  · rw [hmemRest, hmem']
    unfold ByteMem.fill
    rw [hmem₁ x hx]

/-- A call with the stack at `0x9000` and the buffer at `0x5000`. -/
def portCall (lba secnum : BitVec 64) : Cpu where
  reg
    | .rdi => 0x5000
    | .rsi => lba
    | .rdx => secnum
    | .rsp => 0x9000
    | _ => 0
  rip := 0x100000
  cs := 0x08
  rflags := 2
  ss := 0x10
  cr3 := 0x1000
  mem := fun _ => 0

/-- A drive that nothing was asked of. -/
def idleDrive : AtaDevice := ⟨0, 0, 0, 0, 0, 0, 0, 0, 0, false, 0, 0⟩

/-- A call for a count of 0 does not return. -/
theorem ataPioRead_hangs (t : AtaTiming) (disk : ByteMem) (fuel : Nat) (d : AtaDevice)
    (hcount : s.low .rdx = 0) : ataPioRead t disk fuel s d = none := by
  have hlow : (ataPioSave s).low .rdx = s.low .rdx := rfl
  rw [← hlow] at hcount
  obtain ⟨-, -, -, hrbx, -, hleft, hdone, -, hready, hdword⟩ :=
    ataPioSelect_spec t (ataPioSave s) d
  rw [hcount] at hrbx hleft
  have hend : Endless (ataPioSelect t (ataPioArgs (ataPioSave s)) d).1
      (ataPioSelect t (ataPioArgs (ataPioSave s)) d).2 := by
    refine ⟨?_, ?_, hready, hdword⟩
    · rw [hrbx, hdone]
      rfl
    · rw [hleft, hdone]
      rfl
  unfold ataPioRead
  dsimp only
  rw [endless_wait t disk fuel hend]
  rfl

end Call

end OS64.X86
