import OS64.Fs.Ata
import OS64.X86.AtaPio

/-!
# The disk from `ata_read` down to the ports

What `ata_read` copies is what `ata_pio_read` left in the buffer, so the bytes that a caller gets
are decided by the routine and the drive. `ataRead_ports` puts the two together;
`ataRead_comes_back` says for which sizes there is a way back at all.
-/

namespace OS64.Fs

open OS64.Lib OS64.Lib.X86 OS64.X86

variable {t : AtaTiming} {disk : ByteMem} {s : Cpu} {d : AtaDevice} {n : DevNode}
  {offset size : BitVec 64} {readBuf : Nat}

/-- `ata_read` calls `ata_pio_read` for the access `a`, with a buffer at `readBuf` that is not on the
stack and that `kmalloc` has given, which gives none for no sector. -/
structure AtaCall (a : AtaAccess) (readBuf : Nat) (s : Cpu) : Prop where
  ptr : (s.reg .rdi).toNat = readBuf
  lba : s.reg .rsi = a.lba
  secnum : s.low .rdx = a.secnum
  given : a.secnum ≠ 0 → readBuf ≠ 0
  room : 56 ≤ s.sp.toNat
  top : s.sp.toNat + 8 < 2 ^ 64
  fits : readBuf + 512 * a.secnum.toNat < 2 ^ 64
  apart : readBuf + 512 * a.secnum.toNat ≤ s.sp.toNat - 56 ∨ s.sp.toNat + 8 ≤ readBuf

/-- The access for a request inside the disk. -/
theorem ataAccess_inside (hfits : offset.toNat + size.toNat ≤ n.length.toNat) :
    ataAccess n.length offset size =
      ⟨offset >>> 9, (ataSectors (size.setWidth 32)).setWidth 8, offset.toNat % 512,
        ((size.setWidth 32).signExtend 64).toNat⟩ := by
  unfold ataAccess
  rw [clipInt_inside hfits, (offset_parts offset).2]

/-- With a count of at least one sector the routine returns, and has stored them. -/
theorem AtaCall.returns {a : AtaAccess} (hcall : AtaCall a readBuf s) (hcount : a.secnum ≠ 0)
    (t : AtaTiming) (disk : ByteMem) (d : AtaDevice) :
    ∃ s' d',
      (∀ fuel, ataPioRead t disk (fuel + pollsFor t 0 a.secnum.toNat) s d = some (s', d')) ∧
      s'.rip = ld s.mem s.sp ∧ (∀ r, r ≠ .rsp → s'.reg r = s.reg r) ∧
      ∀ k, k < 512 * a.secnum.toNat →
        s'.mem (readBuf + k) = disk (512 * (a.lba.toNat % 2 ^ 28) + k) := by
  have hfits := hcall.fits
  have hapart := hcall.apart
  obtain ⟨s', d', hrun, hrip, -, -, hreg, hmem, -, -⟩ := ataPioRead_returns t disk s d
    (by rw [hcall.secnum]; exact hcount) hcall.room hcall.top
    (by rw [hcall.ptr, hcall.secnum]; exact hfits) (by rw [hcall.ptr, hcall.secnum]; exact hapart)
  rw [hcall.secnum] at hrun hmem
  rw [hcall.ptr, hcall.lba] at hmem
  refine ⟨s', d', hrun, hrip, hreg, fun k hk => ?_⟩
  rw [hmem _ (by omega), ByteMem.fill_apply_in (by omega) (by omega), Nat.add_sub_cancel_left]

/-- A request that meets the condition gets the bytes of the disk, whatever the drive's timing is:
the routine comes back to `ata_read`, and the range that is copied holds them. -/
theorem ataRead_ports (t : AtaTiming) (disk : ByteMem) (d : AtaDevice)
    (hfits : offset.toNat + size.toNat ≤ n.length.toNat) (h : ataMeets offset size)
    (hcall : AtaCall (ataAccess n.length offset size) readBuf s) :
    ∃ s' d' polls, (∀ fuel, ataPioRead t disk (fuel + polls) s d = some (s', d')) ∧
      s'.rip = ld s.mem s.sp ∧ (∀ r, r ≠ .rsp → s'.reg r = s.reg r) ∧
      (ataAccess n.length offset size).count = size.toNat ∧
      ∀ k, k < size.toNat →
        s'.mem (readBuf + (ataAccess n.length offset size).start + k) =
          disk (offset.toNat + k) := by
  obtain ⟨hpos, hsectors, hlba, hcopied⟩ := h
  obtain ⟨hsecnum, hsize⟩ := secnum_toNat hsectors
  rw [ataAccess_inside hfits] at hcall ⊢
  dsimp only
  have hcount : (ataSectors (size.setWidth 32)).setWidth 8 ≠ 0 := by
    intro hzero
    rw [hzero] at hsecnum
    have hnone : 0 = (size.toNat + 511) / 512 := hsecnum
    omega
  obtain ⟨s', d', hrun, hrip, hreg, hbytes⟩ := hcall.returns hcount t disk d
  dsimp only at hbytes
  rw [hsecnum, (offset_parts offset).1] at hbytes
  refine ⟨s', d', _, hrun, hrip, hreg, congrArg BitVec.toNat hsize, fun k hk => ?_⟩
  rw [Nat.add_assoc, hbytes _ (by omega)]
  congr 1
  omega

/-- Sector 1 of a disk, with a drive that is ready at once. -/
theorem ataRead_ports_sector : ∃ s' d' polls,
    (∀ fuel, ataPioRead ⟨fun _ => 0, fun _ => 0x50⟩ (fun a => BitVec.ofNat 8 (a / 512))
      (fuel + polls) (portCall 1 1) idleDrive = some (s', d')) ∧
    s'.rip = ld (portCall 1 1).mem (portCall 1 1).sp ∧
    (∀ r, r ≠ .rsp → s'.reg r = (portCall 1 1).reg r) ∧
    (ataAccess ataInit.length 512 512).count = (512 : BitVec 64).toNat ∧
    ∀ k, k < (512 : BitVec 64).toNat →
      s'.mem (0x5000 + (ataAccess ataInit.length 512 512).start + k) =
        BitVec.ofNat 8 (((512 : BitVec 64).toNat + k) / 512) :=
  ataRead_ports _ _ _ (by decide) (by unfold ataMeets; decide)
    ⟨rfl, rfl, rfl, by decide, by decide, by decide, by decide, Or.inl (by decide)⟩

/-- The routine comes back just when its count is not 0. -/
theorem AtaCall.back_iff {a : AtaAccess} (hcall : AtaCall a readBuf s) (t : AtaTiming)
    (disk : ByteMem) (d : AtaDevice) :
    (∃ fuel, (ataPioRead t disk fuel s d).isSome) ↔ a.secnum ≠ 0 := by
  constructor
  · intro ⟨fuel, hback⟩ hzero
    rw [ataPioRead_hangs t disk fuel d (hcall.secnum.trans hzero)] at hback
    cases hback
  · intro hcount
    obtain ⟨s', d', hrun, -⟩ := hcall.returns hcount t disk d
    exact ⟨_, by rw [hrun 0]; rfl⟩

/-- A read comes back just when the number of its sectors is not a multiple of 256, as it is for a
size of 0; and these are the reads that the table of devices can wait for (`ataDevice`). -/
theorem ataRead_comes_back (t : AtaTiming) (disk : ByteMem) (d : AtaDevice)
    (hfits : offset.toNat + size.toNat ≤ ataInit.length.toNat)
    (hcall : AtaCall (ataAccess ataInit.length offset size) readBuf s)
    (pio : BitVec 64 → BitVec 8 → ByteMem → ByteMem) (fresh : ByteMem) (v : Nat) :
    ((∃ fuel, (ataPioRead t disk fuel s d).isSome) ↔ (size.toNat + 511) / 512 % 256 ≠ 0) ∧
    ((ataDevice pio fresh v offset size).isSome ↔
      ∃ fuel, (ataPioRead t disk fuel s d).isSome) := by
  have hsecnum : (ataAccess ataInit.length offset size).secnum.toNat =
      (size.toNat + 511) / 512 % 256 := by
    rw [ataAccess_inside hfits]
    dsimp only
    rw [secnum_mod, BitVec.toNat_setWidth]
    omega
  have hoff : offset ≤ ataInit.length := by
    rw [BitVec.le_def]
    omega
  rw [hcall.back_iff t disk d, ← hsecnum, ataDevice_eq hoff]
  refine ⟨⟨fun h h0 => h (BitVec.eq_of_toNat_eq h0), fun h h0 => h (congrArg BitVec.toNat h0)⟩, ?_⟩
  by_cases hzero : (ataAccess ataInit.length offset size).secnum = 0
  · rw [if_pos hzero]
    exact iff_of_false Bool.false_ne_true fun h => h hzero
  · rw [if_neg hzero]
    exact iff_of_true rfl hzero

/-- A read of nothing stays in the driver, one of a sector does not. -/
theorem ataRead_comes_back_empty :
    (¬ ∃ fuel, (ataPioRead ⟨fun _ => 0, fun _ => 0x50⟩ (fun _ => 0) fuel
      (portCall 0 0) idleDrive).isSome) ∧
    ∃ fuel, (ataPioRead ⟨fun _ => 0, fun _ => 0x50⟩ (fun _ => 0) fuel
      (portCall 1 1) idleDrive).isSome := by
  have hempty := (ataRead_comes_back ⟨fun _ => 0, fun _ => 0x50⟩ (fun _ => 0) idleDrive
    (by decide : (0 : BitVec 64).toNat + (0 : BitVec 64).toNat ≤ ataInit.length.toNat)
    (⟨rfl, rfl, rfl, by decide, by decide, by decide, by decide, Or.inl (by decide)⟩ :
      AtaCall _ 0x5000 (portCall 0 0)) (fun _ _ m => m) (fun _ => 0) 0).1
  have hsector := (ataRead_comes_back ⟨fun _ => 0, fun _ => 0x50⟩ (fun _ => 0) idleDrive
    (by decide : (512 : BitVec 64).toNat + (512 : BitVec 64).toNat ≤ ataInit.length.toNat)
    (⟨rfl, rfl, rfl, by decide, by decide, by decide, by decide, Or.inl (by decide)⟩ :
      AtaCall _ 0x5000 (portCall 1 1)) (fun _ _ m => m) (fun _ => 0) 0).1
  exact ⟨fun h => hempty.mp h (by decide), hsector.mpr (by decide)⟩

end OS64.Fs
