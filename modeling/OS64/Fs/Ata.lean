import OS64.Fs.Devfs

/-!
# The disk

`ata_read` has `ata_pio_read` put whole sectors into a buffer of its own and copies from there.
How many sectors it asks for depends on the length alone, while the copy starts at the offset in
the first sector; and the number goes through an `unsigned char`. With a length of 0 it asks for 0
sectors, which the drive takes for 256.

`pio` is what `ata_pio_read` makes of the buffer. What is asked of it is `PioReads`: for at least
one sector and a sector number of 28 bits it stores these sectors.
-/

namespace OS64.Fs

open OS64.Lib (ByteMem int_widened)

/-- The arguments of `ata_pio_read`, and the range of its buffer that is copied. -/
structure AtaAccess where
  lba : BitVec 64
  secnum : BitVec 8
  start : Nat
  count : Nat

/-- What `ata_read` returns, the caller's buffer then, and how the disk was accessed. -/
structure AtaOutcome where
  result : Except Errno (BitVec 64)
  buffer : ByteMem
  access : Option AtaAccess

/-- `sectors`. -/
def ataSectors (len : BitVec 32) : BitVec 32 :=
  len.sshiftRight 9 + if len &&& 0x1FF ≠ 0 then 1 else 0

/-- The access for a request that is accepted. -/
def ataAccess (length offset size : BitVec 64) : AtaAccess where
  lba := offset >>> 9
  secnum := (ataSectors (clipInt length offset size)).setWidth 8
  start := (offset &&& 0x1FF).toNat
  count := ((clipInt length offset size).signExtend 64).toNat

/-- `ata_read`. -/
def ataRead (pio : BitVec 64 → BitVec 8 → ByteMem → ByteMem) (fresh : ByteMem)
    (node : Option DevNode) (offset size : BitVec 64) (buffer : Option ByteMem) : AtaOutcome :=
  match node, buffer with
  | none, _ => ⟨.error .ebadf, buffer.getD fun _ => 0, none⟩
  | some n, none => ⟨.error (if n.reserved = 0 then .ebadf else .einval), fun _ => 0, none⟩
  | some n, some b =>
    if n.reserved = 0 then ⟨.error .ebadf, b, none⟩
    else if n.length < offset then ⟨.error .einval, b, none⟩
    else
      let a := ataAccess n.length offset size
      let readBuf := pio a.lba a.secnum fresh
      ⟨.ok ((clipInt n.length offset size).signExtend 64), b.fill 0 readBuf a.start a.count, some a⟩

/-- The disk, read by `vfs_read`. `ata_pio_read` does not come back when it is asked for no sector. -/
def ataDevice (pio : BitVec 64 → BitVec 8 → ByteMem → ByteMem) (fresh : ByteMem) : DeviceRead :=
  fun _ offset size =>
    let o := ataRead pio fresh (some ataInit) offset size (some fresh)
    match o.access with
    | none => some (o.result.map fun count => (count, o.buffer))
    | some a => if a.secnum = 0 then none else some (o.result.map fun count => (count, o.buffer))

/-- `ata_pio_read` stores the sectors that it is asked for. -/
def PioReads (disk : ByteMem) (pio : BitVec 64 → BitVec 8 → ByteMem → ByteMem) : Prop :=
  ∀ lba secnum buf, 1 ≤ secnum.toNat → lba.toNat < 2 ^ 28 →
    pio lba secnum buf = buf.fill 0 disk (512 * lba.toNat) (512 * secnum.toNat)

/-- The disk is asked for at least one sector, by a number of 28 bits, only what was read is
copied, and nothing is asked for when the size is 0. -/
structure AtaSound (size : BitVec 64) (o : AtaOutcome) : Prop where
  sectors : ∀ a, o.access = some a → 1 ≤ a.secnum.toNat
  lba : ∀ a, o.access = some a → a.lba.toNat < 2 ^ 28
  copied : ∀ a, o.access = some a → ∀ k, k < a.count → a.start + k < 512 * a.secnum.toNat
  untouched : size = 0 → o.access = none

/-- The call returns the size, and the bytes of the disk are in the buffer. -/
structure AtaExact (disk : ByteMem) (offset size : BitVec 64) (o : AtaOutcome) : Prop where
  result : o.result = .ok size
  bytes : ∀ k, k < size.toNat → o.buffer k = disk (offset.toNat + k)

/-- At least one byte and at most 255 sectors, from one of the first `2 ^ 28` sectors on, with no
byte behind as many whole sectors as the size comes to. -/
def ataMeets (offset size : BitVec 64) : Prop :=
  0 < size.toNat ∧ size.toNat ≤ 255 * 512 ∧ offset.toNat < 2 ^ 37 ∧
    offset.toNat % 512 + size.toNat ≤ (size.toNat + 511) / 512 * 512

section Access

variable {length offset size : BitVec 64}

/-- A length that fits an `int` is rounded up to sectors. -/
theorem ataSectors_toNat {len : BitVec 32} (h : len.toNat < 2 ^ 31) :
    (ataSectors len).toNat = (len.toNat + 511) / 512 := by
  have hmsb : len.msb = false := by
    rw [BitVec.msb_eq_decide]
    exact decide_eq_false (by omega)
  have hshift : (len.sshiftRight 9).toNat = len.toNat / 512 := by
    rw [BitVec.sshiftRight_eq_of_msb_false hmsb, BitVec.toNat_ushiftRight,
      Nat.shiftRight_eq_div_pow]
  have hlow : (len &&& 0x1FF).toNat = len.toNat % 512 := by
    rw [BitVec.toNat_and]
    exact Nat.and_two_pow_sub_one_eq_mod len.toNat 9
  unfold ataSectors
  by_cases hrest : len &&& 0x1FF = 0
  · rw [hrest] at hlow
    have hzero : len.toNat % 512 = 0 := hlow.symm
    rw [if_neg fun h => h hrest, show len.sshiftRight 9 + 0 = len.sshiftRight 9 from
      BitVec.add_zero _, hshift]
    omega
  · have hpos : len.toNat % 512 ≠ 0 := fun h0 => hrest (BitVec.eq_of_toNat_eq (hlow.trans h0))
    rw [if_pos hrest, BitVec.toNat_add, hshift, show (1 : BitVec 32).toNat = 1 from rfl,
      Nat.mod_eq_of_lt (by omega)]
    omega

/-- The count that `ata_pio_read` gets is the number of sectors modulo 256, also where the length
does not fit an `int`. -/
theorem secnum_mod (len : BitVec 32) :
    ((ataSectors len).setWidth 8).toNat = (len.toNat + 511) / 512 % 256 := by
  have hshift : ((len.sshiftRight 9).setWidth 8).toNat = len.toNat / 512 % 256 := by
    have hbits : (len.sshiftRight 9).setWidth 8 = (len >>> 9).setWidth 8 := by
      apply BitVec.eq_of_getLsbD_eq
      intro i hi
      simp only [BitVec.getLsbD_setWidth, BitVec.getLsbD_sshiftRight, BitVec.getLsbD_ushiftRight]
      have h₁ : ¬ 32 ≤ i := by omega
      have h₂ : 9 + i < 32 := by omega
      simp [h₁, h₂]
    rw [hbits, BitVec.toNat_setWidth, BitVec.toNat_ushiftRight, Nat.shiftRight_eq_div_pow]
  have hlow : (len &&& 0x1FF).toNat = len.toNat % 512 := by
    rw [BitVec.toNat_and]
    exact Nat.and_two_pow_sub_one_eq_mod len.toNat 9
  rw [BitVec.toNat_setWidth] at hshift ⊢
  unfold ataSectors
  by_cases hrest : len &&& 0x1FF = 0
  · have hzero : len.toNat % 512 = 0 := by
      rw [← hlow, hrest]
      rfl
    rw [if_neg fun h => h hrest, show len.sshiftRight 9 + 0 = len.sshiftRight 9 from
      BitVec.add_zero _, hshift]
    omega
  · have hpos : len.toNat % 512 ≠ 0 := fun h0 => hrest (BitVec.eq_of_toNat_eq (hlow.trans h0))
    rw [if_pos hrest, BitVec.toNat_add, show (1 : BitVec 32).toNat = 1 from rfl]
    omega

theorem offset_parts (offset : BitVec 64) :
    (offset >>> 9).toNat = offset.toNat / 512 ∧ (offset &&& 0x1FF).toNat = offset.toNat % 512 := by
  constructor
  · rw [BitVec.toNat_ushiftRight, Nat.shiftRight_eq_div_pow]
  · rw [BitVec.toNat_and]
    exact Nat.and_two_pow_sub_one_eq_mod offset.toNat 9

/-- A request is not made larger. -/
theorem clipInt_small (hoff : offset ≤ length) (hsize : size.toNat < 2 ^ 31)
    (hsum : offset.toNat + size.toNat < 2 ^ 64) :
    (clipInt length offset size).toNat = min size.toNat (length.toNat - offset.toNat) := by
  have hle : offset.toNat ≤ length.toNat := hoff
  have hlength := length.isLt
  have hadd : (offset + size).toNat = offset.toNat + size.toNat := by
    rw [BitVec.toNat_add]
    exact Nat.mod_eq_of_lt hsum
  unfold clipInt
  rw [BitVec.toNat_setWidth]
  by_cases hlt : length < offset + size
  · rw [if_pos hlt, BitVec.toNat_sub_of_le hoff]
    rw [BitVec.lt_def, hadd] at hlt
    rw [Nat.mod_eq_of_lt (by omega)]
    omega
  · rw [if_neg hlt]
    rw [BitVec.lt_def, hadd] at hlt
    rw [Nat.mod_eq_of_lt (by omega)]
    omega

/-- A request inside the disk is not clipped. -/
theorem clipInt_inside (hfits : offset.toNat + size.toNat ≤ length.toNat) :
    clipInt length offset size = size.setWidth 32 := by
  have hlength := length.isLt
  unfold clipInt
  rw [if_neg]
  rw [BitVec.lt_def, BitVec.toNat_add, Nat.mod_eq_of_lt (by omega)]
  omega

end Access

section Read

variable {pio : BitVec 64 → BitVec 8 → ByteMem → ByteMem} {fresh disk : ByteMem} {n : DevNode}
  {offset size : BitVec 64}

/-- What `ata_read` does for a request inside the disk. -/
theorem ataRead_eq (hnode : n.reserved ≠ 0) (hfits : offset.toNat + size.toNat ≤ n.length.toNat)
    (b : ByteMem) :
    ataRead pio fresh (some n) offset size (some b) =
      ⟨.ok ((size.setWidth 32).signExtend 64),
        b.fill 0 (pio (offset >>> 9) ((ataSectors (size.setWidth 32)).setWidth 8) fresh)
          (offset.toNat % 512) ((size.setWidth 32).signExtend 64).toNat,
        some ⟨offset >>> 9, (ataSectors (size.setWidth 32)).setWidth 8, offset.toNat % 512,
          ((size.setWidth 32).signExtend 64).toNat⟩⟩ := by
  have hoff : ¬ n.length < offset := by
    rw [BitVec.lt_def]
    omega
  unfold ataRead ataAccess
  dsimp only
  rw [if_neg hnode, if_neg hoff, clipInt_inside hfits, (offset_parts offset).2]

/-- A read whose offset is accepted comes back when at least one sector is asked for. -/
theorem ataDevice_eq (hoff : offset ≤ ataInit.length) (v : Nat) :
    ataDevice pio fresh v offset size =
      if (ataAccess ataInit.length offset size).secnum = 0 then none
      else some ((ataRead pio fresh (some ataInit) offset size (some fresh)).result.map
        fun count => (count, (ataRead pio fresh (some ataInit) offset size (some fresh)).buffer)) := by
  have haccess : (ataRead pio fresh (some ataInit) offset size (some fresh)).access =
      some (ataAccess ataInit.length offset size) := by
    unfold ataRead
    dsimp only
    rw [if_neg (by decide), if_neg (BitVec.not_lt.mpr hoff)]
  unfold ataDevice
  dsimp only
  rw [haccess]

/-- A read of at most a sector does not come back just when the disk is asked for nothing. -/
theorem ataDevice_none (hsize : size.toNat ≤ 512) (v : Nat) :
    ataDevice pio fresh v offset size = none ↔
      offset.toNat ≤ 0xFFFFFFFF ∧ (size = 0 ∨ offset.toNat = 0xFFFFFFFF) := by
  have hlength : ataInit.length.toNat = 0xFFFFFFFF := rfl
  by_cases hoff : ataInit.length < offset
  · -- the offset is refused
    have hrefused : ataRead pio fresh (some ataInit) offset size (some fresh) =
        ⟨.error .einval, fresh, none⟩ := by
      unfold ataRead
      dsimp only
      rw [if_neg (by decide), if_pos hoff]
    have hsome : ataDevice pio fresh v offset size = some (.error .einval) := by
      unfold ataDevice
      rw [hrefused]
      rfl
    rw [BitVec.lt_def, hlength] at hoff
    rw [hsome]
    exact iff_of_false (Option.some_ne_none _) fun h => absurd h.1 (by omega)
  · have hle : offset ≤ ataInit.length := BitVec.not_lt.mp hoff
    have hle' : offset.toNat ≤ 0xFFFFFFFF := hle
    have hclip := clipInt_small hle (by omega) (show offset.toNat + size.toNat < 2 ^ 64 by omega)
    rw [hlength] at hclip
    have hsecnum : ((ataSectors (clipInt ataInit.length offset size)).setWidth 8).toNat =
        (min size.toNat (0xFFFFFFFF - offset.toNat) + 511) / 512 := by
      rw [BitVec.toNat_setWidth, ataSectors_toNat (by omega), hclip]
      exact Nat.mod_eq_of_lt (by omega)
    rw [ataDevice_eq hle]
    unfold ataAccess
    dsimp only
    constructor
    · intro h
      refine ⟨hle', ?_⟩
      by_cases hzero : (ataSectors (clipInt ataInit.length offset size)).setWidth 8 = 0
      · have hnum : 0 = (min size.toNat (0xFFFFFFFF - offset.toNat) + 511) / 512 := by
          rw [← hsecnum, hzero]
          rfl
        by_cases hs : size.toNat = 0
        · exact Or.inl (BitVec.eq_of_toNat_eq hs)
        · exact Or.inr (by omega)
      · rw [if_neg hzero] at h
        cases h
    · intro h
      refine if_pos (BitVec.eq_of_toNat_eq (hsecnum.trans ?_))
      rcases h.2 with hs | ho
      · have hmin : min (0 : BitVec 64).toNat (0xFFFFFFFF - offset.toNat) = 0 := Nat.zero_min _
        rw [hs, hmin]
        rfl
      · rw [ho]
        have hmin : min size.toNat (0xFFFFFFFF - 0xFFFFFFFF) = 0 := Nat.min_zero _
        rw [hmin]
        rfl

/-- The count of a size that comes to at most 255 sectors. -/
theorem secnum_toNat (h : size.toNat ≤ 255 * 512) :
    ((ataSectors (size.setWidth 32)).setWidth 8).toNat = (size.toNat + 511) / 512 ∧
      ((size.setWidth 32).signExtend 64) = size := by
  have hlow : (size.setWidth 32).toNat = size.toNat := by
    rw [BitVec.toNat_setWidth, Nat.mod_eq_of_lt (by omega)]
  constructor
  · rw [BitVec.toNat_setWidth, ataSectors_toNat (by omega), hlow, Nat.mod_eq_of_lt (by omega)]
  · have hkept := (int_widened size).1 (by omega)
    refine BitVec.eq_of_toNat_eq ?_
    rw [hkept, Nat.mod_eq_of_lt (by omega)]

/-- A request that meets the condition is served. -/
theorem ata_served (hpio : PioReads disk pio) (hnode : n.reserved ≠ 0)
    (hfits : offset.toNat + size.toNat ≤ n.length.toNat) (b : ByteMem) (h : ataMeets offset size) :
    AtaSound size (ataRead pio fresh (some n) offset size (some b)) ∧
      AtaExact disk offset size (ataRead pio fresh (some n) offset size (some b)) := by
  obtain ⟨hpos, hsectors, hlba, hcopied⟩ := h
  obtain ⟨hsecnum, hsize⟩ := secnum_toNat hsectors
  have hlba' : (offset >>> 9).toNat = offset.toNat / 512 := (offset_parts offset).1
  rw [ataRead_eq hnode hfits b, hsize]
  have hone : 1 ≤ ((ataSectors (size.setWidth 32)).setWidth 8).toNat := by
    rw [hsecnum]
    omega
  have hnum : (offset >>> 9).toNat < 2 ^ 28 := by
    rw [hlba']
    omega
  constructor
  · constructor
    · intro a ha
      cases ha
      exact hone
    · intro a ha
      cases ha
      exact hnum
    · intro a ha k hk
      cases ha
      dsimp only at hk ⊢
      rw [hsecnum]
      omega
    · intro hzero
      rw [hzero] at hpos
      exact absurd hpos (Nat.lt_irrefl _)
  · refine ⟨rfl, fun k hk => ?_⟩
    dsimp only
    rw [hpio _ _ fresh hone hnum, hlba', hsecnum, ByteMem.fill_apply_in (Nat.zero_le _) (by omega),
      ByteMem.fill_apply_in (Nat.zero_le _) (by omega)]
    congr 1
    omega

/-- A request that is served meets it, whatever `ata_pio_read` does. -/
theorem ata_meets (hnode : n.reserved ≠ 0)
    (hfits : offset.toNat + size.toNat ≤ n.length.toNat) (b : ByteMem)
    (hsound : AtaSound size (ataRead pio fresh (some n) offset size (some b)))
    (hexact : AtaExact disk offset size (ataRead pio fresh (some n) offset size (some b))) :
    ataMeets offset size := by
  rw [ataRead_eq hnode hfits b] at hsound hexact
  have hwide : (size.setWidth 32).signExtend 64 = size := by
    have hresult := hexact.result
    exact Except.ok.inj hresult
  have hlba := hsound.lba _ rfl
  have hcopied := hsound.copied _ rfl
  dsimp only at hlba hcopied
  rw [hwide] at hcopied
  rw [(offset_parts offset).1] at hlba
  have hbyte := ((ataSectors (size.setWidth 32)).setWidth 8).isLt
  have hpos : 0 < size.toNat := by
    refine Nat.pos_of_ne_zero fun h0 => ?_
    have hnone := hsound.untouched (BitVec.eq_of_toNat_eq h0)
    cases hnone
  -- the last byte that is copied was read
  have hlast := hcopied (size.toNat - 1) (by omega)
  have hsectors : size.toNat ≤ 255 * 512 := by omega
  rw [(secnum_toNat hsectors).1] at hlast
  exact ⟨hpos, hsectors, by omega, by omega⟩

/-- A request inside the disk is served just when it meets the condition. -/
theorem ata_served_iff (hpio : PioReads disk pio) (hnode : n.reserved ≠ 0)
    (hfits : offset.toNat + size.toNat ≤ n.length.toNat) (b : ByteMem) :
    (AtaSound size (ataRead pio fresh (some n) offset size (some b)) ∧
      AtaExact disk offset size (ataRead pio fresh (some n) offset size (some b))) ↔
        ataMeets offset size := by
  constructor
  · intro h
    exact ata_meets hnode hfits b h.1 h.2
  · exact ata_served hpio hnode hfits b

end Read

/-- A drive that does nothing for no sectors. -/
def ataDrive (disk : ByteMem) (lba : BitVec 64) (secnum : BitVec 8) (buf : ByteMem) : ByteMem :=
  buf.fill 0 disk (512 * lba.toNat) (512 * secnum.toNat)

/-- Its second sector. -/
theorem ata_served_sector :
    (AtaSound 512 (ataRead (ataDrive fun a => BitVec.ofNat 8 (a / 512)) (fun _ => 0) (some ataInit)
        512 512 (some fun _ => 0)) ∧
      AtaExact (fun a => BitVec.ofNat 8 (a / 512)) 512 512
        (ataRead (ataDrive fun a => BitVec.ofNat 8 (a / 512)) (fun _ => 0) (some ataInit) 512 512
          (some fun _ => 0))) ↔ ataMeets 512 512 :=
  ata_served_iff (fun _ _ _ _ _ => rfl) (by decide) (by decide) fun _ => 0

/-- A sector's length from byte 1 on: the last byte was not read. -/
theorem ata_read_beyond :
    ¬ (AtaSound 512 (ataRead (ataDrive fun _ => 1) (fun _ => 0) (some ataInit) 1 512
        (some fun _ => 0)) ∧
      AtaExact (fun _ => 1) 1 512 (ataRead (ataDrive fun _ => 1) (fun _ => 0) (some ataInit) 1 512
        (some fun _ => 0))) := by
  intro h
  have hmeets := ata_meets (by decide) (by decide) _ h.1 h.2
  exact absurd hmeets.2.2.2 (by decide)

end OS64.Fs
