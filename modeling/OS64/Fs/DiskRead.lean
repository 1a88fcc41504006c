import OS64.Fs.DevfsNames
import OS64.Fs.Ext2Chain

/-!
# What a disk answers

The kernel reads an ATA disk, the hosted build a ram disk. `Disk.read` is what their drivers make of a
request, with the buffers as they were before, and `Disk.read_whole` what that comes to for requests of
whole sectors: the bytes up to the end of the disk, or an error code; only of no bytes at all the
ATA disk answers nothing.
-/

namespace OS64.Fs

open OS64.Lib (ByteMem preorder_forall)

/-- The ram disk, read by `vfs_read`. -/
def initrdDevice (bytes fresh : ByteMem) (p len : BitVec 64) : DeviceRead := fun _ offset size =>
  match initrdRead bytes (some (initrdInit p len)) offset size (some fresh) with
  | .error _ => none
  | .ok (.error e, _) => some (.error e)
  | .ok (.ok count, buffer) => some (.ok (count, buffer))

namespace Disk

/-- A disk with these bytes, read by `vfs_read`. -/
def read (bytes fresh : ByteMem) : Disk → DeviceRead
  | .ata => ataDevice (ataDrive bytes) fresh
  | .initrd p len => initrdDevice bytes fresh p len

/-- There is a disk. -/
def There : Disk → Prop
  | .ata => True
  | .initrd p _ => p ≠ 0

/-- Its size, as its node has it. -/
def len : Disk → Nat
  | .ata => 0xFFFFFFFF
  | .initrd _ len => len.toNat

/-- How much of a request is on the disk. -/
def count (disk : Disk) (offset size : BitVec 64) : Nat :=
  min size.toNat (disk.len - offset.toNat)

section Read

variable {bytes fresh : ByteMem} {offset size : BitVec 64}

/-- Requests that do not begin on the disk are refused. -/
theorem read_refused {disk : Disk} (v : Nat)
    (h : disk.There → disk.len < offset.toNat) :
    ∃ e, disk.read bytes fresh v offset size = some (.error e) := by
  cases disk with
  | ata =>
    have hlt : ataInit.length < offset := h trivial
    have hrefused : ataRead (ataDrive bytes) fresh (some ataInit) offset size (some fresh) =
        ⟨.error .einval, fresh, none⟩ := by
      unfold ataRead
      dsimp only
      rw [if_neg (by decide), if_pos hlt]
    refine ⟨.einval, ?_⟩
    show ataDevice (ataDrive bytes) fresh v offset size = _
    unfold ataDevice
    rw [hrefused]
    rfl
  | initrd p len =>
    have hcases : ∃ e, initrdRead bytes (some (initrdInit p len)) offset size (some fresh) =
        .ok (.error e, fresh) := by
      by_cases hp : p = 0
      · exact ⟨.ebadf, if_pos hp⟩
      · have hlt : len < offset := h hp
        exact ⟨.einval, (if_neg hp).trans (if_pos hlt)⟩
    obtain ⟨e, he⟩ := hcases
    refine ⟨e, ?_⟩
    show initrdDevice bytes fresh p len v offset size = _
    unfold initrdDevice
    rw [he]

/-- The ram disk copies what there is. -/
theorem initrd_read {p len : BitVec 64} (v : Nat) (hp : p ≠ 0) (hoff : offset.toNat ≤ len.toNat)
    (hnear : offset.toNat < 2 ^ 34) (hsize : size.toNat ≤ 1024) : ∃ count,
      count.toNat = (Disk.initrd p len).count offset size ∧
      (Disk.initrd p len).read bytes fresh v offset size =
        some (.ok (count, fresh.fill 0 bytes offset.toNat count.toNat)) := by
  obtain ⟨count, hcount, hcall⟩ := @initrdTransfer_eq offset size (initrdInit p len) hp hoff
    (by omega) (by omega) fresh fresh fun b n => b.fill 0 bytes offset.toNat n
  refine ⟨count, hcount, ?_⟩
  have hread : initrdRead bytes (some (initrdInit p len)) offset size (some fresh) =
      .ok (.ok count, fresh.fill 0 bytes offset.toNat count.toNat) := hcall
  show initrdDevice bytes fresh p len v offset size = _
  unfold initrdDevice
  rw [hread]

/-- The ATA disk copies from whole sectors, and has to be asked for one. -/
theorem ata_read (v : Nat) (hoff : offset.toNat ≤ 0xFFFFFFFF) (hwhole : offset.toNat % 512 = 0)
    (hsize : size.toNat ≤ 1024) :
    (Disk.ata.count offset size = 0 → Disk.ata.read bytes fresh v offset size = none) ∧
    (Disk.ata.count offset size ≠ 0 → ∃ count,
      count.toNat = Disk.ata.count offset size ∧ Disk.ata.read bytes fresh v offset size =
        some (.ok (count, fresh.fill 0 bytes offset.toNat count.toNat))) := by
  have hlen : ¬ ataInit.length < offset := by
    rw [BitVec.lt_def]
    exact Nat.not_lt.mpr hoff
  have hclip : (clipInt ataInit.length offset size).toNat = Disk.ata.count offset size :=
    clipInt_small (BitVec.not_lt.mp hlen) (by omega) (by omega)
  have hle : Disk.ata.count offset size ≤ 1024 := Nat.le_trans (Nat.min_le_left _ _) hsize
  have hsecnum : ((ataSectors (clipInt ataInit.length offset size)).setWidth 8).toNat =
      (Disk.ata.count offset size + 511) / 512 := by
    rw [BitVec.toNat_setWidth, ataSectors_toNat (by omega), hclip]
    exact Nat.mod_eq_of_lt (by omega)
  have hcount : ((clipInt ataInit.length offset size).signExtend 64).toNat =
      Disk.ata.count offset size := by
    rw [signExtend_toNat (by omega), hclip]
  have hcall : ataRead (ataDrive bytes) fresh (some ataInit) offset size (some fresh) =
      ⟨.ok ((clipInt ataInit.length offset size).signExtend 64),
        fresh.fill 0 (ataDrive bytes (offset >>> 9)
          ((ataSectors (clipInt ataInit.length offset size)).setWidth 8) fresh) 0
          (Disk.ata.count offset size),
        some (ataAccess ataInit.length offset size)⟩ := by
    have hstart : (offset &&& 0x1FF).toNat = 0 := (offset_parts offset).2.trans hwhole
    unfold ataRead
    dsimp only
    rw [if_neg (by decide), if_neg hlen]
    unfold ataAccess
    dsimp only
    rw [hstart, hcount]
  constructor
  · intro h0
    show ataDevice (ataDrive bytes) fresh v offset size = none
    unfold ataDevice
    rw [hcall]
    refine if_pos (BitVec.eq_of_toNat_eq (hsecnum.trans ?_))
    rw [h0]
    rfl
  · intro hpos
    refine ⟨_, hcount, ?_⟩
    have hasked : ¬ (ataSectors (clipInt ataInit.length offset size)).setWidth 8 = 0 := by
      intro hzero
      rw [hzero] at hsecnum
      have hnone : 0 = (Disk.ata.count offset size + 511) / 512 := hsecnum
      omega
    show ataDevice (ataDrive bytes) fresh v offset size = _
    unfold ataDevice
    rw [hcall]
    refine (if_neg hasked).trans (congrArg (fun b : ByteMem => some (Except.ok
      ((clipInt ataInit.length offset size).signExtend 64, b))) ?_)
    funext k
    dsimp only
    rw [hcount]
    by_cases hk : k < Disk.ata.count offset size
    · rw [ByteMem.fill_apply_in (Nat.zero_le k) (by omega), Nat.zero_add, Nat.sub_zero, ataDrive,
        ByteMem.fill_apply_in (Nat.zero_le k) (by rw [hsecnum]; omega),
        ByteMem.fill_apply_in (Nat.zero_le k) (by omega), (offset_parts offset).1]
      congr 1
      omega
    · rw [ByteMem.fill_apply_out (Or.inr (by omega)), ByteMem.fill_apply_out (Or.inr (by omega))]

/-- A request of whole sectors that begins on the disk: the bytes up to the end of the disk are
copied, and only on an ATA disk and for no bytes the call does not come back. -/
theorem read_whole {disk : Disk} (v : Nat) (hthere : disk.There) (hoff : offset.toNat ≤ disk.len)
    (hnear : offset.toNat < 2 ^ 34) (hwhole : offset.toNat % 512 = 0) (hsize : size.toNat ≤ 1024) :
    (disk = .ata ∧ disk.count offset size = 0 → disk.read bytes fresh v offset size = none) ∧
    (¬ (disk = .ata ∧ disk.count offset size = 0) → ∃ count,
      count.toNat = disk.count offset size ∧ disk.read bytes fresh v offset size =
        some (.ok (count, fresh.fill 0 bytes offset.toNat count.toNat))) := by
  cases disk with
  | ata =>
    obtain ⟨hnone, hsome⟩ := @ata_read bytes fresh offset size v hoff hwhole hsize
    exact ⟨fun h => hnone h.2, fun h => hsome fun h0 => h ⟨rfl, h0⟩⟩
  | initrd p len =>
    refine ⟨fun h => ?_, fun _ => initrd_read v hthere hoff hnear hsize⟩
    have hdiff := h.1
    cases hdiff

end Read

end Disk

/-! ## Devices on the disk -/

/-- A request near the start of the device is one near the start of the disk. -/
def Site.Near (x : Site) : Prop :=
  ∀ offset size t, offset.toNat < 2 ^ 33 → x.ask offset size = .ok t → t.2.1.toNat < 2 ^ 33

section Devices

variable {bytes fresh : ByteMem} {disk : Disk} {x : Site}

/-- Each device checks the offset before it adds its start. -/
theorem part_near (hx : x.Near) (i : Nat) (p : Partition) : (x.part i p).Near := by
  intro offset size t _ h
  have hstart := (p.firstSector * 512).isLt
  have hnum := (p.numSectors * 512).isLt
  change (if (p.numSectors * 512).setWidth 64 < offset then _ else _) = _ at h
  by_cases hlt : (p.numSectors * 512).setWidth 64 < offset
  · rw [if_pos hlt] at h
    cases h
  · rw [if_neg hlt] at h
    have hoff : offset.toNat ≤ ((p.numSectors * 512).setWidth 64).toNat := BitVec.not_lt.mp hlt
    rw [BitVec.toNat_setWidth, Nat.mod_eq_of_lt (by omega)] at hoff
    refine hx _ _ t ?_ h
    rw [BitVec.toNat_add, BitVec.toNat_setWidth, Nat.mod_eq_of_lt (a := BitVec.toNat _) (by omega)]
    exact Nat.lt_of_le_of_lt (Nat.mod_le _ _) (by omega)

/-- A request at the disk itself. -/
theorem disk_ask (disk : Disk) (offset size : BitVec 64) :
    (siteOf (bareDisk disk).heap 0 disk.node).ask offset size = .ok (0, offset, size) := by
  cases disk with
  | ata => rfl
  | initrd p len => rfl

theorem scanned_near (read : DeviceRead) (disk : Disk) :
    ∀ x ∈ scanned read (bareDisk disk) 0 disk.node, x.Near := by
  refine preorder_forall (fun x hx y hy => ?_) _ _ fun x hx => ?_
  · obtain ⟨_, buf, i, -, -, rfl⟩ := mem_parts hy
    exact part_near hx i (partAt buf i)
  · rw [List.mem_singleton.mp hx]
    intro offset size t hoff h
    cases (disk_ask disk offset size).symm.trans h
    exact hoff

/-- A device on a ram disk answers. -/
theorem initrd_answers {p len : BitVec 64} (hx : x.Near) (hclips : x.Clips) :
    x.Answers ((Disk.initrd p len).read bytes fresh) := by
  intro _
  unfold Site.read
  cases hask : x.ask 0 512 with
  | error e => rfl
  | ok t =>
    have hnear := hx 0 512 t (by decide) hask
    have hsize : t.2.2.toNat ≤ 512 := hclips 0 512 t (by decide) hask
    by_cases hthere : p ≠ 0 ∧ t.2.1.toNat ≤ len.toNat
    · obtain ⟨count, -, hread⟩ := @Disk.initrd_read bytes fresh t.2.1 t.2.2 p len t.1 hthere.1 hthere.2
        (by omega) (by omega)
      dsimp only
      rw [hread]
      rfl
    · obtain ⟨e, hread⟩ := @Disk.read_refused bytes fresh t.2.1 t.2.2 (.initrd p len) t.1
        fun hp => Nat.lt_of_not_le fun hle => hthere ⟨hp, hle⟩
      dsimp only
      rw [hread]
      rfl

/-- All devices on a disk answer just when it is no ATA disk, or none asks it for nothing. -/
theorem disk_answers_iff (bytes fresh : ByteMem) (disk : Disk) :
    (∀ x ∈ scanned (disk.read bytes fresh) (bareDisk disk) 0 disk.node,
        x.Answers (disk.read bytes fresh)) ↔
      ∀ x ∈ scanned (disk.read bytes fresh) (bareDisk disk) 0 disk.node, ¬ (disk = .ata ∧ x.Empty) := by
  refine forall_congr' fun x => forall_congr' fun hx => ?_
  have hclips := scanned_clips (bareDisk disk) 0 disk.node x hx
  cases disk with
  | ata => exact (answers_iff_not_empty hclips).trans (by rw [eq_self, true_and])
  | initrd p len =>
    refine iff_of_true (initrd_answers (scanned_near _ _ x hx) hclips) fun h => ?_
    have hdiff := h.1
    cases hdiff

end Devices

/-! ## The first sector -/

section First

variable {bytes fresh : ByteMem} {disk : Disk}

/-- The disk has a partition table that is accepted, and it starts with a partition. -/
def hasRoot (disk : Disk) (bytes : ByteMem) : Prop :=
  disk.There ∧ 512 ≤ disk.len ∧ mdpartAccepts 512 bytes ∧ (partAt bytes 0).type ≠ 0

/-- The read of a first sector that is there. -/
theorem read_first (hthere : disk.There) (hlen : 512 ≤ disk.len) :
    disk.read bytes fresh 0 0 512 = some (.ok (512, fresh.fill 0 bytes 0 512)) := by
  have hcount : disk.count 0 512 = 512 := by
    unfold Disk.count
    exact Nat.min_eq_left hlen
  obtain ⟨count, hc, hread⟩ := (@Disk.read_whole bytes fresh 0 512 disk 0 hthere (Nat.zero_le _)
    (by decide) (by decide) (by decide)).2 fun h => absurd (hcount.symm.trans h.2) (by decide)
  have h512 : count = 512 := BitVec.eq_of_toNat_eq (hc.trans hcount)
  rw [hread, h512]
  rfl

/-- Of a disk without one, less is read, or nothing. -/
theorem read_short (h : ¬ (disk.There ∧ 512 ≤ disk.len)) :
    ∃ answer, disk.read bytes fresh 0 0 512 = some answer ∧
      ∀ count buf, answer = .ok (count, buf) → (count.setWidth 32).slt 512 := by
  by_cases hthere : disk.There
  · have hshort : disk.len < 512 := Nat.lt_of_not_le fun hle => h ⟨hthere, hle⟩
    have hata : ¬ (disk = .ata ∧ disk.count 0 512 = 0) := by
      intro hboth
      rw [hboth.1] at hshort
      exact absurd hshort (by decide)
    obtain ⟨count, hc, hread⟩ := (@Disk.read_whole bytes fresh 0 512 disk 0 hthere (Nat.zero_le _)
      (by decide) (by decide) (by decide)).2 hata
    refine ⟨_, hread, fun count' buf heq => ?_⟩
    cases heq
    have hlt : count.toNat < 512 := by
      rw [hc]
      exact Nat.lt_of_le_of_lt (Nat.min_le_right _ _) (Nat.lt_of_le_of_lt (Nat.sub_le _ _) hshort)
    rw [BitVec.slt_eq_ult_of_msb_eq (by
      rw [BitVec.msb_eq_false_iff_two_mul_lt.mpr (by
        rw [BitVec.toNat_setWidth, Nat.mod_eq_of_lt (by omega)]
        omega)]
      rfl)]
    refine BitVec.ult_iff_lt.mpr ?_
    show (count.setWidth 32).toNat < 512
    rw [BitVec.toNat_setWidth, Nat.mod_eq_of_lt (by omega)]
    exact hlt
  · obtain ⟨e, hread⟩ := @Disk.read_refused bytes fresh 0 512 disk 0 fun ht => absurd ht hthere
    exact ⟨_, hread, fun _ _ heq => by cases heq⟩

/-- The table is the one on the disk. -/
theorem partAt_first {i : Nat} (hi : i < 4) :
    partAt (fresh.fill 0 bytes 0 512) i = partAt bytes i := by
  have hbyte : ∀ a, a < 512 → fresh.fill 0 bytes 0 512 a = bytes a := by
    intro a ha
    rw [ByteMem.fill_apply_in (Nat.zero_le a) (by omega), Nat.zero_add, Nat.sub_zero]
  unfold partAt
  rw [hbyte _ (by omega), hbyte _ (by omega), dword_congr fun x _ hx => hbyte x (by omega),
    dword_congr fun x _ hx => hbyte x (by omega)]

theorem accepts_first : mdpartAccepts 512 (fresh.fill 0 bytes 0 512) ↔ mdpartAccepts 512 bytes := by
  have hword : word (fresh.fill 0 bytes 0 512) 510 = word bytes 510 :=
    word_congr fun x _ hx => by
      rw [ByteMem.fill_apply_in (Nat.zero_le x) (by omega), Nat.zero_add, Nat.sub_zero]
  have hfour : ∀ i ∈ ([0, 1, 2, 3] : List Nat), i < 4 := by decide
  unfold mdpartAccepts
  rw [hword]
  refine and_congr_right fun _ => and_congr_right fun _ => ?_
  exact forall_congr' fun i => forall_congr' fun hi => by rw [partAt_first (hfour i hi)]

end First

end OS64.Fs
