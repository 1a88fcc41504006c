import OS64.Fs.Ext2Read

/-!
# What a read makes of its buffer

`ext2_read` allocates a buffer of the size it is going to return, has it filled and copies
all of it out. The buffer is not cleared, so a byte that `ext2_read_inode_data_ex` does not
store reaches the caller as the heap left it. That happens behind `readLimit`, from the
first null pointer of a segment to the segment's end, and when the end of the request
wraps; `read_staleFree_iff` says that these are all the cases.
-/

namespace OS64.Fs

open OS64.Lib (ByteMem)
open OS64.Lib.ByteMem

/-- The size that `ext2_read` clips a request to. -/
def readCount (i : ByteMem) (offset size : BitVec 64) : BitVec 64 :=
  if ext2Size i < offset + size then ext2Size i - offset else size

/-- The block that the driver looks up for byte `k` of a request from byte `o` on. -/
def readBlock (super : Ext2Superblock) (o k : Nat) : Nat :=
  segStart super o (o + k) / blockBytes super +
    (o + k - segStart super o (o + k)) / blockBytes super

/-- The count and the bytes that a read returns are the same whatever the heap held. -/
def StaleFree (node : Ext2Node) (i : ByteMem) (offset size : BitVec 64) : Prop :=
  ∃ (count : BitVec 64) (bytes : Nat → BitVec 8), ∀ (fresh : Fresh) (buffer : ByteMem),
    ext2ReadInode fresh node = .ok i →
    ∃ out, Returns (fun fuel => ext2Read fuel fresh (some node) offset size buffer)
      (.ok (count, out)) ∧ ∀ k, k < count.toNat → out k = bytes k

/-- The same, whatever the heap held in the buffer of the inode too. -/
def StaleFreeAll (node : Ext2Node) (offset size : BitVec 64) : Prop :=
  ∃ (count : BitVec 64) (bytes : Nat → BitVec 8), ∀ (fresh : Fresh) (buffer : ByteMem),
    ∃ out, Returns (fun fuel => ext2Read fuel fresh (some node) offset size buffer)
      (.ok (count, out)) ∧ ∀ k, k < count.toNat → out k = bytes k

/-- The request ends where the driver reaches, and all pointers it looks up are there. -/
def staleMeets (node : Ext2Node) (i : ByteMem) (offset size : BitVec 64) : Prop :=
  readCount i offset size = 0 ∨
    (offset.toNat + (readCount i offset size).toNat ≤ readLimit node.reserved ∧
      ∀ k, k < (readCount i offset size).toNat →
        fileBlock (blockPos node.reserved) node i (readBlock node.reserved offset.toNat k) ≠ 0)

section Source

variable {node : Ext2Node} {i : ByteMem} {o : Nat}

theorem segBegin_le (super : Ext2Superblock) (x : Nat) : segBegin super x ≤ x := by
  unfold segBegin
  split
  · exact Nat.zero_le _
  · have hmul := Nat.mul_div_le (x - 12 * blockBytes super) (singleBytes super)
    omega

theorem segStart_le (super : Ext2Superblock) (o k : Nat) :
    o ≤ segStart super o (o + k) ∧ segStart super o (o + k) ≤ o + k := by
  have hle := segBegin_le super (o + k)
  unfold segStart
  omega

/-- A segment holds all bytes from its beginning on up to any of its bytes. -/
theorem segBegin_between {super : Ext2Superblock} {x y : Nat} (hy : segBegin super x ≤ y)
    (hyx : y ≤ x) : segBegin super y = segBegin super x := by
  unfold segBegin at hy ⊢
  by_cases hx : x < 12 * blockBytes super
  · rw [if_pos hx, if_pos (by omega)]
  · rw [if_neg hx] at hy ⊢
    rw [if_neg (by omega)]
    refine congrArg (fun q => 12 * blockBytes super + singleBytes super * q) ?_
    refine Nat.le_antisymm (Nat.div_le_div_right (by omega)) ?_
    rcases Nat.eq_zero_or_pos (singleBytes super) with h0 | hpos
    · rw [h0, Nat.div_zero]
      exact Nat.zero_le _
    · rw [Nat.le_div_iff_mul_le hpos, Nat.mul_comm]
      omega

/-- A byte has a source just when the pointers looked up for it and those before it are
there. -/
theorem fileSource_ne_none {n : Nat} :
    (∀ k, k < n → fileSource node i o k ≠ none) ↔
      ∀ k, k < n → fileBlock (blockPos node.reserved) node i (readBlock node.reserved o k) ≠ 0 := by
  have hpos := blockBytes_pos node.reserved
  constructor
  · intro h k hk hnull
    refine h k hk (if_neg fun hall => ?_)
    exact hall _ (Nat.le_refl _) hnull
  · intro h k hk
    have hall : ∀ j, j ≤ (o + k - segStart node.reserved o (o + k)) / blockBytes node.reserved →
        fileBlock (blockPos node.reserved) node i
          (segStart node.reserved o (o + k) / blockBytes node.reserved + j) ≠ 0 := by
      intro j hj
      -- the first byte of the segment that block `j` was looked up for
      have hle : j * blockBytes node.reserved ≤ o + k - segStart node.reserved o (o + k) :=
        Nat.le_trans (Nat.mul_le_mul_right _ hj) (Nat.div_mul_le_self _ _)
      obtain ⟨hge, hx⟩ := segStart_le node.reserved o k
      have hsame : segStart node.reserved o (segStart node.reserved o (o + k) +
          j * blockBytes node.reserved) = segStart node.reserved o (o + k) := by
        have hbegin : segBegin node.reserved (o + k) ≤ segStart node.reserved o (o + k) :=
          Nat.le_max_right _ _
        rw [segStart, segBegin_between (x := o + k) (by omega) (by omega)]
        rfl
      have hfirst := h (segStart node.reserved o (o + k) - o + j * blockBytes node.reserved)
        (by omega)
      unfold readBlock at hfirst
      rw [show o + (segStart node.reserved o (o + k) - o + j * blockBytes node.reserved) =
        segStart node.reserved o (o + k) + j * blockBytes node.reserved by omega, hsame,
        Nat.add_sub_cancel_left, Nat.mul_div_cancel _ hpos] at hfirst
      exact hfirst
    unfold fileSource chainSource
    rw [if_pos hall]
    exact Option.some_ne_none _

end Source

/-! ## Inodes whose fields are the same -/

section Same

variable {node : Ext2Node} {i i' : ByteMem}

theorem direct_congr (h : ∀ a, a < 112 → i' a = i a) {j : Nat} (hj : j < 12) :
    direct i' j = direct i j := dword_congr fun x _ hx => h x (by omega)

theorem ext2Size_congr (h : ∀ a, a < 112 → i' a = i a) : ext2Size i' = ext2Size i := by
  have hlow : sizeLow i' = sizeLow i := dword_congr fun x _ hx => h x (by omega)
  have hhi : sizeHi i' = sizeHi i := dword_congr fun x _ hx => h x (by omega)
  rw [ext2Size, hlow, hhi, ext2Size]

theorem fileBlock_congr (h : ∀ a, a < 112 → i' a = i a) (pos : BitVec 32 → Nat) (j : Nat) :
    fileBlock pos node i' j = fileBlock pos node i j := by
  have hs : sIndirect i' = sIndirect i := dword_congr fun x _ hx => h x (by omega)
  have hd : dIndirect i' = dIndirect i := dword_congr fun x _ hx => h x (by omega)
  unfold fileBlock
  by_cases hj : j < 12
  · rw [if_pos hj, if_pos hj, direct_congr h hj]
  · rw [if_neg hj, if_neg hj, hs, hd]

theorem fileSource_congr (h : ∀ a, a < 112 → i' a = i a) (o k : Nat) :
    fileSource node i' o k = fileSource node i o k := by
  unfold fileSource
  simp only [fileBlock_congr h]

theorem readCount_congr (h : ∀ a, a < 112 → i' a = i a) (offset size : BitVec 64) :
    readCount i' offset size = readCount i offset size := by
  rw [readCount, readCount, ext2Size_congr h]

theorem staleMeets_congr (h : ∀ a, a < 112 → i' a = i a) {offset size : BitVec 64} :
    staleMeets node i offset size → staleMeets node i' offset size := by
  unfold staleMeets
  simp only [readCount_congr h, fileBlock_congr h]
  exact id

/-- Two reads of a record of which no field is left to the heap. -/
theorem ext2ReadInode_same {fresh fresh' : Fresh} (hsize : 112 ≤ node.reserved.inodeSize.toNat)
    (hi : ext2ReadInode fresh node = .ok i) (hi' : ext2ReadInode fresh' node = .ok i') :
    ∀ a, a < 112 → i' a = i a := by
  intro a ha
  have hgroup := indInGrp_of_read hi
  rw [ext2ReadInode_eq _ hgroup] at hi hi'
  cases hi
  cases hi'
  have hin : a < (inodeRequests node).2.size.toNat := by
    show a < (node.reserved.inodeSize.setWidth 64).toNat
    rw [BitVec.toNat_setWidth]
    omega
  rw [vfsRead_apply hin, vfsRead_apply hin]

end Same

/-! ## The call -/

section Call

variable {node : Ext2Node} {i : ByteMem} {offset size : BitVec 64}

/-- A call whose data is read: the data copied out. -/
theorem ext2Read_eq {fuel : Nat} {fresh : Fresh} {buffer data : ByteMem}
    (hi : ext2ReadInode fresh node = .ok i) (hoff : offset ≤ ext2Size i)
    (hdata : ext2ReadInodeDataEx fuel fresh node i offset (readCount i offset size) = .ok data) :
    ext2Read fuel fresh (some node) offset size buffer =
      .ok (.ok (readCount i offset size,
        buffer.fill 0 data 0 (readCount i offset size).toNat)) := by
  unfold ext2Read
  dsimp only
  rw [hi]
  show (if ext2Size i < offset then _ else _) = _
  rw [if_neg (BitVec.not_lt.mpr hoff)]
  show (ext2ReadInodeDataEx fuel fresh node i offset (readCount i offset size) >>= _) = _
  rw [hdata]
  rfl

/-- What a call that returned has read. -/
theorem ext2Read_data {fuel : Nat} {fresh : Fresh} {buffer out : ByteMem} {count : BitVec 64}
    (hi : ext2ReadInode fresh node = .ok i) (hoff : offset ≤ ext2Size i)
    (h : ext2Read fuel fresh (some node) offset size buffer = .ok (.ok (count, out))) :
    ∃ data, ext2ReadInodeDataEx fuel fresh node i offset (readCount i offset size) = .ok data ∧
      count = readCount i offset size ∧
      out = buffer.fill 0 data 0 (readCount i offset size).toNat := by
  unfold ext2Read at h
  dsimp only at h
  rw [hi] at h
  change (if ext2Size i < offset then _ else _) = _ at h
  rw [if_neg (BitVec.not_lt.mpr hoff)] at h
  obtain ⟨data, hdata, h⟩ := bind_ok h
  cases h
  exact ⟨data, hdata, rfl, rfl⟩

/-- The byte that the device has for byte `k` of a request. -/
def sourceByte (node : Ext2Node) (i : ByteMem) (offset : BitVec 64) (k : Nat) : BitVec 8 :=
  ((fileSource node i offset.toNat k).map node.ptr).getD 0

/-- A request that meets the condition is answered from the device alone. -/
theorem returns_of_meets (hz : RegionSizes node.reserved) (hoff : offset ≤ ext2Size i)
    (hmeets : staleMeets node i offset size) {fresh : Fresh} (hi : ext2ReadInode fresh node = .ok i)
    (buffer : ByteMem) :
    ∃ out, Returns (fun fuel => ext2Read fuel fresh (some node) offset size buffer)
      (.ok (readCount i offset size, out)) ∧
      ∀ k, k < (readCount i offset size).toNat → out k = sourceByte node i offset k := by
  have hlimit : (readCount i offset size).toNat ≤ readLimit node.reserved - offset.toNat ∧
      ∀ k, k < (readCount i offset size).toNat → fileSource node i offset.toNat k ≠ none := by
    rcases hmeets with h0 | ⟨hle, hall⟩
    · rw [h0]
      refine ⟨Nat.zero_le _, fun k hk => absurd hk (Nat.not_lt_zero k)⟩
    · exact ⟨by omega, fileSource_ne_none.mpr hall⟩
  refine ⟨_, ⟨_, fun fuel hfuel => ext2Read_eq hi hoff
    (readInodeData_whole hz (Nat.lt_of_succ_le hfuel) fresh hlimit.1)⟩, fun k hk => ?_⟩
  obtain ⟨p, hp⟩ := Option.ne_none_iff_exists'.mp (hlimit.2 k hk)
  have hpatch := patch_apply_zero (fresh 2)
    (fun k => (fileSource node i offset.toNat k).map node.ptr) hk
  rw [fill_apply_in (Nat.zero_le k) (by omega), Nat.zero_add, Nat.sub_zero, hpatch, sourceByte, hp]
  rfl

theorem staleFree_of_meets (hz : RegionSizes node.reserved) (hoff : offset ≤ ext2Size i)
    (hmeets : staleMeets node i offset size) : StaleFree node i offset size :=
  ⟨_, sourceByte node i offset, fun _ buffer hi => returns_of_meets hz hoff hmeets hi buffer⟩

/-- Where the record holds all fields, the heap has no part in the inode either. -/
theorem staleFreeAll_of_meets (hz : RegionSizes node.reserved) (hoff : offset ≤ ext2Size i)
    (hread : ∃ fresh, ext2ReadInode fresh node = .ok i)
    (hrecord : 112 ≤ node.reserved.inodeSize.toNat) (hmeets : staleMeets node i offset size) :
    StaleFreeAll node offset size := by
  obtain ⟨fresh₀, hi₀⟩ := hread
  refine ⟨readCount i offset size, sourceByte node i offset, fun fresh buffer => ?_⟩
  have hi := ext2ReadInode_eq fresh (indInGrp_of_read hi₀)
  have hsame := ext2ReadInode_same hrecord hi₀ hi
  obtain ⟨out, hret, hout⟩ := returns_of_meets hz (by rw [ext2Size_congr hsame]; exact hoff)
    (staleMeets_congr hsame hmeets) hi buffer
  rw [readCount_congr hsame] at hret hout
  refine ⟨out, hret, fun k hk => (hout k hk).trans ?_⟩
  rw [sourceByte, fileSource_congr hsame]
  rfl

/-- A request that does not meet the condition leaves a byte of its buffer alone. -/
theorem stale_byte (hz : RegionSizes node.reserved) (hnot : ¬ staleMeets node i offset size) :
    ∃ k, k < (readCount i offset size).toNat ∧ ∀ (fresh : Fresh) fuel data,
      blockPtrs node.reserved + 12 < fuel →
      ext2ReadInodeDataEx fuel fresh node i offset (readCount i offset size) = .ok data →
      data k = fresh 2 k := by
  have hlt := readLimit_lt hz
  have hpos : 0 < (readCount i offset size).toNat :=
    Nat.pos_of_ne_zero fun h0 => hnot (Or.inl (BitVec.eq_of_toNat_eq h0))
  generalize hn : readCount i offset size = n at hpos ⊢
  by_cases hle : offset.toNat + n.toNat ≤ readLimit node.reserved
  · -- a null pointer
    have hnull : ∃ k, k < n.toNat ∧ fileSource node i offset.toNat k = none := by
      by_contra hall
      push Not at hall
      refine hnot (Or.inr ?_)
      rw [hn]
      exact ⟨hle, fileSource_ne_none.mp hall⟩
    obtain ⟨k, hk, hnone⟩ := hnull
    refine ⟨k, hk, fun fresh fuel data hfuel hdata => ?_⟩
    rw [readInodeData_whole hz hfuel fresh (by omega)] at hdata
    cases hdata
    rw [patch_apply_zero _ _ hk, hnone]
    rfl
  · -- the last byte is out of reach
    refine ⟨n.toNat - 1, by omega, fun fresh fuel data hfuel hdata => ?_⟩
    rcases readInodeData_cases (i := i) hz hfuel fresh offset n with hread | ⟨-, hlarge, hkept⟩
    · rw [hread] at hdata
      cases hdata
      exact patch_apply_out (Or.inr (by omega))
    · exact hkept data hdata _ (by omega)

/-- A heap that holds the same byte everywhere in the data buffer. -/
def freshWith (fresh : Fresh) (b : BitVec 8) : Fresh := fun n => if n = 2 then fun _ => b else fresh n

/-- Two heaps tell a byte that was left alone. -/
theorem meets_of_staleFree (hz : RegionSizes node.reserved) (hoff : offset ≤ ext2Size i)
    (hread : ∃ fresh, ext2ReadInode fresh node = .ok i) (h : StaleFree node i offset size) :
    staleMeets node i offset size := by
  by_contra hnot
  obtain ⟨k, hk, hkept⟩ := stale_byte hz hnot
  obtain ⟨fresh, hi⟩ := hread
  obtain ⟨count, bytes, hall⟩ := h
  -- the byte is what the heap held, so what the heap held is fixed
  have hbyte : ∀ b : BitVec 8, bytes k = b := by
    intro b
    have hi' : ext2ReadInode (freshWith fresh b) node = .ok i := hi
    obtain ⟨out, ⟨n, hret⟩, hout⟩ := hall (freshWith fresh b) (fun _ => 0) hi'
    obtain ⟨data, hdata, hcount, hfill⟩ := ext2Read_data hi' hoff
      (hret (n + (blockPtrs node.reserved + 13)) (Nat.le_add_right _ _))
    rw [← hout k (by rw [hcount]; exact hk), hfill, fill_apply_in (Nat.zero_le k) (by omega),
      Nat.zero_add, Nat.sub_zero, hkept _ _ data (by omega) hdata]
    rfl
  exact absurd ((hbyte 0).symm.trans (hbyte 1)) (by decide)

/-- What a read returns is free of stale memory just when it lies before the end of the double
indirect region and no pointer that is looked up for it is null. Where the record of an inode holds
all fields, this is so for any heap. -/
theorem read_staleFree_iff (hread : ∃ fresh, ext2ReadInode fresh node = .ok i)
    (hblock : node.reserved.blockSize.toNat ≤ 2) (hoff : offset ≤ ext2Size i) :
    (StaleFree node i offset size ↔ staleMeets node i offset size) ∧
    (112 ≤ node.reserved.inodeSize.toNat →
      (StaleFreeAll node offset size ↔ staleMeets node i offset size)) := by
  have hz : RegionSizes node.reserved := region_sizes (by omega)
  have hiff : StaleFree node i offset size ↔ staleMeets node i offset size :=
    ⟨meets_of_staleFree hz hoff hread, staleFree_of_meets hz hoff⟩
  refine ⟨hiff, fun hrecord => ⟨fun h => ?_, staleFreeAll_of_meets hz hoff hread hrecord⟩⟩
  obtain ⟨count, bytes, hall⟩ := h
  exact hiff.mp ⟨count, bytes, fun fresh buffer _ => hall fresh buffer⟩

end Call

/-- Inode 12 of a volume with blocks of 1 KiB: a file of one byte, in block `block`. -/
def byteFile (block : BitVec 8) : Ext2Node :=
  { ext2Root ⟨16, 64, 1, 0, 16, 0xEF53, 1, 128⟩ fun a =>
      if a = 0x808 then 3 else if a = 0x1184 then 1 else if a = 0x11A8 then block else 0
    with inode := 12 }

/-- Its inode, in a cleared buffer. -/
def byteInode (block : BitVec 8) : ByteMem :=
  vfsRead (byteFile block).ptr (inodeRequests (byteFile block)).2 (fun _ => 0) 0

theorem byteFile_inode (block : BitVec 8) :
    ∃ fresh, ext2ReadInode fresh (byteFile block) = .ok (byteInode block) :=
  ⟨fun _ _ => 0, ext2ReadInode_eq _ (show (16 : BitVec 32) ≠ 0 by decide)⟩

/-- A read of it, in block 20, is the same on any heap. -/
theorem read_staleFree_byte : StaleFreeAll (byteFile 20) 0 1 := by
  refine ((read_staleFree_iff (byteFile_inode 20) (by decide) (by decide +kernel)).2 (by decide)).mpr
    (Or.inr ⟨by decide +kernel, fun k hk => ?_⟩)
  have hone : (readCount (byteInode 20) 0 1).toNat = 1 := by decide +kernel
  have h0 : k = 0 := by omega
  rw [h0]
  decide +kernel

/-- Without a block, the byte that a read of it returns is whatever the heap held. -/
theorem sparse_read_leaks :
    (∃ fresh, ext2ReadInode fresh (byteFile 0) = .ok (byteInode 0)) ∧
      0 ≤ ext2Size (byteInode 0) ∧ ¬ StaleFree (byteFile 0) (byteInode 0) 0 1 := by
  refine ⟨byteFile_inode 0, by decide +kernel, fun h => ?_⟩
  have hmeets := meets_of_staleFree (region_sizes (by decide)) (by decide +kernel)
    (byteFile_inode 0) h
  rcases hmeets with h0 | ⟨-, hall⟩
  · exact absurd h0 (by decide +kernel)
  · exact hall 0 (by decide +kernel) (by decide +kernel)

end OS64.Fs
