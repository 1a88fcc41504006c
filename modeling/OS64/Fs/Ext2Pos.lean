import OS64.Fs.Ext2
import Mathlib.Data.Nat.Basic

/-!
# Where the driver reads

Positions on the volume are products of fields of its structures. The C code forms them in
32 bits and widens what is left, so they are right as long as they stay below
`2 ^ 32`. The size of an inode record is the field `inode_size`, also on volumes of
revision 0, which have 128 bytes for it whatever the field says. `positions_exact_iff`
puts both together.
-/

namespace OS64.Fs

open OS64.Lib (ByteMem)
open OS64.Lib.ByteMem

/-! ## Block sizes -/

/-- `1024 << block_size`, without a bound. -/
def blockBytes (super : Ext2Superblock) : Nat := 1024 * 2 ^ super.blockSize.toNat

theorem blockBytes_pos (super : Ext2Superblock) : 0 < blockBytes super :=
  Nat.mul_pos (by decide) (Nat.two_pow_pos _)

/-- The shift is exact as long as it stays in 32 bits. -/
theorem blksz_toNat {super : Ext2Superblock} (h : blockBytes super < 2 ^ 32) :
    (blksz super).toNat = blockBytes super := by
  have hshift : super.blockSize.toNat < 32 := by
    by_contra hge
    have hpow : 2 ^ 32 ≤ 2 ^ super.blockSize.toNat :=
      Nat.pow_le_pow_right (by decide) (Nat.le_of_not_lt hge)
    unfold blockBytes at h
    omega
  unfold blockBytes at h ⊢
  rw [blksz, BitVec.toNat_shiftLeft, Nat.mod_eq_of_lt hshift, Nat.shiftLeft_eq]
  exact Nat.mod_eq_of_lt h

/-- A product with the block size is exact as long as it stays in 32 bits. -/
theorem mul_blksz_toNat {super : Ext2Superblock} {w : BitVec 32}
    (h : w.toNat * blockBytes super < 2 ^ 32) :
    (w * blksz super).toNat = w.toNat * blockBytes super := by
  rw [BitVec.toNat_mul]
  by_cases h0 : w.toNat = 0
  · rw [h0, Nat.zero_mul, Nat.zero_mul, Nat.zero_mod]
  · have hle : blockBytes super ≤ w.toNat * blockBytes super :=
      Nat.le_mul_of_pos_left _ (Nat.pos_of_ne_zero h0)
    rw [blksz_toNat (Nat.lt_of_le_of_lt hle h), Nat.mod_eq_of_lt h]

/-! ## The inode -/

section Numbers

variable {m m' : ByteMem}

theorem word_congr {a : Nat} (h : ∀ x, a ≤ x → x < a + 2 → m' x = m x) : word m' a = word m a :=
  congrArg (BitVec.ofNat 16) (read_congr 2 h)

theorem dword_congr {a : Nat} (h : ∀ x, a ≤ x → x < a + 4 → m' x = m x) : dword m' a = dword m a :=
  congrArg (BitVec.ofNat 32) (read_congr 4 h)

end Numbers

/-- The reads of `ext2_read_inode`: the group descriptor and the inode. -/
def inodeRequests (node : Ext2Node) : Request × Request :=
  (descRequest node.reserved node.inode,
    inodeRequest node.reserved
      (dword node.ptr ((descRequest node.reserved node.inode).offset.toNat + 8)) node.inode)

/-- A number inside a buffer that was just read is the one on the device. -/
theorem read_vfsRead {device buffer : ByteMem} {r : Request} {a n : Nat}
    (h : a + n ≤ r.size.toNat) :
    (vfsRead device r buffer 0).read a n = device.read (r.offset.toNat + a) n := by
  have hread := read_fill buffer device 0 r.offset.toNat n a h
  rw [Nat.zero_add] at hread
  exact hread

theorem dword_vfsRead {device buffer : ByteMem} {r : Request} {a : Nat}
    (h : a + 4 ≤ r.size.toNat) :
    dword (vfsRead device r buffer 0) a = dword device (r.offset.toNat + a) := by
  rw [dword, read_vfsRead h, dword]

theorem word_vfsRead {device buffer : ByteMem} {r : Request} {a : Nat}
    (h : a + 2 ≤ r.size.toNat) :
    word (vfsRead device r buffer 0) a = word device (r.offset.toNat + a) := by
  rw [word, read_vfsRead h, word]

theorem vfsRead_apply {device buffer : ByteMem} {r : Request} {a : Nat} (ha : a < r.size.toNat) :
    vfsRead device r buffer 0 a = device (r.offset.toNat + a) := by
  rw [vfsRead, fill_apply_in (Nat.zero_le a) (by omega), Nat.sub_zero]

/-- What a buffer holds after a read, said byte by byte. -/
theorem vfsRead_eq {device buffer m : ByteMem} {r : Request} {o n : Nat}
    (hoff : r.offset.toNat = o) (hsize : r.size.toNat = n) (hin : ∀ a, a < n → device (o + a) = m a)
    (hout : ∀ a, n ≤ a → buffer a = m a) : vfsRead device r buffer 0 = m := by
  funext a
  unfold vfsRead
  rw [hoff, hsize]
  by_cases ha : a < n
  · rw [fill_apply_in (Nat.zero_le a) (by omega), Nat.sub_zero, hin a ha]
  · rw [fill_apply_out (Or.inr (by omega)), hout a (Nat.le_of_not_lt ha)]

theorem ext2ReadInode_eq (fresh : Fresh) {node : Ext2Node} (h : node.reserved.indInGrp ≠ 0) :
    ext2ReadInode fresh node = .ok (vfsRead node.ptr (inodeRequests node).2 (fresh 1) 0) := by
  unfold ext2ReadInode
  rw [if_neg h]
  show Except.ok (vfsRead node.ptr (inodeRequest _ (dword (vfsRead _ _ _ 0) 8) _) _ 0) = _
  rw [dword_vfsRead (show 8 + 4 ≤ 32 by decide)]
  rfl

theorem indInGrp_of_read {fresh : Fresh} {node : Ext2Node} {i : ByteMem}
    (hi : ext2ReadInode fresh node = .ok i) :
    node.reserved.indInGrp ≠ 0 := by
  intro h0
  rw [ext2ReadInode, if_pos h0] at hi
  cases hi

/-- The size of an inode record. -/
def recordBytes (super : Ext2Superblock) : Nat :=
  if super.verMajor = 0 then 128 else super.inodeSize.toNat

/-- The group of an inode and its number there. -/
def groupOf (node : Ext2Node) : Nat := (node.inode.toNat - 1) / node.reserved.indInGrp.toNat

def indexOf (node : Ext2Node) : Nat := (node.inode.toNat - 1) % node.reserved.indInGrp.toNat

/-- The descriptor of the inode's group. -/
def descByte (node : Ext2Node) : Nat :=
  blockBytes node.reserved * (node.reserved.sblockNum.toNat + 1) + 32 * groupOf node

/-- The first byte of the inode. -/
def inodeByte (node : Ext2Node) : Nat :=
  (dword node.ptr (descByte node + 8)).toNat * blockBytes node.reserved +
    indexOf node * recordBytes node.reserved

/-- The record of the node's inode, where it lies on the volume. -/
def nodeInode (node : Ext2Node) : ByteMem := fun a => node.ptr (inodeByte node + a)

/-- The node is that of an inode: a group has inodes, and a record has the 128 bytes of the
structure. -/
structure InodeNode (node : Ext2Node) : Prop where
  group : node.reserved.indInGrp ≠ 0
  one_le : 1 ≤ node.inode
  number : node.inode.toNat < 2 ^ 32
  record : 128 ≤ recordBytes node.reserved

/-- Descriptors and inode lie below 4 GiB, and the records have the size of the field. -/
structure InodeLow (node : Ext2Node) : Prop where
  desc : blockBytes node.reserved * (node.reserved.sblockNum.toNat + 1) < 2 ^ 32
  inode : inodeByte node < 2 ^ 32
  record : node.reserved.verMajor = 0 → node.reserved.inodeSize = 128

/-- The driver reads the inode and the block where they are. -/
structure PositionsExact (node : Ext2Node) (block : BitVec 32) : Prop where
  reads : ∀ fresh, ext2ReadInode fresh node =
    .ok (vfsRead node.ptr (inodeRequests node).2 (fresh 1) 0)
  desc : (inodeRequests node).1.offset.toNat = descByte node
  inode : (inodeRequests node).2.offset.toNat = inodeByte node
  record : (inodeRequests node).2.size.toNat = recordBytes node.reserved
  data : ∀ offset size, offset.toNat < blockBytes node.reserved →
    (blockRequest node.reserved block offset size).offset.toNat =
      block.toNat * blockBytes node.reserved + offset.toNat
  direct : (directRequest node.reserved block).offset.toNat =
    block.toNat * blockBytes node.reserved

/-- Table, inode and block lie below 4 GiB, and the records have the size of the field. -/
structure PositionsFit (node : Ext2Node) (block : BitVec 32) : Prop where
  desc : blockBytes node.reserved * (node.reserved.sblockNum.toNat + 1) < 2 ^ 32
  inode : inodeByte node < 2 ^ 32
  record : node.reserved.verMajor = 0 → node.reserved.inodeSize = 128
  data : block.toNat * blockBytes node.reserved < 2 ^ 32

section Positions

variable {node : Ext2Node}

theorem inodeGroup_toNat (hone : 1 ≤ node.inode) (hmax : node.inode.toNat < 2 ^ 32) :
    (inodeGroup node.reserved node.inode).toNat = groupOf node := by
  have hone' : 1 ≤ node.inode.toNat := hone
  have hsub : (node.inode - 1).toNat = node.inode.toNat - 1 := BitVec.toNat_sub_of_le hone
  have hle : groupOf node ≤ node.inode.toNat - 1 := Nat.div_le_self _ _
  rw [inodeGroup, BitVec.toNat_setWidth, BitVec.toNat_udiv, BitVec.toNat_setWidth, hsub,
    Nat.mod_eq_of_lt (Nat.lt_trans node.reserved.indInGrp.isLt (by decide))]
  exact Nat.mod_eq_of_lt (by unfold groupOf at hle; omega)

theorem inodeIndex_toNat (hone : 1 ≤ node.inode) (hmax : node.inode.toNat < 2 ^ 32) :
    (inodeIndex node.reserved node.inode).toNat = indexOf node := by
  have hone' : 1 ≤ node.inode.toNat := hone
  have hsub : (node.inode - 1).toNat = node.inode.toNat - 1 := BitVec.toNat_sub_of_le hone
  have hle : indexOf node ≤ node.inode.toNat - 1 := Nat.mod_le _ _
  rw [inodeIndex, BitVec.toNat_setWidth, BitVec.toNat_umod, BitVec.toNat_setWidth, hsub,
    Nat.mod_eq_of_lt (Nat.lt_trans node.reserved.indInGrp.isLt (by decide))]
  exact Nat.mod_eq_of_lt (by unfold indexOf at hle; omega)

/-- The descriptor is read behind a product of 32 bits. -/
theorem descRequest_toNat (hone : 1 ≤ node.inode) (hmax : node.inode.toNat < 2 ^ 32) :
    (descRequest node.reserved node.inode).offset.toNat =
      (blksz node.reserved * (node.reserved.sblockNum + 1)).toNat + 32 * groupOf node := by
  have hprod := (blksz node.reserved * (node.reserved.sblockNum + 1)).isLt
  have hgroup := inodeGroup_toNat hone hmax
  have hlt := (inodeGroup node.reserved node.inode).isLt
  have hmul : ((inodeGroup node.reserved node.inode).setWidth 64 * 32).toNat =
      groupOf node * 32 := by
    rw [BitVec.toNat_mul, show (32 : BitVec 64).toNat = 32 from rfl, BitVec.toNat_setWidth,
      Nat.mod_eq_of_lt (a := BitVec.toNat _) (by omega), hgroup]
    exact Nat.mod_eq_of_lt (by omega)
  show ((blksz node.reserved * (node.reserved.sblockNum + 1)).setWidth 64 +
    (inodeGroup node.reserved node.inode).setWidth 64 * 32).toNat = _
  rw [BitVec.toNat_add, hmul, BitVec.toNat_setWidth, Nat.mod_eq_of_lt (a := BitVec.toNat _) (by omega),
    Nat.mod_eq_of_lt (by omega), Nat.mul_comm (groupOf node)]

/-- A product with the block size is the exact one just when that stays in 32 bits. -/
theorem mul_blksz_exact_iff {super : Ext2Superblock} {w : BitVec 32} :
    (w * blksz super).toNat = w.toNat * blockBytes super ↔
      w.toNat * blockBytes super < 2 ^ 32 := by
  refine ⟨fun h => ?_, mul_blksz_toNat⟩
  rw [← h]
  exact BitVec.isLt _

/-- The descriptor is read where it is just when the blocks before it fit. -/
theorem desc_exact_iff (hone : 1 ≤ node.inode) (hmax : node.inode.toNat < 2 ^ 32) :
    (inodeRequests node).1.offset.toNat = descByte node ↔
      blockBytes node.reserved * (node.reserved.sblockNum.toNat + 1) < 2 ^ 32 := by
  have hbytes := blockBytes_pos node.reserved
  show (descRequest node.reserved node.inode).offset.toNat = _ ↔ _
  rw [descRequest_toNat hone hmax, descByte]
  constructor
  · intro h
    have hlt := (blksz node.reserved * (node.reserved.sblockNum + 1)).isLt
    omega
  · intro h
    have hnum : (node.reserved.sblockNum + 1).toNat = node.reserved.sblockNum.toNat + 1 := by
      have hle : node.reserved.sblockNum.toNat + 1 ≤
          blockBytes node.reserved * (node.reserved.sblockNum.toNat + 1) :=
        Nat.le_mul_of_pos_left _ hbytes
      rw [BitVec.toNat_add]
      exact Nat.mod_eq_of_lt (by change _ + 1 < _; omega)
    rw [Nat.mul_comm, ← hnum] at h
    rw [BitVec.mul_comm, mul_blksz_toNat h, hnum, Nat.mul_comm (blockBytes node.reserved)]

/-- Behind the right descriptor the inode is read where it is, and as much as it has, just
when it lies below 4 GiB and its size is the field. -/
theorem inode_exact_iff (hone : 1 ≤ node.inode) (hmax : node.inode.toNat < 2 ^ 32)
    (hdesc : (inodeRequests node).1.offset.toNat = descByte node) :
    (inodeRequests node).2.offset.toNat = inodeByte node ∧
        (inodeRequests node).2.size.toNat = recordBytes node.reserved ↔
      inodeByte node < 2 ^ 32 ∧ (node.reserved.verMajor = 0 → node.reserved.inodeSize = 128) := by
  have hindex := inodeIndex_toNat hone hmax
  have hsize : (inodeRequests node).2.size.toNat = node.reserved.inodeSize.toNat := by
    show (node.reserved.inodeSize.setWidth 64).toNat = _
    rw [BitVec.toNat_setWidth]
    exact Nat.mod_eq_of_lt (Nat.lt_trans node.reserved.inodeSize.isLt (by decide))
  have hrecord : node.reserved.inodeSize.toNat = recordBytes node.reserved ↔
      (node.reserved.verMajor = 0 → node.reserved.inodeSize = 128) := by
    unfold recordBytes
    by_cases hver : node.reserved.verMajor = 0
    · rw [if_pos hver]
      constructor
      · intro h _
        exact BitVec.eq_of_toNat_eq h
      · intro h
        rw [h hver]
        rfl
    · rw [if_neg hver]
      exact iff_of_true rfl fun h => absurd h hver
  have hoffset : (inodeRequests node).2.offset.toNat =
      ((dword node.ptr (descByte node + 8)).toNat * (blksz node.reserved).toNat +
        indexOf node * node.reserved.inodeSize.toNat) % 2 ^ 32 := by
    show (BitVec.setWidth 64 (dword node.ptr ((inodeRequests node).1.offset.toNat + 8) *
      blksz node.reserved + inodeIndex node.reserved node.inode *
        node.reserved.inodeSize.setWidth 32)).toNat = _
    rw [hdesc, BitVec.toNat_setWidth, Nat.mod_eq_of_lt (Nat.lt_trans (BitVec.isLt _) (by decide)),
      BitVec.toNat_add, BitVec.toNat_mul, BitVec.toNat_mul, hindex, BitVec.toNat_setWidth,
      Nat.mod_eq_of_lt (a := node.reserved.inodeSize.toNat)
        (Nat.lt_trans node.reserved.inodeSize.isLt (by decide)), ← Nat.add_mod]
  rw [hsize, hrecord]
  constructor
  · intro h
    refine ⟨?_, h.2⟩
    rw [← h.1, hoffset]
    exact Nat.mod_lt _ (by decide)
  · intro h
    refine ⟨?_, h.2⟩
    have hrec := hrecord.mpr h.2
    have hfirst : (dword node.ptr (descByte node + 8)).toNat * (blksz node.reserved).toNat % 2 ^ 32 =
        (dword node.ptr (descByte node + 8)).toNat * blockBytes node.reserved := by
      rw [← BitVec.toNat_mul]
      refine mul_blksz_toNat (Nat.lt_of_le_of_lt ?_ h.1)
      exact Nat.le_add_right _ _
    rw [hoffset, Nat.add_mod, hfirst, hrec, Nat.add_mod_mod]
    exact Nat.mod_eq_of_lt h.1

/-- An inode below 4 GiB is read where it is. -/
theorem ext2ReadInode_disk (hgroup : node.reserved.indInGrp ≠ 0)
    (hone : 1 ≤ node.inode) (hmax : node.inode.toNat < 2 ^ 32)
    (hdesc : blockBytes node.reserved * (node.reserved.sblockNum.toNat + 1) < 2 ^ 32)
    (hinode : inodeByte node < 2 ^ 32)
    (hrecord : node.reserved.verMajor = 0 → node.reserved.inodeSize = 128) (fresh : Fresh) :
    ∃ i, ext2ReadInode fresh node = .ok i ∧
      ∀ a, a < recordBytes node.reserved → i a = node.ptr (inodeByte node + a) := by
  obtain ⟨hoff, hsize⟩ := (inode_exact_iff hone hmax ((desc_exact_iff hone hmax).mpr hdesc)).mpr
    ⟨hinode, hrecord⟩
  refine ⟨_, ext2ReadInode_eq fresh hgroup, fun a ha => ?_⟩
  rw [vfsRead_apply (Nat.lt_of_lt_of_eq ha hsize.symm), hoff]

/-- What is read of an inode below 4 GiB begins with its record. -/
theorem ext2ReadInode_low (hnode : InodeNode node) (hlow : InodeLow node) (fresh : Fresh) :
    ∃ i, ext2ReadInode fresh node = .ok i ∧ ∀ a, a < 112 → i a = nodeInode node a := by
  obtain ⟨i, hi, hbytes⟩ := ext2ReadInode_disk hnode.group hnode.one_le hnode.number hlow.desc
    hlow.inode hlow.record fresh
  exact ⟨i, hi, fun a ha => hbytes a (Nat.lt_of_lt_of_le ha (Nat.le_trans (by decide) hnode.record))⟩

/-- A block is read where it is just when it lies below 4 GiB. -/
theorem block_exact_iff (super : Ext2Superblock) (block : BitVec 32) :
    ((∀ offset size, offset.toNat < blockBytes super →
        (blockRequest super block offset size).offset.toNat =
          block.toNat * blockBytes super + offset.toNat) ∧
      (directRequest super block).offset.toNat = block.toNat * blockBytes super) ↔
    block.toNat * blockBytes super < 2 ^ 32 := by
  have hwide : ((block * blksz super).setWidth 64).toNat = (block * blksz super).toNat := by
    rw [BitVec.toNat_setWidth]
    exact Nat.mod_eq_of_lt (Nat.lt_trans (BitVec.isLt _) (by decide))
  constructor
  · intro h
    have hdirect : ((block * blksz super).setWidth 64).toNat = block.toNat * blockBytes super := h.2
    rw [hwide] at hdirect
    exact mul_blksz_exact_iff.mp hdirect
  · intro h
    have hprod := mul_blksz_toNat h
    refine ⟨?_, hwide.trans hprod⟩
    intro offset size hoff
    show ((block * blksz super).setWidth 64 + offset).toNat = _
    rw [BitVec.toNat_add, hwide, hprod]
    refine Nat.mod_eq_of_lt ?_
    by_cases h0 : block.toNat = 0
    · rw [h0, Nat.zero_mul, Nat.zero_add]
      exact offset.isLt
    · have hle : blockBytes super ≤ block.toNat * blockBytes super :=
        Nat.le_mul_of_pos_left _ (Nat.pos_of_ne_zero h0)
      omega

/-- The positions are exact just when everything lies below 4 GiB and the records have the
size of the field. -/
theorem positions_exact_iff (hind : node.reserved.indInGrp ≠ 0) (hone : 1 ≤ node.inode)
    (hmax : node.inode.toNat ≤ node.reserved.inodesNum.toNat) (block : BitVec 32) :
    PositionsExact node block ↔ PositionsFit node block := by
  have hmax' : node.inode.toNat < 2 ^ 32 :=
    Nat.lt_of_le_of_lt hmax node.reserved.inodesNum.isLt
  constructor
  · intro h
    have hinode := (inode_exact_iff hone hmax' h.desc).mp ⟨h.inode, h.record⟩
    exact ⟨(desc_exact_iff hone hmax').mp h.desc, hinode.1, hinode.2,
      (block_exact_iff _ block).mp ⟨h.data, h.direct⟩⟩
  · intro h
    have hdesc := (desc_exact_iff hone hmax').mpr h.desc
    have hinode := (inode_exact_iff hone hmax' hdesc).mpr ⟨h.inode, h.record⟩
    have hblock := (block_exact_iff _ block).mpr h.data
    exact ⟨fun fresh => ext2ReadInode_eq fresh hind, hdesc, hinode.1, hinode.2, hblock.1, hblock.2⟩

end Positions

/-- The root directory of a volume of 8 GiB with blocks of 4 KiB. -/
def largeVolume : Ext2Node :=
  ext2Root ⟨16, 0x200000, 0, 2, 16, 0xEF53, 1, 128⟩ fun _ => 0

/-- Its block 5. -/
theorem positions_exact_low : PositionsExact largeVolume 5 :=
  (positions_exact_iff (by decide) (by decide) (by decide) 5).mpr
    ⟨by decide, by decide, by decide, by decide⟩

/-- Its block `2 ^ 20` is read from byte 0. -/
theorem positions_wrap : ¬ PositionsExact largeVolume 0x100000 := by
  intro h
  have hbyte : (directRequest largeVolume.reserved 0x100000).offset.toNat = 0x100000 * 0x1000 :=
    h.direct
  exact absurd hbyte (by decide)

end OS64.Fs
