import OS64.Fs.Ext2Chain
import OS64.Fs.Ext2Div
import Mathlib.Tactic.IntervalCases

/-!
# Reading a file

`ext2_read_inode_data_ex` divides a request at the ends of what one table of pointers
covers: the twelve direct pointers, the single indirect table, and each table behind the
double indirect pointer. A segment that the request enters in the middle is read from
there, all later ones from their beginning, and every segment is one call of
`ext2_read_block_chain`. `fileSource` is where a byte of the request comes from, and
`readInodeData_spec` that the call stores this and nothing else.

The sizes of the three regions are products of `int`s. That of the double indirect region
is 0 for blocks of 4 KiB and more, that of the single indirect one for blocks of 128 KiB
and more (`region_sizes`), and a region of size 0 is passed over.
-/

namespace OS64.Fs

open OS64.Lib (ByteMem)
open OS64.Lib.ByteMem

/-! ## The regions -/

section Sizes

variable (super : Ext2Superblock)

/-- The pointers in a block. -/
def blockPtrs : Nat := blockBytes super / 4

/-- What the driver takes the single indirect region to have, in bytes. -/
def singleBytes : Nat :=
  if super.blockSize.toNat ≤ 6 then blockPtrs super * blockBytes super else 0

/-- What the driver takes the double indirect region to have. -/
def doubleBytes : Nat :=
  if super.blockSize.toNat ≤ 1 then blockPtrs super * singleBytes super else 0

/-- The first byte of a file that the driver does not reach. -/
def readLimit : Nat := 12 * blockBytes super + singleBytes super + doubleBytes super

end Sizes

theorem singleBytes_eq {super : Ext2Superblock} (h : singleBytes super ≠ 0) :
    singleBytes super = blockPtrs super * blockBytes super := by
  unfold singleBytes at h ⊢
  by_cases hk : super.blockSize.toNat ≤ 6
  · exact if_pos hk
  · exact absurd (if_neg hk) h

theorem doubleBytes_eq {super : Ext2Superblock} (h : doubleBytes super ≠ 0) :
    doubleBytes super = blockPtrs super * singleBytes super := by
  unfold doubleBytes at h ⊢
  by_cases hk : super.blockSize.toNat ≤ 1
  · exact if_pos hk
  · exact absurd (if_neg hk) h

/-- The products of `int`s, for the shifts that leave the direct region in 31 bits. -/
theorem int_products : ∀ k, k < 18 →
    (1024 * 2 ^ k / 4 * 4 = 1024 * 2 ^ k ∧ 12 * (1024 * 2 ^ k) < 2 ^ 31) ∧
    ((((1024#32 <<< k).signExtend 64 / 4).setWidth 32).toNat = 1024 * 2 ^ k / 4 ∧
      (((12 * 1024#32 <<< k)).signExtend 64).toNat = 12 * (1024 * 2 ^ k)) ∧
    ((1024#32 <<< k) * (((1024#32 <<< k).signExtend 64 / 4).setWidth 32)).toNat =
      (if k ≤ 6 then 1024 * 2 ^ k / 4 * (1024 * 2 ^ k) else 0) ∧
    ((1024#32 <<< k) * (((1024#32 <<< k).signExtend 64 / 4).setWidth 32) *
        (((1024#32 <<< k).signExtend 64 / 4).setWidth 32)).toNat =
      if k ≤ 1 then 1024 * 2 ^ k / 4 * (1024 * 2 ^ k / 4 * (1024 * 2 ^ k)) else 0 := by
  decide +kernel

/-- The sizes that the driver computes. -/
structure RegionSizes (super : Ext2Superblock) : Prop where
  block : blockPtrs super * 4 = blockBytes super
  bytes : 12 * blockBytes super < 2 ^ 31
  ptrs : (ptrsInBlock super).toNat = blockPtrs super
  dbp : (dbpLong super).toNat = 12 * blockBytes super
  sibp : (bytesInSibp super).toNat = singleBytes super
  dibp : (bytesInDibp super).toNat = doubleBytes super
  single : singleBytes super < 2 ^ 31
  double : doubleBytes super < 2 ^ 31

theorem RegionSizes.sibpLong_toNat {super : Ext2Superblock} (hz : RegionSizes super) :
    (sibpLong super).toNat = singleBytes super := by
  rw [← hz.sibp]
  exact signExtend_toNat (by rw [hz.sibp]; exact hz.single)

theorem region_sizes {super : Ext2Superblock} (h : super.blockSize.toNat ≤ 17) :
    RegionSizes super := by
  obtain ⟨⟨hblock, hbytes⟩, ⟨hptrs, hdbp⟩, hsibp, hdibp⟩ :=
    int_products super.blockSize.toNat (by omega)
  have hblk : blksz super = 1024#32 <<< super.blockSize.toNat := by
    rw [blksz, Nat.mod_eq_of_lt (by omega)]
    rfl
  have hsingle : (if super.blockSize.toNat ≤ 6 then
      1024 * 2 ^ super.blockSize.toNat / 4 * (1024 * 2 ^ super.blockSize.toNat) else 0) =
      singleBytes super := rfl
  have hdouble : (if super.blockSize.toNat ≤ 1 then 1024 * 2 ^ super.blockSize.toNat / 4 *
      (1024 * 2 ^ super.blockSize.toNat / 4 * (1024 * 2 ^ super.blockSize.toNat)) else 0) =
      doubleBytes super := by
    unfold doubleBytes
    by_cases hk : super.blockSize.toNat ≤ 1
    · rw [if_pos hk, if_pos hk, singleBytes, if_pos (by omega)]
      rfl
    · rw [if_neg hk, if_neg hk]
  have hbounds : singleBytes super < 2 ^ 31 ∧ doubleBytes super < 2 ^ 31 := by
    rw [← hsingle, ← hdouble]
    generalize super.blockSize.toNat = k at h
    interval_cases k <;> decide
  refine ⟨hblock, hbytes, ?_, ?_, ?_, ?_, hbounds.1, hbounds.2⟩
  · rw [ptrsInBlock, blkszLong, hblk]
    exact hptrs
  · rw [dbpLong, bytesInDbp, hblk]
    exact hdbp
  · rw [bytesInSibp, ptrsInBlock, blkszLong, hblk, hsibp]
    exact hsingle
  · rw [bytesInDibp, bytesInSibp, ptrsInBlock, blkszLong, hblk, hdibp]
    exact hdouble

/-! ## The blocks of a file -/

section Blocks

variable (pos : BitVec 32 → Nat) (node : Ext2Node) (i : ByteMem)

/-- Entry `e` of the table in a block, where blocks lie as `pos` says. -/
def tableEntry (block : BitVec 32) (e : Nat) : BitVec 32 := dword node.ptr (pos block + 4 * e)

/-- Block `j` of a file. -/
def fileBlock (j : Nat) : BitVec 32 :=
  if j < 12 then direct i j
  else if j < 12 + blockPtrs node.reserved then tableEntry pos node (sIndirect i) (j - 12)
  else
    tableEntry pos node (tableEntry pos node (dIndirect i)
        ((j - 12 - blockPtrs node.reserved) / blockPtrs node.reserved))
      ((j - 12 - blockPtrs node.reserved) % blockPtrs node.reserved)

end Blocks

/-- Where the segment with byte `x` of a file begins: the direct blocks are one, and what
each table of pointers covers is one. -/
def segBegin (super : Ext2Superblock) (x : Nat) : Nat :=
  if x < 12 * blockBytes super then 0
  else
    12 * blockBytes super +
      singleBytes super * ((x - 12 * blockBytes super) / singleBytes super)

/-- Where the driver starts to read the segment with byte `x`, in a request from byte `o`
on. -/
def segStart (super : Ext2Superblock) (o x : Nat) : Nat := max o (segBegin super x)

/-- Where byte `k` of a request from byte `o` on comes from. -/
def fileSource (node : Ext2Node) (i : ByteMem) (o k : Nat) : Option Nat :=
  chainSource node.reserved
    (fun j => fileBlock (blockPos node.reserved) node i
      (segStart node.reserved o (o + k) / blockBytes node.reserved + j))
    (segStart node.reserved o (o + k) % blockBytes node.reserved)
    (o + k - segStart node.reserved o (o + k))

/-! ## One region -/

/-- What is left of a request of `n` bytes from byte `o` of a file on, when byte `base` is
reached: `left` bytes, from `offset` bytes behind it on. -/
structure Left (o n base : Nat) (offset : BitVec 64) (left : Nat) : Prop where
  rest : left = n - min n (base - o)
  start : left ≠ 0 → offset.toNat = o - base

section Left

variable {o n base bytes left : Nat} {offset : BitVec 64}

/-- The bytes up to the end of a region. -/
theorem left_bytes (h : Left o n base offset left) (hoff : offset.toNat = o - base)
    (hin : o - base ≤ bytes) :
    min n (base - o) + min left (bytes - offset.toNat) = min n (base + bytes - o) := by
  have hrest := h.rest
  rw [hoff]
  omega

/-- A region that is read to its end, or as far as the request goes. -/
theorem left_next (h : Left o n base offset left) (hoff : offset.toNat = o - base)
    (hin : o - base ≤ bytes) :
    Left o n (base + bytes) 0 (left - min left (bytes - offset.toNat)) := by
  have hrest := h.rest
  have hbytes := left_bytes h hoff hin
  refine ⟨by omega, fun hleft => ?_⟩
  show 0 = _
  omega

/-- A region that is passed over. -/
theorem left_skip {long : BitVec 64} (hlong : long.toNat = bytes)
    (h : Left o n base offset left) (hskip : left = 0 ∨ long ≤ offset) :
    Left o n (base + bytes) (offset - long) left := by
  have hrest := h.rest
  by_cases h0 : left = 0
  · exact ⟨by omega, fun hne => absurd h0 hne⟩
  · have hle : long ≤ offset := hskip.resolve_left h0
    have hle' : long.toNat ≤ offset.toNat := hle
    have hsub : (offset - long).toNat = offset.toNat - long.toNat := BitVec.toNat_sub_of_le hle
    have hoff := h.start h0
    exact ⟨by omega, fun _ => by omega⟩

/-- What is behind byte `base` goes on `t` bytes further, where the request begins there. -/
theorem left_further {t : Nat} {offset' : BitVec 64} (h : Left o n base offset left)
    (h0 : left ≠ 0) (hsum : offset.toNat = offset'.toNat + t) :
    Left o n (base + t) offset' left ∧ min n (base + t - o) = min n (base - o) := by
  have hrest := h.rest
  have hoff := h.start h0
  have hsame : min n (base + t - o) = min n (base - o) := by omega
  refine ⟨⟨?_, fun _ => by omega⟩, hsame⟩
  rw [hsame]
  exact hrest

/-- What is left up to byte `limit`. -/
theorem left_limit (o n base limit : Nat) :
    min (n - min n (base - o)) (limit - base - (o - base)) =
      min n (limit - o) - min n (base - o) := by omega

end Left

/-- `bytes` bytes of a file from its byte `base` on, which one table leads to. -/
structure Region (node : Ext2Node) (i : ByteMem) (chain : Chain) (base bytes : Nat) : Prop where
  whole : blockBytes node.reserved ∣ base
  fits : bytes ≤ chain.count * blockBytes node.reserved
  count : chain.count * blockBytes node.reserved < 2 ^ 31
  entries : ∀ e, e < chain.count → dword chain.mem (chain.base + 4 * e) =
    fileBlock (blockPos node.reserved) node i (base / blockBytes node.reserved + e)
  segment : ∀ x, base ≤ x → x < base + bytes → segBegin node.reserved x = base

/-- The locals in a read of `n` bytes from byte `o` of a file on, when what lies before byte
`base` is read. -/
structure ReadTo (node : Ext2Node) (i data : ByteMem) (o n base : Nat) (s : ReadState) : Prop where
  ptr : s.ptr.toNat = min n (base - o)
  size : s.size.toNat = n - min n (base - o)
  offset : s.size ≠ 0 → s.offset.toNat = o - base
  data : s.data = patch data 0 (min n (base - o)) fun k => (fileSource node i o k).map node.ptr

theorem ReadTo.left {node : Ext2Node} {i data : ByteMem} {o n base : Nat} {s : ReadState}
    (h : ReadTo node i data o n base s) : Left o n base s.offset s.size.toNat :=
  ⟨h.size, fun h0 => h.offset fun hz => h0 (by rw [hz]; rfl)⟩

section RegionRead

variable {node : Ext2Node} {i data : ByteMem} {chain : Chain} {base bytes o n : Nat}

/-- The bytes that a region's table leads to are those of the request. -/
theorem region_source (hr : Region node i chain base bytes) {k : Nat}
    (hk : o - base + k < bytes) :
    chainSource node.reserved (chain.blocks ((o - base) / blockBytes node.reserved))
      ((o - base) % blockBytes node.reserved) k = fileSource node i o (base - o + k) := by
  have hpos := blockBytes_pos node.reserved
  have hstart : segStart node.reserved o (o + (base - o + k)) = base + (o - base) := by
    unfold segStart
    rw [hr.segment _ (by omega) (by omega)]
    omega
  have hdiv : (base + (o - base)) / blockBytes node.reserved =
      base / blockBytes node.reserved + (o - base) / blockBytes node.reserved := by
    obtain ⟨b, hb⟩ := hr.whole
    rw [hb, Nat.mul_add_div hpos, Nat.mul_div_cancel_left _ hpos]
  have hmod : (base + (o - base)) % blockBytes node.reserved =
      (o - base) % blockBytes node.reserved := by
    obtain ⟨b, hb⟩ := hr.whole
    rw [hb, Nat.mul_add_mod]
  have hrest : o + (base - o + k) - (base + (o - base)) = k := by omega
  unfold fileSource
  rw [hstart, hdiv, hmod, hrest]
  refine chainSource_congr fun j hj => ?_
  have hcount : (o - base) / blockBytes node.reserved + j < chain.count := by
    have hsum : ((o - base) / blockBytes node.reserved + j) * blockBytes node.reserved ≤
        o - base + k := by
      rw [Nat.add_mul]
      have hfirst := Nat.div_mul_le_self (o - base) (blockBytes node.reserved)
      have hsecond : j * blockBytes node.reserved ≤ k :=
        Nat.le_trans (Nat.mul_le_mul_right _ hj) (Nat.div_mul_le_self _ _)
      omega
    refine Nat.lt_of_mul_lt_mul_right (Nat.lt_of_le_of_lt hsum (Nat.lt_of_lt_of_le hk hr.fits))
  unfold Chain.blocks
  rw [hr.entries _ hcount, Nat.add_assoc]

/-- What is left of a region, or all of a shorter request. -/
theorem clipInt_toNat {bytes offset size : BitVec 64} (hbytes : bytes.toNat < 2 ^ 31)
    (hoff : offset.toNat ≤ bytes.toNat) (hwrap : offset.toNat + size.toNat < 2 ^ 64) :
    (clipInt bytes offset size).toNat = min size.toNat (bytes.toNat - offset.toNat) := by
  have hsub : (bytes - offset).toNat = bytes.toNat - offset.toNat := BitVec.toNat_sub_of_le hoff
  have hadd : (offset + size).toNat = offset.toNat + size.toNat := by
    rw [BitVec.toNat_add]
    exact Nat.mod_eq_of_lt hwrap
  have hclip : (if bytes < offset + size then bytes - offset else size).toNat =
      min size.toNat (bytes.toNat - offset.toNat) := by
    by_cases hlt : bytes < offset + size
    · rw [if_pos hlt, hsub]
      rw [BitVec.lt_def, hadd] at hlt
      omega
    · rw [if_neg hlt]
      rw [BitVec.lt_def, hadd] at hlt
      omega
  rw [clipInt, setWidth_toNat (by omega), hclip]

theorem clipInt_long_toNat {bytes offset size : BitVec 64} (hbytes : bytes.toNat < 2 ^ 31)
    (hoff : offset.toNat ≤ bytes.toNat) (hwrap : offset.toNat + size.toNat < 2 ^ 64) :
    ((clipInt bytes offset size).signExtend 64).toNat =
      min size.toNat (bytes.toNat - offset.toNat) := by
  have hlow := clipInt_toNat hbytes hoff hwrap
  rw [signExtend_toNat (by omega), hlow]

/-- Where the sum wraps, nothing is clipped and the `int` is negative. -/
theorem clipInt_wrap {bytes offset size : BitVec 64} (hbytes : bytes.toNat < 2 ^ 31)
    (hoff : offset.toNat ≤ bytes.toNat) (hwrap : 2 ^ 64 ≤ offset.toNat + size.toNat) :
    (clipInt bytes offset size).signExtend 64 = size := by
  have hsize := size.isLt
  have hnot : ¬ bytes < offset + size := by
    rw [BitVec.lt_def, BitVec.toNat_add]
    omega
  have hmsb : (size.setWidth 32).msb = true := by
    rw [BitVec.msb_eq_decide, BitVec.toNat_setWidth]
    exact decide_eq_true (by omega)
  apply BitVec.eq_of_toNat_eq
  rw [clipInt, if_neg hnot, BitVec.toNat_signExtend, hmsb, if_pos rfl, BitVec.toNat_setWidth,
    BitVec.toNat_setWidth]
  omega

/-- A region whose blocks are read. -/
theorem readRegion_eq (node : Ext2Node) (chain : Chain) (fuel : Nat) (long : BitVec 64)
    (s : ReadState) {data' : ByteMem}
    (h : ext2ReadBlockChain fuel node chain s.offset
      ((clipInt long s.offset s.size).signExtend 64) s.data s.ptr = .ok data') :
    readRegion fuel node chain long s =
      .ok ⟨0, s.size - (clipInt long s.offset s.size).signExtend 64, data',
        s.ptr + (clipInt long s.offset s.size).signExtend 64⟩ := by
  unfold readRegion
  dsimp only
  rw [h]
  rfl

/-- One region of a request whose end does not wrap. -/
theorem readRegion_step (hB : blockBytes node.reserved < 2 ^ 31)
    (hr : Region node i chain base bytes) {fuel : Nat} (hfuel : chain.count < fuel)
    {long : BitVec 64} (hlong : long.toNat = bytes) {s : ReadState}
    (hs : ReadTo node i data o n base s) (hoff : s.offset.toNat = o - base)
    (hin : o - base ≤ bytes) (hwrap : s.offset.toNat + s.size.toNat < 2 ^ 64) (hn : n < 2 ^ 64) :
    ∃ s', readRegion fuel node chain long s = .ok s' ∧
      ReadTo node i data o n (base + bytes) s' := by
  have hbytes := Nat.lt_of_le_of_lt hr.fits hr.count
  have hfits := hr.fits
  have hclip := clipInt_long_toNat (by rw [hlong]; exact hbytes) (by rw [hoff, hlong]; exact hin)
    hwrap
  have htaken := left_bytes hs.left hoff hin
  have hnext := left_next hs.left hoff hin
  have hsize := hs.size
  have hptr := hs.ptr
  rw [hlong] at hclip
  have hregion := @readRegion_eq node chain fuel long s
  generalize (clipInt long s.offset s.size).signExtend 64 = sz at hclip hregion
  rw [← hclip] at htaken hnext
  have hreach : s.offset.toNat + sz.toNat ≤ bytes := by omega
  have hread := readBlockChain_spec hB hr.count hfuel s.data (Nat.le_trans hreach hr.fits)
    (show s.ptr.toNat + sz.toNat < 2 ^ 64 by omega)
  have hptr' : (s.ptr + sz).toNat = s.ptr.toNat + sz.toNat := by
    rw [BitVec.toNat_add]
    exact Nat.mod_eq_of_lt (by omega)
  have hsize' : (s.size - sz).toNat = s.size.toNat - sz.toNat :=
    BitVec.toNat_sub_of_le (BitVec.le_def.mpr (by omega))
  refine ⟨_, hregion hread, ?_, ?_, ?_, ?_⟩
  · rw [hptr', hptr, htaken]
  · rw [hsize']
    exact hnext.rest
  · intro hleft
    exact hnext.start fun h0 => hleft (BitVec.eq_of_toNat_eq (hsize'.trans h0))
  · -- the bytes of the region behind those before it
    dsimp only
    rw [hs.data, hptr, ← htaken, patch_zero_append]
    refine patch_congr fun k hk => ?_
    by_cases hkp : k < min n (base - o)
    · rw [if_pos hkp]
    · have hbase : min n (base - o) = base - o := by omega
      rw [if_neg hkp, hoff, region_source hr (by omega), hbase, Nat.add_sub_of_le (by omega)]

/-- A request whose end wraps is not clipped, and its size survives the `int` as a negative
number: the region takes all of it, and returns, if it does, when the table ends. -/
theorem readRegion_wrap (hB : blockBytes node.reserved < 2 ^ 31)
    (hcount : chain.count * blockBytes node.reserved < 2 ^ 31) {fuel : Nat} {long : BitVec 64}
    (hlong : long.toNat < 2 ^ 31) {s s' : ReadState} (hptr : s.ptr = 0)
    (hoff : s.offset.toNat ≤ long.toNat) (hwrap : 2 ^ 64 ≤ s.offset.toNat + s.size.toNat)
    (h : readRegion fuel node chain long s = .ok s') :
    s'.size = 0 ∧ ∀ x, 2 ^ 31 ≤ x → s'.data x = s.data x := by
  have hclip := clipInt_wrap hlong hoff hwrap
  unfold readRegion at h
  dsimp only at h
  rw [hclip, hptr] at h
  obtain ⟨data', hread, h⟩ := bind_ok h
  cases h
  exact ⟨BitVec.sub_self _, fun x hx => readBlockChain_frame hB hcount hread hx⟩

end RegionRead

/-! ## The three regions -/

section Regions

variable {node : Ext2Node} {i data : ByteMem} {o n : Nat}

theorem segBegin_direct {super : Ext2Superblock} {x : Nat} (h : x < 12 * blockBytes super) :
    segBegin super x = 0 := if_pos h

/-- The segment of a byte behind `q` whole tables. -/
theorem segBegin_table {super : Ext2Superblock} {x q : Nat}
    (h : 12 * blockBytes super + q * singleBytes super ≤ x)
    (h' : x < 12 * blockBytes super + (q + 1) * singleBytes super) :
    segBegin super x = 12 * blockBytes super + q * singleBytes super := by
  have hq : (x - 12 * blockBytes super) / singleBytes super = q :=
    Nat.div_eq_of_lt_le (by omega) (by omega)
  rw [segBegin, if_neg (by omega), hq, Nat.mul_comm (singleBytes super)]

/-- The direct pointers. -/
theorem direct_region (hz : RegionSizes node.reserved) :
    Region node i ⟨i, 40, 12⟩ 0 (12 * blockBytes node.reserved) := by
  refine ⟨Nat.dvd_zero _, Nat.le_refl _, hz.bytes, ?_, ?_⟩
  · intro e he
    rw [Nat.zero_div, Nat.zero_add, fileBlock, if_pos he]
    rfl
  · intro x _ hx
    exact segBegin_direct (by omega)

theorem readTable_count (hz : RegionSizes node.reserved) (block : BitVec 32) (buffer : ByteMem) :
    (readTable node block buffer).count = blockPtrs node.reserved := by
  have hbytes := hz.bytes
  show (blkszLong node.reserved).toNat / 4 = _
  rw [blkszLong_toNat (by omega)]
  rfl

/-- The entries of a table that was read. -/
theorem readTable_entry (hz : RegionSizes node.reserved) (block : BitVec 32) (buffer : ByteMem)
    {e : Nat} (he : e < blockPtrs node.reserved) :
    dword (readTable node block buffer).mem ((readTable node block buffer).base + 4 * e) =
      tableEntry (blockPos node.reserved) node block e := by
  have hblock := hz.block
  have hbytes := hz.bytes
  have hlong : (blkszLong node.reserved).toNat = blockBytes node.reserved :=
    blkszLong_toNat (by omega)
  have hlt : 4 * e + 4 ≤
      (blockRequest node.reserved block 0 (blkszLong node.reserved)).size.toNat := by
    show _ ≤ (blkszLong node.reserved).toNat
    omega
  have hoff : (blockRequest node.reserved block 0 (blkszLong node.reserved)).offset.toNat =
      blockPos node.reserved block := by
    show ((block * blksz node.reserved).setWidth 64 + 0#64).toNat = _
    rw [BitVec.add_zero, BitVec.toNat_setWidth]
    exact Nat.mod_eq_of_lt (Nat.lt_trans (BitVec.isLt _) (by decide))
  show dword (vfsRead node.ptr _ buffer 0) (0 + 4 * e) = _
  rw [Nat.zero_add, dword_vfsRead hlt, hoff]
  rfl

/-- A table of pointers: the single indirect one, or one behind the double indirect
pointer. -/
theorem table_region (hz : RegionSizes node.reserved) (hS : singleBytes node.reserved ≠ 0)
    {block : BitVec 32} {q : Nat} (hblock : ∀ e, e < blockPtrs node.reserved →
      tableEntry (blockPos node.reserved) node block e =
        fileBlock (blockPos node.reserved) node i (12 + q * blockPtrs node.reserved + e))
    (buffer : ByteMem) :
    Region node i (readTable node block buffer)
      (12 * blockBytes node.reserved + q * singleBytes node.reserved)
      (singleBytes node.reserved) := by
  have hpos := blockBytes_pos node.reserved
  have hsingle := singleBytes_eq hS
  have hbase : 12 * blockBytes node.reserved + q * singleBytes node.reserved =
      (12 + q * blockPtrs node.reserved) * blockBytes node.reserved := by
    rw [hsingle, Nat.add_mul, Nat.mul_assoc]
  refine ⟨?_, ?_, ?_, ?_, ?_⟩
  · rw [hbase]
    exact Nat.dvd_mul_left _ _
  · rw [readTable_count hz, hsingle]
  · rw [readTable_count hz, ← hsingle]
    exact hz.single
  · intro e he
    rw [readTable_count hz] at he
    rw [readTable_entry hz block buffer he, hblock e he, hbase, Nat.mul_div_cancel _ hpos]
  · intro x hx hx'
    exact segBegin_table hx (by rw [Nat.succ_mul q]; omega)

theorem single_region (hz : RegionSizes node.reserved) (hS : singleBytes node.reserved ≠ 0)
    (buffer : ByteMem) :
    Region node i (readTable node (sIndirect i) buffer) (12 * blockBytes node.reserved)
      (singleBytes node.reserved) := by
  have hregion : Region node i (readTable node (sIndirect i) buffer)
      (12 * blockBytes node.reserved + 0 * singleBytes node.reserved)
      (singleBytes node.reserved) := by
    refine table_region hz hS (fun e he => ?_) buffer
    rw [fileBlock, if_neg (by omega), if_pos (by omega)]
    exact congrArg _ (by omega)
  rw [Nat.zero_mul, Nat.add_zero] at hregion
  exact hregion

/-- The table behind entry `q` of the double indirect one. -/
theorem double_region (hz : RegionSizes node.reserved) (hS : singleBytes node.reserved ≠ 0)
    (q : Nat) (buffer : ByteMem) :
    Region node i
      (readTable node (tableEntry (blockPos node.reserved) node (dIndirect i) q) buffer)
      (12 * blockBytes node.reserved + (q + 1) * singleBytes node.reserved)
      (singleBytes node.reserved) := by
  refine table_region hz hS (fun e he => ?_) buffer
  have hsub : 12 + (q + 1) * blockPtrs node.reserved + e - 12 - blockPtrs node.reserved =
      e + blockPtrs node.reserved * q := by
    rw [Nat.succ_mul q, Nat.mul_comm q]
    omega
  have hge : ¬ 12 + (q + 1) * blockPtrs node.reserved + e < 12 + blockPtrs node.reserved := by
    rw [Nat.succ_mul q]
    omega
  rw [fileBlock, if_neg (by omega), if_neg hge, hsub, Nat.add_mul_div_left _ _ (by omega),
    Nat.div_eq_of_lt he, Nat.zero_add, Nat.add_mul_mod_self_left, Nat.mod_eq_of_lt he]

/-- A request whose end wraps, stopped in the region it starts in: nothing is left of it, and
its buffer is untouched from `2 ^ 31` on. -/
def Stopped (data : ByteMem) (o n : Nat) (r : Exec ReadState) : Prop :=
  2 ^ 64 ≤ o + n ∧ 2 ^ 31 < n ∧
    ∀ s, r = .ok s → s.size = 0 ∧ ∀ x, 2 ^ 31 ≤ x → s.data x = data x

/-- A region that is passed over, empty or before the request, or behind its end. -/
theorem readTo_skip {base bytes : Nat} {long : BitVec 64} (hlong : long.toNat = bytes)
    {s : ReadState} (hs : ReadTo node i data o n base s)
    (hskip : ¬ (s.size ≠ 0 ∧ s.offset < long)) :
    ReadTo node i data o n (base + bytes) { s with offset := s.offset - long } := by
  have hnext : Left o n (base + bytes) (s.offset - long) s.size.toNat := by
    refine left_skip hlong hs.left ?_
    by_cases h0 : s.size = 0
    · rw [h0]
      exact Or.inl rfl
    · exact Or.inr (BitVec.not_lt.mp fun hlt => hskip ⟨h0, hlt⟩)
  have hrest := hnext.rest
  have hsize := hs.size
  have hsame : min n (base + bytes - o) = min n (base - o) := by omega
  refine ⟨?_, hrest, ?_, ?_⟩
  · rw [hsame]
    exact hs.ptr
  · intro h0
    exact hnext.start fun hz => h0 (BitVec.eq_of_toNat_eq hz)
  · rw [hsame]
    exact hs.data

theorem readDirect_step (hz : RegionSizes node.reserved) {fuel : Nat} (hfuel : 12 < fuel)
    (offset size : BitVec 64) (data : ByteMem) :
    (∃ s, readDirect fuel node i ⟨offset, size, data, 0⟩ = .ok s ∧
      ReadTo node i data offset.toNat size.toNat (12 * blockBytes node.reserved) s) ∨
    Stopped data offset.toNat size.toNat (readDirect fuel node i ⟨offset, size, data, 0⟩) := by
  have hbytes := hz.bytes
  have hdbp := hz.dbp
  have hstart : ReadTo node i data offset.toNat size.toNat 0 ⟨offset, size, data, 0⟩ := by
    refine ⟨?_, ?_, fun _ => rfl, ?_⟩
    · rw [Nat.zero_sub, Nat.min_zero]
      rfl
    · rw [Nat.zero_sub, Nat.min_zero, Nat.sub_zero]
    · rw [Nat.zero_sub, Nat.min_zero, patch_zero]
  unfold readDirect
  by_cases hin : offset < dbpLong node.reserved
  · have hin' : offset.toNat < 12 * blockBytes node.reserved := by
      rw [← hdbp]
      exact hin
    rw [if_pos hin]
    by_cases hwrap : offset.toNat + size.toNat < 2 ^ 64
    · obtain ⟨s, hs, hto⟩ := readRegion_step (by omega) (direct_region hz) hfuel hdbp hstart rfl
        (by omega) hwrap size.isLt
      rw [Nat.zero_add] at hto
      exact Or.inl ⟨s, hs, hto⟩
    · refine Or.inr ⟨by omega, by omega, fun s hs => ?_⟩
      exact readRegion_wrap (by omega) (direct_region (i := i) hz).count (by omega) rfl
        (by rw [hdbp]; exact Nat.le_of_lt hin') (Nat.le_of_not_lt hwrap) hs
  · have hto := readTo_skip hdbp hstart fun h => hin h.2
    rw [Nat.zero_add] at hto
    rw [if_neg hin]
    exact Or.inl ⟨_, rfl, hto⟩

theorem readSingle_step (hz : RegionSizes node.reserved) {fuel : Nat}
    (hfuel : blockPtrs node.reserved < fuel) (fresh : Fresh) (hn : n < 2 ^ 64) {s : ReadState}
    (hs : ReadTo node i data o n (12 * blockBytes node.reserved) s) :
    (∃ s', readSingle fuel fresh node i s = .ok s' ∧ ReadTo node i data o n
      (12 * blockBytes node.reserved + singleBytes node.reserved) s') ∨
    Stopped data o n (readSingle fuel fresh node i s) := by
  have hbytes := hz.bytes
  have hlt := hz.single
  have hsibp := hz.sibpLong_toNat
  unfold readSingle
  by_cases hin : s.size ≠ 0 ∧ s.offset < sibpLong node.reserved
  · rw [if_pos hin]
    have hoff := hs.offset hin.1
    have hin' : s.offset.toNat < singleBytes node.reserved := by
      rw [← hsibp]
      exact hin.2
    have hregion := single_region (i := i) hz (by omega) (fresh 3)
    have hcount := readTable_count hz (sIndirect i) (fresh 3)
    by_cases hwrap : s.offset.toNat + s.size.toNat < 2 ^ 64
    · exact Or.inl (readRegion_step (by omega) hregion (by omega) hsibp hs hoff (by omega) hwrap hn)
    · have hsize := hs.size
      have hptr := hs.ptr
      have hzero : min n (12 * blockBytes node.reserved - o) = 0 := by omega
      have hdata := hs.data
      rw [hzero, patch_zero] at hdata
      rw [hzero] at hptr
      refine Or.inr ⟨by omega, by omega, fun s' hs' => ?_⟩
      rw [← hdata]
      exact readRegion_wrap (by omega) hregion.count (by omega) (BitVec.eq_of_toNat_eq hptr)
        (by omega) (Nat.le_of_not_lt hwrap) hs'
  · rw [if_neg hin]
    exact Or.inl ⟨_, rfl, readTo_skip hsibp hs hin⟩

theorem slt_iff {a b : BitVec 32} (ha : a.toNat < 2 ^ 31) (hb : b.toNat < 2 ^ 31) :
    a.slt b = true ↔ a.toNat < b.toNat := by
  rw [BitVec.slt_iff_toInt_lt, BitVec.toInt_eq_toNat_of_lt (by omega),
    BitVec.toInt_eq_toNat_of_lt (by omega)]
  exact Int.ofNat_lt

/-- The search ends at the table with the first byte of the request, or at the end of the
one before it. -/
theorem seekSibp_spec {super : Ext2Superblock} (hz : RegionSizes super) (fuel : Nat) :
    ∀ (q : BitVec 32) (offset : BitVec 64), q.toNat ≤ blockPtrs super →
      blockPtrs super - q.toNat < fuel →
      offset.toNat ≤ (blockPtrs super - q.toNat) * singleBytes super →
      ∃ (q' : BitVec 32) (offset' : BitVec 64), seekSibp super fuel q offset = .ok (q', offset') ∧
        q'.toNat ≤ blockPtrs super ∧ offset'.toNat ≤ singleBytes super ∧
        offset.toNat + q.toNat * singleBytes super =
          offset'.toNat + q'.toNat * singleBytes super := by
  have hptrs := hz.ptrs
  have hblock := hz.block
  have hbytes := hz.bytes
  have hsibp := hz.sibpLong_toNat
  induction fuel with
  | zero =>
    intro q offset _ hfuel
    omega
  | succ fuel ih =>
    intro q offset hq hfuel hoff
    have hslt : q.slt (ptrsInBlock super) = true ↔ q.toNat < blockPtrs super := by
      rw [slt_iff (by omega) (by omega), hptrs]
    rw [seekSibp]
    by_cases hgo : q.slt (ptrsInBlock super) ∧ sibpLong super < offset
    · have hq' := hslt.mp hgo.1
      have hlt : singleBytes super < offset.toNat := by
        rw [← hsibp]
        exact hgo.2
      have hsub : (offset - sibpLong super).toNat = offset.toNat - singleBytes super := by
        rw [BitVec.toNat_sub_of_le (BitVec.le_of_lt hgo.2), hsibp]
      have hnext : (q + 1).toNat = q.toNat + 1 := by
        rw [BitVec.toNat_add]
        exact Nat.mod_eq_of_lt (show q.toNat + 1 < 2 ^ 32 by omega)
      have hsplit : blockPtrs super - q.toNat = blockPtrs super - (q + 1).toNat + 1 := by omega
      rw [hsplit, Nat.succ_mul (blockPtrs super - (q + 1).toNat)] at hoff
      obtain ⟨q', offset', hok, hle, hoff', hsum⟩ :=
        ih (q + 1) (offset - sibpLong super) (by omega) (by omega) (by omega)
      rw [if_pos hgo]
      refine ⟨q', offset', hok, hle, hoff', ?_⟩
      rw [← hsum, hsub, hnext, Nat.succ_mul q.toNat]
      omega
    · rw [if_neg hgo]
      refine ⟨q, offset, rfl, hq, ?_, rfl⟩
      by_cases hlast : q.toNat < blockPtrs super
      · rw [← hsibp]
        exact BitVec.not_lt.mp fun hlt => hgo ⟨hslt.mpr hlast, hlt⟩
      · rw [Nat.sub_eq_zero_of_le (Nat.le_of_not_lt hlast), Nat.zero_mul] at hoff
        omega

/-- One round of the loop over the tables. -/
theorem doubleLoop_next {chainFuel fuel : Nat} {dibp : Chain} {sz q block : BitVec 32}
    {sibp data' : ByteMem} {s : ReadState} (hmore : (0 : BitVec 32).slt sz = true)
    (hentry : dibp.entry q = .ok block)
    (hchain : ext2ReadBlockChain chainFuel node (readTable node block sibp) s.offset
      ((clipInt (sibpLong node.reserved) s.offset (sz.signExtend 64)).signExtend 64) s.data s.ptr =
        .ok data') :
    doubleLoop chainFuel node dibp (fuel + 1) sz q sibp s =
      doubleLoop chainFuel node dibp fuel
        (sz - clipInt (sibpLong node.reserved) s.offset (sz.signExtend 64)) (q + 1)
        (readTable node block sibp).mem
        ⟨0, s.size -
            (clipInt (sibpLong node.reserved) s.offset (sz.signExtend 64)).signExtend 64,
          data', s.ptr +
            (clipInt (sibpLong node.reserved) s.offset (sz.signExtend 64)).signExtend 64⟩ := by
  rw [doubleLoop, if_pos hmore, hentry]
  show (ext2ReadBlockChain chainFuel node (readTable node block sibp) s.offset _ s.data s.ptr >>=
    _) = _
  rw [hchain]
  rfl

/-- The loop over the tables reads the request to its end, when it lies in what the double
indirect pointer covers. -/
theorem doubleLoop_spec (hz : RegionSizes node.reserved) (hS : singleBytes node.reserved ≠ 0)
    {chainFuel : Nat} (hfuel : blockPtrs node.reserved < chainFuel) (buffer : ByteMem)
    (hn : n < 2 ^ 64) (hend : n ≤ 12 * blockBytes node.reserved +
      (blockPtrs node.reserved + 1) * singleBytes node.reserved - o) (fuel : Nat) :
    ∀ (sz q : BitVec 32) (sibp : ByteMem) (s : ReadState), q.toNat ≤ blockPtrs node.reserved →
      blockPtrs node.reserved - q.toNat < fuel → sz.toNat < 2 ^ 31 →
      ReadTo node i data o n
        (12 * blockBytes node.reserved + (q.toNat + 1) * singleBytes node.reserved)
        ⟨s.offset, sz.signExtend 64, s.data, s.ptr⟩ →
      o - (12 * blockBytes node.reserved + (q.toNat + 1) * singleBytes node.reserved) ≤
        singleBytes node.reserved →
      ∃ s', doubleLoop chainFuel node (readTable node (dIndirect i) buffer) fuel sz q sibp s =
          .ok s' ∧ s'.data = patch data 0 n fun k => (fileSource node i o k).map node.ptr := by
  have hbytes := hz.bytes
  have hblock := hz.block
  have hlt := hz.single
  have hsibp := hz.sibpLong_toNat
  induction fuel with
  | zero =>
    intro sz q sibp s _ hfuel'
    omega
  | succ fuel ih =>
    intro sz q sibp s hq hfuel' hsz hto hin
    have hsize := hto.size
    have hwide : (sz.signExtend 64).toNat = sz.toNat := signExtend_toNat hsz
    rw [hwide] at hsize
    by_cases hmore : (0 : BitVec 32).slt sz = true
    · have hpos : 0 < sz.toNat := (slt_iff (by decide) hsz).mp hmore
      -- something is left, so the table is one of those behind the pointer
      have hq' : q.toNat < blockPtrs node.reserved := by
        by_contra hge
        have hmul : (blockPtrs node.reserved + 1) * singleBytes node.reserved ≤
            (q.toNat + 1) * singleBytes node.reserved :=
          Nat.mul_le_mul_right _ (by omega)
        omega
      have hentry : (readTable node (dIndirect i) buffer).entry q =
          .ok (tableEntry (blockPos node.reserved) node (dIndirect i) q.toNat) := by
        have hcount := readTable_count hz (dIndirect i) buffer
        rw [Chain.entry, if_pos (by omega), readTable_entry hz _ _ hq']
      have hoff : s.offset.toNat =
          o - (12 * blockBytes node.reserved + (q.toNat + 1) * singleBytes node.reserved) :=
        hto.offset fun h0 => by
          rw [show sz.signExtend 64 = 0 from h0] at hwide
          change 0 = _ at hwide
          omega
      have hregion := double_region (i := i) hz hS q.toNat sibp
      have hreach : (readTable node (tableEntry (blockPos node.reserved) node (dIndirect i) q.toNat)
          sibp).count < chainFuel := by
        rw [readTable_count hz]
        exact hfuel
      obtain ⟨s', hread, hto'⟩ := readRegion_step (by omega) hregion hreach hsibp hto hoff hin
        (by show s.offset.toNat + (sz.signExtend 64).toNat < _; omega) hn
      unfold readRegion at hread
      dsimp only at hread
      obtain ⟨data', hchain, hread⟩ := bind_ok hread
      cases hread
      have hclip : (clipInt (sibpLong node.reserved) s.offset (sz.signExtend 64)).toNat =
          min sz.toNat (singleBytes node.reserved - s.offset.toNat) := by
        rw [clipInt_toNat (by omega) (by omega) (by omega), hwide, hsibp]
      rw [doubleLoop_next hmore hentry hchain]
      generalize clipInt (sibpLong node.reserved) s.offset (sz.signExtend 64) = sz2 at hclip hto' ⊢
      have hnext : (q + 1).toNat = q.toNat + 1 := by
        rw [BitVec.toNat_add]
        exact Nat.mod_eq_of_lt (show q.toNat + 1 < 2 ^ 32 by omega)
      have hsub : (sz - sz2).toNat = sz.toNat - sz2.toNat :=
        BitVec.toNat_sub_of_le (BitVec.le_def.mpr (by omega))
      have hsubwide : (sz - sz2).signExtend 64 = sz.signExtend 64 - sz2.signExtend 64 := by
        have hwide2 : (sz2.signExtend 64).toNat = sz2.toNat := signExtend_toNat (by omega)
        apply BitVec.eq_of_toNat_eq
        rw [signExtend_toNat (by omega), hsub,
          BitVec.toNat_sub_of_le (BitVec.le_def.mpr (by omega)), hwide, hwide2]
      have hbase : 12 * blockBytes node.reserved + (q.toNat + 1) * singleBytes node.reserved +
          singleBytes node.reserved = 12 * blockBytes node.reserved +
            ((q + 1).toNat + 1) * singleBytes node.reserved := by
        rw [hnext, Nat.succ_mul (q.toNat + 1), Nat.add_assoc]
      rw [hbase, ← hsubwide] at hto'
      exact ih _ _ _ _ (by omega) (by omega) (by omega) hto' (by omega)
    · have hzero : sz.toNat = 0 := by
        by_contra hne
        exact hmore ((slt_iff (by decide) hsz).mpr (Nat.pos_of_ne_zero hne))
      have hall : min n (12 * blockBytes node.reserved +
          (q.toNat + 1) * singleBytes node.reserved - o) = n := by omega
      have hdata := hto.data
      rw [hall] at hdata
      rw [doubleLoop, if_neg hmore]
      exact ⟨s, rfl, hdata⟩

theorem readDouble_eq {fuel : Nat} {fresh : Fresh} {s : ReadState} {q : BitVec 32}
    {offset : BitVec 64} (hin : s.size ≠ 0 ∧ s.offset < dibpLong node.reserved)
    (hseek : seekSibp node.reserved fuel 0 s.offset = .ok (q, offset)) :
    readDouble fuel fresh node i s =
      doubleLoop fuel node (readTable node (dIndirect i) (fresh 5)) fuel
        (clipInt ((bytesInDibp node.reserved - q * bytesInSibp node.reserved).signExtend 64) offset
          s.size) q (fresh 4) { s with offset := offset } := by
  rw [readDouble, if_pos hin, hseek]
  rfl

/-- What the double indirect region has from table `q` on. -/
theorem double_left {super : Ext2Superblock} (hz : RegionSizes super) {q : BitVec 32}
    (hq : q.toNat * singleBytes super ≤ doubleBytes super) :
    ((bytesInDibp super - q * bytesInSibp super).signExtend 64).toNat =
      doubleBytes super - q.toNat * singleBytes super := by
  have hlt := hz.double
  have hmul : (q * bytesInSibp super).toNat = q.toNat * singleBytes super := by
    rw [BitVec.toNat_mul, hz.sibp]
    exact Nat.mod_eq_of_lt (by omega)
  have hsub : (bytesInDibp super - q * bytesInSibp super).toNat =
      doubleBytes super - q.toNat * singleBytes super := by
    rw [BitVec.toNat_sub_of_le (BitVec.le_def.mpr (by rw [hmul, hz.dibp]; exact hq)), hmul,
      hz.dibp]
  rw [signExtend_toNat (by omega), hsub]

/-- A number that is negative as an `int` does not start the loop. -/
theorem not_slt_of_negative {sz : BitVec 32} (h : 2 ^ 32 ≤ (sz.signExtend 64).toNat) :
    ¬ (0 : BitVec 32).slt sz = true := by
  intro hpos
  have hsz : sz.toNat < 2 ^ 31 := by
    rw [BitVec.slt_iff_toInt_lt, BitVec.toInt_eq_toNat_cond sz] at hpos
    change (0 : Int) < _ at hpos
    split at hpos <;> omega
  rw [signExtend_toNat hsz] at h
  omega

/-- A read at byte `base` that goes on `t` bytes further, up to byte `limit` only. -/
theorem readTo_within {base t limit : Nat} {s : ReadState} {offset sz : BitVec 64}
    (hs : ReadTo node i data o n base s) (h0 : s.size ≠ 0)
    (hsum : s.offset.toNat = offset.toNat + t) (hlimit : base + s.offset.toNat ≤ limit)
    (hsz : sz.toNat = min s.size.toNat (limit - base - t - offset.toNat)) :
    ReadTo node i data o (min n (limit - o)) (base + t) ⟨offset, sz, s.data, s.ptr⟩ := by
  have hpos : s.size.toNat ≠ 0 := fun h => h0 (BitVec.eq_of_toNat_eq h)
  have hrest := hs.left.rest
  have hoff := hs.offset h0
  obtain ⟨hnext, hfurther⟩ := left_further hs.left hpos hsum
  have hwithin : base + t - o ≤ limit - o := Nat.sub_le_sub_right (by omega) o
  have hsame : min (min n (limit - o)) (base + t - o) = min n (base - o) := by
    rw [Nat.min_assoc, Nat.min_eq_right hwithin, hfurther]
  have hend : limit - base - t - offset.toNat = limit - base - (o - base) := by
    rw [← hoff, hsum, Nat.add_comm offset.toNat, ← Nat.sub_sub]
  rw [hend] at hsz
  refine ⟨?_, ?_, fun _ => hnext.start hpos, ?_⟩
  · rw [hsame]
    exact hs.ptr
  · rw [hsame, hsz, hrest, left_limit]
  · rw [hsame]
    exact hs.data

/-- Where the double indirect region is entered: at table `q`, with `offset'` bytes to go. -/
theorem double_seek {super : Ext2Superblock} (hz : RegionSizes super) {fuel : Nat}
    (hfuel : blockPtrs super < fuel) {offset : BitVec 64} (hin : offset.toNat < doubleBytes super) :
    singleBytes super ≠ 0 ∧ ∃ (q : BitVec 32) (offset' : BitVec 64),
      seekSibp super fuel 0 offset = .ok (q, offset') ∧ q.toNat ≤ blockPtrs super ∧
      offset'.toNat ≤ singleBytes super ∧
      offset.toNat = offset'.toNat + q.toNat * singleBytes super ∧
      ((bytesInDibp super - q * bytesInSibp super).signExtend 64).toNat =
        doubleBytes super - q.toNat * singleBytes super := by
  have hD : doubleBytes super = blockPtrs super * singleBytes super := doubleBytes_eq (by omega)
  have hS : singleBytes super ≠ 0 := by
    intro h0
    rw [h0, Nat.mul_zero] at hD
    omega
  obtain ⟨q, offset', hseek, hq, hle, hsum⟩ := seekSibp_spec hz fuel 0 offset
    (Nat.zero_le _) (by show blockPtrs _ - 0 < _; omega)
    (by show _ ≤ (blockPtrs _ - 0) * _; rw [Nat.sub_zero, ← hD]; omega)
  rw [show (0 : BitVec 32).toNat = 0 from rfl, Nat.zero_mul, Nat.add_zero] at hsum
  exact ⟨hS, q, offset', hseek, hq, hle, hsum,
    double_left hz (show q.toNat * singleBytes super ≤ _ by omega)⟩

/-- Table `q` behind the double indirect pointer is the one after `q` tables and the single
indirect one. -/
theorem table_base (super : Ext2Superblock) (q : Nat) :
    12 * blockBytes super + singleBytes super + q * singleBytes super =
      12 * blockBytes super + (q + 1) * singleBytes super := by
  rw [Nat.succ_mul q, Nat.add_assoc, Nat.add_comm (singleBytes _)]

theorem readDouble_step (hz : RegionSizes node.reserved) {fuel : Nat}
    (hfuel : blockPtrs node.reserved < fuel) (fresh : Fresh) (hn : n < 2 ^ 64) {s : ReadState}
    (hs : ReadTo node i data o n
      (12 * blockBytes node.reserved + singleBytes node.reserved) s) :
    (∃ s', readDouble fuel fresh node i s = .ok s' ∧
      s'.data = patch data 0 (min n (readLimit node.reserved - o)) fun k =>
        (fileSource node i o k).map node.ptr) ∨
    (2 ^ 64 ≤ o + n ∧ 2 ^ 31 < n ∧
      ∀ s', readDouble fuel fresh node i s = .ok s' → ∀ x, 2 ^ 31 ≤ x → s'.data x = data x) := by
  have hbytes := hz.bytes
  have hlt := hz.double
  have hltS := hz.single
  have hdibp : (dibpLong node.reserved).toNat = doubleBytes node.reserved := by
    rw [← hz.dibp]
    exact signExtend_toNat (by rw [hz.dibp]; exact hlt)
  by_cases hin : s.size ≠ 0 ∧ s.offset < dibpLong node.reserved
  · have hoff := hs.offset hin.1
    have hsize := hs.size
    have hptr := hs.ptr
    have hin' : s.offset.toNat < doubleBytes node.reserved := by
      rw [← hdibp]
      exact hin.2
    have hD : doubleBytes node.reserved = blockPtrs node.reserved * singleBytes node.reserved :=
      doubleBytes_eq (by omega)
    obtain ⟨hS, q, offset, hseek, hq, hleS, hsum, hleft⟩ := double_seek hz hfuel hin'
    have hbase := table_base node.reserved q.toNat
    have hlimit : readLimit node.reserved = 12 * blockBytes node.reserved +
        singleBytes node.reserved + doubleBytes node.reserved := rfl
    have hend : 12 * blockBytes node.reserved +
        (blockPtrs node.reserved + 1) * singleBytes node.reserved = readLimit node.reserved := by
      rw [← table_base, ← hD, hlimit]
    rw [readDouble_eq hin hseek]
    clear hbytes hD
    generalize (bytesInDibp node.reserved - q * bytesInSibp node.reserved).signExtend 64 = left
      at hleft ⊢
    generalize q.toNat * singleBytes node.reserved = t at hsum hbase hleft
    by_cases hwrap : offset.toNat + s.size.toNat < 2 ^ 64
    · -- from table `q` on the request is one that the loop reads
      have hclip := clipInt_toNat (show left.toNat < 2 ^ 31 by omega)
        (show offset.toNat ≤ left.toNat by omega) hwrap
      generalize clipInt left offset s.size = sz at hclip
      have hsz : (sz.signExtend 64).toNat = sz.toNat := signExtend_toNat (by omega)
      have hto := readTo_within hs hin.1 hsum
        (show _ ≤ readLimit node.reserved by omega) (hsz.trans (by omega))
      rw [hbase] at hto
      exact Or.inl (doubleLoop_spec hz hS hfuel (fresh 5) (by omega) (by omega) fuel sz q (fresh 4) _
        hq (by omega) (by omega) hto (by omega))
    · -- the size is a negative `int`, and the loop does not start
      have hclip := clipInt_wrap (show left.toNat < 2 ^ 31 by omega)
        (show offset.toNat ≤ left.toNat by omega) (Nat.le_of_not_lt hwrap)
      generalize clipInt left offset s.size = sz at hclip
      have hnot : ¬ (0 : BitVec 32).slt sz = true :=
        not_slt_of_negative (by rw [hclip]; omega)
      refine Or.inr ⟨by omega, by omega, fun s' hs' x hx => ?_⟩
      have hdata := hs.data
      rw [show min n (12 * blockBytes node.reserved + singleBytes node.reserved - o) = 0 by omega,
        patch_zero] at hdata
      cases fuel with
      | zero => cases hs'
      | succ fuel =>
        rw [doubleLoop, if_neg hnot] at hs'
        cases hs'
        rw [← hdata]
  · have hto := readTo_skip hdibp hs hin
    have hdata := hto.data
    unfold readDouble
    rw [if_neg hin]
    exact Or.inl ⟨_, rfl, hdata⟩

/-- Once nothing is left, the indirect regions change nothing. -/
theorem readSingle_done {fuel : Nat} {fresh : Fresh} {s : ReadState} (h : s.size = 0) :
    readSingle fuel fresh node i s =
      .ok { s with offset := s.offset - sibpLong node.reserved } :=
  if_neg fun hp => hp.1 h

theorem readDouble_done {fuel : Nat} {fresh : Fresh} {s : ReadState} (h : s.size = 0) :
    readDouble fuel fresh node i s =
      .ok { s with offset := s.offset - dibpLong node.reserved } :=
  if_neg fun hp => hp.1 h

/-- What `ext2_read_inode_data_ex` stores: the bytes of the request that its regions reach, or,
for a request whose end wraps in one of them, nothing from `2 ^ 31` on. -/
theorem readInodeData_cases (hz : RegionSizes node.reserved) {fuel : Nat}
    (hfuel : blockPtrs node.reserved + 12 < fuel) (fresh : Fresh) (offset size : BitVec 64) :
    ext2ReadInodeDataEx fuel fresh node i offset size =
      .ok (patch (fresh 2) 0 (min size.toNat (readLimit node.reserved - offset.toNat)) fun k =>
        (fileSource node i offset.toNat k).map node.ptr) ∨
    (2 ^ 64 ≤ offset.toNat + size.toNat ∧ 2 ^ 31 < size.toNat ∧
      ∀ data, ext2ReadInodeDataEx fuel fresh node i offset size = .ok data →
        ∀ x, 2 ^ 31 ≤ x → data x = fresh 2 x) := by
  unfold ext2ReadInodeDataEx
  have hfuelP : blockPtrs node.reserved < fuel := by omega
  have hfuel12 : 12 < fuel := by omega
  rcases readDirect_step (i := i) hz hfuel12 offset size (fresh 2) with
    ⟨s₁, hread₁, hto₁⟩ | ⟨hwrap, hlarge, hstop⟩
  · rw [hread₁]
    show (readSingle fuel fresh node i s₁ >>= _) = _ ∨
      _ ∧ _ ∧ ∀ data, (readSingle _ _ _ _ s₁ >>= _) = _ → _
    rcases readSingle_step hz hfuelP fresh size.isLt hto₁ with
      ⟨s₂, hread₂, hto₂⟩ | ⟨hwrap, hlarge, hstop⟩
    · rw [hread₂]
      show (readDouble fuel fresh node i s₂ >>= _) = _ ∨
        _ ∧ _ ∧ ∀ data, (readDouble _ _ _ _ s₂ >>= _) = _ → _
      rcases readDouble_step hz hfuelP fresh size.isLt hto₂ with
        ⟨s₃, hread₃, hdata⟩ | ⟨hwrap, hlarge, hstop⟩
      · rw [hread₃, ← hdata]
        exact Or.inl rfl
      · refine Or.inr ⟨hwrap, hlarge, fun data h => ?_⟩
        obtain ⟨s₃, hread₃, h⟩ := bind_ok h
        cases h
        exact hstop s₃ hread₃
    · refine Or.inr ⟨hwrap, hlarge, fun data h => ?_⟩
      obtain ⟨s₂, hread₂, h⟩ := bind_ok h
      obtain ⟨hsize, hkept⟩ := hstop s₂ hread₂
      rw [readDouble_done hsize] at h
      cases h
      exact hkept
  · refine Or.inr ⟨hwrap, hlarge, fun data h => ?_⟩
    obtain ⟨s₁, hread₁, h⟩ := bind_ok h
    obtain ⟨hsize, hkept⟩ := hstop s₁ hread₁
    rw [readSingle_done hsize] at h
    obtain ⟨s₂, hread₂, h⟩ := bind_ok h
    cases hread₂
    have hdone := @readDouble_done node i fuel fresh
      ⟨s₁.offset - sibpLong node.reserved, s₁.size, s₁.data, s₁.ptr⟩ hsize
    rw [hdone] at h
    cases h
    exact hkept

theorem readLimit_lt {super : Ext2Superblock} (hz : RegionSizes super) :
    readLimit super < 2 ^ 33 := by
  have hbytes := hz.bytes
  have hsingle := hz.single
  have hdouble := hz.double
  unfold readLimit
  omega

/-- A request that ends where the regions do, or before, is read to its end. -/
theorem readInodeData_whole (hz : RegionSizes node.reserved) {fuel : Nat}
    (hfuel : blockPtrs node.reserved + 12 < fuel) (fresh : Fresh) {offset size : BitVec 64}
    (hlimit : size.toNat ≤ readLimit node.reserved - offset.toNat) :
    ext2ReadInodeDataEx fuel fresh node i offset size =
      .ok (patch (fresh 2) 0 size.toNat fun k =>
        (fileSource node i offset.toNat k).map node.ptr) := by
  have hlt := readLimit_lt hz
  rcases readInodeData_cases (i := i) hz hfuel fresh offset size with hread | ⟨hwrap, -, -⟩
  · rw [hread, Nat.min_eq_left hlimit]
  · have hoff := offset.isLt
    omega

end Regions

end OS64.Fs
