import OS64.Fs.Ext2Pos

/-!
# Reading along a table of blocks

What one call of `ext2_read_block_chain` stores. Its loop reads a block at a time, the first
one from the offset in the block and every one for a whole block's length, so byte `k`
comes from entry `k / B` of the table, `k % B` bytes into the block, plus the offset for
the bytes of the first round. A null entry ends it, with nothing stored from there on.
`chainSource` is that position, and `readBlockChain_spec` that nothing else happens.
-/

namespace OS64.Fs

open OS64.Lib (ByteMem)
open OS64.Lib.ByteMem

/-- Where the driver takes block `block` to be. -/
def blockPos (super : Ext2Superblock) (block : BitVec 32) : Nat := (block * blksz super).toNat

theorem blockPos_lt (super : Ext2Superblock) (block : BitVec 32) :
    blockPos super block < 2 ^ 32 := BitVec.isLt _

/-- The position on the device that byte `k` of a read along the blocks `c` comes from, with
the first block read from its byte `off` on. -/
def chainSource (super : Ext2Superblock) (c : Nat → BitVec 32) (off k : Nat) : Option Nat :=
  if ∀ j, j ≤ k / blockBytes super → c j ≠ 0 then
    some (blockPos super (c (k / blockBytes super)) + (if k < blockBytes super then off else 0) +
      k % blockBytes super)
  else none

section Source

variable {super : Ext2Superblock} {c c' : Nat → BitVec 32} {off k : Nat}

/-- Only the entries up to that of the byte matter. -/
theorem chainSource_congr (h : ∀ j, j ≤ k / blockBytes super → c j = c' j) :
    chainSource super c off k = chainSource super c' off k := by
  have hiff : (∀ j, j ≤ k / blockBytes super → c j ≠ 0) ↔
      ∀ j, j ≤ k / blockBytes super → c' j ≠ 0 :=
    forall_congr' fun j => forall_congr' fun hj => by rw [h j hj]
  unfold chainSource
  rw [h _ (Nat.le_refl _)]
  exact if_congr hiff rfl rfl

theorem chainSource_null (h : c 0 = 0) : chainSource super c off k = none :=
  if_neg fun hall => hall 0 (Nat.zero_le _) h

theorem chainSource_first (h : c 0 ≠ 0) (hk : k < blockBytes super) :
    chainSource super c off k = some (blockPos super (c 0) + off + k) := by
  have hdiv : k / blockBytes super = 0 := Nat.div_eq_of_lt hk
  unfold chainSource
  rw [hdiv, if_pos, if_pos hk, Nat.mod_eq_of_lt hk]
  intro j hj
  rw [Nat.le_zero.mp hj]
  exact h

/-- The bytes behind the first block, as a read along the rest of the table. -/
theorem chainSource_rest (h : c 0 ≠ 0) (hk : blockBytes super ≤ k) :
    chainSource super c off k =
      chainSource super (fun j => c (j + 1)) 0 (k - blockBytes super) := by
  have hpos := blockBytes_pos super
  have hdiv : k / blockBytes super = (k - blockBytes super) / blockBytes super + 1 := by
    rw [← Nat.add_div_right _ hpos, Nat.sub_add_cancel hk]
  have hmod : k % blockBytes super = (k - blockBytes super) % blockBytes super := by
    rw [← Nat.add_mod_right (k - _), Nat.sub_add_cancel hk]
  have hiff : (∀ j, j ≤ k / blockBytes super → c j ≠ 0) ↔
      ∀ j, j ≤ (k - blockBytes super) / blockBytes super → c (j + 1) ≠ 0 := by
    rw [hdiv]
    constructor
    · intro hall j hj
      exact hall (j + 1) (by omega)
    · intro hall j hj
      cases j with
      | zero => exact h
      | succ j => exact hall j (by omega)
  unfold chainSource
  refine if_congr hiff ?_ rfl
  rw [hdiv, hmod, if_neg (Nat.not_lt.mpr hk), ite_self]

end Source

/-! ## The loop -/

section Loop

variable {node : Ext2Node} {chain : Chain}

theorem blkszLong_toNat {super : Ext2Superblock} (hB : blockBytes super < 2 ^ 31) :
    (blkszLong super).toNat = blockBytes super := by
  have hblk : (blksz super).toNat = blockBytes super := blksz_toNat (by omega)
  rw [blkszLong, BitVec.signExtend_eq_setWidth_of_msb_false, BitVec.toNat_setWidth, hblk]
  · exact Nat.mod_eq_of_lt (by omega)
  · rw [BitVec.msb_eq_decide, hblk]
    exact decide_eq_false (by omega)

/-- A size that fits an `int` survives it. -/
theorem signExtend_toNat {w : BitVec 32} (h : w.toNat < 2 ^ 31) :
    (w.signExtend 64).toNat = w.toNat := by
  rw [BitVec.signExtend_eq_setWidth_of_msb_false, BitVec.toNat_setWidth]
  · exact Nat.mod_eq_of_lt (by omega)
  · rw [BitVec.msb_eq_decide]
    exact decide_eq_false (by omega)

theorem setWidth_toNat {w : BitVec 64} (h : w.toNat < 2 ^ 32) :
    (w.setWidth 32).toNat = w.toNat := by
  rw [BitVec.toNat_setWidth]
  exact Nat.mod_eq_of_lt h

/-- How much one round reads. -/
theorem roundSize_toNat {super : Ext2Superblock} (hB : blockBytes super < 2 ^ 31)
    (size : BitVec 64) :
    ((if blkszLong super < size then blksz super else size.setWidth 32).signExtend 64).toNat =
      min size.toNat (blockBytes super) := by
  have hlong := blkszLong_toNat hB
  have hblk : (blksz super).toNat = blockBytes super := blksz_toNat (by omega)
  by_cases hlt : blkszLong super < size
  · have hlt' : blockBytes super < size.toNat := hlong ▸ hlt
    rw [if_pos hlt, signExtend_toNat (by omega), hblk]
    omega
  · have hle : size.toNat ≤ blockBytes super := by
      rw [← hlong]
      exact BitVec.not_lt.mp hlt
    rw [if_neg hlt, signExtend_toNat, setWidth_toNat (by omega)]
    · omega
    · rw [setWidth_toNat (by omega)]
      omega

/-- The entries of a table from the `i`-th on. -/
def Chain.blocks (chain : Chain) (i j : Nat) : BitVec 32 :=
  dword chain.mem (chain.base + 4 * (i + j))

theorem entry_eq {i : BitVec 32} (h : i.toNat < chain.count) :
    chain.entry i = .ok (chain.blocks i.toNat 0) := if_pos h

/-- What the loop stores, with as many rounds as the size needs and a table that reaches. -/
theorem blockChainLoop_spec (hB : blockBytes node.reserved < 2 ^ 31)
    (hcount : chain.count ≤ 2 ^ 31) (fuel : Nat) :
    ∀ (i : BitVec 32) (offset size : BitVec 64) (data : ByteMem) (ptr : BitVec 64),
      size.toNat + blockBytes node.reserved ≤ fuel * blockBytes node.reserved →
      size.toNat ≤ (chain.count - i.toNat) * blockBytes node.reserved →
      offset.toNat < blockBytes node.reserved → ptr.toNat + size.toNat < 2 ^ 64 →
      blockChainLoop node chain fuel i offset size data ptr =
        .ok (patch data ptr.toNat size.toNat fun k =>
          (chainSource node.reserved (chain.blocks i.toNat) offset.toNat k).map node.ptr) := by
  have hpos := blockBytes_pos node.reserved
  induction fuel with
  | zero =>
    intro i offset size data ptr hfuel
    rw [Nat.zero_mul] at hfuel
    omega
  | succ fuel ih =>
    intro i offset size data ptr hfuel hreach hoff hptr
    rw [blockChainLoop]
    by_cases h0 : size = 0
    · have hsize : size.toNat = 0 := by
        rw [h0]
        rfl
      rw [if_pos h0, hsize, patch_zero]
    have hsize : 0 < size.toNat :=
      Nat.pos_of_ne_zero fun h => h0 (BitVec.eq_of_toNat_eq (by rw [h]; rfl))
    have hi : i.toNat < chain.count := by
      by_contra hge
      rw [Nat.sub_eq_zero_of_le (Nat.le_of_not_lt hge)] at hreach
      omega
    rw [if_neg h0, entry_eq hi]
    show (if chain.blocks i.toNat 0 = 0 then _ else _) = _
    by_cases hnull : chain.blocks i.toNat 0 = 0
    · rw [if_pos hnull, patch_none]
      intro k _
      rw [chainSource_null hnull]
      rfl
    rw [if_neg hnull]
    have hround := roundSize_toNat hB size
    generalize hn : (if blkszLong node.reserved < size then blksz node.reserved
      else size.setWidth 32).signExtend 64 = n at hround ⊢
    -- the round in numbers
    have hsub : (size - n).toNat = size.toNat - n.toNat :=
      BitVec.toNat_sub_of_le (BitVec.le_def.mpr (by omega))
    have hptr' : (ptr + n).toNat = ptr.toNat + n.toNat := by
      rw [BitVec.toNat_add]
      exact Nat.mod_eq_of_lt (by omega)
    have hnext : (i + 1).toNat = i.toNat + 1 := by
      rw [BitVec.toNat_add]
      exact Nat.mod_eq_of_lt (show i.toNat + 1 < 2 ^ 32 by omega)
    have hpos' : (blockRequest node.reserved (chain.blocks i.toNat 0) offset n).offset.toNat =
        blockPos node.reserved (chain.blocks i.toNat 0) + offset.toNat := by
      have hlt := blockPos_lt node.reserved (chain.blocks i.toNat 0)
      show ((chain.blocks i.toNat 0 * blksz node.reserved).setWidth 64 + offset).toNat = _
      rw [BitVec.toNat_add, BitVec.toNat_setWidth,
        Nat.mod_eq_of_lt (Nat.lt_trans (BitVec.isLt _) (by decide))]
      exact Nat.mod_eq_of_lt (by unfold blockPos at hlt; omega)
    have hfuel' : (size - n).toNat + blockBytes node.reserved ≤
        fuel * blockBytes node.reserved := by
      rw [Nat.succ_mul] at hfuel
      have hsome : 0 < fuel := by
        by_contra h
        rw [Nat.eq_zero_of_not_pos h] at hfuel
        omega
      have hone : blockBytes node.reserved ≤ fuel * blockBytes node.reserved :=
        Nat.le_mul_of_pos_left _ hsome
      omega
    have hreach' : (size - n).toNat ≤
        (chain.count - (i + 1).toNat) * blockBytes node.reserved := by
      have hsplit : chain.count - i.toNat = chain.count - (i + 1).toNat + 1 := by omega
      rw [hsplit, Nat.succ_mul] at hreach
      omega
    rw [ih (i + 1) 0 (size - n) _ (ptr + n) hfuel' hreach' hpos (by omega), hptr', hsub, hnext,
      vfsRead, fill_eq_patch]
    show Except.ok (patch (patch data ptr.toNat n.toNat _) (ptr.toNat + n.toNat) _ _) = _
    rw [patch_append, Nat.add_sub_of_le (by omega)]
    refine congrArg Except.ok (patch_congr fun k hk => ?_)
    by_cases hkn : k < n.toNat
    · rw [if_pos hkn, chainSource_first hnull (by omega), hpos']
      rfl
    · have hnB : n.toNat = blockBytes node.reserved := by omega
      rw [if_neg hkn, chainSource_rest hnull (by omega), hnB]
      refine congrArg (Option.map node.ptr) (chainSource_congr fun j _ => ?_)
      unfold Chain.blocks
      rw [Nat.add_assoc, Nat.add_comm 1 j]

/-- Whatever the size, nothing is stored behind what the table leads to. -/
theorem blockChainLoop_frame (hB : blockBytes node.reserved < 2 ^ 31)
    (hcount : chain.count ≤ 2 ^ 31) (fuel : Nat) :
    ∀ (i : BitVec 32) (offset size : BitVec 64) (data : ByteMem) (ptr : BitVec 64),
      ptr.toNat + (chain.count - i.toNat) * blockBytes node.reserved < 2 ^ 64 →
      ∀ data', blockChainLoop node chain fuel i offset size data ptr = .ok data' →
      ∀ x, ptr.toNat + (chain.count - i.toNat) * blockBytes node.reserved ≤ x →
        data' x = data x := by
  induction fuel with
  | zero =>
    intro i offset size data ptr _ data' h
    cases h
  | succ fuel ih =>
    intro i offset size data ptr hptr data' h x hx
    rw [blockChainLoop] at h
    by_cases h0 : size = 0
    · rw [if_pos h0] at h
      cases h
      rfl
    rw [if_neg h0] at h
    by_cases hi : i.toNat < chain.count
    · rw [entry_eq hi] at h
      change (if chain.blocks i.toNat 0 = 0 then _ else _) = _ at h
      by_cases hnull : chain.blocks i.toNat 0 = 0
      · rw [if_pos hnull] at h
        cases h
        rfl
      rw [if_neg hnull] at h
      have hround := roundSize_toNat hB size
      generalize hn : (if blkszLong node.reserved < size then blksz node.reserved
        else size.setWidth 32).signExtend 64 = n at hround h
      have hnext : (i + 1).toNat = i.toNat + 1 := by
        rw [BitVec.toNat_add]
        exact Nat.mod_eq_of_lt (show i.toNat + 1 < 2 ^ 32 by omega)
      have hsplit : chain.count - i.toNat = chain.count - (i + 1).toNat + 1 := by omega
      rw [hsplit, Nat.succ_mul] at hptr hx
      have hptr' : (ptr + n).toNat = ptr.toNat + n.toNat := by
        rw [BitVec.toNat_add]
        exact Nat.mod_eq_of_lt (by omega)
      rw [ih (i + 1) 0 (size - n) _ (ptr + n) (by omega) data' h x (by omega)]
      refine fill_apply_out (Or.inr ?_)
      show ptr.toNat + n.toNat ≤ x
      omega
    · have hentry : chain.entry i = .error .outOfBounds := if_neg hi
      rw [hentry] at h
      cases h

/-- What `ext2_read_block_chain` stores of a range that the table reaches. -/
theorem readBlockChain_spec (hB : blockBytes node.reserved < 2 ^ 31)
    (hcount : chain.count * blockBytes node.reserved < 2 ^ 31) {fuel : Nat}
    (hfuel : chain.count < fuel) {offset size : BitVec 64} (data : ByteMem) {ptr : BitVec 64}
    (hreach : offset.toNat + size.toNat ≤ chain.count * blockBytes node.reserved)
    (hptr : ptr.toNat + size.toNat < 2 ^ 64) :
    ext2ReadBlockChain fuel node chain offset size data ptr =
      .ok (patch data ptr.toNat size.toNat fun k =>
        (chainSource node.reserved (chain.blocks (offset.toNat / blockBytes node.reserved))
          (offset.toNat % blockBytes node.reserved) k).map node.ptr) := by
  have hpos := blockBytes_pos node.reserved
  have hlong := blkszLong_toNat hB
  have hcount' : chain.count ≤ chain.count * blockBytes node.reserved :=
    Nat.le_mul_of_pos_right _ hpos
  have hne : blkszLong node.reserved ≠ 0 := by
    intro h0
    rw [h0] at hlong
    change 0 = _ at hlong
    omega
  have hdivle : offset.toNat / blockBytes node.reserved ≤ chain.count := by
    rw [Nat.div_le_iff_le_mul_add_pred hpos, Nat.mul_comm]
    omega
  have hdiv : ((offset / blkszLong node.reserved).setWidth 32).toNat =
      offset.toNat / blockBytes node.reserved := by
    rw [BitVec.toNat_setWidth, BitVec.toNat_udiv, hlong]
    exact Nat.mod_eq_of_lt (by omega)
  have hmod : (offset % blkszLong node.reserved).toNat =
      offset.toNat % blockBytes node.reserved := by
    rw [BitVec.toNat_umod, hlong]
  have hrest : size.toNat ≤ (chain.count - offset.toNat / blockBytes node.reserved) *
      blockBytes node.reserved := by
    rw [Nat.sub_mul]
    have := Nat.div_mul_le_self offset.toNat (blockBytes node.reserved)
    omega
  have hbound : size.toNat + blockBytes node.reserved ≤ fuel * blockBytes node.reserved := by
    have hmul : (chain.count + 1) * blockBytes node.reserved ≤ fuel * blockBytes node.reserved :=
      Nat.mul_le_mul_right _ hfuel
    rw [Nat.succ_mul] at hmul
    omega
  unfold ext2ReadBlockChain
  rw [if_neg hne, blockChainLoop_spec hB (by omega) fuel _ _ _ _ _ hbound (by rw [hdiv]; exact hrest)
    (by rw [hmod]; exact Nat.mod_lt _ hpos) hptr, hdiv, hmod]

/-- A call that returns leaves what is behind the blocks of the table alone. -/
theorem readBlockChain_frame (hB : blockBytes node.reserved < 2 ^ 31)
    (hcount : chain.count * blockBytes node.reserved < 2 ^ 31) {fuel : Nat}
    {offset size : BitVec 64} {data data' : ByteMem}
    (h : ext2ReadBlockChain fuel node chain offset size data 0 = .ok data') {x : Nat}
    (hx : 2 ^ 31 ≤ x) : data' x = data x := by
  have hcount' : chain.count ≤ chain.count * blockBytes node.reserved :=
    Nat.le_mul_of_pos_right _ (blockBytes_pos _)
  unfold ext2ReadBlockChain at h
  by_cases h0 : blkszLong node.reserved = 0
  · rw [if_pos h0] at h
    cases h
  · rw [if_neg h0] at h
    have hle : (chain.count - ((offset / blkszLong node.reserved).setWidth 32).toNat) *
        blockBytes node.reserved ≤ chain.count * blockBytes node.reserved :=
      Nat.mul_le_mul_right _ (Nat.sub_le _ _)
    have hzero : (0 : BitVec 64).toNat = 0 := rfl
    exact blockChainLoop_frame hB (by omega) fuel _ _ _ _ _ (by omega) _ h x (by omega)

end Loop

end OS64.Fs
