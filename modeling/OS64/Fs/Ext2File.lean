import OS64.Fs.Ext2Stale

/-!
# Reading a file, byte for byte

The file behind an inode, in numbers without a bound: block `j` is found through the
direct, the single and the double indirect pointers, and byte `x` lies `x % B` bytes into
block `x / B`. The inode is the one on the volume (`nodeInode`), and `ReadsFile` is that a read
returns just these bytes.

It does when the positions stay below 4 GiB (`InodeLow`, `ReadLow`), the request ends where the driver
reaches, and its first segment starts at the beginning of a block or stays in one
(`ReadFits`). A segment that starts inside a block and goes on behind it is read a whole
block at a time from there, so what is behind the first block comes from other places
(`firstPos`), and is right only if the same bytes are there.
-/

namespace OS64.Fs

open OS64.Lib (ByteMem)
open OS64.Lib.ByteMem

/-! ## The file -/

section File

variable (node : Ext2Node) (i : ByteMem)

/-- The first byte of a block. -/
def blockByte (super : Ext2Superblock) (block : BitVec 32) : Nat :=
  block.toNat * blockBytes super

/-- The tables on the way to block `j`, and the block. -/
def filePath (j : Nat) : List (BitVec 32) :=
  if j < 12 then [direct i j]
  else if j < 12 + blockPtrs node.reserved then
    [sIndirect i, fileBlock (blockByte node.reserved) node i j]
  else
    [dIndirect i,
      tableEntry (blockByte node.reserved) node (dIndirect i)
        ((j - 12 - blockPtrs node.reserved) / blockPtrs node.reserved),
      fileBlock (blockByte node.reserved) node i j]

/-- Byte `x` of the file. -/
def filePos (x : Nat) : Nat :=
  blockByte node.reserved
      (fileBlock (blockByte node.reserved) node i (x / blockBytes node.reserved)) +
    x % blockBytes node.reserved

/-- The pointers of the inode cover the whole file. -/
def Covered : Prop :=
  ∀ x, x < (ext2Size i).toNat →
    x / blockBytes node.reserved <
        12 + blockPtrs node.reserved + blockPtrs node.reserved * blockPtrs node.reserved ∧
      ∀ b ∈ filePath node i (x / blockBytes node.reserved), b ≠ 0

/-- How many bytes of a request there are. -/
def readLength (offset n : BitVec 64) : Nat :=
  min n.toNat ((ext2Size i).toNat - offset.toNat)

/-- A read that finds the inode `i` returns the bytes of its file, and changes nothing behind
them. -/
def ReadsInode (offset n : BitVec 64) : Prop :=
  ∀ (fresh : Fresh) (buffer : ByteMem), ext2ReadInode fresh node = .ok i →
    ∃ count out, Returns (fun fuel => ext2Read fuel fresh (some node) offset n buffer)
        (.ok (count, out)) ∧
      count.toNat = readLength i offset n ∧
      (∀ k, k < count.toNat → out k = node.ptr (filePos node i (offset.toNat + k))) ∧
      ∀ k, count.toNat ≤ k → out k = buffer k

/-- Where the segment with byte `x` ends. -/
def segEnd (super : Ext2Superblock) (x : Nat) : Nat :=
  if x < 12 * blockBytes super then 12 * blockBytes super
  else segBegin super x + singleBytes super

/-- Byte `k` of the first segment of a request, as the driver has it: the block that byte `k`
would be in if the segment began with a block. -/
def firstPos (o k : Nat) : Nat :=
  blockByte node.reserved (fileBlock (blockByte node.reserved) node i
      (o / blockBytes node.reserved + k / blockBytes node.reserved)) +
    (if k < blockBytes node.reserved then o % blockBytes node.reserved else 0) +
    k % blockBytes node.reserved

/-- The blocks are at most 128 MiB, the buffers of the call (`m` bytes and two tables) have 768 MiB
together, which the heap of 1 GiB gives, and the blocks on the way to `m` bytes from byte `o` on
lie below 4 GiB. -/
structure ReadLow (o m : Nat) : Prop where
  small : node.reserved.blockSize.toNat ≤ 17
  room : m + 2 * blockBytes node.reserved ≤ 0x30000000
  low : ∀ k, k < m → ∀ b ∈ filePath node i ((o + k) / blockBytes node.reserved),
    blockByte node.reserved b < 2 ^ 32

/-- The bytes are in reach, and the first segment begins with a block, stays in one block or
has the same bytes in the places that it is read from. -/
structure ReadFits (o m : Nat) : Prop where
  limit : o + m ≤ readLimit node.reserved
  first : o % blockBytes node.reserved = 0 ∨
    o % blockBytes node.reserved + min m (segEnd node.reserved o - o) ≤ blockBytes node.reserved ∨
    ∀ k, k < min m (segEnd node.reserved o - o) →
      node.ptr (firstPos node i o k) = node.ptr (filePos node i (o + k))

end File

/-- A read returns the bytes of the file behind the inode on the volume, and changes nothing behind
them. -/
def ReadsFile (node : Ext2Node) (offset n : BitVec 64) : Prop :=
  ∀ (fresh : Fresh) (buffer : ByteMem), ∃ count out,
    Returns (fun fuel => ext2Read fuel fresh (some node) offset n buffer) (.ok (count, out)) ∧
      count.toNat = readLength (nodeInode node) offset n ∧
      (∀ k, k < count.toNat →
        out k = node.ptr (filePos node (nodeInode node) (offset.toNat + k))) ∧
      ∀ k, count.toNat ≤ k → out k = buffer k

/-- Each byte is found: the driver reads it where it is, or where the same byte is. -/
def FileFound (node : Ext2Node) (i : ByteMem) (o m : Nat) : Prop :=
  o + m ≤ readLimit node.reserved ∧
    ∀ k, k < m → (fileSource node i o k).map node.ptr = some (node.ptr (filePos node i (o + k)))

/-! ## Inodes whose records are the same -/

section Same

variable {node : Ext2Node} {i i' : ByteMem}

theorem filePath_congr (h : ∀ a, a < 112 → i' a = i a) (j : Nat) :
    filePath node i' j = filePath node i j := by
  have hs : sIndirect i' = sIndirect i := dword_congr fun x _ hx => h x (by omega)
  have hd : dIndirect i' = dIndirect i := dword_congr fun x _ hx => h x (by omega)
  unfold filePath
  rw [fileBlock_congr h, hs, hd]
  by_cases hj : j < 12
  · rw [if_pos hj, if_pos hj, direct_congr h hj]
  · rw [if_neg hj, if_neg hj]

theorem filePos_congr (h : ∀ a, a < 112 → i' a = i a) (x : Nat) :
    filePos node i' x = filePos node i x := by
  rw [filePos, filePos, fileBlock_congr h]

theorem firstPos_congr (h : ∀ a, a < 112 → i' a = i a) (o k : Nat) :
    firstPos node i' o k = firstPos node i o k := by
  rw [firstPos, firstPos, fileBlock_congr h]

theorem readLength_congr (h : ∀ a, a < 112 → i' a = i a) (offset n : BitVec 64) :
    readLength i' offset n = readLength i offset n := by
  rw [readLength, readLength, ext2Size_congr h]

theorem covered_congr (h : ∀ a, a < 112 → i' a = i a) (hcov : Covered node i) : Covered node i' := by
  intro x hx
  rw [ext2Size_congr h] at hx
  rw [filePath_congr h]
  exact hcov x hx

theorem readLow_congr (h : ∀ a, a < 112 → i' a = i a) {o m : Nat} (hlow : ReadLow node i o m) :
    ReadLow node i' o m := by
  refine ⟨hlow.small, hlow.room, fun k hk => ?_⟩
  rw [filePath_congr h]
  exact hlow.low k hk

theorem readFits_congr (h : ∀ a, a < 112 → i' a = i a) {o m : Nat} (hfits : ReadFits node i o m) :
    ReadFits node i' o m := by
  refine ⟨hfits.limit, ?_⟩
  simp only [firstPos_congr h, filePos_congr h]
  exact hfits.first

end Same

/-! ## Where the driver finds it -/

section Source

variable {node : Ext2Node} {i : ByteMem} {o m k : Nat}

theorem blockPos_eq {super : Ext2Superblock} {b : BitVec 32} (h : blockByte super b < 2 ^ 32) :
    blockPos super b = blockByte super b := mul_blksz_toNat h

theorem fileBlock_mem_filePath (j : Nat) :
    fileBlock (blockByte node.reserved) node i j ∈ filePath node i j := by
  unfold filePath
  by_cases h : j < 12
  · rw [if_pos h, fileBlock, if_pos h]
    exact List.mem_singleton_self _
  · rw [if_neg h]
    by_cases hs : j < 12 + blockPtrs node.reserved
    · rw [if_pos hs]
      exact List.mem_cons_of_mem _ (List.mem_singleton_self _)
    · rw [if_neg hs]
      exact List.mem_cons_of_mem _ (List.mem_cons_of_mem _ (List.mem_singleton_self _))

/-- Below 4 GiB the driver follows the pointers of the file. -/
theorem fileBlock_low {j : Nat}
    (h : ∀ b ∈ filePath node i j, blockByte node.reserved b < 2 ^ 32) :
    fileBlock (blockPos node.reserved) node i j = fileBlock (blockByte node.reserved) node i j := by
  unfold filePath at h
  unfold fileBlock
  by_cases hd : j < 12
  · rw [if_pos hd, if_pos hd]
  · rw [if_neg hd] at h ⊢
    rw [if_neg hd]
    by_cases hs : j < 12 + blockPtrs node.reserved
    · rw [if_pos hs] at h ⊢
      rw [if_pos hs, tableEntry, tableEntry, blockPos_eq (h _ List.mem_cons_self)]
    · rw [if_neg hs] at h ⊢
      have htable := blockPos_eq (h _ (List.mem_cons_of_mem _ List.mem_cons_self))
      have hfirst : ∀ e, tableEntry (blockPos node.reserved) node (dIndirect i) e =
          tableEntry (blockByte node.reserved) node (dIndirect i) e := by
        intro e
        rw [tableEntry, tableEntry, blockPos_eq (h _ List.mem_cons_self)]
      rw [if_neg hs, hfirst]
      unfold tableEntry at htable ⊢
      rw [htable]

/-- Segments begin with blocks. -/
theorem dvd_segBegin (super : Ext2Superblock) (x : Nat) :
    blockBytes super ∣ segBegin super x := by
  unfold segBegin
  split
  · exact Nat.dvd_zero _
  · refine Nat.dvd_add (Nat.dvd_mul_left _ _) ?_
    by_cases h0 : singleBytes super = 0
    · rw [h0, Nat.zero_mul]
      exact Nat.dvd_zero _
    · rw [singleBytes_eq h0]
      exact Nat.dvd_mul_right_of_dvd (Nat.dvd_mul_left _ _) _

/-- A byte that the driver reaches lies before the end of its segment. -/
theorem lt_segEnd {super : Ext2Superblock} {x : Nat} (h : x < readLimit super) :
    x < segEnd super x := by
  unfold segEnd
  by_cases hd : x < 12 * blockBytes super
  · rw [if_pos hd]
    exact hd
  · rw [if_neg hd, segBegin, if_neg hd]
    have hS : 0 < singleBytes super := by
      by_contra h0
      have hdouble : doubleBytes super = 0 := by
        unfold doubleBytes
        split
        · rw [Nat.eq_zero_of_not_pos h0, Nat.mul_zero]
        · rfl
      unfold readLimit at h
      omega
    have hlt := Nat.lt_mul_div_succ (x - 12 * blockBytes super) hS
    rw [Nat.mul_succ] at hlt
    omega

/-- The driver starts at the first byte of the request just in the segment of that byte. -/
theorem segStart_eq_iff (hk : o + k < readLimit node.reserved) :
    segStart node.reserved o (o + k) = o ↔ o + k < segEnd node.reserved o := by
  have hlt := lt_segEnd hk
  constructor
  · intro hstart
    have hbegin : segBegin node.reserved (o + k) ≤ o := by
      unfold segStart at hstart
      omega
    have hsame := segBegin_between hbegin (Nat.le_add_right o k)
    unfold segEnd at hlt ⊢
    rw [hsame]
    by_cases hd : o < 12 * blockBytes node.reserved
    · -- a byte behind the direct blocks lies in a segment that begins behind the first one
      rw [if_pos hd]
      by_contra hge
      unfold segBegin at hbegin
      rw [if_neg (by omega)] at hbegin
      omega
    · rw [if_neg hd]
      rw [if_neg (by omega)] at hlt
      exact hlt
  · intro hend
    have hle := segBegin_le node.reserved o
    have hle' := segBegin_le node.reserved (o + k)
    unfold segStart
    unfold segEnd at hend
    by_cases hd : o < 12 * blockBytes node.reserved
    · rw [if_pos hd] at hend
      rw [segBegin_direct hend]
      omega
    · rw [if_neg hd] at hend
      by_contra hne
      have hgt : o < segBegin node.reserved (o + k) := by omega
      unfold segBegin at hgt hle' hend
      rw [if_neg (by omega)] at hgt hle' hend
      -- a later segment begins where this one ends, or behind it
      have hq : (o - 12 * blockBytes node.reserved) / singleBytes node.reserved + 1 ≤
          (o + k - 12 * blockBytes node.reserved) / singleBytes node.reserved := by
        by_contra hq
        have hmul := Nat.mul_le_mul_left (singleBytes node.reserved) (Nat.le_of_not_lt hq)
        have hdiv := Nat.mul_div_le (o - 12 * blockBytes node.reserved) (singleBytes node.reserved)
        omega
      have hmul := Nat.mul_le_mul_left (singleBytes node.reserved) hq
      rw [Nat.mul_succ] at hmul
      omega

/-- A byte in another segment than the first one is read where it is. -/
theorem segStart_whole (h : segStart node.reserved o (o + k) ≠ o) :
    segStart node.reserved o (o + k) % blockBytes node.reserved = 0 := by
  have hstart : segStart node.reserved o (o + k) = segBegin node.reserved (o + k) := by
    unfold segStart at h ⊢
    omega
  rw [hstart]
  exact Nat.mod_eq_zero_of_dvd (dvd_segBegin _ _)

/-- The blocks between that of the request's first byte and that of one of its bytes are
blocks of its bytes. -/
theorem block_of_byte {j : Nat} (hj : o / blockBytes node.reserved ≤ j)
    (hj' : j ≤ (o + k) / blockBytes node.reserved) :
    ∃ k', k' ≤ k ∧ (o + k') / blockBytes node.reserved = j := by
  have hpos := blockBytes_pos node.reserved
  have hle : j * blockBytes node.reserved ≤ o + k :=
    Nat.le_trans (Nat.mul_le_mul_right _ hj') (Nat.div_mul_le_self _ _)
  by_cases hfirst : j * blockBytes node.reserved ≤ o
  · refine ⟨0, Nat.zero_le _, Nat.le_antisymm hj ?_⟩
    rw [Nat.add_zero]
    exact (Nat.le_div_iff_mul_le hpos).mpr hfirst
  · refine ⟨j * blockBytes node.reserved - o, by omega, ?_⟩
    rw [Nat.add_sub_of_le (by omega), Nat.mul_div_cancel _ hpos]

/-- Where the bytes of a request below 4 GiB come from. -/
theorem fileSource_low (hlow : ReadLow node i o m)
    (hthere : ∀ k, k < m → ∀ b ∈ filePath node i ((o + k) / blockBytes node.reserved), b ≠ 0)
    (hk : k < m) :
    fileSource node i o k = some (if segStart node.reserved o (o + k) = o then firstPos node i o k
      else filePos node i (o + k)) := by
  have hpos := blockBytes_pos node.reserved
  obtain ⟨hge, hx⟩ := segStart_le node.reserved o k
  -- the pointers that are looked up are those of the file
  have hblock : ∀ j, o / blockBytes node.reserved ≤ j → j ≤ (o + k) / blockBytes node.reserved →
      fileBlock (blockPos node.reserved) node i j =
          fileBlock (blockByte node.reserved) node i j ∧
        blockPos node.reserved (fileBlock (blockByte node.reserved) node i j) =
          blockByte node.reserved (fileBlock (blockByte node.reserved) node i j) ∧
        fileBlock (blockByte node.reserved) node i j ≠ 0 := by
    intro j hj hj'
    obtain ⟨k', hk', hjk⟩ := block_of_byte hj hj'
    have hsmall := hlow.low k' (by omega)
    have hne := hthere k' (by omega)
    rw [hjk] at hsmall hne
    exact ⟨fileBlock_low hsmall, blockPos_eq (hsmall _ (fileBlock_mem_filePath j)),
      hne _ (fileBlock_mem_filePath j)⟩
  have hwhole : segStart node.reserved o (o + k) ≠ o →
      segStart node.reserved o (o + k) % blockBytes node.reserved = 0 := segStart_whole
  generalize hb : segStart node.reserved o (o + k) = b at hge hx hwhole
  have hsum : b / blockBytes node.reserved + (o + k - b) / blockBytes node.reserved ≤
      (o + k) / blockBytes node.reserved := by
    rw [Nat.le_div_iff_mul_le hpos, Nat.add_mul]
    have hfirst := Nat.div_mul_le_self b (blockBytes node.reserved)
    have hrest := Nat.div_mul_le_self (o + k - b) (blockBytes node.reserved)
    omega
  have hdivb : o / blockBytes node.reserved ≤ b / blockBytes node.reserved :=
    Nat.div_le_div_right hge
  have hall : ∀ j, j ≤ (o + k - b) / blockBytes node.reserved →
      fileBlock (blockPos node.reserved) node i (b / blockBytes node.reserved + j) ≠ 0 := by
    intro j hj
    obtain ⟨hsame, -, hne⟩ := hblock (b / blockBytes node.reserved + j) (by omega) (by omega)
    rw [hsame]
    exact hne
  obtain ⟨hsame, hplace, -⟩ := hblock (b / blockBytes node.reserved +
    (o + k - b) / blockBytes node.reserved) (Nat.le_trans hdivb (Nat.le_add_right _ _)) hsum
  unfold fileSource
  rw [hb, chainSource, if_pos hall, hsame, hplace]
  refine congrArg some ?_
  by_cases hfirst : b = o
  · rw [if_pos hfirst, hfirst, Nat.add_sub_cancel_left]
    rfl
  · -- the segment is read from the beginning of a block on
    obtain ⟨q, hq⟩ := Nat.dvd_of_mod_eq_zero (hwhole hfirst)
    have hdiv : (o + k) / blockBytes node.reserved =
        b / blockBytes node.reserved + (o + k - b) / blockBytes node.reserved := by
      rw [← Nat.add_sub_of_le hx, hq, Nat.mul_add_div hpos, Nat.mul_div_cancel_left _ hpos,
        Nat.add_sub_cancel_left]
    have hmod : (o + k) % blockBytes node.reserved = (o + k - b) % blockBytes node.reserved := by
      rw [← Nat.add_sub_of_le hx, hq, Nat.mul_add_mod, Nat.add_sub_cancel_left]
    rw [if_neg hfirst, hwhole hfirst, ite_self, Nat.add_zero]
    unfold filePos
    rw [hdiv, hmod]

/-- A first segment that begins with a block, or stays in one, is read where it is. -/
theorem firstPos_exact (h : o % blockBytes node.reserved = 0 ∨
    o % blockBytes node.reserved + k < blockBytes node.reserved) :
    firstPos node i o k = filePos node i (o + k) := by
  have hpos := blockBytes_pos node.reserved
  unfold firstPos filePos
  rcases h with hwhole | hin
  · obtain ⟨q, hq⟩ := Nat.dvd_of_mod_eq_zero hwhole
    rw [hwhole, ite_self, Nat.add_zero, hq, Nat.mul_add_div hpos, Nat.mul_add_mod,
      Nat.mul_div_cancel_left _ hpos]
  · have hdiv : (o + k) / blockBytes node.reserved = o / blockBytes node.reserved := by
      rw [← Nat.div_add_mod o (blockBytes node.reserved), Nat.add_assoc, Nat.mul_add_div hpos,
        Nat.mul_add_div hpos, Nat.div_eq_of_lt hin,
        Nat.div_eq_of_lt (Nat.mod_lt _ hpos)]
    have hmod : (o + k) % blockBytes node.reserved = o % blockBytes node.reserved + k := by
      rw [← Nat.mod_add_mod, Nat.mod_eq_of_lt hin]
    have hkB : k < blockBytes node.reserved := by omega
    rw [hdiv, hmod, Nat.div_eq_of_lt hkB, if_pos hkB, Nat.mod_eq_of_lt hkB, Nat.add_zero,
      Nat.add_assoc]

/-- Below 4 GiB, the bytes of a request are found just when it fits. -/
theorem found_iff_fits (hlow : ReadLow node i o m)
    (hthere : ∀ k, k < m → ∀ b ∈ filePath node i ((o + k) / blockBytes node.reserved), b ≠ 0) :
    FileFound node i o m ↔ ReadFits node i o m := by
  constructor
  · intro h
    refine ⟨h.1, Or.inr (Or.inr fun k hk => ?_)⟩
    have hbyte := h.2 k (by omega)
    have hlimit := h.1
    rw [fileSource_low hlow hthere (by omega),
      if_pos ((segStart_eq_iff (by omega)).mpr (by omega))] at hbyte
    exact Option.some.inj hbyte
  · intro h
    have hlimit := h.limit
    refine ⟨hlimit, fun k hk => ?_⟩
    rw [fileSource_low hlow hthere hk]
    refine congrArg some ?_
    by_cases hstart : segStart node.reserved o (o + k) = o
    · have hend := (segStart_eq_iff (by omega)).mp hstart
      rw [if_pos hstart]
      rcases h.first with hwhole | hin | hsame
      · rw [firstPos_exact (Or.inl hwhole)]
      · rw [firstPos_exact (Or.inr (by omega))]
      · exact hsame k (by omega)
    · rw [if_neg hstart]

end Source

/-! ## The call -/

section Call

variable {node : Ext2Node} {i : ByteMem} {offset n : BitVec 64}

/-- What is left of the file, or all of a shorter request. -/
theorem readCount_toNat (hoff : offset ≤ ext2Size i) (hn : offset.toNat + n.toNat < 2 ^ 64) :
    (readCount i offset n).toNat = readLength i offset n := by
  have hadd : (offset + n).toNat = offset.toNat + n.toNat := by
    rw [BitVec.toNat_add]
    exact Nat.mod_eq_of_lt hn
  unfold readCount readLength
  by_cases hlt : ext2Size i < offset + n
  · rw [if_pos hlt, BitVec.toNat_sub_of_le hoff]
    rw [BitVec.lt_def, hadd] at hlt
    omega
  · rw [if_neg hlt]
    rw [BitVec.lt_def, hadd] at hlt
    omega

/-- A read of nothing reads nothing, whatever the volume. -/
theorem readInodeData_empty {fuel : Nat} (hfuel : 0 < fuel) (fresh : Fresh) :
    ext2ReadInodeDataEx fuel fresh node i offset 0 = .ok (fresh 2) := by
  have hdirect : ∃ s, readDirect fuel node i ⟨offset, 0, fresh 2, 0⟩ = .ok s ∧ s.size = 0 ∧
      s.data = fresh 2 := by
    unfold readDirect
    by_cases hin : offset < dbpLong node.reserved
    · have hclip : (clipInt (dbpLong node.reserved) offset 0).signExtend 64 = 0 := by
        have hnot : ¬ dbpLong node.reserved < offset + 0#64 := by
          rw [BitVec.add_zero]
          exact BitVec.not_lt.mpr (BitVec.le_of_lt hin)
        rw [clipInt]
        change (BitVec.setWidth 32 (if dbpLong node.reserved < offset + 0#64 then _ else _)).signExtend
          64 = _
        rw [if_neg hnot]
        rfl
      have hchain : ext2ReadBlockChain fuel node ⟨i, 40, 12⟩ offset
          ((clipInt (dbpLong node.reserved) offset 0).signExtend 64) (fresh 2) 0 =
          .ok (fresh 2) := by
        rw [hclip, ext2ReadBlockChain, if_neg (blkszLong_of_direct hin)]
        cases fuel with
        | zero => omega
        | succ fuel => exact if_pos rfl
      rw [if_pos hin]
      refine ⟨_, readRegion_eq node _ fuel _ ⟨offset, 0, fresh 2, 0⟩ hchain, ?_, rfl⟩
      dsimp only
      rw [hclip]
      rfl
    · rw [if_neg hin]
      exact ⟨_, rfl, rfl, rfl⟩
  obtain ⟨s, hread, hsize, hdata⟩ := hdirect
  unfold ext2ReadInodeDataEx
  rw [hread]
  show (readSingle fuel fresh node i s >>= _) = _
  rw [readSingle_done hsize]
  show (readDouble fuel fresh node i ⟨_, s.size, _, _⟩ >>= _) = _
  rw [hsize, readDouble_done rfl, ← hdata]
  rfl

/-- What a call returns whose data is as it should be. -/
theorem returns_of_data {data : ByteMem} {fresh : Fresh} (buffer : ByteMem)
    (hi : ext2ReadInode fresh node = .ok i) (hoff : offset ≤ ext2Size i) {bound : Nat}
    (hdata : ∀ fuel, bound ≤ fuel →
      ext2ReadInodeDataEx fuel fresh node i offset (readCount i offset n) = .ok data) :
    Returns (fun fuel => ext2Read fuel fresh (some node) offset n buffer)
      (.ok (readCount i offset n, buffer.fill 0 data 0 (readCount i offset n).toNat)) :=
  ⟨bound, fun fuel hfuel => ext2Read_eq hi hoff (hdata fuel hfuel)⟩

/-- A read of nothing returns nothing. -/
theorem readsInode_empty (hoff : offset ≤ ext2Size i) (hn : offset.toNat + n.toNat < 2 ^ 64)
    (h0 : readCount i offset n = 0) : ReadsInode node i offset n := by
  have hcount := readCount_toNat hoff hn
  have hzero : (readCount i offset n).toNat = 0 := congrArg BitVec.toNat h0
  intro fresh buffer hi
  have hdata : ∀ fuel, 1 ≤ fuel →
      ext2ReadInodeDataEx fuel fresh node i offset (readCount i offset n) = .ok (fresh 2) := by
    intro fuel hfuel
    rw [h0]
    exact readInodeData_empty hfuel fresh
  refine ⟨_, _, returns_of_data buffer hi hoff hdata, hcount, ?_, ?_⟩
  · intro k hk
    omega
  · intro k hk
    exact fill_apply_out (Or.inr (by omega))

/-- A read whose bytes are found returns them. -/
theorem readsInode_of_found (hblock : node.reserved.blockSize.toNat ≤ 17)
    (hoff : offset ≤ ext2Size i) (hn : offset.toNat + n.toNat < 2 ^ 64)
    (h : FileFound node i offset.toNat (readCount i offset n).toNat) :
    ReadsInode node i offset n := by
  have hcount := readCount_toNat hoff hn
  have hz := region_sizes hblock
  have hlimit := h.1
  intro fresh buffer hi
  have hdata : ∀ fuel, blockPtrs node.reserved + 13 ≤ fuel →
      ext2ReadInodeDataEx fuel fresh node i offset (readCount i offset n) =
        .ok (patch (fresh 2) 0 (readCount i offset n).toNat fun k =>
          (fileSource node i offset.toNat k).map node.ptr) := by
    intro fuel hfuel
    exact readInodeData_whole hz hfuel fresh (by omega)
  refine ⟨_, _, returns_of_data buffer hi hoff hdata, hcount, ?_, ?_⟩
  · intro k hk
    rw [fill_apply_in (Nat.zero_le k) (by omega), Nat.zero_add, Nat.sub_zero,
      patch_apply_zero _ _ hk, h.2 k hk]
    rfl
  · intro k hk
    exact fill_apply_out (Or.inr (by omega))

/-- A read that returns the file has found its bytes. -/
theorem found_of_readsInode (hblock : node.reserved.blockSize.toNat ≤ 17)
    (hread : ∃ fresh, ext2ReadInode fresh node = .ok i) (hoff : offset ≤ ext2Size i)
    (hn : offset.toNat + n.toNat < 2 ^ 64) (h : ReadsInode node i offset n) :
    (readCount i offset n).toNat = 0 ∨
      FileFound node i offset.toNat (readCount i offset n).toNat := by
  have hz := region_sizes hblock
  have hcount := readCount_toNat hoff hn
  -- the file does not depend on the heap
  have hfree : StaleFree node i offset n := by
    refine ⟨readCount i offset n, fun k => node.ptr (filePos node i (offset.toNat + k)),
      fun fresh buffer hi => ?_⟩
    obtain ⟨count, out, hret, hnum, hbytes, -⟩ := h fresh buffer hi
    have hsame : count = readCount i offset n := BitVec.eq_of_toNat_eq (hnum.trans hcount.symm)
    rw [hsame] at hret hbytes
    exact ⟨out, hret, hbytes⟩
  rcases meets_of_staleFree hz hoff hread hfree with h0 | ⟨hlimit, hthere⟩
  · exact Or.inl (congrArg BitVec.toNat h0)
  refine Or.inr ⟨hlimit, fun k hk => ?_⟩
  obtain ⟨fresh, hi⟩ := hread
  obtain ⟨count, out, ⟨bound, hret⟩, hnum, hbytes, -⟩ := h fresh (fun _ => 0) hi
  have hfuel : bound ≤ bound + (blockPtrs node.reserved + 13) := Nat.le_add_right _ _
  obtain ⟨data, hdata, hsame, hfill⟩ := ext2Read_data hi hoff (hret _ hfuel)
  rw [readInodeData_whole hz (by omega) fresh (by omega)] at hdata
  cases hdata
  have hk' : k < count.toNat := by
    rw [hsame]
    exact hk
  have hbyte := hbytes k hk'
  rw [hfill, fill_apply_in (Nat.zero_le k) (by omega), Nat.zero_add, Nat.sub_zero,
    patch_apply_zero _ _ hk] at hbyte
  obtain ⟨p, hp⟩ := Option.ne_none_iff_exists'.mp (fileSource_ne_none.mpr hthere k hk)
  rw [hp] at hbyte ⊢
  exact congrArg some hbyte

/-- A read that finds the inode `i`: one of nothing, and one that fits, return the file. Below
4 GiB no other one does. -/
theorem readsInode_iff (hcov : Covered node i) (hoff : offset ≤ ext2Size i)
    (hn : offset.toNat + n.toNat < 2 ^ 64) :
    (readLength i offset n = 0 ∨
        ReadLow node i offset.toNat (readLength i offset n) ∧
          ReadFits node i offset.toNat (readLength i offset n) →
      ReadsInode node i offset n) ∧
    (ReadLow node i offset.toNat (readLength i offset n) →
      (∃ fresh, ext2ReadInode fresh node = .ok i) → ReadsInode node i offset n →
      readLength i offset n = 0 ∨ ReadFits node i offset.toNat (readLength i offset n)) := by
  have hcount := readCount_toNat hoff hn
  have hthere : ∀ k, k < readLength i offset n →
      ∀ b ∈ filePath node i ((offset.toNat + k) / blockBytes node.reserved), b ≠ 0 :=
    fun k hk => (hcov _ (by unfold readLength at hk; omega)).2
  constructor
  · intro h
    rcases h with h0 | ⟨hlow, hfits⟩
    · exact readsInode_empty hoff hn (BitVec.eq_of_toNat_eq (hcount.trans h0))
    · refine readsInode_of_found hlow.small hoff hn ?_
      rw [hcount]
      exact (found_iff_fits hlow hthere).mpr hfits
  · intro hlow hread h
    have hfound := found_of_readsInode hlow.small hread hoff hn h
    rw [hcount] at hfound
    rcases hfound with h0 | hfound
    · exact Or.inl h0
    · exact Or.inr ((found_iff_fits hlow hthere).mp hfound)

/-- Where the driver finds the inode of the volume, it is that one's file that it reads. -/
theorem readsFile_iff (hnode : InodeNode node) (hlow : InodeLow node) :
    ReadsFile node offset n ↔
      ∀ i, (∃ fresh, ext2ReadInode fresh node = .ok i) → ReadsInode node i offset n := by
  have hsame {fresh : Fresh} {i : ByteMem} (hi : ext2ReadInode fresh node = .ok i) :
      ∀ a, a < 112 → i a = nodeInode node a := by
    obtain ⟨i', hi', hbytes⟩ := ext2ReadInode_low hnode hlow fresh
    rw [hi'] at hi
    cases hi
    exact hbytes
  constructor
  · intro h i _ fresh buffer hi
    obtain ⟨count, out, hret, hnum, hbytes, hrest⟩ := h fresh buffer
    refine ⟨count, out, hret, ?_, fun k hk => ?_, hrest⟩
    · rw [readLength_congr (hsame hi)]
      exact hnum
    · rw [filePos_congr (hsame hi)]
      exact hbytes k hk
  · intro h fresh buffer
    obtain ⟨i, hi, hbytes⟩ := ext2ReadInode_low hnode hlow fresh
    obtain ⟨count, out, hret, hnum, hout, hrest⟩ := h i ⟨fresh, hi⟩ fresh buffer hi
    refine ⟨count, out, hret, ?_, fun k hk => ?_, hrest⟩
    · rw [← readLength_congr hbytes]
      exact hnum
    · rw [← filePos_congr hbytes]
      exact hout k hk

/-- Of an inode below 4 GiB a read of nothing, and one that fits, return the file; and of the
requests below 4 GiB no other one does. -/
theorem read_returns_file (hnode : InodeNode node) (hcov : Covered node (nodeInode node))
    (hoff : offset ≤ ext2Size (nodeInode node)) (hn : offset.toNat + n.toNat < 2 ^ 64) :
    (InodeLow node ∧ (readLength (nodeInode node) offset n = 0 ∨
        ReadLow node (nodeInode node) offset.toNat (readLength (nodeInode node) offset n) ∧
          ReadFits node (nodeInode node) offset.toNat (readLength (nodeInode node) offset n)) →
      ReadsFile node offset n) ∧
    (InodeLow node →
      ReadLow node (nodeInode node) offset.toNat (readLength (nodeInode node) offset n) →
      ReadsFile node offset n → readLength (nodeInode node) offset n = 0 ∨
        ReadFits node (nodeInode node) offset.toNat (readLength (nodeInode node) offset n)) := by
  constructor
  · intro h
    obtain ⟨hlow, hmeets⟩ := h
    refine (readsFile_iff hnode hlow).mpr fun i hread => ?_
    obtain ⟨fresh, hi⟩ := hread
    obtain ⟨i', hi', hsame⟩ := ext2ReadInode_low hnode hlow fresh
    rw [hi'] at hi
    cases hi
    refine (readsInode_iff (covered_congr hsame hcov) (by rw [ext2Size_congr hsame]; exact hoff) hn).1 ?_
    rw [readLength_congr hsame]
    exact hmeets.imp_right fun hfit => ⟨readLow_congr hsame hfit.1, readFits_congr hsame hfit.2⟩
  · intro hlow hblocks h
    obtain ⟨i, hi, hsame⟩ := ext2ReadInode_low hnode hlow fun _ _ => 0
    have hback : ∀ a, a < 112 → nodeInode node a = i a := fun a ha => (hsame a ha).symm
    have hfits := (readsInode_iff (covered_congr hsame hcov)
      (by rw [ext2Size_congr hsame]; exact hoff) hn).2
    rw [readLength_congr hsame] at hfits
    have hreads := (readsFile_iff hnode hlow).mp h i ⟨_, hi⟩
    exact (hfits (readLow_congr hsame hblocks) ⟨_, hi⟩ hreads).imp_right (readFits_congr hback)

end Call

/-- An inode of 2 KiB with the blocks 20 and 10. -/
def twoBlockInode : ByteMem := fun a =>
  if a = 5 then 8 else if a = 40 then 20 else if a = 44 then 10 else 0

/-- Inode 12 of a volume with blocks of 1 KiB, of which the tenth is full of sevens. -/
def twoBlockFile : Ext2Node :=
  { ext2Root ⟨16, 64, 1, 0, 16, 0xEF53, 1, 128⟩ fun a =>
      if a = 0x808 then 3 else if a / 1024 = 10 then 7
      else if 0x1180 ≤ a then twoBlockInode (a - 0x1180) else 0 with inode := 12 }

theorem twoBlockFile_inode : ∃ fresh, ext2ReadInode fresh twoBlockFile = .ok twoBlockInode := by
  refine ⟨fun _ _ => 0, ?_⟩
  rw [ext2ReadInode_eq _ (by decide)]
  have hoff : (inodeRequests twoBlockFile).2.offset.toNat = 0x1180 := by decide +kernel
  have hsize : (inodeRequests twoBlockFile).2.size.toNat = 128 := by decide
  refine congrArg Except.ok (vfsRead_eq hoff hsize (fun a ha => ?_) fun a ha => ?_)
  · show (if 0x1180 + a = 0x808 then _ else if (0x1180 + a) / 1024 = 10 then _
      else if 0x1180 ≤ 0x1180 + a then twoBlockInode (0x1180 + a - 0x1180) else 0) = _
    rw [if_neg (by omega), if_neg (by omega), if_pos (by omega), Nat.add_sub_cancel_left]
  · rw [twoBlockInode, if_neg (by omega), if_neg (by omega), if_neg (by omega)]

theorem twoBlockFile_covered : Covered twoBlockFile twoBlockInode := by
  intro x hx
  have hsize : (ext2Size twoBlockInode).toNat = 2048 := by decide
  have hblock : blockBytes twoBlockFile.reserved = 1024 := rfl
  rw [hblock]
  have htwo : x / 1024 = 0 ∨ x / 1024 = 1 := by omega
  rcases htwo with h | h
  · rw [h]
    refine ⟨by decide, fun b hb => ?_⟩
    rw [List.mem_singleton.mp hb]
    decide
  · rw [h]
    refine ⟨by decide, fun b hb => ?_⟩
    rw [List.mem_singleton.mp hb]
    decide

/-- What the driver reads of the inode is what the volume has. -/
theorem twoBlockFile_record : ∀ a, a < 112 → nodeInode twoBlockFile a = twoBlockInode a := by
  intro a ha
  have hbyte : inodeByte twoBlockFile = 0x1180 := by decide +kernel
  show (if inodeByte twoBlockFile + a = 0x808 then _ else if (inodeByte twoBlockFile + a) / 1024 = 10
    then _ else if 0x1180 ≤ inodeByte twoBlockFile + a then
      twoBlockInode (inodeByte twoBlockFile + a - 0x1180) else 0) = _
  rw [hbyte, if_neg (by omega), if_neg (by omega), if_pos (by omega), Nat.add_sub_cancel_left]

theorem twoBlockFile_node : InodeNode twoBlockFile :=
  ⟨by decide, by decide, by decide, by decide⟩

theorem twoBlockFile_low : InodeLow twoBlockFile :=
  ⟨by decide, by decide +kernel, by decide⟩

theorem twoBlockFile_readLow {o m : Nat} (h : o + m ≤ 2048) :
    ReadLow twoBlockFile twoBlockInode o m := by
  have hblock : blockBytes twoBlockFile.reserved = 1024 := rfl
  refine ⟨by decide, by omega, fun k hk => ?_⟩
  rw [hblock]
  have htwo : (o + k) / 1024 = 0 ∨ (o + k) / 1024 = 1 := by omega
  rcases htwo with h0 | h1
  · rw [h0]
    intro b hb
    rw [List.mem_singleton.mp hb]
    decide
  · rw [h1]
    intro b hb
    rw [List.mem_singleton.mp hb]
    decide

/-- The second block, read by itself, is the second KiB of the file. -/
theorem read_returns_second_block : ReadsFile twoBlockFile 1024 1024 := by
  have hlength : readLength (nodeInode twoBlockFile) 1024 1024 = 1024 := by
    rw [readLength_congr twoBlockFile_record]
    decide +kernel
  refine (read_returns_file twoBlockFile_node
    (covered_congr twoBlockFile_record twoBlockFile_covered)
    (by rw [ext2Size_congr twoBlockFile_record]; decide +kernel) (by decide)).1
      ⟨twoBlockFile_low, Or.inr ?_⟩
  rw [hlength]
  exact ⟨readLow_congr twoBlockFile_record (twoBlockFile_readLow (by decide)),
    readFits_congr twoBlockFile_record ⟨by decide, Or.inl (by decide)⟩⟩

/-- 1 KiB from byte 1 on: the last byte is the first seven, and comes from block 21. -/
theorem unaligned_read_shifts :
    InodeNode twoBlockFile ∧ Covered twoBlockFile (nodeInode twoBlockFile) ∧
      ¬ ReadsFile twoBlockFile 1 1024 := by
  refine ⟨twoBlockFile_node, covered_congr twoBlockFile_record twoBlockFile_covered, fun h => ?_⟩
  have hread := (readsFile_iff twoBlockFile_node twoBlockFile_low).mp h _ twoBlockFile_inode
  have hfound := found_of_readsInode (by decide) twoBlockFile_inode (by decide +kernel) (by decide)
    hread
  rcases hfound with h0 | hfound
  · exact absurd h0 (by decide +kernel)
  · have hbyte := hfound.2 1023 (by decide +kernel)
    exact absurd hbyte (by decide +kernel)

end OS64.Fs
