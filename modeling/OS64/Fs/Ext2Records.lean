import OS64.Fs.Ext2Dir
import OS64.Fs.Ext2File

/-!
# Directories on a volume

A directory is a file whose bytes are records, one behind the other: an inode number, the
size of the record, the length of a name and the name, and bytes up to the size. A record
with the inode number 0 is deleted. `Directory` says what records a directory has, in terms
of the bytes of the file; `dirBuffer_apply` that the buffer of `ext2_read_inode_data` has
these bytes, those of them that lie in the first twelve blocks.
-/

namespace OS64.Fs

open OS64.Lib
open OS64.Lib.ByteMem

/-! ## Records -/

/-- A record of a directory. -/
structure DirRecord where
  inode : BitVec 32
  size : Nat
  name : List (BitVec 8)
  fits : 8 + name.length ≤ size

/-- A record that is not deleted. -/
def DirRecord.live (r : DirRecord) : Prop := r.inode ≠ 0

instance : DecidablePred DirRecord.live := fun r => inferInstanceAs (Decidable (r.inode ≠ 0))

/-- The record at `p`. -/
structure RecordAt (m : ByteMem) (p : Nat) (r : DirRecord) : Prop where
  inode : recInode m p = r.inode.toNat
  size : recSize m p = r.size
  name : recName m p = r.name

/-- The records from `p` to `e`, one behind the other. -/
def Stored (m : ByteMem) : Nat → List DirRecord → Nat → Prop
  | p, [], e => p = e
  | p, r :: rs, e => RecordAt m p r ∧ Stored m (p + r.size) rs e

theorem recordAt_length {m : ByteMem} {p : Nat} {r : DirRecord} (h : RecordAt m p r) :
    recLength m p = r.name.length := by
  rw [← h.name, recName, bytesAt_length]

/-- A record has at least eight bytes. -/
theorem stored_le {m : ByteMem} {rs : List DirRecord} : ∀ {p e : Nat}, Stored m p rs e →
    p + 8 * rs.length ≤ e := by
  induction rs with
  | nil =>
    intro p e h
    exact Nat.le_of_eq h
  | cons r rs ih =>
    intro p e h
    have hrest := ih h.2
    have hfits := r.fits
    rw [List.length_cons]
    omega

/-! ## Bytes of the directory -/

/-- The bytes of the directory. -/
def dirData (node : Ext2Node) (i : ByteMem) : ByteMem := fun x => node.ptr (filePos node i x)

/-- The directory behind an inode has the records `rs`. -/
structure Directory (node : Ext2Node) (i : ByteMem) (rs : List DirRecord) : Prop where
  covered : Covered node i
  stored : Stored (dirData node i) 0 rs (ext2Size i).toNat

/-- The blocks are at most 64 MiB, so that the heap of 1 GiB has room for twelve, and the first twelve
of the directory lie below 4 GiB. -/
structure DirLow (node : Ext2Node) (i : ByteMem) : Prop where
  small : node.reserved.blockSize.toNat ≤ 16
  low : ∀ j, j < 12 → j * blockBytes node.reserved < (ext2Size i).toNat →
    blockByte node.reserved (direct i j) < 2 ^ 32

section Same

variable {node : Ext2Node} {i i' : ByteMem} {rs : List DirRecord}

theorem directory_congr (h : ∀ a, a < 112 → i' a = i a)
    (hdir : Directory node i rs) : Directory node i' rs := by
  have hdata : dirData node i' = dirData node i := by
    funext x
    rw [dirData, filePos, fileBlock_congr h, dirData, filePos]
  refine ⟨fun x hx => ?_, ?_⟩
  · rw [ext2Size_congr h] at hx
    rw [filePath_congr h]
    exact hdir.covered x hx
  · rw [hdata, ext2Size_congr h]
    exact hdir.stored

theorem dirLow_congr (h : ∀ a, a < 112 → i' a = i a) (hlow : DirLow node i) : DirLow node i' := by
  refine ⟨hlow.small, fun j hj hlt => ?_⟩
  rw [ext2Size_congr h] at hlt
  rw [direct_congr h hj]
  exact hlow.low j hj hlt

/-- Of an inode below 4 GiB, the driver has the directory that is on the volume. -/
theorem directory_read (hnode : InodeNode node) (hlow : InodeLow node)
    (hdir : Directory node (nodeInode node) rs) (hblocks : DirLow node (nodeInode node))
    (fresh : Fresh) : ∃ i, ext2ReadInode fresh node = .ok i ∧
      ext2Size i = ext2Size (nodeInode node) ∧ Directory node i rs ∧ DirLow node i := by
  obtain ⟨i, hi, hsame⟩ := ext2ReadInode_low hnode hlow fresh
  exact ⟨i, hi, ext2Size_congr hsame, directory_congr hsame hdir, dirLow_congr hsame hblocks⟩

end Same

section Buffer

variable {node : Ext2Node} {i : ByteMem}

/-- Where the loop of `ext2_read_inode_data` puts a block. -/
theorem block_dst {super : Ext2Superblock} (h : 12 * blockBytes super < 2 ^ 31) {sz : Nat}
    (hsz : sz < 12) : ((BitVec.ofNat 32 sz * blksz super).signExtend 64).toNat =
      sz * blockBytes super := by
  have hblk : (blksz super).toNat = blockBytes super := blksz_toNat (by omega)
  have hle : sz * blockBytes super ≤ 12 * blockBytes super :=
    Nat.mul_le_mul_right _ (Nat.le_of_lt hsz)
  have hmul : (BitVec.ofNat 32 sz * blksz super).toNat = sz * blockBytes super := by
    rw [BitVec.toNat_mul, hblk, BitVec.toNat_ofNat, Nat.mod_eq_of_lt (show sz < 2 ^ 32 by omega)]
    exact Nat.mod_eq_of_lt (by omega)
  rw [signExtend_toNat (by omega), hmul]

/-- What the loop leaves at a byte, when the blocks up to that of the byte are there. -/
theorem inodeDataLoop_apply (h : 12 * blockBytes node.reserved < 2 ^ 31) {x : Nat}
    (hx : x / blockBytes node.reserved < 12)
    (hthere : ∀ j, j ≤ x / blockBytes node.reserved → direct i j ≠ 0) (n : Nat) :
    ∀ (sz : Nat) (data : ByteMem), sz + n = 12 →
      inodeDataLoop node i n sz data x =
        if sz ≤ x / blockBytes node.reserved then
          node.ptr (blockPos node.reserved (direct i (x / blockBytes node.reserved)) +
            x % blockBytes node.reserved)
        else data x := by
  have hpos := blockBytes_pos node.reserved
  have hmod := Nat.mod_lt x hpos
  have hdiv := Nat.div_add_mod' x (blockBytes node.reserved)
  induction n with
  | zero =>
    intro sz data hsz
    rw [if_neg (by omega)]
    rfl
  | succ n ih =>
    intro sz data hsz
    rw [inodeDataLoop]
    by_cases hnull : direct i sz = 0
    · have hlt : ¬ sz ≤ x / blockBytes node.reserved := fun hle => hthere sz hle hnull
      rw [if_pos hnull, if_neg hlt]
    · rw [if_neg hnull, ih (sz + 1) _ (by omega), block_dst h (by omega)]
      by_cases hlater : sz + 1 ≤ x / blockBytes node.reserved
      · rw [if_pos hlater, if_pos (by omega)]
      · rw [if_neg hlater]
        have hsize : (directRequest node.reserved (direct i sz)).size.toNat =
            blockBytes node.reserved := blkszLong_toNat (by omega)
        have hoff : (directRequest node.reserved (direct i sz)).offset.toNat =
            blockPos node.reserved (direct i sz) := by
          show ((direct i sz * blksz node.reserved).setWidth 64).toNat = _
          rw [BitVec.toNat_setWidth]
          exact Nat.mod_eq_of_lt (Nat.lt_trans (BitVec.isLt _) (by decide))
        by_cases hthis : sz = x / blockBytes node.reserved
        · -- the block of the byte
          have hxq : sz * blockBytes node.reserved + x % blockBytes node.reserved = x := by
            rw [hthis]
            exact hdiv
          rw [if_pos (Nat.le_of_eq hthis), vfsRead, fill_apply_in (by omega) (by omega), hoff,
            ← hthis]
          exact congrArg node.ptr (by omega)
        · have hbefore : x < sz * blockBytes node.reserved := by
            rw [← Nat.div_lt_iff_lt_mul hpos]
            omega
          rw [if_neg (by omega), vfsRead, fill_apply_out (Or.inl hbefore)]

/-- The buffer has the bytes of the directory. -/
theorem dirBuffer_apply (hcov : Covered node i) (hlow : DirLow node i) (fresh : Fresh) {x : Nat}
    (hx : x < (ext2Size i).toNat) (hx' : x < 12 * blockBytes node.reserved) :
    (dirBuffer fresh node i).data x = dirData node i x := by
  have hpos := blockBytes_pos node.reserved
  have hbytes := (region_sizes (Nat.le_succ_of_le hlow.small)).bytes
  have hblock : x / blockBytes node.reserved < 12 := (Nat.div_lt_iff_lt_mul hpos).mpr hx'
  have hbefore : ∀ j, j ≤ x / blockBytes node.reserved → j * blockBytes node.reserved ≤ x :=
    fun j hj => Nat.le_trans (Nat.mul_le_mul_right _ hj) (Nat.div_mul_le_self _ _)
  have hthere : ∀ j, j ≤ x / blockBytes node.reserved → direct i j ≠ 0 := by
    intro j hj
    have hlt : j * blockBytes node.reserved < (ext2Size i).toNat :=
      Nat.lt_of_le_of_lt (hbefore j hj) hx
    have hpath := (hcov _ hlt).2 (direct i j)
    rw [Nat.mul_div_cancel _ hpos, filePath, if_pos (by omega)] at hpath
    exact hpath (List.mem_singleton_self _)
  have hplace := blockPos_eq (hlow.low _ hblock (Nat.lt_of_le_of_lt (hbefore _ (Nat.le_refl _)) hx))
  show inodeDataLoop node i 12 0 (fresh 2) x = _
  rw [inodeDataLoop_apply hbytes hblock hthere 12 0 _ rfl, if_pos (Nat.zero_le _), hplace]
  unfold dirData filePos
  rw [fileBlock, if_pos hblock]

theorem dirBuffer_cap (hlow : DirLow node i) (fresh : Fresh) :
    (dirBuffer fresh node i).cap = 12 * blockBytes node.reserved :=
  inodeDataSize_eq (region_sizes (Nat.le_succ_of_le hlow.small)).bytes

end Buffer

/-! ## Records in the buffer -/

section Agree

variable {m m' : ByteMem}

/-- Names whose bytes agree as far as they are looked at. -/
theorem examined_congr (n : Nat) : ∀ p,
    (∀ x, p ≤ x → x < p + examined (bytesAt m p n) → m' x = m x) →
    examined (bytesAt m' p n) = examined (bytesAt m p n) ∧
      strncpyList (bytesAt m' p n) = strncpyList (bytesAt m p n) := by
  induction n with
  | zero => exact fun _ _ => ⟨rfl, rfl⟩
  | succ n ih =>
    intro p h
    rw [bytesAt, examined] at h
    rw [bytesAt, bytesAt, examined, examined, strncpyList, strncpyList, bytesAt_length,
      bytesAt_length]
    by_cases hc : m p = 0
    · rw [if_pos hc] at h
      rw [h p (Nat.le_refl p) (by omega), if_pos hc, if_pos hc, if_pos hc, if_pos hc]
      exact ⟨rfl, rfl⟩
    · rw [if_neg hc] at h
      obtain ⟨hexamined, hcopy⟩ := ih (p + 1) fun x hx hx' => h x (by omega) (by omega)
      rw [h p (Nat.le_refl p) (by omega), if_neg hc, if_neg hc, if_neg hc, if_neg hc, hexamined,
        hcopy]
      exact ⟨rfl, rfl⟩

/-- The numbers of a record depend on its first seven bytes. -/
theorem header_congr {p : Nat} (h : ∀ x, p ≤ x → x < p + 7 → m' x = m x) :
    recInode m' p = recInode m p ∧ recSize m' p = recSize m p ∧
      recLength m' p = recLength m p :=
  ⟨read_congr 4 fun x hx hx' => h x hx (by omega),
    read_congr 2 fun x hx hx' => h x (by omega) (by omega),
    read_congr 1 fun x hx hx' => h x (by omega) (by omega)⟩

theorem bytesAt_congr (n : Nat) : ∀ p, (∀ x, p ≤ x → x < p + n → m' x = m x) →
    bytesAt m' p n = bytesAt m p n := by
  induction n with
  | zero => exact fun _ _ => rfl
  | succ n ih =>
    intro p h
    rw [bytesAt, bytesAt, h p (Nat.le_refl p) (by omega),
      ih (p + 1) fun x hx hx' => h x (by omega) (by omega)]

/-- A record whose bytes are the same. -/
theorem recordAt_congr {p : Nat} {r : DirRecord} (h : RecordAt m p r)
    (hsame : ∀ x, p ≤ x → x < p + r.size → m' x = m x) : RecordAt m' p r := by
  have hfits := r.fits
  have hlength := recordAt_length h
  obtain ⟨hinode, hsize, hlength'⟩ := header_congr fun x hx hx' => hsame x hx (by omega)
  refine ⟨hinode.trans h.inode, hsize.trans h.size, ?_⟩
  rw [← h.name, recName, recName, hlength']
  exact bytesAt_congr _ _ fun x hx hx' => hsame x (by omega) (by omega)

theorem stored_congr {rs : List DirRecord} : ∀ {p e : Nat}, Stored m p rs e →
    (∀ x, p ≤ x → x < e → m' x = m x) → Stored m' p rs e := by
  induction rs with
  | nil => exact fun h _ => h
  | cons r rs ih =>
    intro p e h hsame
    have hle := stored_le h.2
    have hfits := r.fits
    exact ⟨recordAt_congr h.1 fun x hx hx' => hsame x hx (by omega),
      ih h.2 fun x hx hx' => hsame x (by omega) hx'⟩

end Agree

/-! ## A directory of one block -/

section OneBlock

variable (block : ByteMem)

theorem oneBlockDir_covered : Covered (oneBlockDir block) oneBlockInode := by
  intro x hx
  have hsize : (ext2Size oneBlockInode).toNat = 1024 := by decide
  have hdirect : direct oneBlockInode 0 = 20 := by decide
  have hzero : x / blockBytes (oneBlockDir block).reserved = 0 :=
    Nat.div_eq_of_lt (Nat.lt_of_lt_of_eq hx hsize)
  rw [hzero]
  refine ⟨Nat.lt_add_right _ (Nat.lt_add_right _ (by decide)), fun b hb => ?_⟩
  rw [List.mem_singleton.mp hb, hdirect]
  decide

/-- Its bytes are those of the block. -/
theorem oneBlockDir_data {x : Nat} (hx : x < 1024) :
    dirData (oneBlockDir block) oneBlockInode x = block x := by
  have hdirect : direct oneBlockInode 0 = 20 := by decide
  have hzero : x / blockBytes (oneBlockDir block).reserved = 0 := Nat.div_eq_of_lt hx
  have hmod : x % blockBytes (oneBlockDir block).reserved = x := Nat.mod_eq_of_lt hx
  have hpos : filePos (oneBlockDir block) oneBlockInode x = 0x5000 + x := by
    unfold filePos
    rw [hzero, hmod, fileBlock, if_pos (by decide), hdirect]
    rfl
  show (oneBlockDir block).ptr (filePos (oneBlockDir block) oneBlockInode x) = _
  rw [hpos]
  show (if 0x5000 + x = 0x808 then _ else if 0xC80 ≤ 0x5000 + x ∧ 0x5000 + x < 0xD00 then _
    else if 0x5000 ≤ 0x5000 + x then block (0x5000 + x - 0x5000) else _) = _
  rw [if_neg (by omega), if_neg (by omega), if_pos (by omega), Nat.add_sub_cancel_left]

theorem oneBlockDir_low : DirLow (oneBlockDir block) oneBlockInode := by
  refine ⟨?_, fun j _ hj => ?_⟩
  · show smallSuper.blockSize.toNat ≤ 16
    decide
  · have hsize : (ext2Size oneBlockInode).toNat = 1024 := by decide
    have hj' : j * 1024 < 1024 := Nat.lt_of_lt_of_eq hj hsize
    have hzero : j = 0 := by omega
    rw [hzero]
    show blockByte smallSuper (direct oneBlockInode 0) < 2 ^ 32
    decide

theorem oneBlockDir_directory {rs : List DirRecord} (h : Stored block 0 rs 1024) :
    Directory (oneBlockDir block) oneBlockInode rs := by
  have hsize : (ext2Size oneBlockInode).toNat = 1024 := by decide
  refine ⟨oneBlockDir_covered block, ?_⟩
  rw [hsize]
  exact stored_congr h fun x _ hx => oneBlockDir_data block hx

/-- The inode lies at 0xC80. -/
theorem oneBlockDir_inodeByte : inodeByte (oneBlockDir block) = 0xC80 := by
  have hdesc : descByte (oneBlockDir block) + 8 = 0x808 := by
    show descByte (ext2Root smallSuper fun _ => 0) + 8 = 0x808
    decide
  have htable : dword (oneBlockDir block).ptr 0x808 = 3 := by
    have h0 : (oneBlockDir block).ptr 0x808 = 3 := rfl
    have h1 : (oneBlockDir block).ptr (0x808 + 1) = 0 := rfl
    have h2 : (oneBlockDir block).ptr (0x808 + 1 + 1) = 0 := rfl
    have h3 : (oneBlockDir block).ptr (0x808 + 1 + 1 + 1) = 0 := rfl
    simp only [dword, ByteMem.read, h0, h1, h2, h3]
    rfl
  rw [inodeByte, hdesc, htable]
  rfl

theorem oneBlockDir_record : ∀ a, a < 112 → nodeInode (oneBlockDir block) a = oneBlockInode a := by
  intro a ha
  show (oneBlockDir block).ptr (inodeByte (oneBlockDir block) + a) = _
  rw [oneBlockDir_inodeByte]
  show (if 0xC80 + a = 0x808 then _ else if 0xC80 ≤ 0xC80 + a ∧ 0xC80 + a < 0xD00 then
      oneBlockInode (0xC80 + a - 0xC80) else _) = _
  rw [if_neg (by omega), if_pos (by omega), Nat.add_sub_cancel_left]

theorem oneBlockDir_node : InodeNode (oneBlockDir block) where
  group := show smallSuper.indInGrp ≠ 0 by decide
  one_le := show (1 : BitVec 64) ≤ 2 by decide
  number := show (2 : BitVec 64).toNat < 2 ^ 32 by decide
  record := show 128 ≤ recordBytes smallSuper by decide

theorem oneBlockDir_inodeLow : InodeLow (oneBlockDir block) where
  desc := show blockBytes smallSuper * (smallSuper.sblockNum.toNat + 1) < 2 ^ 32 by decide
  inode := by
    rw [oneBlockDir_inodeByte]
    decide
  record := show smallSuper.verMajor = 0 → smallSuper.inodeSize = 128 by decide

end OneBlock

end OS64.Fs
