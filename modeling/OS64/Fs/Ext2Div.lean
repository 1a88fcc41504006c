import OS64.Fs.Ext2Pos

/-!
# Divisors

`ext2_init` accepts every device with the magic number in the right place. The number of
inodes in a group, by which every later call divides, is taken as it is; the block size is
an `int`, and a shift of 22 to 31 makes it 0. The block size divides only in
`ext2_read_block_chain`, and a block size of 0 makes all three regions of a file empty, so
that nothing calls it. What is left is the group size: `never_divides_iff`.
-/

namespace OS64.Fs

open OS64.Lib (ByteMem)

/-- The call does not stop at a division by zero. -/
def NoDivide {α : Type} (x : Exec α) : Prop := x ≠ .error .divideError

theorem noDivide_ok {α : Type} (a : α) : NoDivide (.ok a : Exec α) := by
  intro h
  cases h

theorem noDivide_running {α : Type} : NoDivide (.error .running : Exec α) := by
  intro h
  cases h

theorem noDivide_bind {α β : Type} {x : Exec α} {f : α → Exec β} (hx : NoDivide x)
    (hf : ∀ a, x = .ok a → NoDivide (f a)) : NoDivide (x >>= f) := by
  cases x with
  | error e => exact fun h => hx (by cases h; rfl)
  | ok a => exact hf a rfl

/-! ## Tables and blocks -/

theorem entry_noDivide (chain : Chain) (i : BitVec 32) : NoDivide (chain.entry i) := by
  unfold Chain.entry
  split
  · exact noDivide_ok _
  · intro h
    cases h

theorem blockChainLoop_noDivide (node : Ext2Node) (chain : Chain) (fuel : Nat) :
    ∀ i offset size data ptr, NoDivide (blockChainLoop node chain fuel i offset size data ptr) := by
  induction fuel with
  | zero => exact fun _ _ _ _ _ => noDivide_running
  | succ fuel ih =>
    intro i offset size data ptr
    rw [blockChainLoop]
    split
    · exact noDivide_ok _
    · refine noDivide_bind (entry_noDivide chain i) fun block _ => ?_
      split
      · exact noDivide_ok _
      · exact ih _ _ _ _ _

theorem readBlockChain_noDivide {node : Ext2Node} (hblk : blkszLong node.reserved ≠ 0)
    (fuel : Nat) (chain : Chain) (offset size : BitVec 64) (data : ByteMem) (ptr : BitVec 64) :
    NoDivide (ext2ReadBlockChain fuel node chain offset size data ptr) := by
  unfold ext2ReadBlockChain
  rw [if_neg hblk]
  exact blockChainLoop_noDivide node chain fuel _ _ _ _ _

/-! ## Regions

A region that an offset lies in has bytes, so its blocks have. -/

theorem blksz_eq_zero {super : Ext2Superblock} (h : blkszLong super = 0) : blksz super = 0#32 := by
  have hint : (blksz super).toInt = 0 := by
    rw [← BitVec.toInt_signExtend_of_le (show 32 ≤ 64 by decide)]
    exact congrArg BitVec.toInt h
  exact BitVec.eq_of_toInt_eq hint

theorem not_lt_zeroRegion (offset : BitVec 64) :
    ¬ offset < (0#32).signExtend 64 := by
  have hzero : (0#32).signExtend 64 = 0#64 := by decide
  rw [hzero]
  exact BitVec.not_lt_zero

section Region

variable {node : Ext2Node} {offset : BitVec 64}

theorem blkszLong_of_direct (h : offset < dbpLong node.reserved) :
    blkszLong node.reserved ≠ 0 := by
  intro h0
  rw [dbpLong, bytesInDbp, blksz_eq_zero h0, BitVec.mul_zero] at h
  exact not_lt_zeroRegion offset h

theorem blkszLong_of_single (h : offset < sibpLong node.reserved) :
    blkszLong node.reserved ≠ 0 := by
  intro h0
  rw [sibpLong, bytesInSibp, blksz_eq_zero h0, BitVec.zero_mul] at h
  exact not_lt_zeroRegion offset h

theorem blkszLong_of_double (h : offset < dibpLong node.reserved) :
    blkszLong node.reserved ≠ 0 := by
  intro h0
  rw [dibpLong, bytesInDibp, bytesInSibp, blksz_eq_zero h0, BitVec.zero_mul, BitVec.zero_mul] at h
  exact not_lt_zeroRegion offset h

end Region

theorem readRegion_noDivide {node : Ext2Node} (hblk : blkszLong node.reserved ≠ 0) (fuel : Nat)
    (chain : Chain) (bytes : BitVec 64) (s : ReadState) :
    NoDivide (readRegion fuel node chain bytes s) := by
  unfold readRegion
  exact noDivide_bind (readBlockChain_noDivide hblk _ _ _ _ _ _) fun _ _ => noDivide_ok _

theorem readDirect_noDivide (fuel : Nat) (node : Ext2Node) (i : ByteMem) (s : ReadState) :
    NoDivide (readDirect fuel node i s) := by
  unfold readDirect
  split
  · next hlt => exact readRegion_noDivide (blkszLong_of_direct hlt) _ _ _ _
  · exact noDivide_ok _

theorem readSingle_noDivide (fuel : Nat) (fresh : Fresh) (node : Ext2Node) (i : ByteMem)
    (s : ReadState) : NoDivide (readSingle fuel fresh node i s) := by
  unfold readSingle
  split
  · next hlt => exact readRegion_noDivide (blkszLong_of_single hlt.2) _ _ _ _
  · exact noDivide_ok _

theorem seekSibp_noDivide (super : Ext2Superblock) (fuel : Nat) :
    ∀ i offset, NoDivide (seekSibp super fuel i offset) := by
  induction fuel with
  | zero => exact fun _ _ => noDivide_running
  | succ fuel ih =>
    intro i offset
    unfold seekSibp
    split
    · exact ih _ _
    · exact noDivide_ok _

theorem doubleLoop_noDivide {node : Ext2Node} (hblk : blkszLong node.reserved ≠ 0)
    (chainFuel : Nat) (dibp : Chain) (fuel : Nat) :
    ∀ sz i sibp s, NoDivide (doubleLoop chainFuel node dibp fuel sz i sibp s) := by
  induction fuel with
  | zero => exact fun _ _ _ _ => noDivide_running
  | succ fuel ih =>
    intro sz i sibp s
    rw [doubleLoop]
    split
    · refine noDivide_bind (entry_noDivide dibp i) fun block _ => ?_
      exact noDivide_bind (readBlockChain_noDivide hblk _ _ _ _ _ _) fun _ _ => ih _ _ _ _
    · exact noDivide_ok _

theorem readDouble_noDivide (fuel : Nat) (fresh : Fresh) (node : Ext2Node) (i : ByteMem)
    (s : ReadState) : NoDivide (readDouble fuel fresh node i s) := by
  unfold readDouble
  split
  · next hlt =>
    refine noDivide_bind (seekSibp_noDivide _ _ _ _) fun out _ => ?_
    exact doubleLoop_noDivide (blkszLong_of_double hlt.2) _ _ _ _ _ _ _
  · exact noDivide_ok _

/-! ## Calls -/

/-- A volume whose groups have inodes. -/
def groupsNonempty (super : Ext2Superblock) : Prop := super.indInGrp ≠ 0

theorem readInode_noDivide {node : Ext2Node} (h : groupsNonempty node.reserved) (fresh : Fresh) :
    NoDivide (ext2ReadInode fresh node) := by
  rw [ext2ReadInode_eq fresh h]
  exact noDivide_ok _

theorem read_noDivide {node : Ext2Node} (h : groupsNonempty node.reserved) (fuel : Nat)
    (fresh : Fresh) (offset size : BitVec 64) (buffer : ByteMem) :
    NoDivide (ext2Read fuel fresh (some node) offset size buffer) := by
  unfold ext2Read
  refine noDivide_bind (readInode_noDivide h fresh) fun i _ => ?_
  split
  · exact noDivide_ok _
  refine noDivide_bind ?_ fun _ _ => noDivide_ok _
  unfold ext2ReadInodeDataEx
  refine noDivide_bind (readDirect_noDivide _ _ _ _) fun _ _ => ?_
  refine noDivide_bind (readSingle_noDivide _ _ _ _ _) fun _ _ => ?_
  exact noDivide_bind (readDouble_noDivide _ _ _ _ _) fun _ _ => noDivide_ok _

section Directory

variable (d : DirBuffer) (size : Nat)

theorem dirRead_noDivide (p n : Nat) : NoDivide (d.read p n) := by
  unfold DirBuffer.read
  split
  · exact noDivide_ok _
  · intro h
    cases h

theorem dirByte_noDivide (p : Nat) : NoDivide (d.byte p) := by
  unfold DirBuffer.byte
  split
  · exact noDivide_ok _
  · intro h
    cases h

theorem strncpy_noDivide (n : Nat) : ∀ p, NoDivide (strncpy d p n) := by
  induction n with
  | zero => exact fun _ => noDivide_ok _
  | succ n ih =>
    intro p
    rw [strncpy]
    refine noDivide_bind (dirByte_noDivide d p) fun c _ => ?_
    split
    · exact noDivide_ok _
    · exact noDivide_bind (ih _) fun _ _ => noDivide_ok _

theorem strncmpEq_noDivide (n : Nat) : ∀ name p, NoDivide (strncmpEq d name p n) := by
  induction n with
  | zero => exact fun _ _ => noDivide_ok _
  | succ n ih =>
    intro name p
    rw [strncmpEq]
    refine noDivide_bind (dirByte_noDivide d p) fun c _ => ?_
    split
    · exact noDivide_ok _
    · split
      · exact noDivide_ok _
      · exact ih _ _

theorem readdirLoop_noDivide (index : BitVec 64) (fuel : Nat) :
    ∀ i p, NoDivide (readdirLoop d size index fuel i p) := by
  induction fuel with
  | zero => exact fun _ _ => noDivide_running
  | succ fuel ih =>
    intro i p
    rw [readdirLoop]
    split
    · refine noDivide_bind (dirRead_noDivide d _ _) fun length _ => ?_
      split
      · exact noDivide_bind (dirRead_noDivide d _ _) fun _ _ => ih _ _
      · exact noDivide_ok _
    · exact noDivide_ok _

theorem readdirEntry_noDivide (index : BitVec 64) (i : BitVec 32) (p : Nat) :
    NoDivide (readdirEntry d size index i p) := by
  unfold readdirEntry
  split
  · refine noDivide_bind (dirRead_noDivide d _ _) fun length _ => ?_
    split
    · exact noDivide_ok _
    · refine noDivide_bind (strncpy_noDivide d _ _) fun _ _ => ?_
      exact noDivide_bind (dirRead_noDivide d _ _) fun _ _ => noDivide_ok _
  · exact noDivide_ok _

theorem finddirLoop_noDivide (name : CString) (fuel : Nat) :
    ∀ p, NoDivide (finddirLoop d size name fuel p) := by
  induction fuel with
  | zero => exact fun _ => noDivide_running
  | succ fuel ih =>
    intro p
    rw [finddirLoop]
    split
    · refine noDivide_bind (dirRead_noDivide d _ _) fun length _ => ?_
      split
      · exact noDivide_ok _
      · refine noDivide_bind (strncmpEq_noDivide d _ _ _) fun found _ => ?_
        split
        · exact noDivide_ok _
        · exact noDivide_bind (dirRead_noDivide d _ _) fun _ _ => ih _
    · exact noDivide_ok _

theorem finddirNode_noDivide {node : Ext2Node} (h : groupsNonempty node.reserved) (fresh : Fresh)
    (p : Nat) : NoDivide (finddirNode d fresh node p) := by
  unfold finddirNode
  refine noDivide_bind (dirRead_noDivide d _ _) fun _ _ => ?_
  refine noDivide_bind (strncpy_noDivide d _ _) fun name _ => ?_
  refine noDivide_bind (dirRead_noDivide d _ _) fun inode _ => ?_
  have hentry : groupsNonempty (entryNode node name (BitVec.ofNat 64 inode)).reserved := h
  exact noDivide_bind (readInode_noDivide hentry fresh) fun _ _ => noDivide_ok _

end Directory

theorem readdir_noDivide {node : Ext2Node} (h : groupsNonempty node.reserved) (fuel : Nat)
    (fresh : Fresh) (index : BitVec 64) :
    NoDivide (ext2Readdir fuel fresh (some node) index) := by
  unfold ext2Readdir
  refine noDivide_bind (readInode_noDivide h fresh) fun i _ => ?_
  refine noDivide_bind (readdirLoop_noDivide _ _ _ _ _ _) fun out _ => ?_
  exact readdirEntry_noDivide _ _ _ _ _

theorem finddir_noDivide {node : Ext2Node} (h : groupsNonempty node.reserved) (fuel : Nat)
    (fresh : Fresh) (name : CString) : NoDivide (ext2Finddir fuel fresh (some node) name) := by
  unfold ext2Finddir
  refine noDivide_bind (readInode_noDivide h fresh) fun i _ => ?_
  refine noDivide_bind (finddirLoop_noDivide _ _ _ _ _) fun found _ => ?_
  cases found with
  | none => exact noDivide_ok _
  | some p => exact noDivide_bind (finddirNode_noDivide _ h _ _) fun _ _ => noDivide_ok _

/-! ## Mounted volumes -/

/-- The nodes of a volume: its root, and what `ext2_finddir` returns on one of them. -/
inductive VolumeNode (root : Ext2Node) : Ext2Node → Prop
  | root : VolumeNode root root
  | found (v w : Ext2Node) (fuel : Nat) (fresh : Fresh) (name : CString) (hv : VolumeNode root v)
      (h : ext2Finddir fuel fresh (some v) name = .ok (.ok (some w))) : VolumeNode root w

/-- A node found in a directory is of the directory's volume. -/
theorem finddir_volume {node w : Ext2Node} {fuel : Nat} {fresh : Fresh} {name : CString}
    (h : ext2Finddir fuel fresh (some node) name = .ok (.ok (some w))) :
    w.reserved = node.reserved ∧ w.ptr = node.ptr := by
  unfold ext2Finddir at h
  obtain ⟨i, -, h⟩ := bind_ok h
  obtain ⟨found, -, h⟩ := bind_ok h
  cases found with
  | none => cases h
  | some p =>
    obtain ⟨v, hv, h⟩ := bind_ok h
    cases h
    unfold finddirNode at hv
    obtain ⟨length, -, hv⟩ := bind_ok hv
    obtain ⟨name', -, hv⟩ := bind_ok hv
    obtain ⟨inode, -, hv⟩ := bind_ok hv
    obtain ⟨fi, -, hv⟩ := bind_ok hv
    cases hv
    exact ⟨rfl, rfl⟩

theorem volumeNode_reserved {root v : Ext2Node} (h : VolumeNode root v) :
    v.reserved = root.reserved := by
  induction h with
  | root => rfl
  | found v w fuel fresh name _ hfind ih => exact (finddir_volume hfind).1.trans ih

/-- None of the calls on a node divides by zero. -/
def CallsNoDivide (v : Ext2Node) : Prop :=
  (∀ fuel fresh offset size buffer, NoDivide (ext2Read fuel fresh (some v) offset size buffer)) ∧
  (∀ fuel fresh index, NoDivide (ext2Readdir fuel fresh (some v) index)) ∧
  ∀ fuel fresh name, NoDivide (ext2Finddir fuel fresh (some v) name)

/-- With empty groups the first division of `ext2_read` stops it. -/
theorem not_callsNoDivide {v : Ext2Node} (h0 : v.reserved.indInGrp = 0) : ¬ CallsNoDivide v := by
  intro h
  have hstop : ext2ReadInode (fun _ _ => 0) v = .error .divideError := if_pos h0
  refine h.1 0 (fun _ _ => 0) 0 0 (fun _ => 0) ?_
  simp only [ext2Read, hstop]
  rfl

/-- On a device that `ext2_init` accepts, no call on any node of the volume divides by
zero just when the number of inodes in a group is not zero. -/
theorem never_divides_iff {fresh : ByteMem} {device : ByteMem} {root : Ext2Node}
    (hinit : ext2Init fresh (some device) = some root) :
    (∀ v, VolumeNode root v → CallsNoDivide v) ↔ dword device (0x400 + 40) ≠ 0 := by
  have hfield : root.reserved.indInGrp = dword device (0x400 + 40) := by
    simp only [ext2Init] at hinit
    split at hinit
    · cases hinit
      exact dword_vfsRead (show 40 + 4 ≤ 1024 by decide)
    · cases hinit
  rw [← hfield]
  constructor
  · intro h h0
    exact not_callsNoDivide h0 (h root .root)
  · intro hne v hv
    have hv' : groupsNonempty v.reserved := by
      rw [volumeNode_reserved hv]
      exact hne
    exact ⟨read_noDivide hv', readdir_noDivide hv', finddir_noDivide hv'⟩

/-- A device with nothing on it but the magic number and a group size. -/
def blankDevice (perGroup : BitVec 8) : ByteMem := fun x =>
  if x = 0x428 then perGroup else if x = 0x438 then 0x53 else if x = 0x439 then 0xEF else 0

/-- What `ext2_init` makes of it. -/
def blankRoot (perGroup : BitVec 8) : Ext2Node :=
  ext2Root (superblockAt (vfsRead (blankDevice perGroup) ⟨0x400, 1024⟩ (fun _ => 0) 0))
    (blankDevice perGroup)

theorem blankDevice_magic (perGroup : BitVec 8) :
    word (blankDevice perGroup) 0x438 = 0xEF53 := by
  have hlow : blankDevice perGroup 0x438 = 0x53 := rfl
  have hhigh : blankDevice perGroup 0x439 = 0xEF := rfl
  simp only [word, ByteMem.read, hlow, hhigh]
  rfl

theorem blankDevice_init (perGroup : BitVec 8) :
    ext2Init (fun _ => 0) (some (blankDevice perGroup)) = some (blankRoot perGroup) := by
  have hmagic : (superblockAt (vfsRead (blankDevice perGroup) ⟨0x400, 1024⟩ (fun _ => 0) 0)).magic =
      0xEF53 :=
    (word_vfsRead (show 56 + 2 ≤ 1024 by decide)).trans (blankDevice_magic perGroup)
  simp only [ext2Init, if_pos hmagic, blankRoot]

/-- Groups of sixteen inodes. -/
theorem never_divides_sixteen :
    ext2Init (fun _ => 0) (some (blankDevice 16)) = some (blankRoot 16) ∧
      ∀ v, VolumeNode (blankRoot 16) v → CallsNoDivide v :=
  ⟨blankDevice_init 16, (never_divides_iff (blankDevice_init 16)).mpr (by decide)⟩

/-- Groups without inodes: the device is accepted, and its root divides by zero. -/
theorem empty_groups_divide :
    ext2Init (fun _ => 0) (some (blankDevice 0)) = some (blankRoot 0) ∧
      ¬ ∀ v, VolumeNode (blankRoot 0) v → CallsNoDivide v := by
  refine ⟨blankDevice_init 0, fun h => ?_⟩
  have hzero : (blankRoot 0).reserved.indInGrp = 0 := by decide
  exact not_callsNoDivide hzero (h _ .root)

end OS64.Fs
