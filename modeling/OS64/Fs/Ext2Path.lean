import OS64.Fs.Ext2Lookup

/-!
# Paths

A path is walked by `vfs_finddir`, one component after the other, from the root node that
`ext2_init` returns. `vfs_finddir` only passes a call on to the driver when the node has
`VFS_DIRECTORY` in its flags. `ext2_init` sets it, `ext2_finddir` does not: it leaves the flags of
the node it makes at 0, also where the entry is a directory (`FIXME`, the comment says, the inode
is to be read and carried over), and of the size it takes the lower half (`FIXME`).

So a walk ends behind its first component. `path_walked_iff` says for which paths of one component
the node is right.
-/

namespace OS64.Fs

open OS64.Lib
open OS64.Lib.ByteMem

/-! ## Volumes -/

/-- The superblock of a volume. -/
def volSuper (device : ByteMem) : Ext2Superblock := superblockAt fun a => device (0x400 + a)

/-- The root node of a volume. -/
def volRoot (device : ByteMem) : Ext2Node := ext2Root (volSuper device) device

/-- The node of an inode, as far as it says which inode it is. -/
def volNode (device : ByteMem) (n : BitVec 32) : Ext2Node :=
  { volRoot device with inode := n.setWidth 64 }

/-- The record of an inode. -/
def diskInode (device : ByteMem) (n : BitVec 32) : ByteMem := fun a =>
  device (inodeByte (volNode device n) + a)

/-- The type of an inode, in the upper four bits, is that of a directory. -/
def isDirectory (i : ByteMem) : Prop := typePerm i &&& 0xF000 = 0x4000

instance (i : ByteMem) : Decidable (isDirectory i) :=
  inferInstanceAs (Decidable (typePerm i &&& 0xF000 = 0x4000))

/-- The superblock is one of ext2. -/
structure Volume (device : ByteMem) : Prop where
  magic : (volSuper device).magic = 0xEF53
  group : (volSuper device).indInGrp ≠ 0
  record : 128 ≤ recordBytes (volSuper device)

/-- Inode `n` is a directory of at most twelve blocks with the records `rs`. Deleted records may have
any name, and none. -/
structure DirInode (device : ByteMem) (n : BitVec 32) (rs : List DirRecord) : Prop where
  type : isDirectory (diskInode device n)
  records : Directory (volRoot device) (diskInode device n) rs
  blocks : (ext2Size (diskInode device n)).toNat ≤ 12 * blockBytes (volSuper device)
  named : ∀ r ∈ rs, r.live → r.name ≠ [] ∧ 0 ∉ r.name
  unique : ∀ r ∈ rs, ∀ r' ∈ rs, r.live → r'.live → r.name = r'.name → r.inode = r'.inode

/-- The components lead from inode `n` to inode `m`, and no entry of a directory on the way is a
proper beginning of the component that is looked up there. -/
inductive PathTo (device : ByteMem) : BitVec 32 → List CString → BitVec 32 → Prop
  | here (n : BitVec 32) : PathTo device n [] n
  | enter {n m : BitVec 32} {rs : List DirRecord} {r : DirRecord} {c : CString} {cs : List CString}
      (dir : DirInode device n rs) (mem : r ∈ rs) (live : r.live) (name : r.name = c.bytes)
      (beginning : ∀ r' ∈ rs, r'.live → r'.name <+: c.bytes → r'.name = c.bytes)
      (rest : PathTo device r.inode cs m) : PathTo device n (c :: cs) m

/-! ## The walk -/

/-- `vfs_finddir` on the nodes of a volume. -/
def volFinddir (mounted : CString → ByteMem → Exec (Except Errno (Option Ext2Node))) (fuel : Nat)
    (fresh : Fresh) (node : Option Ext2Node) (name : CString) :
    Exec (Except Errno (Option Ext2Node)) :=
  vfsFinddirAt (mounted name)
    (fun
      | .ext2 => some fun n => ext2Finddir fuel fresh (some n) name
      | _ => none) node

/-- `vfs_finddir` applied to the components in turn; an error is passed on. -/
def vfsWalk (mounted : CString → ByteMem → Exec (Except Errno (Option Ext2Node))) (fuel : Nat)
    (fresh : Nat → Fresh) : List CString → Except Errno (Option Ext2Node) →
      Exec (Except Errno (Option Ext2Node))
  | [], v => .ok v
  | _ :: _, .error e => .ok (.error e)
  | c :: cs, .ok v => do
    let w ← volFinddir mounted fuel (fresh cs.length) v c
    vfsWalk mounted fuel fresh cs w

/-- The node is that of inode `m`, a directory just when the inode is one, and of its size. -/
structure NodeOf (device : ByteMem) (m : BitVec 32) (v : Ext2Node) : Prop where
  inode : v.inode = m.setWidth 64
  volume : v.reserved = volSuper device ∧ v.ptr = device ∧ v.drv = .ext2
  directory : v.isDir = true ↔ isDirectory (diskInode device m)
  length : v.length = ext2Size (diskInode device m)

/-- From the root that `ext2_init` returns the walk comes to the node of inode `m`, whatever the
buffers held before. -/
def PathWalked (device : ByteMem) (path : List CString) (m : BitVec 32) : Prop :=
  ∀ mounted freshSuper fresh, ∃ root v, ext2Init freshSuper (some device) = some root ∧
    Returns (fun fuel => vfsWalk mounted fuel fresh path (.ok (some root))) (.ok (some v)) ∧
    NodeOf device m v

/-- There is nothing behind the first component, and it is no directory and smaller than 4 GiB. -/
structure PathPlain (device : ByteMem) (cs : List CString) (m : BitVec 32) : Prop where
  last : cs = []
  type : ¬ isDirectory (diskInode device m)
  size : sizeHi (diskInode device m) = 0

/-- And the first record of the root directory that `strncmp` does not tell from the component is live
and has the name. -/
structure PathMeets (device : ByteMem) (c : CString) (cs : List CString) (m : BitVec 32) : Prop where
  plain : PathPlain device cs m
  first : ∀ rs, DirInode device 2 rs → findMeets rs c

/-- What the lookup in the root directory reads lies where 32 bits reach, and the records of the
inodes have the size of the field. -/
structure VolumeLow (device : ByteMem) (m : BitVec 32) : Prop where
  desc : blockBytes (volSuper device) * ((volSuper device).sblockNum.toNat + 1) < 2 ^ 32
  record : (volSuper device).verMajor = 0 → (volSuper device).inodeSize = 128
  root : inodeByte (volNode device 2) < 2 ^ 32
  entry : inodeByte (volNode device m) < 2 ^ 32
  blocks : DirLow (volRoot device) (diskInode device 2)

/-! ## What is read -/

section Read

variable {m m' : ByteMem}

theorem superblockAt_congr (h : ∀ x, x < 1024 → m' x = m x) : superblockAt m' = superblockAt m := by
  have hword : ∀ a, a + 2 ≤ 1024 → word m' a = word m a :=
    fun a ha => word_congr fun x _ hx => h x (by omega)
  have hdword : ∀ a, a + 4 ≤ 1024 → dword m' a = dword m a :=
    fun a ha => dword_congr fun x _ hx => h x (by omega)
  unfold superblockAt
  rw [hdword 0 (by decide), hdword 4 (by decide), hdword 20 (by decide), hdword 24 (by decide),
    hdword 40 (by decide), hword 56 (by decide), hdword 76 (by decide), hword 88 (by decide)]

/-- `ext2_init` finds the superblock. -/
theorem ext2Init_root {device : ByteMem} (hvol : Volume device) (fresh : ByteMem) :
    ext2Init fresh (some device) = some (volRoot device) := by
  have hsuper : superblockAt (vfsRead device ⟨0x400, 1024⟩ fresh 0) = volSuper device :=
    superblockAt_congr fun x hx => vfsRead_apply hx
  unfold ext2Init
  dsimp only
  rw [hsuper, if_pos hvol.magic]
  rfl

end Read

/-! ## The node of an entry -/

/-- `v` is a node that a lookup in `node` made: without flags, and with the lower half of a size. -/
structure EntryNode (node v : Ext2Node) : Prop where
  flags : v.flags = 0
  volume : v.reserved = node.reserved ∧ v.ptr = node.ptr ∧ v.drv = node.drv
  length : ∃ fresh i, ext2ReadInode fresh v = .ok i ∧ v.length = (sizeLow i).setWidth 64

theorem ext2Finddir_entry {fuel : Nat} {fresh : Fresh} {node v : Ext2Node} {name : CString}
    (h : ext2Finddir fuel fresh (some node) name = .ok (.ok (some v))) : EntryNode node v := by
  obtain ⟨i, hi, -⟩ := bind_ok h
  rw [ext2Finddir_eq hi] at h
  obtain ⟨found, -, h⟩ := bind_ok h
  cases found with
  | none =>
    rw [finddirFound] at h
    cases h
  | some p =>
    obtain ⟨w, hw, hv⟩ := bind_ok h
    cases hv
    obtain ⟨_, -, hw⟩ := bind_ok hw
    obtain ⟨_, -, hw⟩ := bind_ok hw
    obtain ⟨_, -, hw⟩ := bind_ok hw
    obtain ⟨fi, hfi, hw⟩ := bind_ok hw
    cases hw
    exact ⟨rfl, ⟨rfl, rfl, rfl⟩, fun n => fresh (n + 3), fi, hfi, rfl⟩

theorem EntryNode.not_dir {node v : Ext2Node} (h : EntryNode node v) : v.isDir = false := by
  unfold VfsNode.isDir
  rw [h.flags]
  decide

/-! ## What a walk comes to -/

section Walk

variable {mounted : CString → ByteMem → Exec (Except Errno (Option Ext2Node))}

/-- At the root the call goes to the driver. -/
theorem volFinddir_root (device : ByteMem) (fuel : Nat) (fresh : Fresh) (name : CString) :
    volFinddir mounted fuel fresh (some (volRoot device)) name =
      ext2Finddir fuel fresh (some (volRoot device)) name := by
  have hdir : (volRoot device).isDir = true := ext2Root_isDir _ _
  have hmount : (volRoot device).isMount = false := ext2Root_isMount _ _
  unfold volFinddir vfsFinddirAt
  dsimp only
  rw [if_pos hdir, if_neg (ne_true_of_eq_false hmount)]
  rfl

/-- Nothing is found behind a node without `VFS_DIRECTORY`. -/
theorem vfsWalk_stops {fuel : Nat} {fresh : Nat → Fresh} {w : Option Ext2Node}
    (hw : ∀ v, w = some v → v.isDir = false) (c : CString) (cs : List CString) {v : Ext2Node} :
    vfsWalk mounted fuel fresh (c :: cs) (.ok w) ≠ .ok (.ok (some v)) := by
  have hbad : volFinddir mounted fuel (fresh cs.length) w c = .ok (.error .ebadf) := by
    cases w with
    | none => rfl
    | some u =>
      unfold volFinddir vfsFinddirAt
      dsimp only
      rw [if_neg (ne_true_of_eq_false (hw u rfl))]
  intro h
  rw [vfsWalk, hbad] at h
  cases cs <;> cases h

/-- A walk that comes to a node has one component, and the node is that of an entry of the root. -/
theorem vfsWalk_root {device : ByteMem} {fuel : Nat} {fresh : Nat → Fresh} {c : CString}
    {cs : List CString} {v : Ext2Node}
    (h : vfsWalk mounted fuel fresh (c :: cs) (.ok (some (volRoot device))) = .ok (.ok (some v))) :
    cs = [] ∧ ext2Finddir fuel (fresh 0) (some (volRoot device)) c = .ok (.ok (some v)) := by
  rw [vfsWalk, volFinddir_root] at h
  obtain ⟨w, hw, h⟩ := bind_ok h
  cases cs with
  | nil =>
    cases h
    exact ⟨rfl, hw⟩
  | cons c' cs' =>
    cases w with
    | error e => cases h
    | ok w =>
      refine absurd h (vfsWalk_stops (fun u hu => ?_) c' cs')
      cases hu
      exact (ext2Finddir_entry hw).not_dir

end Walk

/-! ## Paths of one component -/

/-- Directory records are told by the bytes. -/
theorem stored_unique {m : ByteMem} {e : Nat} {rs : List DirRecord} : ∀ {p : Nat} {rs' : List DirRecord},
    Stored m p rs e → Stored m p rs' e → rs = rs' := by
  induction rs with
  | nil =>
    intro p rs' h h'
    cases rs' with
    | nil => rfl
    | cons r' rs' =>
      have hle := stored_le h'.2
      have hfits := r'.fits
      have hend : p = e := h
      omega
  | cons r rs ih =>
    intro p rs' h h'
    cases rs' with
    | nil =>
      have hle := stored_le h.2
      have hfits := r.fits
      have hend : p = e := h'
      omega
    | cons r' rs' =>
      have hsize : r.size = r'.size := h.1.size.symm.trans h'.1.size
      have hinode : r.inode = r'.inode := BitVec.eq_of_toNat_eq (h.1.inode.symm.trans h'.1.inode)
      have hname : r.name = r'.name := h.1.name.symm.trans h'.1.name
      have hrest := h'.2
      rw [← hsize] at hrest
      rw [ih h.2 hrest]
      obtain ⟨inode, size, name, fits⟩ := r
      obtain ⟨inode', size', name', fits'⟩ := r'
      cases hsize
      cases hinode
      cases hname
      rfl

/-- A name that a string is not told from is a beginning of it. -/
theorem prefix_of_sameName {s l : List (BitVec 8)} (hl : 0 ∉ l) (h : sameName s l = true) :
    l <+: s := by
  induction l generalizing s with
  | nil => exact List.nil_prefix
  | cons x l ih =>
    have hx : x ≠ 0 := fun hx => hl (hx ▸ List.mem_cons_self)
    rw [sameName] at h
    by_cases hne : s.headD 0 ≠ x
    · rw [if_pos hne] at h
      cases h
    · rw [if_neg hne, if_neg hx] at h
      cases s with
      | nil => exact absurd rfl (fun h0 : (0 : BitVec 8) = 0 => hne fun hz => hx hz.symm)
      | cons y s =>
        have hxy : y = x := not_not.mp hne
        rw [hxy]
        exact List.cons_prefix_cons.mpr ⟨rfl, ih (fun hm => hl (List.mem_cons_of_mem _ hm)) h⟩

section Component

variable {device : ByteMem} {m : BitVec 32} {c : CString} {cs : List CString}

/-- The upper half of a size that is a lower half is 0. -/
theorem sizeHi_of_low {i : ByteMem} {w : BitVec 32} (h : w.setWidth 64 = ext2Size i) :
    sizeHi i = 0 := by
  refine BitVec.eq_of_getLsbD_eq fun k hk => ?_
  have hbit := congrArg (fun x => x.getLsbD (32 + k)) h
  have hhigh : (w.setWidth 64).getLsbD (32 + k) = false := by
    rw [BitVec.getLsbD_setWidth, BitVec.getLsbD_of_ge w _ (by omega), Bool.and_false]
  have hlow : ((sizeLow i).setWidth 64).getLsbD (32 + k) = false := by
    rw [BitVec.getLsbD_setWidth, BitVec.getLsbD_of_ge _ _ (by omega), Bool.and_false]
  have hshift : ((sizeHi i).setWidth 64 <<< 32).getLsbD (32 + k) = (sizeHi i).getLsbD k := by
    simp only [BitVec.getLsbD_shiftLeft, BitVec.getLsbD_setWidth, Nat.add_sub_cancel_left]
    simp only [show 32 + k < 64 by omega, show ¬ 32 + k < 32 by omega, show k < 64 by omega,
      decide_true, decide_false, Bool.not_false, Bool.true_and]
  simp only [ext2Size, BitVec.getLsbD_or, hhigh, hlow, hshift, Bool.false_or] at hbit
  exact hbit.symm.trans BitVec.getLsbD_zero.symm

theorem ext2Size_of_low {i : ByteMem} (h : sizeHi i = 0) : ext2Size i = (sizeLow i).setWidth 64 := by
  rw [ext2Size, h]
  simp

/-- A path that is walked to its node is plain. -/
theorem plain_of_walked (hvol : Volume device) (h : PathWalked device (c :: cs) m) :
    PathPlain device cs m := by
  obtain ⟨root, v, hroot, ⟨n, hret⟩, hnode⟩ := h (fun _ _ => .ok (.error .ebadf)) (fun _ => 0)
    fun _ _ _ => 0
  cases (ext2Init_root hvol _).symm.trans hroot
  obtain ⟨hlast, hfind⟩ := vfsWalk_root (hret n (Nat.le_refl n))
  have hentry := ext2Finddir_entry hfind
  obtain ⟨_, _, -, hlength⟩ := hentry.length
  refine ⟨hlast, fun hdir => ?_, sizeHi_of_low (hlength.symm.trans hnode.length)⟩
  rw [← hnode.directory, hentry.not_dir] at hdir
  cases hdir

/-- What a lookup in the root returns. -/
theorem root_lookup (hvol : Volume device) (hlow : VolumeLow device m) {rs : List DirRecord}
    (hdir : DirInode device 2 rs) (fresh : Fresh) (name : CString) :
    ((∀ r, rs.find? (fun r => sameName name.bytes r.name) = some r → r.name = []) →
      Returns (fun fuel => ext2Finddir fuel fresh (some (volRoot device)) name) (.ok none)) ∧
    ∀ r, rs.find? (fun r => sameName name.bytes r.name) = some r → r.name ≠ [] →
      ∃ v, Returns (fun fuel => ext2Finddir fuel fresh (some (volRoot device)) name)
          (.ok (some v)) ∧
        v.name = strncpyList r.name ∧ v.inode = r.inode.setWidth 64 := by
  have hone : (1 : BitVec 64) ≤ 2 := by decide
  have hmax : (2 : BitVec 64).toNat < 2 ^ 32 := by decide
  obtain ⟨i, hi, hbytes⟩ := @ext2ReadInode_disk (volRoot device) hvol.group hone hmax hlow.desc
    hlow.root hlow.record fresh
  have hsame : ∀ a, a < 112 → i a = diskInode device 2 a :=
    fun a ha => hbytes a (Nat.lt_of_lt_of_le ha (Nat.le_trans (by decide) hvol.record))
  refine ext2Finddir_spec hi (directory_congr hsame hdir.records) ?_ (dirLow_congr hsame hlow.blocks)
    name
  rw [ext2Size_congr hsame]
  exact hdir.blocks

/-- The node of an entry has the size of its inode, when that is below 4 GiB. -/
theorem entry_length (hvol : Volume device) (hlow : VolumeLow device m) (hm : m ≠ 0) {v : Ext2Node}
    (hentry : EntryNode (volRoot device) v) (hinode : v.inode = m.setWidth 64)
    (hsize : sizeHi (diskInode device m) = 0) : v.length = ext2Size (diskInode device m) := by
  obtain ⟨hsuper, hptr, -⟩ := hentry.volume
  obtain ⟨fresh, fi, hfi, hlength⟩ := hentry.length
  have hbyte : inodeByte v = inodeByte (volNode device m) := by
    unfold inodeByte descByte groupOf indexOf
    rw [hsuper, hptr, hinode]
    rfl
  have hnum : v.inode.toNat = m.toNat := by
    rw [hinode, BitVec.toNat_setWidth]
    exact Nat.mod_eq_of_lt (Nat.lt_trans m.isLt (by decide))
  have hone : 1 ≤ v.inode := by
    show 1 ≤ v.inode.toNat
    rw [hnum]
    exact Nat.one_le_iff_ne_zero.mpr fun h0 => hm (BitVec.eq_of_toNat_eq h0)
  have hmax : v.inode.toNat < 2 ^ 32 := lt_of_eq_of_lt hnum m.isLt
  obtain ⟨i, hi, hbytes⟩ := @ext2ReadInode_disk v (by rw [hsuper]; exact hvol.group) hone hmax
    (by rw [hsuper]; exact hlow.desc) (lt_of_eq_of_lt hbyte hlow.entry)
    (by rw [hsuper]; exact hlow.record) fresh
  cases hi.symm.trans hfi
  have hsame : sizeLow fi = sizeLow (diskInode device m) := by
    refine dword_congr fun x _ hx => ?_
    have hrecord : x < recordBytes v.reserved := by
      rw [hsuper]
      exact Nat.lt_of_lt_of_le (by omega) hvol.record
    rw [hbytes x hrecord, hptr, hbyte]
    rfl
  rw [hlength, hsame, ext2Size_of_low hsize]

/-- Where a path is walked to its node, the first record that compares equal is the entry. -/
theorem meets_of_walked (hvol : Volume device) (hpath : PathTo device 2 (c :: cs) m)
    (hlow : VolumeLow device m) (h : PathWalked device (c :: cs) m) : PathMeets device c cs m := by
  have hplain := plain_of_walked hvol h
  refine ⟨hplain, fun rs hdir r hfirst => ?_⟩
  cases hpath with
  | enter hdir₀ hmem hlive hname hbeginning hrest =>
    rename_i rs₀ r₀
    cases stored_unique hdir.records.stored hdir₀.records.stored
    have hm : r₀.inode = m := by
      rw [hplain.last] at hrest
      cases hrest
      rfl
    obtain ⟨root, v, hroot, ⟨n, hret⟩, hnode⟩ := h (fun _ _ => .ok (.error .ebadf)) (fun _ => 0)
      fun _ _ _ => 0
    cases (ext2Init_root hvol _).symm.trans hroot
    have hfound : Returns (fun fuel => ext2Finddir fuel (fun _ _ => 0) (some (volRoot device)) c)
        (.ok (some v)) := ⟨n, fun fuel hfuel => (vfsWalk_root (hret fuel hfuel)).2⟩
    obtain ⟨hnone, hsome⟩ := root_lookup hvol hlow hdir (fun _ _ => 0) c
    have hnamed : r.name ≠ [] := by
      intro hnil
      have hno := hnone fun r' hr' => by
        cases hfirst.symm.trans hr'
        exact hnil
      cases returns_unique hfound hno
    obtain ⟨v', hv', -, hinode'⟩ := hsome r hfirst hnamed
    cases returns_unique hfound hv'
    have hsame : r.inode = r₀.inode := by
      have hwide := hinode'.symm.trans hnode.inode
      have hnarrow := congrArg (BitVec.setWidth 32) hwide
      rw [BitVec.setWidth_setWidth_of_le _ (by decide), BitVec.setWidth_eq,
        BitVec.setWidth_setWidth_of_le _ (by decide), BitVec.setWidth_eq] at hnarrow
      rw [hnarrow, hm]
    have hr : r.live := by
      unfold DirRecord.live
      rw [hsame]
      exact hlive
    have hin := List.mem_of_find?_eq_some hfirst
    have hequal := List.find?_some hfirst
    exact ⟨hr, hbeginning r hin hr (prefix_of_sameName (hdir.named r hin hr).2 hequal)⟩

/-- And where it is, a plain path is walked to its node. -/
theorem walked_of_meets (hvol : Volume device) (hpath : PathTo device 2 (c :: cs) m)
    (hlow : VolumeLow device m) (h : PathMeets device c cs m) : PathWalked device (c :: cs) m := by
  obtain ⟨⟨hlast, htype, hsize⟩, hfirst⟩ := h
  intro mounted freshSuper fresh
  cases hlast
  cases hpath with
  | enter hdir hmem hlive hname hbeginning hrest =>
    rename_i rs r
    cases hrest
    have hequal : sameName c.bytes r.name = true := by
      rw [hname]
      exact sameName_self c.nonzero
    cases hfind : rs.find? (fun r => sameName c.bytes r.name) with
    | none => exact absurd hequal (List.find?_eq_none.mp hfind r hmem)
    | some r' =>
      obtain ⟨hlive', hname'⟩ := hfirst rs hdir r' hfind
      have hmem' := List.mem_of_find?_eq_some hfind
      have hinode := hdir.unique r' hmem' r hmem hlive' hlive (hname'.trans hname.symm)
      obtain ⟨v, ⟨n, hv⟩, -, hv'⟩ := (root_lookup hvol hlow hdir (fresh 0) c).2 r' hfind
        (hdir.named r' hmem' hlive').1
      dsimp only at hv
      have hentry := ext2Finddir_entry (hv n (Nat.le_refl n))
      rw [hinode] at hv'
      refine ⟨volRoot device, v, ext2Init_root hvol _, ⟨n, fun fuel hfuel => ?_⟩, hv',
        hentry.volume, iff_of_false (ne_true_of_eq_false hentry.not_dir) htype,
        entry_length hvol hlow hlive hentry hv' hsize⟩
      dsimp only
      rw [vfsWalk, volFinddir_root]
      show (ext2Finddir fuel (fresh 0) (some (volRoot device)) c >>= _) = _
      rw [hv fuel hfuel]
      rfl

/-- A walk comes to the node of the path only for a path of one component that is no directory and
is smaller than 4 GiB; and below 4 GiB it does for these, unless a deleted record is taken for the
entry. -/
theorem path_walked_iff (hvol : Volume device) (hpath : PathTo device 2 (c :: cs) m) :
    (PathWalked device (c :: cs) m → PathPlain device cs m) ∧
      (VolumeLow device m → (PathWalked device (c :: cs) m ↔ PathMeets device c cs m)) :=
  ⟨plain_of_walked hvol, fun hlow =>
    ⟨meets_of_walked hvol hpath hlow, walked_of_meets hvol hpath hlow⟩⟩

end Component

/-! ## A directory and two files -/

/-- The bytes that are not 0 of a volume with the directory `d` and the file `f` in the root, and a
file `f` in `d`. The superblock is at 0x400, the descriptor at 0x800, the inodes 2 to 5 from 0xC80
on, the blocks 20 and 21 at 0x5000 and 0x5400. -/
def treeBytes : List (Nat × BitVec 8) :=
  [(0x414, 1), (0x428, 16), (0x438, 0x53), (0x439, 0xEF), (0x44C, 1), (0x458, 128), (0x808, 3),
    (0xC80, 0xED), (0xC81, 0x41), (0xC85, 4), (0xCA8, 20),
    (0xD00, 0xED), (0xD01, 0x41), (0xD05, 4), (0xD28, 21),
    (0xD80, 0xA4), (0xD81, 0x81), (0xD84, 5), (0xDA8, 22),
    (0xE00, 0xA4), (0xE01, 0x81), (0xE04, 5), (0xE28, 23),
    (0x5000, 3), (0x5004, 12), (0x5006, 1), (0x5008, 0x64),
    (0x500C, 4), (0x5010, 0xF4), (0x5011, 3), (0x5012, 1), (0x5014, 0x66),
    (0x5400, 5), (0x5405, 4), (0x5406, 1), (0x5408, 0x66)]

/-- The volume. -/
def treeVolume : ByteMem := fun a => (treeBytes.lookup a).getD 0

/-- The records of its root and of `d`. -/
def treeRoot : List DirRecord :=
  [⟨3, 12, [0x64], Nat.le_of_ble_eq_true rfl⟩, ⟨4, 1012, [0x66], Nat.le_of_ble_eq_true rfl⟩]

def treeDir : List DirRecord := [⟨5, 1024, [0x66], Nat.le_of_ble_eq_true rfl⟩]

/-- The names. -/
def nameD : CString := ⟨[0x64], by decide⟩

def nameF : CString := ⟨[0x66], by decide⟩

theorem treeVolume_volume : Volume treeVolume := ⟨by decide, by decide, by decide⟩

/-- A directory of one block. -/
theorem oneBlock_dirInode {n : BitVec 32} {rs : List DirRecord}
    (htype : isDirectory (diskInode treeVolume n))
    (hsize : (ext2Size (diskInode treeVolume n)).toNat = 1024)
    (hblock : direct (diskInode treeVolume n) 0 ≠ 0)
    (hstored : Stored (dirData (volRoot treeVolume) (diskInode treeVolume n)) 0 rs 1024)
    (hnamed : ∀ r ∈ rs, r.name ≠ [] ∧ 0 ∉ r.name)
    (hunique : ∀ r ∈ rs, ∀ r' ∈ rs, r.name = r'.name → r.inode = r'.inode) :
    DirInode treeVolume n rs where
  type := htype
  records := by
    refine ⟨fun x hx => ?_, ?_⟩
    · have hzero : x / blockBytes (volRoot treeVolume).reserved = 0 :=
        Nat.div_eq_of_lt (show x < 1024 by omega)
      rw [hzero]
      refine ⟨Nat.lt_add_right _ (Nat.lt_add_right _ (by decide)), fun b hb => ?_⟩
      rw [List.mem_singleton.mp hb]
      exact hblock
    · rw [hsize]
      exact hstored
  blocks := by
    rw [hsize]
    exact show 1024 ≤ 12 * 1024 by decide
  named r hr _ := hnamed r hr
  unique r hr r' hr' _ _ := hunique r hr r' hr'

theorem treeRoot_dir : DirInode treeVolume 2 treeRoot :=
  oneBlock_dirInode (by decide) (by decide) (by decide)
    ⟨⟨by decide, by decide, by decide⟩, ⟨by decide, by decide, by decide⟩, rfl⟩ (by decide)
    (by decide)

theorem treeDir_dir : DirInode treeVolume 3 treeDir :=
  oneBlock_dirInode (by decide) (by decide) (by decide)
    ⟨⟨by decide, by decide, by decide⟩, rfl⟩ (by decide) (by decide)

/-- The path of `f` in the root. -/
theorem treePath_file : PathTo treeVolume 2 [nameF] 4 :=
  .enter treeRoot_dir (List.mem_cons_of_mem _ List.mem_cons_self) (by decide) rfl (by decide)
    (.here 4)

/-- The path of `f` in `d`. -/
theorem treePath_deep : PathTo treeVolume 2 [nameD, nameF] 5 :=
  .enter treeRoot_dir List.mem_cons_self (by decide) rfl (by decide)
    (.enter treeDir_dir List.mem_cons_self (by decide) rfl (by decide) (.here 5))

theorem treeVolume_low : VolumeLow treeVolume 4 where
  desc := by decide
  record := by decide
  root := by decide
  entry := by decide
  blocks := by
    refine ⟨by decide, fun j _ hj => ?_⟩
    have hsize : (ext2Size (diskInode treeVolume 2)).toNat = 1024 := by decide
    have hj' : j * 1024 < 1024 := Nat.lt_of_lt_of_eq hj hsize
    have hzero : j = 0 := by omega
    rw [hzero]
    decide

/-- The walk to `f` comes to its node. -/
theorem path_walked_file : PathWalked treeVolume [nameF] 4 := by
  refine ((path_walked_iff treeVolume_volume treePath_file).2 treeVolume_low).mpr
    ⟨⟨rfl, by decide, by decide⟩, fun rs hdir r hfirst => ?_⟩
  cases stored_unique hdir.records.stored treeRoot_dir.records.stored
  cases hfirst.symm.trans (show treeRoot.find? (fun r => sameName nameF.bytes r.name) =
    some ⟨4, 1012, [0x66], Nat.le_of_ble_eq_true rfl⟩ from rfl)
  exact ⟨by decide, rfl⟩

/-- The walk to `d/f` does not. -/
theorem path_not_walked :
    ∃ device path m, Volume device ∧ path ≠ [] ∧ PathTo device 2 path m ∧
      ¬ PathWalked device path m := by
  refine ⟨treeVolume, [nameD, nameF], 5, treeVolume_volume, List.cons_ne_nil _ _, treePath_deep,
    fun h => ?_⟩
  exact absurd (plain_of_walked treeVolume_volume h).last (List.cons_ne_nil _ _)

end OS64.Fs
