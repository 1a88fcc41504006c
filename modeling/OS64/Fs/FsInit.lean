import OS64.Fs.DiskRead
import OS64.Fs.MdpartInit

/-!
# Mounting the root

`fs_init` adds the disk, looks up its first partition in devfs by name, and mounts what it gets on
the root directory. The lookup answers with a node or with an error code, and both are pointers:
`devfs_finddir` returns `(vfs_node_t*)ENOENT`. `vfs_mount` takes everything but `NULL` for a node
and has `ext2_init` read from it. Here such a pointer is the error itself, and a read from it
stops.

`boot_clean_iff` says from which disks the system starts without this.
-/

namespace OS64.Fs

open OS64.Lib (ByteMem)

/-- A `vfs_node_t *` that a lookup returns: an error code, `NULL`, or a node. -/
abbrev NodePtr := Except Errno (Option Nat)

/-- `vfs_finddir`. Of the drivers of these nodes, only devfs has a `finddir`. -/
def vfsFinddirNode (s : Devfs) (name : List (BitVec 8)) : Nat → Option Nat → Exec NodePtr
  | 0, _ => .error .running
  | _ + 1, none => .ok (.error .ebadf)
  | fuel + 1, some v => do
    let n ← s.node v
    if n.isDir then
      if n.isMount then vfsFinddirNode s name fuel n.ptr
      else
        match n.drv with
        | .devfs => devfsFinddir s name
        | _ => .ok (.error .ebadf)
    else .ok (.error .ebadf)

/-- The superblock when `ext2_init` has read it from the node `v`. When the read fails, the buffer
is as `kmalloc` handed it out. -/
def superblockRead (read : DeviceRead) (fresh : ByteMem) (s : Devfs) (v : Nat) :
    Exec Ext2Superblock := do
  match ← vfsReadNode read s.heap (v + 1) v 0x400 1024 with
  | .error _ => .ok (superblockAt fresh)
  | .ok (_, buf) => .ok (superblockAt buf)

/-- `vfs_init_fs`: `ext2_init`, and `fat32_init`, which finds nothing. `super` is where `kmalloc`
puts the superblock. -/
def vfsInitFsNode (read : DeviceRead) (fresh : ByteMem) (super : Addr) (s : Devfs) :
    NodePtr → Exec (Option Nat × Devfs)
  | .error _ => .error .dangling
  | .ok none => .ok (none, s)
  | .ok (some v) => do
    let block ← superblockRead read fresh s v
    if block.magic = 0xEF53 then
      let (root, s') := s.alloc (ext2Root super (some v))
      .ok (some root, s')
    else .ok (none, s)

/-- `vfs_mount`. -/
def vfsMountNode (read : DeviceRead) (fresh : ByteMem) (super : Addr) (s : Devfs) (what : NodePtr)
    (whereNode : Option Nat) : Exec (Except Errno Unit × Devfs) :=
  match what, whereNode with
  | .ok none, _ => .ok (.error .einval, s)
  | _, none => .ok (.error .einval, s)
  | _, some w => do
    let n ← s.node w
    if !n.isDir then .ok (.error .enotdir, s)
    else if n.isMount then .ok (.error .ebusy, s)
    else
      match ← vfsInitFsNode read fresh super s what with
      | (none, s') => .ok (.error .exdev, s')
      | (some v, s') => .ok (.ok (), { s' with heap := s'.heap.set w (n.mountOn (some v)) })

/-- `root`, as `fs_init` makes it. -/
def rootDirectory : DevNode where
  name := [0x2F]
  rights := 0
  flags := vfsDirectory
  uid := 0
  gid := 0
  inode := 0
  length := 0
  reserved := 0
  drv := .null
  ptr := none

/-- `rnn`, the name of the first partition. -/
def Disk.rnn : Disk → List (BitVec 8)
  | .ata => [0x61, 0x74, 0x61, 0x30]
  | .initrd _ _ => [0x69, 0x6E, 0x69, 0x74, 0x72, 0x64, 0x30]

/-- What `fs_init` has before it mounts: the nodes, `root` and `t`. -/
structure Boot where
  s : Devfs
  root : Nat
  t : NodePtr

/-- `fs_init` up to the call of `vfs_mount`. devfs is the second node. -/
def fsInitLookup (read : DeviceRead) (disk : Disk) (fuel : Nat) : Exec Boot := do
  let s ← addDisk read disk fuel
  let (root, s) := s.alloc rootDirectory
  let t ← vfsFinddirNode s disk.rnn fuel (some 1)
  .ok ⟨s, root, t⟩

/-- `fs_init`. -/
def fsInit (read : DeviceRead) (disk : Disk) (fresh : ByteMem) (super : Addr) (fuel : Nat) :
    Exec Devfs := do
  let b ← fsInitLookup read disk fuel
  let (_, s) ← vfsMountNode read fresh super b.s b.t (some b.root)
  let (tty, s) := s.alloc ttyInit
  let (_, s) ← devfsAdd read fuel s tty
  .ok s

/-! ## What is asked of it -/

/-- A pointer that a driver can take: `NULL`, or a node that was handed out. -/
def SoundPtr (s : Devfs) (t : NodePtr) : Prop :=
  t = .ok none ∨ ∃ v, t = .ok (some v) ∧ v < s.heap.length

/-- Where the root device, the first partition, begins, and how much there is of it, as its node has
it. -/
def rootStart (bytes : ByteMem) : Nat := ((partAt bytes 0).firstSector * 512).toNat

def rootSize (bytes : ByteMem) : Nat := ((partAt bytes 0).numSectors * 512).toNat

/-- The root device is there, and has the magic number of ext2 in its superblock. -/
structure RootExt2 (disk : Disk) (bytes : ByteMem) : Prop where
  root : hasRoot disk bytes
  size : 0x43A ≤ rootSize bytes
  fits : rootStart bytes + 0x43A ≤ disk.len
  magic : word bytes (rootStart bytes + 0x438) = 0xEF53

/-- `fs_init` has `vfs_mount` take a sound pointer, and if the root device is missing or not ext2,
`root` is left as it is. -/
def BootClean (disk : Disk) (bytes fresh : ByteMem) (super : Addr) : Prop :=
  ∃ b, Returns (fsInitLookup (disk.read bytes fresh) disk) b ∧ SoundPtr b.s b.t ∧
    (¬ RootExt2 disk bytes → ∃ r s' n,
      vfsMountNode (disk.read bytes fresh) fresh super b.s b.t (some b.root) = .ok (r, s') ∧
        s'.heap[b.root]? = some n ∧ n.flags = vfsDirectory ∧ n.ptr = none)

/-- How much of the superblock of the root device is read. -/
def superRead (disk : Disk) (bytes : ByteMem) : Nat :=
  min (min 1024 (rootSize bytes - 0x400)) (disk.len - (rootStart bytes + 0x400))

/-- The disk has a partition table that starts with a partition; no device on it is empty, in so far
as an ATA disk is asked for it; the superblock of the root device does not begin at its end; and the
buffer for the superblock, with what it held before behind what is read, has no magic number that the
root device has not. -/
structure BootMeets (disk : Disk) (bytes fresh : ByteMem) : Prop where
  root : hasRoot disk bytes
  found : ∀ x ∈ scanned (disk.read bytes fresh) (bareDisk disk) 0 disk.node, ¬ (disk = .ata ∧ x.Empty)
  asked : ¬ (disk = .ata ∧ rootSize bytes = 0x400 ∧ rootStart bytes + 0x400 ≤ disk.len)
  stale : word (fresh.fill 0 bytes (rootStart bytes + 0x400) (superRead disk bytes)) 56 = 0xEF53 →
    RootExt2 disk bytes

/-! ## What is found on the disk -/

section Found

variable {bytes fresh : ByteMem} {disk : Disk}

theorem diskNode_storage (disk : Disk) : disk.node.flags &&& vfsStorage ≠ 0 := by
  cases disk with
  | ata => decide
  | initrd p len =>
    show (0x104 : BitVec 32) &&& vfsStorage ≠ 0
    decide

/-- A read of the disk. -/
theorem vfsReadNode_disk (read : DeviceRead) (disk : Disk) (offset size : BitVec 64) :
    vfsReadNode read ((bareDisk disk).enter 0).heap 1 0 offset size =
      comeBack (read 0 offset size) := by
  cases disk with
  | ata => rfl
  | initrd p len => rfl

/-- `devfs_add` of the disk is `mdpart_init` on it. -/
theorem addDisk_init {read : DeviceRead} {s' : Devfs} (h : Returns (addDisk read disk) s') :
    ∃ fuel r, mdpartInit read (devfsAdd read fuel) ((bareDisk disk).enter 0) 0 = .ok (r, s') := by
  obtain ⟨fuel, hcall⟩ := h
  obtain ⟨⟨r, s₁⟩, hadd, hret⟩ := bind_ok (hcall (fuel + 1) (Nat.le_succ _))
  cases hret
  change devfsAdd read (fuel + 1) (bareDisk disk) 0 = .ok (r, s') at hadd
  rw [devfsAdd, if_pos (show (bareDisk disk).nodCnt < maxNodes from Nat.succ_pos _)] at hadd
  change (if disk.node.flags &&& vfsStorage ≠ 0 then _ else _) = _ at hadd
  rw [if_pos (diskNode_storage disk)] at hadd
  obtain ⟨⟨r', s₂⟩, hinit, hret⟩ := bind_ok hadd
  cases hret
  exact ⟨fuel, r', hinit⟩

/-- Without a partition, only the disk is entered. -/
theorem addDisk_bare {s' : Devfs} (h : ¬ hasRoot disk bytes)
    (hcall : Returns (addDisk (disk.read bytes fresh) disk) s') : s' = (bareDisk disk).enter 0 := by
  obtain ⟨fuel, r, hinit⟩ := addDisk_init hcall
  by_cases hfirst : disk.There ∧ 512 ≤ disk.len
  · have hread : vfsReadNode (disk.read bytes fresh) ((bareDisk disk).enter 0).heap (0 + 1) 0 0 512 =
        .ok (.ok (512, fresh.fill 0 bytes 0 512)) := by
      rw [vfsReadNode_disk, read_first hfirst.1 hfirst.2]
      rfl
    rw [mdpartInit_table hread] at hinit
    by_cases haccept : mdpartAccepts 512 (fresh.fill 0 bytes 0 512)
    · -- the table is accepted, so its first partition has type 0
      have htype : (partAt (fresh.fill 0 bytes 0 512) 0).type = 0 := by
        rw [partAt_first (by decide)]
        by_contra htype
        exact h ⟨hfirst.1, hfirst.2, accepts_first.mp haccept, htype⟩
      rw [mdpartTable_accepted haccept, mdpartParts, if_pos htype] at hinit
      cases hinit
      rfl
    · obtain ⟨r', -, hret⟩ := @mdpartTable_refused 0 ((bareDisk disk).enter 0) _ _ haccept
      rw [hret] at hinit
      cases hinit
      rfl
  · obtain ⟨answer, hread, hshort⟩ := @read_short bytes fresh disk hfirst
    have hread' : vfsReadNode (disk.read bytes fresh) ((bareDisk disk).enter 0).heap (0 + 1) 0 0 512 =
        .ok answer := by
      rw [vfsReadNode_disk, hread]
      rfl
    rw [mdpartInit_table hread'] at hinit
    cases answer with
    | error e =>
      cases hinit
      rfl
    | ok t =>
      obtain ⟨r', -, hret⟩ := @mdpartTable_refused 0 ((bareDisk disk).enter 0) t.1 t.2
        fun haccept => haccept.1 (hshort t.1 t.2 rfl)
      rw [show mdpartTable (devfsAdd (disk.read bytes fresh) fuel) ((bareDisk disk).enter 0) 0
        (.ok t) = .ok (r', (bareDisk disk).enter 0) from hret _] at hinit
      cases hinit
      rfl

/-- The first round of the loop of `mdpart_init` has entered a node for partition `i`. -/
theorem mdpartParts_enters {read : DeviceRead} {add : Devfs → Nat → Exec (AddResult × Devfs)}
    (hadd : AddsOnly read add) {buf : ByteMem} {s s' : Devfs} {v i : Nat} {is : List Nat} {n : DevNode}
    (hn : s.heap[v]? = some n) (hheap : HeapOk s.heap) (hspace : s.nodCnt < maxNodes)
    (htype : (partAt buf i).type ≠ 0) (hlen : n.name.length < maxNamLen)
    (h : mdpartParts add buf v (i :: is) s = .ok s') :
    s.nodCnt < s'.nodCnt ∧ s'.nodes s.nodCnt = some s.heap.length ∧
      s'.heap[s.heap.length]? = some (mdpartNode n v i (partAt buf i)) := by
  have hnode : s.node v = .ok n := Devfs.node_eq hn
  rw [mdpartParts, if_neg htype, hnode] at h
  change (if n.name.length < maxNamLen then _ else _) = _ at h
  rw [if_pos hlen] at h
  obtain ⟨⟨r, s₂⟩, hcall, hloop⟩ := bind_ok h
  obtain ⟨halloc, hadded, -⟩ := part_added hadd hn hheap (Nat.le_of_lt hspace) hcall
  have hgrown := halloc.trans hadded.toGrown
  have hmore : s.nodCnt < s₂.nodCnt := hadded.entered hspace
  obtain ⟨hrest, -⟩ := mdpartParts_nodes hadd buf (hgrown.node_kept hn) hgrown.parents hgrown.bound
    hloop
  have hself : s₂.nodes s.nodCnt = some s.heap.length := by
    rcases hadded.order s.nodCnt (Nat.le_refl _) hmore with ⟨-, hnode⟩ | ⟨k', p, hk₁, hk₂, -⟩
    · exact hnode
    · exact absurd hk₂ (Nat.not_lt.mpr hk₁)
  refine ⟨Nat.lt_of_lt_of_le hmore hrest.count, ?_, ?_⟩
  · rw [hrest.kept s.nodCnt (Or.inl hmore)]
    exact hself
  · exact hrest.node_kept (hadded.toGrown.node_kept alloc_node)

/-- With a partition, the second entry is the first partition. -/
theorem addDisk_partition {s' : Devfs} (h : hasRoot disk bytes)
    (hcall : Returns (addDisk (disk.read bytes fresh) disk) s') :
    1 < s'.nodCnt ∧ s'.nodes 1 = some 2 ∧
      s'.heap[2]? = some (mdpartNode disk.node 0 0 (partAt bytes 0)) := by
  obtain ⟨hthere, hdisk, haccept, htype⟩ := h
  obtain ⟨fuel, r, hinit⟩ := addDisk_init hcall
  have hread : vfsReadNode (disk.read bytes fresh) ((bareDisk disk).enter 0).heap (0 + 1) 0 0 512 =
      .ok (.ok (512, fresh.fill 0 bytes 0 512)) := by
    rw [vfsReadNode_disk, read_first hthere hdisk]
    rfl
  rw [mdpartInit_table hread, mdpartTable_accepted (accepts_first.mpr haccept)] at hinit
  obtain ⟨s₁, hloop, hret⟩ := bind_ok hinit
  cases hret
  have hlen : disk.node.name.length < maxNamLen := by
    cases disk with
    | ata => exact Nat.le_of_ble_eq_true rfl
    | initrd p len => exact Nat.le_of_ble_eq_true rfl
  have hpart := @partAt_first bytes fresh 0 (by decide)
  rw [← hpart] at htype ⊢
  exact @mdpartParts_enters _ _ (devfsAdd_only (disk.read bytes fresh) fuel) _
    ((bareDisk disk).enter 0) s' 0 0 [1, 2, 3] disk.node rfl
    (devfsReach_ok (bareDisk_reach (disk.read bytes fresh) disk)).1 (Nat.le_of_ble_eq_true rfl) htype
    hlen hloop

/-- The nodes and entries behind the call are in order. -/
theorem addDisk_ok {read : DeviceRead} {s' : Devfs} (h : Returns (addDisk read disk) s') :
    HeapOk s'.heap ∧ NamesOk s' ∧ s'.heap[0]? = some disk.node ∧
      s'.heap[1]? = (bareDisk disk).heap[1]? := by
  have hadded := addDisk_added h
  refine ⟨hadded.parents, namesOk_added hadded rfl (show (bareDisk disk).heap[0]? =
    some disk.node from rfl) ?_, hadded.toGrown.node_kept rfl, hadded.toGrown.node_kept rfl⟩
  cases disk with
  | ata => exact Nat.le_of_ble_eq_true rfl
  | initrd p len => exact Nat.le_of_ble_eq_true rfl

end Found

/-! ## The lookup -/

section Lookup

variable {bytes fresh : ByteMem} {disk : Disk}

/-- `vfs_finddir` on devfs. -/
theorem vfsFinddirNode_devfs {s : Devfs} (h : s.heap[1]? = (bareDisk disk).heap[1]?)
    (name : List (BitVec 8)) (fuel : Nat) :
    vfsFinddirNode s name (fuel + 1) (some 1) = devfsFinddir s name := by
  have hnode : s.node 1 = .ok devfsRoot := Devfs.node_eq h
  rw [vfsFinddirNode, hnode]
  rfl

/-- What `fs_init` looks its root device up in. -/
theorem fsInitLookup_returns {read : DeviceRead} {s' : Devfs} {t : NodePtr}
    (h : Returns (addDisk read disk) s')
    (hfind : devfsFinddir (s'.alloc rootDirectory).2 disk.rnn = .ok t) :
    Returns (fsInitLookup read disk) ⟨(s'.alloc rootDirectory).2, s'.heap.length, t⟩ := by
  obtain ⟨-, -, -, hdevfs⟩ := addDisk_ok h
  obtain ⟨fuel, hcall⟩ := h
  have hnode : (s'.alloc rootDirectory).2.heap[1]? = (bareDisk disk).heap[1]? := by
    rw [← hdevfs]
    have hone : 1 < s'.heap.length := (List.getElem?_eq_some_iff.mp hdevfs).1
    exact List.getElem?_append_left hone
  refine ⟨fuel + 1, fun more hmore => ?_⟩
  obtain ⟨more, rfl⟩ := Nat.exists_eq_add_of_le' (Nat.le_trans (Nat.le_add_left 1 fuel) hmore)
  show (addDisk read disk (more + 1) >>= _) = _
  rw [hcall (more + 1) (by omega)]
  show (vfsFinddirNode (s'.alloc rootDirectory).2 disk.rnn (more + 1) (some 1) >>= _) = _
  rw [vfsFinddirNode_devfs hnode, hfind]
  rfl

/-- It comes to the lookup only when the disk has been added. -/
theorem fsInitLookup_disk {read : DeviceRead} {b : Boot} (h : Returns (fsInitLookup read disk) b) :
    ∃ s', Returns (addDisk read disk) s' := by
  obtain ⟨fuel, hcall⟩ := h
  obtain ⟨s', hdisk, -⟩ := bind_ok (hcall fuel (Nat.le_refl _))
  exact ⟨s', (addDisk_of_ok hdisk).1⟩

/-- The first partition is found under its name. -/
theorem lookup_partition {s' : Devfs} (h : hasRoot disk bytes)
    (hcall : Returns (addDisk (disk.read bytes fresh) disk) s') :
    Returns (fsInitLookup (disk.read bytes fresh) disk)
      ⟨(s'.alloc rootDirectory).2, s'.heap.length, .ok (some 2)⟩ := by
  obtain ⟨hmore, hentry, hnode⟩ := addDisk_partition h hcall
  obtain ⟨-, hnames, -⟩ := addDisk_ok hcall
  have hkept : (s'.alloc rootDirectory).2.heap[2]? =
      some (mdpartNode disk.node 0 0 (partAt bytes 0)) := by
    rw [← hnode]
    exact List.getElem?_append_left (List.getElem?_eq_some_iff.mp hnode).1
  have hfind := devfsFinddir_finds (namesOk_alloc hnames [rootDirectory]) hmore hentry hkept
  have hname : (mdpartNode disk.node 0 0 (partAt bytes 0)).name = disk.rnn := by
    cases disk with
    | ata => rfl
    | initrd p len => rfl
  rw [hname] at hfind
  exact fsInitLookup_returns hcall hfind

/-- Without a partition, the lookup answers with an error code. -/
theorem lookup_missing {s' : Devfs} (h : ¬ hasRoot disk bytes)
    (hcall : Returns (addDisk (disk.read bytes fresh) disk) s') :
    Returns (fsInitLookup (disk.read bytes fresh) disk)
      ⟨(((bareDisk disk).enter 0).alloc rootDirectory).2, 2, .error .enoent⟩ := by
  cases addDisk_bare h hcall
  refine fsInitLookup_returns hcall ?_
  cases disk with
  | ata => rfl
  | initrd p len => rfl

end Lookup

/-! ## The mount -/

section Mount

variable {bytes fresh : ByteMem} {disk : Disk}

/-- The block that `ext2_init` looks at, for a partition on the disk. -/
theorem superblockRead_root {read : DeviceRead} {s : Devfs}
    (hdisk : s.heap[0]? = some disk.node)
    (hroot : s.heap[2]? = some (mdpartNode disk.node 0 0 (partAt bytes 0))) :
    superblockRead read fresh s 2 =
      if rootSize bytes < 0x400 then .ok (superblockAt fresh)
      else comeBack (read 0 (BitVec.ofNat 64 (rootStart bytes + 0x400))
          (BitVec.ofNat 64 (min 1024 (rootSize bytes - 0x400)))) >>= fun
        | .error _ => .ok (superblockAt fresh)
        | .ok (_, buf) => .ok (superblockAt buf) := by
  have hstart := ((partAt bytes 0).firstSector * 512).isLt
  have hsize := ((partAt bytes 0).numSectors * 512).isLt
  have hlen : (((partAt bytes 0).numSectors * 512).setWidth 64).toNat = rootSize bytes := by
    rw [BitVec.toNat_setWidth]
    exact Nat.mod_eq_of_lt (by omega)
  have hdrv : (mdpartNode disk.node 0 0 (partAt bytes 0)).drv = .mdpart := rfl
  have hbelow (offset size : BitVec 64) : vfsReadNode read s.heap 2 0 offset size =
      comeBack (read 0 offset size) := by
    rw [vfsReadNode]
    simp only [hdisk]
    cases disk with
    | ata => rfl
    | initrd p len => rfl
  unfold superblockRead
  rw [vfsReadNode]
  simp only [hroot, hdrv]
  by_cases hlt : rootSize bytes < 0x400
  · have hrefused : mdpartTransfer (some (mdpartNode disk.node 0 0 (partAt bytes 0))) 0x400 1024 =
        .error .einval := by
      refine if_pos ?_
      show (((partAt bytes 0).numSectors * 512).setWidth 64).toNat < 0x400
      rw [hlen]
      exact hlt
    rw [if_pos hlt, hrefused]
    rfl
  · have hle : (0x400 : BitVec 64) ≤ ((partAt bytes 0).numSectors * 512).setWidth 64 := by
      show 0x400 ≤ (((partAt bytes 0).numSectors * 512).setWidth 64).toNat
      rw [hlen]
      omega
    have hclip := clipInt_small hle (show (1024 : BitVec 64).toNat < 2 ^ 31 by decide) (by decide)
    rw [hlen] at hclip
    have hmin : (clipInt (((partAt bytes 0).numSectors * 512).setWidth 64) 0x400 1024).toNat =
        min 1024 (rootSize bytes - 0x400) := hclip
    have hpass := @mdpartTransfer_eq Nat (mdpartNode disk.node 0 0 (partAt bytes 0)) 0 0x400 1024 rfl
      hle
    have hoffset : (0x400 : BitVec 64) + (mdpartNode disk.node 0 0 (partAt bytes 0)).reserved =
        BitVec.ofNat 64 (rootStart bytes + 0x400) := by
      refine BitVec.eq_of_toNat_eq ?_
      show (0x400 + ((partAt bytes 0).firstSector * 512).setWidth 64).toNat = _
      rw [BitVec.toNat_add, BitVec.toNat_setWidth, Nat.mod_eq_of_lt (a := BitVec.toNat _) (by omega),
        BitVec.toNat_ofNat, Nat.add_comm]
      rfl
    have hcount : (clipInt (((partAt bytes 0).numSectors * 512).setWidth 64) 0x400 1024).signExtend 64 =
        BitVec.ofNat 64 (min 1024 (rootSize bytes - 0x400)) := by
      refine BitVec.eq_of_toNat_eq ?_
      rw [signExtend_toNat (by omega), hmin, BitVec.toNat_ofNat, Nat.mod_eq_of_lt (by omega)]
    rw [if_neg hlt, hpass]
    show (vfsReadNode read s.heap 2 0 (0x400 + (mdpartNode disk.node 0 0 (partAt bytes 0)).reserved)
      ((clipInt (((partAt bytes 0).numSectors * 512).setWidth 64) 0x400 1024).signExtend 64) >>= _) = _
    rw [hoffset, hcount, hbelow]

/-- The block for the superblock, when it has been read. -/
def rootBlock (disk : Disk) (bytes fresh : ByteMem) : ByteMem :=
  fresh.fill 0 bytes (rootStart bytes + 0x400) (superRead disk bytes)

theorem rootBlock_unread (h : superRead disk bytes = 0) : rootBlock disk bytes fresh = fresh := by
  unfold rootBlock
  rw [h]
  funext a
  exact ByteMem.fill_apply_out (by omega)

/-- Nothing is read of a superblock on the disk when it begins at the end of the root device. -/
theorem superRead_eq_zero (hsize : ¬ rootSize bytes < 0x400)
    (hlen : rootStart bytes + 0x400 < disk.len) :
    superRead disk bytes = 0 ↔ rootSize bytes = 0x400 := by
  unfold superRead
  omega

/-- An ATA disk that is asked for a superblock at the end of the root device does not answer, and else
the magic number is the one in the block. -/
theorem superblockRead_spec {s : Devfs} (hthere : disk.There) (hdisk : s.heap[0]? = some disk.node)
    (hroot : s.heap[2]? = some (mdpartNode disk.node 0 0 (partAt bytes 0))) :
    (disk = .ata ∧ rootSize bytes = 0x400 ∧ rootStart bytes + 0x400 ≤ disk.len →
      superblockRead (disk.read bytes fresh) fresh s 2 = .error .running) ∧
    (¬ (disk = .ata ∧ rootSize bytes = 0x400 ∧ rootStart bytes + 0x400 ≤ disk.len) →
      ∃ block, superblockRead (disk.read bytes fresh) fresh s 2 = .ok block ∧
        block.magic = word (rootBlock disk bytes fresh) 56) := by
  have hstart : rootStart bytes < 2 ^ 32 := ((partAt bytes 0).firstSector * 512).isLt
  have hwhole : (rootStart bytes + 0x400) % 512 = 0 := by
    unfold rootStart
    rw [BitVec.toNat_mul, show (512 : BitVec 32).toNat = 512 from rfl]
    omega
  have hoffset : (BitVec.ofNat 64 (rootStart bytes + 0x400)).toNat = rootStart bytes + 0x400 := by
    rw [BitVec.toNat_ofNat, Nat.mod_eq_of_lt (by omega)]
  have hsize : (BitVec.ofNat 64 (min 1024 (rootSize bytes - 0x400))).toNat =
      min 1024 (rootSize bytes - 0x400) := by
    rw [BitVec.toNat_ofNat, Nat.mod_eq_of_lt (by omega)]
  have hcount : disk.count (BitVec.ofNat 64 (rootStart bytes + 0x400))
      (BitVec.ofNat 64 (min 1024 (rootSize bytes - 0x400))) = superRead disk bytes := by
    unfold Disk.count superRead
    rw [hoffset, hsize]
  rw [superblockRead_root hdisk hroot]
  by_cases hlt : rootSize bytes < 0x400
  · -- the partition ends before the superblock
    have hnone : superRead disk bytes = 0 := by
      unfold superRead
      omega
    refine ⟨fun h => absurd h.2.1 (Nat.ne_of_lt hlt), fun _ => ⟨_, if_pos hlt, ?_⟩⟩
    rw [rootBlock_unread hnone]
    rfl
  · rw [if_neg hlt]
    by_cases hon : rootStart bytes + 0x400 ≤ disk.len
    · obtain ⟨hstuck, hread⟩ := @Disk.read_whole bytes fresh
        (BitVec.ofNat 64 (rootStart bytes + 0x400))
        (BitVec.ofNat 64 (min 1024 (rootSize bytes - 0x400))) disk 0 hthere
        (by rw [hoffset]; exact hon) (by rw [hoffset]; omega) (by rw [hoffset]; exact hwhole)
        (by rw [hsize]; exact Nat.min_le_left _ _)
      have hzero : disk = .ata → (superRead disk bytes = 0 ↔ rootSize bytes = 0x400) := by
        intro hata
        refine superRead_eq_zero hlt (Nat.lt_of_le_of_ne hon fun heq => ?_)
        rw [heq, hata] at hwhole
        exact absurd hwhole (by decide)
      rw [hcount] at hstuck hread
      constructor
      · intro h
        rw [hstuck ⟨h.1, (hzero h.1).mpr h.2.1⟩]
        rfl
      · intro h
        obtain ⟨count, hc, hanswer⟩ := hread fun hboth =>
          h ⟨hboth.1, (hzero hboth.1).mp hboth.2, hon⟩
        rw [hanswer]
        refine ⟨_, rfl, ?_⟩
        rw [hoffset, hc]
        rfl
    · obtain ⟨e, hanswer⟩ := @Disk.read_refused bytes fresh
        (BitVec.ofNat 64 (rootStart bytes + 0x400))
        (BitVec.ofNat 64 (min 1024 (rootSize bytes - 0x400))) disk 0
        fun _ => by
          rw [hoffset]
          exact Nat.lt_of_not_le hon
      have hnone : superRead disk bytes = 0 := by
        unfold superRead
        omega
      refine ⟨fun h => absurd h.2.2 hon, fun _ => ?_⟩
      rw [hanswer]
      refine ⟨_, rfl, ?_⟩
      rw [rootBlock_unread hnone]
      rfl

/-- What `vfs_mount` makes of the node, by the magic number. -/
theorem vfsMountNode_root {read : DeviceRead} (super : Addr) {s : Devfs} {v w : Nat}
    {block : Ext2Superblock} (hw : s.heap[w]? = some rootDirectory)
    (hblock : superblockRead read fresh s v = .ok block) :
    vfsMountNode read fresh super s (.ok (some v)) (some w) =
      if block.magic = 0xEF53 then
        .ok (.ok (), { s with
          heap := (s.heap ++ [ext2Root super (some v)]).set w (rootDirectory.mountOn (some s.heap.length)) })
      else .ok (.error .exdev, s) := by
  have hnode : s.node w = .ok rootDirectory := Devfs.node_eq hw
  unfold vfsMountNode
  dsimp only
  rw [hnode]
  show (vfsInitFsNode read fresh super s (.ok (some v)) >>= _) = _
  rw [vfsInitFsNode, hblock]
  show ((if block.magic = 0xEF53 then _ else _ : Exec (Option Nat × Devfs)) >>= _) = _
  by_cases hmagic : block.magic = 0xEF53
  · rw [if_pos hmagic, if_pos hmagic]
    rfl
  · rw [if_neg hmagic, if_neg hmagic]
    rfl

/-- A device whose superblock is not read does not let `vfs_mount` come back. -/
theorem vfsMountNode_stuck {read : DeviceRead} (super : Addr) {s : Devfs} {v w : Nat}
    (hw : s.heap[w]? = some rootDirectory) {e : Stop}
    (hblock : superblockRead read fresh s v = .error e) :
    vfsMountNode read fresh super s (.ok (some v)) (some w) = .error e := by
  have hnode : s.node w = .ok rootDirectory := Devfs.node_eq hw
  unfold vfsMountNode
  dsimp only
  rw [hnode]
  show (vfsInitFsNode read fresh super s (.ok (some v)) >>= _) = _
  rw [vfsInitFsNode, hblock]
  rfl

end Mount

/-! ## A clean start -/

section Clean

variable {bytes fresh : ByteMem} {disk : Disk}

/-- The root device is shorter than the superblock where the superblock begins at its end. -/
theorem not_ext2_of_short (h : rootSize bytes = 0x400) : ¬ RootExt2 disk bytes := by
  intro hext
  have hsize := hext.size
  omega

/-- The node of the disk and the first partition, when `fs_init` has made the root directory. -/
theorem root_nodes {s' : Devfs} (h : hasRoot disk bytes)
    (hcall : Returns (addDisk (disk.read bytes fresh) disk) s') :
    (s'.alloc rootDirectory).2.heap[0]? = some disk.node ∧
      (s'.alloc rootDirectory).2.heap[2]? = some (mdpartNode disk.node 0 0 (partAt bytes 0)) := by
  obtain ⟨-, -, hdisk, -⟩ := addDisk_ok hcall
  obtain ⟨-, -, hnode⟩ := addDisk_partition h hcall
  constructor
  · rw [← hdisk]
    exact List.getElem?_append_left (List.getElem?_eq_some_iff.mp hdisk).1
  · rw [← hnode]
    exact List.getElem?_append_left (List.getElem?_eq_some_iff.mp hnode).1

/-- With a start that meets the condition, a start is clean. -/
theorem boot_clean (super : Addr) (h : BootMeets disk bytes fresh) :
    BootClean disk bytes fresh super := by
  obtain ⟨s', hcall⟩ := (addDisk_returns (disk.read bytes fresh) disk).mpr
    ((disk_answers_iff bytes fresh disk).mpr h.found)
  obtain ⟨hdisk, hroot⟩ := root_nodes h.root hcall
  have hfound : 2 < (s'.alloc rootDirectory).2.heap.length := (List.getElem?_eq_some_iff.mp hroot).1
  have hw : (s'.alloc rootDirectory).2.heap[s'.heap.length]? = some rootDirectory := alloc_node
  refine ⟨_, lookup_partition h.root hcall, Or.inr ⟨2, rfl, hfound⟩, fun hnot => ?_⟩
  obtain ⟨block, hblock, hmagic⟩ := (@superblockRead_spec bytes fresh disk _ h.root.1 hdisk hroot).2
    h.asked
  have hmount := vfsMountNode_root super hw hblock
  rw [if_neg fun heq => hnot (h.stale (hmagic.symm.trans heq))] at hmount
  exact ⟨_, _, rootDirectory, hmount, hw, rfl, rfl⟩

/-- A clean start meets it. -/
theorem meets_of_clean {super : Addr} (h : BootClean disk bytes fresh super) :
    BootMeets disk bytes fresh := by
  obtain ⟨b, hlookup, hsound, hmount⟩ := h
  obtain ⟨s', hcall⟩ := fsInitLookup_disk hlookup
  have hroot : hasRoot disk bytes := by
    by_contra hnone
    cases returns_unique hlookup (lookup_missing hnone hcall)
    rcases hsound with hnull | ⟨v, hv, -⟩
    · cases hnull
    · cases hv
  cases returns_unique hlookup (lookup_partition hroot hcall)
  obtain ⟨hdisk, hnode⟩ := root_nodes hroot hcall
  have hw : (s'.alloc rootDirectory).2.heap[s'.heap.length]? = some rootDirectory := alloc_node
  have hspec := @superblockRead_spec bytes fresh disk _ hroot.1 hdisk hnode
  have hasked : ¬ (disk = .ata ∧ rootSize bytes = 0x400 ∧ rootStart bytes + 0x400 ≤ disk.len) := by
    intro hstuck
    obtain ⟨r, s'', n, hret, -⟩ := hmount (not_ext2_of_short hstuck.2.1)
    rw [vfsMountNode_stuck super hw (hspec.1 hstuck)] at hret
    cases hret
  refine ⟨hroot, (disk_answers_iff bytes fresh disk).mp
    ((addDisk_returns (disk.read bytes fresh) disk).mp ⟨s', hcall⟩), hasked, fun hmagic => ?_⟩
  by_contra hnot
  -- a mounted root directory is a mount point
  obtain ⟨block, hblock, hsame⟩ := hspec.2 hasked
  obtain ⟨r, s'', n, hret, hn, hflags, -⟩ := hmount hnot
  have hmounted := vfsMountNode_root super hw hblock
  rw [if_pos (hsame.trans hmagic)] at hmounted
  cases hret.symm.trans hmounted
  have hset : (((s'.alloc rootDirectory).2.heap ++ [ext2Root super (some 2)]).set s'.heap.length
      (rootDirectory.mountOn (some (s'.alloc rootDirectory).2.heap.length)))[s'.heap.length]? =
        some (rootDirectory.mountOn (some (s'.alloc rootDirectory).2.heap.length)) := by
    refine List.getElem?_set_self ?_
    have hlt := alloc_lt s' rootDirectory
    rw [List.length_append]
    omega
  have hsame := Option.some.inj (hn.symm.trans hset)
  rw [hsame] at hflags
  exact absurd (show vfsDirectory ||| vfsMountpoint = vfsDirectory from hflags) (by decide)

/-- `fs_init` has `vfs_mount` take a sound pointer, and leaves the root directory alone where the root
device is missing or no ext2 volume, just when the disk and the buffer for the superblock meet the
condition. -/
theorem boot_clean_iff (disk : Disk) (bytes fresh : ByteMem) (super : Addr) :
    BootClean disk bytes fresh super ↔ BootMeets disk bytes fresh :=
  ⟨meets_of_clean, boot_clean super⟩

/-- A disk of zeros. -/
theorem blank_disk_unclean : ¬ BootClean .ata (fun _ => 0) (fun _ => 0) 0 := by
  intro h
  have htype := (meets_of_clean h).root.2.2.2
  exact htype rfl

end Clean

end OS64.Fs
