import OS64.Fs.Initrd
import OS64.Fs.Ext2

/-!
# Device discovery

`devfs_add` enters a node in the table `nodes` and, when it stores something, looks for a
partition table on it. `mdpart_init` makes a node for each partition and has `devfs_add` enter
it, which looks for a partition table on the partition, and so on: what ends it is that the
table gets full.

The nodes that `vfs_alloc_node` has handed out are a list, and a pointer to a node is its place
there. A partition points to the node it was found on, so a read at a partition is passed from
node to node down to a device with another driver. What such a device answers is the parameter
`read`: a count and the bytes that are in the buffer then, or an error code, or nothing, when the
call does not come back.
-/

namespace OS64.Fs

open OS64.Lib (ByteMem)

/-- `MAXNODES`. -/
def maxNodes : Nat := 100

/-- `MAXNAMLEN`. -/
def maxNamLen : Nat := 255

/-- `VFS_STORAGE`. -/
def vfsStorage : BitVec 32 := 0x100

/-- A node of devfs: `ptr` is the node that a partition was found on. -/
abbrev DevNode := VfsNode (BitVec 64) (Option Nat)

/-- The nodes handed out, and the table with its counter. What lies behind the table in memory
continues it. -/
structure Devfs where
  heap : List DevNode
  nodes : Nat → Option Nat
  nodCnt : Nat

/-- What a device that is no partition answers to a `vfs_read`, if it comes back. -/
abbrev DeviceRead := Nat → BitVec 64 → BitVec 64 → Option (Except Errno (BitVec 64 × ByteMem))

/-- `*v`. -/
def Devfs.node (s : Devfs) (v : Nat) : Exec DevNode :=
  match s.heap[v]? with
  | none => .error .dangling
  | some n => .ok n

theorem Devfs.node_eq {s : Devfs} {v : Nat} {n : DevNode} (h : s.heap[v]? = some n) :
    s.node v = .ok n := by
  rw [Devfs.node]
  simp only [h]

/-- `vfs_alloc_node`, and the fields that are stored then. -/
def Devfs.alloc (s : Devfs) (n : DevNode) : Nat × Devfs :=
  (s.heap.length, { s with heap := s.heap ++ [n] })

/-- `nodes[nod_cnt] = v; nod_cnt++`. -/
def Devfs.enter (s : Devfs) (v : Nat) : Devfs :=
  { s with nodes := fun k => if k = s.nodCnt then some v else s.nodes k, nodCnt := s.nodCnt + 1 }

/-- A call that does not come back is not done with any fuel. -/
def comeBack {α : Type} : Option α → Exec α
  | none => .error .running
  | some a => .ok a

/-- `vfs_read` with `mdpart_read` below it. -/
def vfsReadNode (read : DeviceRead) (heap : List DevNode) :
    Nat → Nat → BitVec 64 → BitVec 64 → Exec (Except Errno (BitVec 64 × ByteMem))
  | 0, _, _, _ => .error .running
  | fuel + 1, v, offset, size =>
    match heap[v]? with
    | none => .error .dangling
    | some n =>
      match n.drv with
      | .null => .ok (.error .ebadf)
      | .mdpart =>
        match mdpartTransfer (some n) offset size with
        | .error e => .ok (.error e)
        | .ok t => vfsReadNode read heap fuel t.device t.offset t.size
      | _ => comeBack (read v offset size)

/-! ## The partition table -/

/-- `partition`, the fields that are used. -/
structure Partition where
  active : BitVec 8
  type : BitVec 8
  firstSector : BitVec 32
  numSectors : BitVec 32

/-- `buf.parts[i]`. -/
def partAt (buf : ByteMem) (i : Nat) : Partition where
  active := buf (446 + 16 * i)
  type := buf (446 + 16 * i + 4)
  firstSector := dword buf (446 + 16 * i + 8)
  numSectors := dword buf (446 + 16 * i + 12)

/-- The node for partition `i` of the node `v`. The products are of 32 bits. -/
def mdpartNode (n : DevNode) (v i : Nat) (part : Partition) : DevNode where
  name := n.name ++ [BitVec.ofNat 8 (i + 0x30)]
  rights := 660
  flags := 0x104
  uid := 0
  gid := 0
  inode := 0
  length := (part.numSectors * 512).setWidth 64
  reserved := (part.firstSector * 512).setWidth 64
  drv := .mdpart
  ptr := some v

/-- What `devfs_add` returns: 0, `ENFILE`, or nothing, when it ends without a `return`. -/
inductive AddResult
  | added
  | enfile
  | unspecified
  deriving DecidableEq

/-- The second loop of `mdpart_init`, over the partitions `is`. -/
def mdpartParts (add : Devfs → Nat → Exec (AddResult × Devfs)) (buf : ByteMem) (v : Nat) :
    List Nat → Devfs → Exec Devfs
  | [], s => .ok s
  | i :: is, s =>
    if (partAt buf i).type = 0 then .ok s
    else do
      let n ← s.node v
      if n.name.length < maxNamLen then
        let (c, s₁) := s.alloc (mdpartNode n v i (partAt buf i))
        let (_, s₂) ← add s₁ c
        mdpartParts add buf v is s₂
      else mdpartParts add buf v is s

/-- The table is accepted. `active&(~MDPART_ACTIVE) != 0` is `active & 1`, since `!=` binds
tighter than `&`. -/
def mdpartAccepts (count : BitVec 64) (buf : ByteMem) : Prop :=
  ¬ (count.setWidth 32).slt 512 ∧ word buf 510 = 0xAA55 ∧
    ∀ i ∈ [0, 1, 2, 3], (partAt buf i).active &&& 1 = 0

instance (count : BitVec 64) (buf : ByteMem) : Decidable (mdpartAccepts count buf) :=
  inferInstanceAs (Decidable (_ ∧ _ ∧ _))

/-- `mdpart_init`, with the `devfs_add` that it calls. An error code of the read is less than
512 as well. -/
def mdpartInit (read : DeviceRead) (add : Devfs → Nat → Exec (AddResult × Devfs)) (s : Devfs)
    (v : Nat) : Exec (Int × Devfs) := do
  match ← vfsReadNode read s.heap (v + 1) v 0 512 with
  | .error _ => .ok (-1, s)
  | .ok (count, buf) =>
    if (count.setWidth 32).slt 512 ∨ word buf 510 ≠ 0xAA55 then .ok (-1, s)
    else if ∃ i ∈ [0, 1, 2, 3], (partAt buf i).active &&& 1 ≠ 0 then .ok (-2, s)
    else
      let s' ← mdpartParts add buf v [0, 1, 2, 3] s
      .ok (0, s')

/-- `devfs_add`. -/
def devfsAdd (read : DeviceRead) : Nat → Devfs → Nat → Exec (AddResult × Devfs)
  | 0, _, _ => .error .running
  | fuel + 1, s, v =>
    if s.nodCnt < maxNodes then do
      let n ← (s.enter v).node v
      if n.flags &&& vfsStorage ≠ 0 then
        let (_, s') ← mdpartInit read (devfsAdd read fuel) (s.enter v) v
        .ok (.added, s')
      else .ok (.unspecified, s.enter v)
    else .ok (.enfile, s)

/-- `ata_init`. -/
def ataInit : DevNode where
  name := [0x61, 0x74, 0x61]
  rights := 660
  flags := 0x104
  uid := 0
  gid := 0
  inode := 0
  length := 0xFFFFFFFF
  reserved := -1
  drv := .ata
  ptr := none

/-- `tty_init`. -/
def ttyInit : DevNode where
  name := [0x74, 0x74, 0x79]
  rights := 660
  flags := 0x84
  uid := 0
  gid := 0
  inode := 0
  length := 0
  reserved := 0
  drv := .tty
  ptr := none

/-- The node that `devfs_init` makes. -/
def devfsRoot : DevNode where
  name := [0x64, 0x65, 0x76, 0x66, 0x73]
  rights := 770
  flags := vfsDirectory
  uid := 0
  gid := 0
  inode := 0
  length := 0
  reserved := 0
  drv := .devfs
  ptr := none

/-- `devfs_init`: the table is emptied, and the node of the file system made. -/
def devfsInit (s : Devfs) : Nat × Devfs := { s with nodCnt := 0 }.alloc devfsRoot

/-- `strncmp(s, t, n) == 0`, for strings without null characters. -/
def strncmpSame (n : Nat) (s t : List (BitVec 8)) : Bool := s.take n == t.take n

/-- The loop of `devfs_finddir`, with so many entries left from entry `i` on. -/
def devfsFinddirLoop (s : Devfs) (name : List (BitVec 8)) :
    Nat → Nat → Exec (Except Errno (Option Nat))
  | 0, _ => .ok (.error .enoent)
  | left + 1, i =>
    match s.nodes i with
    | none => .error .dangling
    | some v => do
      let n ← s.node v
      if strncmpSame maxNamLen name n.name then .ok (.ok (some v))
      else devfsFinddirLoop s name left (i + 1)

/-- `devfs_finddir`. -/
def devfsFinddir (s : Devfs) (name : List (BitVec 8)) : Exec (Except Errno (Option Nat)) :=
  devfsFinddirLoop s name s.nodCnt 0

end OS64.Fs
