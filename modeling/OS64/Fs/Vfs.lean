import OS64.Lib.Chase

/-!
# The virtual file system

A node names its driver and carries two words the driver is free to use, `reserved`
and `ptr`. `ptr` is also the mount link: `vfs_mount` sets `VFS_MOUNTPOINT` in the
flags of a directory and points its `ptr` at the root of the file system it mounts,
and `vfs_readdir` and `vfs_finddir` pass through such a node to what `ptr` points at.

The type of nodes is open in what the two words point to. Here they are addresses,
and the nodes lie in the heap `kmalloc` hands out, next to the superblocks that an
ext2 root holds on to; `kfree` takes an object off the heap, whatever it is. The
driver modules use the same nodes with the things themselves in place of addresses.

A call that runs out of fuel, follows a pointer to nothing, leaves its buffer or
divides by zero stops there: `Stop`.
-/

namespace OS64.Fs

/-- A pointer. -/
abbrev Addr := BitVec 64

/-- Why a call does not return. -/
inductive Stop
  | running
  | dangling
  | outOfBounds
  | divideError
  deriving DecidableEq

/-- The outcome of a call. -/
abbrev Exec := Except Stop

/-- A call that returns, given enough fuel. -/
def Returns {α : Type} (call : Nat → Exec α) (a : α) : Prop :=
  ∃ n, ∀ fuel, n ≤ fuel → call fuel = .ok a

theorem returns_unique {α : Type} {call : Nat → Exec α} {a b : α} (ha : Returns call a)
    (hb : Returns call b) : a = b := by
  obtain ⟨n, hn⟩ := ha
  obtain ⟨n', hn'⟩ := hb
  have hsame := (hn (max n n') (Nat.le_max_left n n')).symm.trans
    (hn' (max n n') (Nat.le_max_right n n'))
  cases hsame
  rfl

theorem bind_ok {α β : Type} {x : Exec α} {f : α → Exec β} {b : β} (h : x >>= f = .ok b) :
    ∃ a, x = .ok a ∧ f a = .ok b := by
  cases x with
  | error e => cases h
  | ok a => exact ⟨a, rfl, h⟩

/-- A C string: bytes of which none is null, with the null byte behind them left out. -/
structure CString where
  bytes : List (BitVec 8)
  nonzero : 0 ∉ bytes

/-- The error codes of `errno.h`. -/
inductive Errno
  | einval
  | ebadf
  | enotdir
  | ebusy
  | exdev
  | enoent
  deriving DecidableEq

/-- `VFS_DIRECTORY`. -/
def vfsDirectory : BitVec 32 := 0x02

/-- `VFS_MOUNTPOINT`. -/
def vfsMountpoint : BitVec 32 := 0x40

/-- The drivers, each the address of its `vfs_driver_t`; `null` is no driver. -/
inductive Drv
  | null
  | ext2
  | mdpart
  | initrd
  | ata
  | devfs
  | tty
  deriving DecidableEq

/-- `vfs_node_t`, with `reserved` and `ptr` pointing to a `ρ` and a `δ`. -/
structure VfsNode (ρ δ : Type) where
  name : List (BitVec 8)
  rights : BitVec 32
  flags : BitVec 32
  uid : BitVec 64
  gid : BitVec 64
  inode : BitVec 64
  length : BitVec 64
  reserved : ρ
  drv : Drv
  ptr : δ

section Node

variable {ρ δ : Type}

/-- `node->flags & VFS_DIRECTORY`. -/
def VfsNode.isDir (n : VfsNode ρ δ) : Bool := n.flags &&& vfsDirectory != 0

/-- `node->flags & VFS_MOUNTPOINT`. -/
def VfsNode.isMount (n : VfsNode ρ δ) : Bool := n.flags &&& vfsMountpoint != 0

/-- `node->flags |= VFS_MOUNTPOINT; node->ptr = v`. -/
def VfsNode.mountOn (n : VfsNode ρ δ) (v : δ) : VfsNode ρ δ :=
  { n with flags := n.flags ||| vfsMountpoint, ptr := v }

/-- The root node that `ext2_init` makes. -/
def ext2Root (super : ρ) (device : δ) : VfsNode ρ δ where
  name := []
  rights := 0
  flags := vfsDirectory
  uid := 0
  gid := 0
  inode := 2
  length := 0
  reserved := super
  drv := .ext2
  ptr := device

theorem ext2Root_isDir (super : ρ) (device : δ) : (ext2Root super device).isDir = true := by
  show (vfsDirectory &&& vfsDirectory != 0) = true
  decide

theorem ext2Root_isMount (super : ρ) (device : δ) : (ext2Root super device).isMount = false := by
  show (vfsDirectory &&& vfsMountpoint != 0) = false
  decide

theorem mountOn_isMount (n : VfsNode ρ δ) (v : δ) : (n.mountOn v).isMount = true := by
  have hbit : (n.flags ||| vfsMountpoint) &&& vfsMountpoint = vfsMountpoint := by
    ext i hi
    rw [BitVec.getElem_and, BitVec.getElem_or]
    cases n.flags[i] <;> cases vfsMountpoint[i] <;> rfl
  show ((n.flags ||| vfsMountpoint) &&& vfsMountpoint != 0) = true
  rw [hbit]
  decide

theorem mountOn_isDir (n : VfsNode ρ δ) (v : δ) : (n.mountOn v).isDir = n.isDir := by
  have hbit : (n.flags ||| vfsMountpoint) &&& vfsDirectory = n.flags &&& vfsDirectory := by
    rw [BitVec.and_or_distrib_right, show vfsMountpoint &&& vfsDirectory = 0#32 by decide,
      BitVec.or_zero]
  show ((n.flags ||| vfsMountpoint) &&& vfsDirectory != 0) = _
  rw [hbit]
  rfl

end Node

/-- What `kmalloc` handed out and `kfree` has not taken back. -/
inductive Obj
  | node (n : VfsNode Addr Addr)
  | super

/-- The heap, seen through the objects the file systems keep there. -/
abbrev Heap := Addr → Option Obj

/-- `*a = o`, or a block at `a` handed out. -/
def Heap.set (h : Heap) (a : Addr) (o : Obj) : Heap := fun b => if b = a then some o else h b

/-- `kfree(a)`. -/
def Heap.kfree (h : Heap) (a : Addr) : Heap := fun b => if b = a then none else h b

/-- The node at `a`. -/
def Heap.node (h : Heap) (a : Addr) : Exec (VfsNode Addr Addr) :=
  match h a with
  | some (.node n) => .ok n
  | _ => .error .dangling

/-! ## Descending through mount points -/

/-- `vfs_readdir` and `vfs_finddir`, with `call` the function that the driver has for
them, applied to the index or the name. -/
def vfsDescend {ε : Type} (h : Heap) (call : Drv → Option (Addr → Except Errno ε)) :
    Nat → Addr → Exec (Except Errno ε)
  | 0, _ => .error .running
  | fuel + 1, a =>
    if a = 0 then .ok (.error .ebadf)
    else
      match h.node a with
      | .error stop => .error stop
      | .ok n =>
        if n.isDir then
          if n.isMount then vfsDescend h call fuel n.ptr
          else
            match call n.drv with
            | some f => .ok (f a)
            | none => .ok (.error .ebadf)
        else .ok (.error .ebadf)

/-- `vfs_readdir`. -/
def vfsReaddir {ε : Type} (h : Heap)
    (readdir : Drv → Option (Addr → BitVec 64 → Except Errno ε)) (fuel : Nat) (node : Addr)
    (index : BitVec 64) : Exec (Except Errno ε) :=
  vfsDescend h (fun d => (readdir d).map fun f a => f a index) fuel node

/-- `vfs_finddir`. -/
def vfsFinddir {ε : Type} (h : Heap)
    (finddir : Drv → Option (Addr → CString → Except Errno ε)) (fuel : Nat) (node : Addr)
    (name : CString) : Exec (Except Errno ε) :=
  vfsDescend h (fun d => (finddir d).map fun f a => f a name) fuel node

/-- The same with the node itself at hand. `mounted` is the call on what a mount point points to. -/
def vfsFinddirAt {ρ δ ε : Type} (mounted : δ → Exec (Except Errno ε))
    (finddir : Drv → Option (VfsNode ρ δ → Exec (Except Errno ε))) (node : Option (VfsNode ρ δ)) :
    Exec (Except Errno ε) :=
  match node with
  | none => .ok (.error .ebadf)
  | some n =>
    if n.isDir then
      if n.isMount then mounted n.ptr
      else
        match finddir n.drv with
        | some f => f n
        | none => .ok (.error .ebadf)
    else .ok (.error .ebadf)

/-! ## Mounting -/

/-- `vfs_init_fs`. `probe` is how `ext2_init` fares: nothing when the device holds no
ext2 volume, else the blocks it gets for the superblock and for the root node.
`fat32_init` finds nothing. -/
def vfsInitFs (h : Heap) (node : Addr) (probe : Option (Addr × Addr)) : Addr × Heap :=
  match probe with
  | none => (0, h)
  | some (super, root) => (root, (h.set super .super).set root (.node (ext2Root super node)))

/-- `vfs_fini_fs`, with `ext2_fini` and `tty_fini`; the other drivers have none. -/
def vfsFiniFs (h : Heap) (node : Addr) : Exec (Except Errno Unit × Heap) :=
  if node = 0 then .ok (.error .einval, h)
  else do
    let n ← h.node node
    match n.drv with
    | .ext2 => .ok (.ok (), (h.kfree n.reserved).kfree node)
    | .tty => .ok (.ok (), h.kfree node)
    | _ => .ok (.error .einval, h)

/-- `vfs_mount`. -/
def vfsMount (h : Heap) (what whereNode : Addr) (probe : Option (Addr × Addr)) :
    Exec (Except Errno Unit × Heap) :=
  if what = 0 ∨ whereNode = 0 then .ok (.error .einval, h)
  else do
    let n ← h.node whereNode
    if !n.isDir then .ok (.error .enotdir, h)
    else if n.isMount then .ok (.error .ebusy, h)
    else
      let (v, h₁) := vfsInitFs h what probe
      if v = 0 then .ok (.error .exdev, h₁)
      else do
        let n₁ ← h₁.node whereNode
        .ok (.ok (), h₁.set whereNode (.node (n₁.mountOn v)))

/-- `vfs_umount`. -/
def vfsUmount (h : Heap) (node : Addr) : Exec (Except Errno Unit × Heap) :=
  if node = 0 then .ok (.error .einval, h)
  else do
    let n ← h.node node
    if !n.isDir then .ok (.error .enotdir, h)
    else if !n.isMount then .ok (.error .enoent, h)
    else do
      let (res, h₁) ← vfsFiniFs h n.ptr
      let n₁ ← h₁.node node
      .ok (res, h₁.set node (.node { n₁ with ptr := 0 }))

end OS64.Fs
