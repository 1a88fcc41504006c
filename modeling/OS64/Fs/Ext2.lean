import OS64.Fs.Vfs
import OS64.Lib.ByteMem

/-!
# The ext2 driver

An ext2 node holds on to the superblock of its volume (`reserved`) and to the device the
volume is on (`ptr`), and everything else is read from the device when it is asked for:
the group descriptor and the inode, the blocks of a file through the inode's direct and
indirect pointers, the records of a directory. The device is a memory of bytes, and
`vfs_read` on it delivers what it is asked for.

Integers have the widths the C code gives them. `BLKSZ` is an `int`, which an `uint32_t`
factor turns into 32 bits without a sign and an `unsigned long` one into 64 bits with it;
its shift count is taken modulo 32, as the processor does.

`kmalloc` gives every buffer a call asks for. What a buffer holds before it is written is
part of the input (`Fresh`), and so is what lies behind its end, where the fields of a
record shorter than the C structure come from. Table and directory buffers are read with
their bounds checked.
-/

namespace OS64.Fs

open OS64.Lib (ByteMem)

/-- The `uint16_t` at `a`. -/
def word (m : ByteMem) (a : Nat) : BitVec 16 := BitVec.ofNat 16 (m.read a 2)

/-- The `uint32_t` at `a`. -/
def dword (m : ByteMem) (a : Nat) : BitVec 32 := BitVec.ofNat 32 (m.read a 4)

/-- The bytes that the blocks `kmalloc` hands out hold, in the order of the calls. -/
abbrev Fresh := Nat → ByteMem

/-! ## The structures on the volume -/

/-- `ext2_superblock`, the fields that are used. -/
structure Ext2Superblock where
  inodesNum : BitVec 32
  blocksNum : BitVec 32
  sblockNum : BitVec 32
  blockSize : BitVec 32
  indInGrp : BitVec 32
  magic : BitVec 16
  verMajor : BitVec 32
  inodeSize : BitVec 16

/-- The superblock in a buffer. -/
def superblockAt (m : ByteMem) : Ext2Superblock where
  inodesNum := dword m 0
  blocksNum := dword m 4
  sblockNum := dword m 20
  blockSize := dword m 24
  indInGrp := dword m 40
  magic := word m 56
  verMajor := dword m 76
  inodeSize := word m 88

/-- An ext2 node, with the superblock and the device it points to. -/
abbrev Ext2Node := VfsNode Ext2Superblock ByteMem

section Inode

variable (i : ByteMem)

/-- `in->type_perm`. -/
def typePerm : BitVec 16 := word i 0

/-- `in->uid`. -/
def inodeUid : BitVec 16 := word i 2

/-- `in->size_low`. -/
def sizeLow : BitVec 32 := dword i 4

/-- `in->gid`. -/
def inodeGid : BitVec 16 := word i 24

/-- `in->direct[k]`. -/
def direct (k : Nat) : BitVec 32 := dword i (40 + 4 * k)

/-- `in->s_indirect`. -/
def sIndirect : BitVec 32 := dword i 88

/-- `in->d_indirect`. -/
def dIndirect : BitVec 32 := dword i 92

/-- `in->size_hi`. -/
def sizeHi : BitVec 32 := dword i 108

/-- `SIZE(in)`. -/
def ext2Size : BitVec 64 := (sizeLow i).setWidth 64 ||| ((sizeHi i).setWidth 64 <<< 32)

end Inode

/-! ## Positions -/

/-- The range of a `vfs_read`. -/
structure Request where
  offset : BitVec 64
  size : BitVec 64

/-- `vfs_read` into a buffer, from its byte `dst` on. -/
def vfsRead (device : ByteMem) (r : Request) (buffer : ByteMem) (dst : Nat) : ByteMem :=
  buffer.fill dst device r.offset.toNat r.size.toNat

section Position

variable (super : Ext2Superblock)

/-- `BLKSZ(super)`. -/
def blksz : BitVec 32 := (1024 : BitVec 32) <<< (super.blockSize.toNat % 32)

/-- `BLKSZ(super)` where an `unsigned long` is needed. -/
def blkszLong : BitVec 64 := (blksz super).signExtend 64

/-- `bg`, the group of an inode. -/
def inodeGroup (inode : BitVec 64) : BitVec 32 :=
  ((inode - 1) / super.indInGrp.setWidth 64).setWidth 32

/-- `id`, the number of an inode in its group. -/
def inodeIndex (inode : BitVec 64) : BitVec 32 :=
  ((inode - 1) % super.indInGrp.setWidth 64).setWidth 32

/-- Where the descriptor of the inode's group is read. -/
def descRequest (inode : BitVec 64) : Request where
  offset := (blksz super * (super.sblockNum + 1)).setWidth 64 +
    (inodeGroup super inode).setWidth 64 * 32
  size := 32

/-- Where the inode is read, `inodeSt` being the first block of the group's table. -/
def inodeRequest (inodeSt : BitVec 32) (inode : BitVec 64) : Request where
  offset := (inodeSt * blksz super +
    inodeIndex super inode * super.inodeSize.setWidth 32).setWidth 64
  size := super.inodeSize.setWidth 64

/-- Where `ext2_read_inode_data` reads a block. -/
def directRequest (block : BitVec 32) : Request where
  offset := (block * blksz super).setWidth 64
  size := blkszLong super

/-- Where `ext2_read_block_data` reads part of a block. -/
def blockRequest (block : BitVec 32) (offset size : BitVec 64) : Request where
  offset := (block * blksz super).setWidth 64 + offset
  size := size

end Position

/-! ## Inodes and the blocks behind them -/

/-- `ext2_read_inode`. -/
def ext2ReadInode (fresh : Fresh) (node : Ext2Node) : Exec ByteMem :=
  if node.reserved.indInGrp = 0 then .error .divideError
  else
    let desc := vfsRead node.ptr (descRequest node.reserved node.inode) (fresh 0) 0
    .ok (vfsRead node.ptr (inodeRequest node.reserved (dword desc 8) node.inode) (fresh 1) 0)

/-- The `for` of `ext2_read_inode_data`, with `n` rounds to go. -/
def inodeDataLoop (node : Ext2Node) (i : ByteMem) : Nat → Nat → ByteMem → ByteMem
  | 0, _, data => data
  | n + 1, sz, data =>
    if direct i sz = 0 then data
    else
      inodeDataLoop node i n (sz + 1) (vfsRead node.ptr (directRequest node.reserved (direct i sz))
        data ((BitVec.ofNat 32 sz * blksz node.reserved).signExtend 64).toNat)

/-- `ext2_read_inode_data`. -/
def ext2ReadInodeData (fresh : ByteMem) (node : Ext2Node) (i : ByteMem) : ByteMem :=
  inodeDataLoop node i 12 0 fresh

/-- The size of the buffer of `ext2_read_inode_data`. -/
def inodeDataSize (super : Ext2Superblock) : Nat := ((12 * blksz super).signExtend 64).toNat

/-- A table of block numbers: `count` of them from byte `base` of a buffer on. -/
structure Chain where
  mem : ByteMem
  base : Nat
  count : Nat

/-- `chain[i]`. -/
def Chain.entry (chain : Chain) (i : BitVec 32) : Exec (BitVec 32) :=
  if i.toNat < chain.count then .ok (dword chain.mem (chain.base + 4 * i.toNat))
  else .error .outOfBounds

/-- The `for` of `ext2_read_block_chain`. -/
def blockChainLoop (node : Ext2Node) (chain : Chain) :
    Nat → BitVec 32 → BitVec 64 → BitVec 64 → ByteMem → BitVec 64 → Exec ByteMem
  | 0, _, _, _, _, _ => .error .running
  | fuel + 1, i, offset, size, data, ptr =>
    if size = 0 then .ok data
    else do
      let block ← chain.entry i
      if block = 0 then .ok data
      else
        let n : BitVec 32 :=
          if blkszLong node.reserved < size then blksz node.reserved else size.setWidth 32
        let data := vfsRead node.ptr (blockRequest node.reserved block offset (n.signExtend 64))
          data ptr.toNat
        blockChainLoop node chain fuel (i + 1) 0 (size - n.signExtend 64) data
          (ptr + n.signExtend 64)

/-- `ext2_read_block_chain`. -/
def ext2ReadBlockChain (fuel : Nat) (node : Ext2Node) (chain : Chain) (offset size : BitVec 64)
    (data : ByteMem) (ptr : BitVec 64) : Exec ByteMem :=
  if blkszLong node.reserved = 0 then .error .divideError
  else
    blockChainLoop node chain fuel ((offset / blkszLong node.reserved).setWidth 32)
      (offset % blkszLong node.reserved) size data ptr

/-! ## Reading a file -/

section Regions

variable (super : Ext2Superblock)

/-- `ptrs_in_block`. -/
def ptrsInBlock : BitVec 32 := (blkszLong super / 4).setWidth 32

/-- `bytes_in_dbp`. -/
def bytesInDbp : BitVec 32 := 12 * blksz super

/-- `bytes_in_sibp`. -/
def bytesInSibp : BitVec 32 := blksz super * ptrsInBlock super

/-- `bytes_in_dibp`. -/
def bytesInDibp : BitVec 32 := bytesInSibp super * ptrsInBlock super

/-- The three where an `unsigned long` is needed. -/
def dbpLong : BitVec 64 := (bytesInDbp super).signExtend 64

def sibpLong : BitVec 64 := (bytesInSibp super).signExtend 64

def dibpLong : BitVec 64 := (bytesInDibp super).signExtend 64

end Regions

/-- The locals of `ext2_read_inode_data_ex`. -/
structure ReadState where
  offset : BitVec 64
  size : BitVec 64
  data : ByteMem
  ptr : BitVec 64

/-- `(offset + size) > bytes ? (bytes - offset) : size`, kept in an `int`. -/
def clipInt (bytes offset size : BitVec 64) : BitVec 32 :=
  (if bytes < offset + size then bytes - offset else size).setWidth 32

/-- The part of the request that lies in a region of `bytes` bytes, read through `chain`. -/
def readRegion (fuel : Nat) (node : Ext2Node) (chain : Chain) (bytes : BitVec 64)
    (s : ReadState) : Exec ReadState := do
  let sz := clipInt bytes s.offset s.size
  let data ← ext2ReadBlockChain fuel node chain s.offset (sz.signExtend 64) s.data s.ptr
  .ok ⟨0, s.size - sz.signExtend 64, data, s.ptr + sz.signExtend 64⟩

/-- The direct pointers. -/
def readDirect (fuel : Nat) (node : Ext2Node) (i : ByteMem) (s : ReadState) : Exec ReadState :=
  if s.offset < dbpLong node.reserved then
    readRegion fuel node ⟨i, 40, 12⟩ (dbpLong node.reserved) s
  else .ok { s with offset := s.offset - dbpLong node.reserved }

/-- A block of pointers, read into a buffer. -/
def readTable (node : Ext2Node) (block : BitVec 32) (buffer : ByteMem) : Chain where
  mem := vfsRead node.ptr (blockRequest node.reserved block 0 (blkszLong node.reserved)) buffer 0
  base := 0
  count := (blkszLong node.reserved).toNat / 4

/-- The single indirect pointer. -/
def readSingle (fuel : Nat) (fresh : Fresh) (node : Ext2Node) (i : ByteMem) (s : ReadState) :
    Exec ReadState :=
  if s.size ≠ 0 ∧ s.offset < sibpLong node.reserved then
    readRegion fuel node (readTable node (sIndirect i) (fresh 3)) (sibpLong node.reserved) s
  else .ok { s with offset := s.offset - sibpLong node.reserved }

/-- The search for the table that the double indirect read starts with. -/
def seekSibp (super : Ext2Superblock) : Nat → BitVec 32 → BitVec 64 → Exec (BitVec 32 × BitVec 64)
  | 0, _, _ => .error .running
  | fuel + 1, i, offset =>
    if i.slt (ptrsInBlock super) ∧ sibpLong super < offset then
      seekSibp super fuel (i + 1) (offset - sibpLong super)
    else .ok (i, offset)

/-- The `while` over the tables behind the double indirect pointer. -/
def doubleLoop (chainFuel : Nat) (node : Ext2Node) (dibp : Chain) :
    Nat → BitVec 32 → BitVec 32 → ByteMem → ReadState → Exec ReadState
  | 0, _, _, _, _ => .error .running
  | fuel + 1, sz, i, sibp, s =>
    if (0 : BitVec 32).slt sz then do
      let sz2 := clipInt (sibpLong node.reserved) s.offset (sz.signExtend 64)
      let block ← dibp.entry i
      let table := readTable node block sibp
      let data ← ext2ReadBlockChain chainFuel node table s.offset (sz2.signExtend 64) s.data s.ptr
      doubleLoop chainFuel node dibp fuel (sz - sz2) (i + 1) table.mem
        ⟨0, s.size - sz2.signExtend 64, data, s.ptr + sz2.signExtend 64⟩
    else .ok s

/-- The double indirect pointer. -/
def readDouble (fuel : Nat) (fresh : Fresh) (node : Ext2Node) (i : ByteMem) (s : ReadState) :
    Exec ReadState :=
  if s.size ≠ 0 ∧ s.offset < dibpLong node.reserved then do
    let dibp := readTable node (dIndirect i) (fresh 5)
    let (k, offset) ← seekSibp node.reserved fuel 0 s.offset
    let left := bytesInDibp node.reserved - k * bytesInSibp node.reserved
    let sz := clipInt (left.signExtend 64) offset s.size
    doubleLoop fuel node dibp fuel sz k (fresh 4) { s with offset := offset }
  else .ok { s with offset := s.offset - dibpLong node.reserved }

/-- `ext2_read_inode_data_ex`. The triple indirect pointer is a `TODO`. -/
def ext2ReadInodeDataEx (fuel : Nat) (fresh : Fresh) (node : Ext2Node) (i : ByteMem)
    (offset size : BitVec 64) : Exec ByteMem := do
  let s ← readDirect fuel node i ⟨offset, size, fresh 2, 0⟩
  let s ← readSingle fuel fresh node i s
  let s ← readDouble fuel fresh node i s
  .ok s.data

/-- `ext2_read`: the count and the caller's buffer, or an error. -/
def ext2Read (fuel : Nat) (fresh : Fresh) (node : Option Ext2Node) (offset size : BitVec 64)
    (buffer : ByteMem) : Exec (Except Errno (BitVec 64 × ByteMem)) :=
  match node with
  | none => .ok (.error .einval)
  | some node => do
    let i ← ext2ReadInode fresh node
    if ext2Size i < offset then .ok (.error .einval)
    else do
      let size := if ext2Size i < offset + size then ext2Size i - offset else size
      let data ← ext2ReadInodeDataEx fuel fresh node i offset size
      .ok (.ok (size, buffer.fill 0 data 0 size.toNat))

/-! ## Reading a directory -/

/-- The buffer with the records of a directory. -/
structure DirBuffer where
  data : ByteMem
  cap : Nat

/-- The number in the `n` bytes at `p`. -/
def DirBuffer.read (d : DirBuffer) (p n : Nat) : Exec Nat :=
  if p + n ≤ d.cap then .ok (d.data.read p n) else .error .outOfBounds

/-- The character at `p`. -/
def DirBuffer.byte (d : DirBuffer) (p : Nat) : Exec (BitVec 8) :=
  if p < d.cap then .ok (d.data p) else .error .outOfBounds

/-- `strncpy` from `p`: the `n` bytes it stores. -/
def strncpy (d : DirBuffer) : Nat → Nat → Exec (List (BitVec 8))
  | _, 0 => .ok []
  | p, n + 1 => do
    let c ← d.byte p
    if c = 0 then .ok (List.replicate (n + 1) 0)
    else do
      let rest ← strncpy d (p + 1) n
      .ok (c :: rest)

/-- `!strncmp` of a C string and the `n` bytes from `p` on. -/
def strncmpEq (d : DirBuffer) : List (BitVec 8) → Nat → Nat → Exec Bool
  | _, _, 0 => .ok true
  | name, p, n + 1 => do
    let c ← d.byte p
    if name.headD 0 ≠ c then .ok false
    else if c = 0 then .ok true
    else strncmpEq d name.tail (p + 1) n

/-- `struct dirent`. The name is the bytes before the null that `d->name[ed->length] = 0`
puts behind them. -/
structure Dirent where
  name : List (BitVec 8)
  inode : BitVec 64
  deriving DecidableEq

/-- The `for` of `ext2_readdir`, over the record at `p` of a directory of `size` bytes. -/
def readdirLoop (d : DirBuffer) (size : Nat) (index : BitVec 64) :
    Nat → BitVec 32 → Nat → Exec (BitVec 32 × Nat)
  | 0, _, _ => .error .running
  | fuel + 1, i, p =>
    if p < size then do
      let length ← d.read (p + 6) 1
      if length ≠ 0 ∧ i.signExtend 64 < index then do
        let step ← d.read (p + 4) 2
        readdirLoop d size index fuel (i + 1) (p + step)
      else .ok (i, p)
    else .ok (i, p)

/-- What `ext2_readdir` makes of the record its loop stopped at. -/
def readdirEntry (d : DirBuffer) (size : Nat) (index : BitVec 64) (i : BitVec 32) (p : Nat) :
    Exec (Except Errno Dirent) :=
  if i.signExtend 64 = index ∧ p < size then do
    let length ← d.read (p + 6) 1
    if length = 0 then .ok (.error .einval)
    else do
      let name ← strncpy d (p + 8) length
      let inode ← d.read p 4
      .ok (.ok ⟨name, BitVec.ofNat 64 inode⟩)
  else .ok (.error .einval)

/-- `ext2_readdir`. -/
def ext2Readdir (fuel : Nat) (fresh : Fresh) (node : Option Ext2Node) (index : BitVec 64) :
    Exec (Except Errno Dirent) :=
  match node with
  | none => .ok (.error .einval)
  | some node => do
    let i ← ext2ReadInode fresh node
    let d : DirBuffer := ⟨ext2ReadInodeData (fresh 2) node i, inodeDataSize node.reserved⟩
    let (k, p) ← readdirLoop d (ext2Size i).toNat index fuel 0 0
    readdirEntry d (ext2Size i).toNat index k p

/-- The `for` of `ext2_finddir`: the record it breaks off at. -/
def finddirLoop (d : DirBuffer) (size : Nat) (name : CString) : Nat → Nat → Exec (Option Nat)
  | 0, _ => .error .running
  | fuel + 1, p =>
    if p < size then do
      let length ← d.read (p + 6) 1
      if length = 0 then .ok none
      else do
        let found ← strncmpEq d name.bytes (p + 8) length
        if found then .ok (some p)
        else do
          let step ← d.read (p + 4) 2
          finddirLoop d size name fuel (p + step)
    else .ok none

/-- A node for an entry of a directory: of the same volume, the rest zeroed. -/
def entryNode (node : Ext2Node) (name : List (BitVec 8)) (inode : BitVec 64) : Ext2Node where
  name := name
  rights := 0
  flags := 0
  uid := 0
  gid := 0
  inode := inode
  length := 0
  reserved := node.reserved
  drv := node.drv
  ptr := node.ptr

/-- The node that `ext2_finddir` makes of the record at `p`. -/
def finddirNode (d : DirBuffer) (fresh : Fresh) (node : Ext2Node) (p : Nat) : Exec Ext2Node := do
  let length ← d.read (p + 6) 1
  let name ← strncpy d (p + 8) length
  let inode ← d.read p 4
  let fi ← ext2ReadInode fresh (entryNode node name (BitVec.ofNat 64 inode))
  .ok { entryNode node name (BitVec.ofNat 64 inode) with
    rights := (typePerm fi).setWidth 32
    uid := (inodeUid fi).setWidth 64
    gid := (inodeGid fi).setWidth 64
    length := (sizeLow fi).setWidth 64 }

/-- `ext2_finddir`; no node is the null pointer. -/
def ext2Finddir (fuel : Nat) (fresh : Fresh) (node : Option Ext2Node) (name : CString) :
    Exec (Except Errno (Option Ext2Node)) :=
  match node with
  | none => .ok (.error .einval)
  | some node => do
    let i ← ext2ReadInode fresh node
    let d : DirBuffer := ⟨ext2ReadInodeData (fresh 2) node i, inodeDataSize node.reserved⟩
    let found ← finddirLoop d (ext2Size i).toNat name fuel 0
    match found with
    | none => .ok (.ok none)
    | some p => do
      let v ← finddirNode d (fun n => fresh (n + 3)) node p
      .ok (.ok (some v))

/-! ## Mounting -/

/-- `ext2_init`; no node is the null pointer. -/
def ext2Init (fresh : ByteMem) (device : Option ByteMem) : Option Ext2Node :=
  match device with
  | none => none
  | some device =>
    let super := superblockAt (vfsRead device ⟨0x400, 1024⟩ fresh 0)
    if super.magic = 0xEF53 then some (ext2Root super device) else none

end OS64.Fs
