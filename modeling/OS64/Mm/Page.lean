import OS64.Lib.Prog
import OS64.Lib.Tables
import OS64.Mm.Phys

/-!
# The page tables of `mm/page.c`

The tables are reached through one slot: `mount_page_t` writes a frame into entry
0 of the kernel's page table `kernel_pt`, and the frame then shows at
`TMP_MOUNT_ADDR`. `mount_page_do` walks the four levels that way and adds the
tables it misses; `copy_page` copies a tree of tables and pages.

Every function is a program over the primitive operations `PageOp`, so that the
same text runs alone (`pageExec`) and interleaved with another task.

Mirroring notes:
- A physical frame holds 512 entries of 64 bits; a frame is named by the 40
  address bits of an entry. `address` is a bit-field of 40 bits, which no promotion
  widens: `buf[i].p.address << 12` is taken in these 40 bits.
- `kernel_pt[0]` is entry 0 of the frame at `kernel_pt & 0x0FFFFFFF`, the physical
  address `copy_page` compares with. What is read or written through the window
  belongs to the frame that entry names, with no stale translation: every write of
  the slot is followed by `invlpg`.
- One processor: `intr_sema[id]` is one counter. `hlt` in `intr_enable` returns, so
  what is proved of the code after it holds if ever it is reached.
- The buffer `copy_page` gets from `kmalloc` is a local value: its page is mapped, so
  that the copy of `read_page` is not interrupted by a fault, whose recovery would use
  the window for itself.
- `phys_map` is outside the frames that the tables are kept in.
- `mount_page_hw` is left out; `remap_pages` is in `PageRemap`.
-/

namespace OS64.Mm

open OS64.Lib

/-- A physical frame, by its number. -/
abbrev Frame := BitVec 40

/-- `pte_desc`. -/
abbrev Pte := BitVec 64

/-- What a frame holds. -/
abbrev Page := BitVec 9 → Pte

/-! ## Descriptors and addresses -/

/-- `p.exists`. -/
def Pte.present (e : Pte) : Bool := BitVec.getLsbD e 0

/-- `p.writable`. -/
def Pte.writable (e : Pte) : Bool := BitVec.getLsbD e 1

/-- `p.r3_access`. -/
def Pte.r3Access (e : Pte) : Bool := BitVec.getLsbD e 2

/-- `p.address`. -/
def Pte.address (e : Pte) : Frame := BitVec.extractLsb' 12 40 e

/-- `p.r3_access = b`. -/
def Pte.setR3 (e : Pte) (b : Bool) : Pte := (e &&& ~~~ 4#64) ||| (if b then 4#64 else 0#64)

/-- The frame of a physical address. -/
def frameOf (phys : BitVec 64) : Frame := phys.extractLsb' 12 40

/-- The physical address of a frame. -/
def frameAddr (f : Frame) : BitVec 64 := f.setWidth 64 <<< 12

/-- `p.address << 12`, in the 40 bits of the field. -/
def Pte.addr (e : Pte) : BitVec 64 := (e.address <<< 12).setWidth 64

/-- A descriptor with the address bits of `phys` and the given flags. -/
def pteOf (phys : BitVec 64) (flags : BitVec 12) : Pte :=
  frameAddr (frameOf phys) ||| flags.setWidth 64

/-- `calc_page`: present and writable. -/
def calcPage (phys : BitVec 64) : Pte := pteOf phys 3#12

/-- The index of a virtual address into the table of level 3 (PML4), 2 (PDP), 1 (PD) or
0 (PT): the fields of `linear`. -/
def linearIndex (level : Nat) (addr : BitVec 64) : BitVec 9 := addr.extractLsb' (12 + 9 * level) 9

/-- `h & 0xFFFFFFFFFFFFF000`. -/
def Pte.base (e : Pte) : BitVec 64 := e &&& 0xFFFFFFFFFFFFF000#64

/-! ## The machine -/

/-- Memory, the page bitmap, the globals of the module, the register `CR3` and what
`intr_disable` and `intr_enable` use. -/
structure PageState where
  mem : Frame → Page
  phys : PhysMem
  pml4 : BitVec 64
  kernelPt : BitVec 64
  cr3 : BitVec 64
  sema : BitVec 8
  intf : Bool

/-- The frame of `kernel_pt`. -/
def PageState.kptFrame (s : PageState) : Frame := frameOf (s.kernelPt &&& 0x0FFFFFFF#64)

/-- The slot `kernel_pt[0]`. -/
def PageState.slot (s : PageState) : Pte := s.mem s.kptFrame 0

/-- The slot assigned. -/
def PageState.setSlot (s : PageState) (e : Pte) : PageState :=
  { s with mem := setEntry s.mem s.kptFrame 0 e }

/-- The frame that shows at `TMP_MOUNT_ADDR`. -/
def PageState.window (s : PageState) : Frame := s.slot.address

/-- The primitive operations. -/
inductive PageOp
  | getSema
  | setSema (v : BitVec 8)
  | cli
  | sti
  | hlt
  /-- `kernel_pt[0] = calc_page(phys)` -/
  | mountSlot (phys : BitVec 64)
  /-- `kernel_pt[0].h = 0` -/
  | clearSlot
  | invlpg
  /-- `p[i]`, with `p` the window -/
  | readEntry (i : BitVec 9)
  | writeEntry (i : BitVec 9) (e : Pte)
  /-- The whole window, for `memcpy` and `zeromem` -/
  | readWindow
  | writeWindow (p : Page)
  | allocPhysPage
  | getPml4
  | getKernelPt
  | getCr3
  | setCr3 (v : BitVec 64)

/-- What an operation returns. -/
abbrev PageOp.Res : PageOp → Type
  | getSema => BitVec 8
  | readEntry _ => Pte
  | readWindow => Page
  | allocPhysPage => BitVec 64
  | getPml4 => BitVec 64
  | getKernelPt => BitVec 64
  | getCr3 => BitVec 64
  | _ => Unit

/-- The operations on a processor that runs nothing else. -/
def pageExec : (o : PageOp) → PageState → o.Res × PageState
  | .getSema, s => (s.sema, s)
  | .setSema v, s => ((), { s with sema := v })
  | .cli, s => ((), { s with intf := false })
  | .sti, s => ((), { s with intf := true })
  | .hlt, s => ((), s)
  | .mountSlot phys, s => ((), s.setSlot (calcPage phys))
  | .clearSlot, s => ((), s.setSlot 0)
  | .invlpg, s => ((), s)
  | .readEntry i, s => (s.mem s.window i, s)
  | .writeEntry i e, s => ((), { s with mem := setEntry s.mem s.window i e })
  | .readWindow, s => (s.mem s.window, s)
  | .writeWindow p, s => ((), { s with mem := setPage s.mem s.window p })
  | .allocPhysPage, s =>
    (BitVec.ofNat 64 (Mm.allocPhysPage s.phys).1, { s with phys := (Mm.allocPhysPage s.phys).2 })
  | .getPml4, s => (s.pml4, s)
  | .getKernelPt, s => (s.kernelPt, s)
  | .getCr3, s => (s.cr3, s)
  | .setCr3 v, s => ((), { s with cr3 := v })

/-- A function of `page.c`. -/
abbrev PageProg : Type → Type := Prog PageOp PageOp.Res

/-- The operation as a program, with its type of results computed. -/
def perform (o : PageOp) : PageProg o.Res := Prog.perform o

/-! ## The functions -/

/-- `intr_disable`. -/
def intrDisable : PageProg Unit := do
  let n : BitVec 8 ← perform .getSema
  perform (.setSema (n + 1))
  perform .cli

/-- `if (n == 0) o`. -/
def onZero (n : BitVec 8) (o : PageProg Unit) : PageProg Unit := if n = 0 then o else pure ()

/-- `intr_enable`. -/
def intrEnable : PageProg Unit := do
  let n : BitVec 8 ← perform .getSema
  onZero n (perform .hlt)
  let n : BitVec 8 ← perform .getSema
  perform (.setSema (n - 1))
  onZero (n - 1) (perform .sti)

/-- `mount_page_t`. -/
def mountPageT (phys : BitVec 64) : PageProg Unit := do
  intrDisable
  perform (.mountSlot phys)
  perform .invlpg
  intrEnable

/-- `umount_page_t`. -/
def umountPageT : PageProg Unit := do
  perform .clearSlot
  perform .invlpg

/-- `create_page`. -/
def createPage : PageProg Pte := do
  let p : BitVec 64 ← perform .allocPhysPage
  pure (pteOf p 3#12)

/-- `create_page_user`. -/
def createPageUser : PageProg Pte := do
  let p : BitVec 64 ← perform .allocPhysPage
  pure (pteOf p 7#12)

/-- A level of `mount_page_do` above the last: table `table` is mounted and its entry
`i` read, or made to lead to a new table, which user code may use if it may use `ph`. -/
def mountLevel (table : BitVec 64) (i : BitVec 9) (ph : Pte) : PageProg Pte := do
  mountPageT table
  let p : Pte ← perform (.readEntry i)
  if p = 0 then do
    let c ← createPage
    perform (.writeEntry i (c.setR3 ph.r3Access))
    umountPageT
    pure (c.setR3 ph.r3Access)
  else do
    umountPageT
    pure p

/-- `mount_page_do`. -/
def mountPageDo (log : BitVec 64) (ph : Pte) : PageProg Unit := do
  let pml4 : BitVec 64 ← perform .getPml4
  let p ← mountLevel pml4 (linearIndex 3 log) ph
  let p ← mountLevel p.base (linearIndex 2 log) ph
  let p ← mountLevel p.base (linearIndex 1 log) ph
  mountPageT p.base
  perform (.writeEntry (linearIndex 0 log) ph)
  umountPageT

/-- `mount_page`. -/
def mountPage (phys log : BitVec 64) : PageProg Unit := mountPageDo log (calcPage phys)

/-- A level of `umount_page` above the last. -/
def umountLevel (table : BitVec 64) (i : BitVec 9) : PageProg Pte := do
  mountPageT table
  let p : Pte ← perform (.readEntry i)
  umountPageT
  pure p

/-- `umount_page`. -/
def umountPage (log : BitVec 64) : PageProg (BitVec 64) := do
  let pml4 : BitVec 64 ← perform .getPml4
  let p ← umountLevel pml4 (linearIndex 3 log)
  if p = 0 then pure 0 else do
    let p ← umountLevel p.base (linearIndex 2 log)
    if p = 0 then pure 0 else do
      let p ← umountLevel p.base (linearIndex 1 log)
      if p = 0 then pure 0 else do
        mountPageT p.base
        let ret : Pte ← perform (.readEntry (linearIndex 0 log))
        let h : Pte ← perform (.readEntry (linearIndex 0 log))
        perform (.writeEntry (linearIndex 0 log) (h &&& 0xFFFFFFFFFFFFFFFE#64))
        umountPageT
        pure ret

/-- `read_page`: what it leaves in the buffer. -/
def readPage (phys : BitVec 64) : PageProg Page := do
  mountPageT phys
  let buf : Page ← perform .readWindow
  umountPageT
  pure buf

/-- `write_page`. -/
def writePage (phys : BitVec 64) (buf : Page) : PageProg Unit := do
  mountPageT phys
  perform (.writeWindow buf)
  umountPageT

/-- The end of `copy_page`: the buffer goes to a new frame. -/
def copyOut (buf : Page) : PageProg (BitVec 64) := do
  let p : BitVec 64 ← perform .allocPhysPage
  writePage p buf
  pure p

/-- The loop of `copy_page` from index `i` on, with `n` indices to go: `copy` copies
what an entry leads to. `none` where the table is found to be the kernel's. -/
def copyLoop (copy : BitVec 64 → PageProg (BitVec 64)) (k : Nat) : Nat → Nat → Page →
    PageProg (Option Page)
  | 0, _, buf => pure (some buf)
  | n + 1, i, buf =>
    let e := buf (BitVec.ofNat 9 i)
    if e.addr ≠ 0 then do
      let kernelPt : BitVec 64 ← perform .getKernelPt
      if k = 1 ∧ i = 0 ∧ e.addr = kernelPt &&& 0x0FFFFFFF#64 then pure none
      else do
        let p ← copy e.addr
        copyLoop copy k n (i + 1)
          fun j => if j = BitVec.ofNat 9 i then (e &&& 0x1F#64) ||| p else buf j
    else copyLoop copy k n (i + 1) buf

/-- `copy_page`. -/
def copyPage : Nat → BitVec 64 → PageProg (BitVec 64)
  | 0, phys => do
    let buf ← readPage phys
    copyOut buf
  | k + 1, phys => do
    let buf ← readPage phys
    let res ← copyLoop (copyPage k) (k + 1) 512 0 buf
    match res with
    | none => pure phys
    | some buf => copyOut buf

/-- `copy_pages`. -/
def copyPages : PageProg (BitVec 64) := do
  let cr3 : BitVec 64 ← perform .getCr3
  copyPage 4 cr3

/-- The loop of `alloc_pages` and `alloc_pages_user` at offset `i`, with `n` pages to go. -/
def allocLoop (create : PageProg Pte) (addr : BitVec 64) : Nat → BitVec 64 → PageProg Unit
  | 0, _ => pure ()
  | n + 1, i => do
    let ph ← create
    mountPageDo (addr + i) ph
    allocLoop create addr n (i + 0x1000#64)

/-- `alloc_pages`: one page for every 0x1000 begun of `size`. -/
def allocPages (addr size : BitVec 64) : PageProg Unit :=
  allocLoop createPage addr ((size.toNat + 0xFFF) / 0x1000) 0

/-- `alloc_pages_user`. -/
def allocPagesUser (addr size : BitVec 64) : PageProg Unit :=
  allocLoop createPageUser addr ((size.toNat + 0xFFF) / 0x1000) 0

/-- `_page_fault` at `addr` with the error code `reg1`: a page of the kernel heap is
mounted. `false` stands for the report and the endless `hlt` after it. -/
def pageFault (kernelHeap addr reg1 : BitVec 64) : PageProg Bool :=
  if kernelHeap ≤ addr ∧ reg1.getLsbD 0 = false ∧ reg1.getLsbD 2 = false then do
    let p : BitVec 64 ← perform .allocPhysPage
    mountPage p (addr &&& 0xFFFFFFFFFFFFF000#64)
    pure true
  else pure false

/-- `cr3_load`. -/
def cr3Load (cr3 : BitVec 64) : PageProg Unit := perform (.setCr3 (cr3 &&& 0x000FFFFFFFFFF000#64))

/-- A table of `page_init_ap`: mounted, cleared, and one entry made to lead to `next`. -/
def initTable (table : BitVec 64) (i : BitVec 9) (next : BitVec 64) : PageProg Unit := do
  mountPageT table
  perform (.writeWindow fun _ => 0)
  perform (.writeEntry i (calcPage next))
  umountPageT

/-- `page_init_ap`. -/
def pageInitAp : PageProg Unit := do
  intrDisable
  let root : BitVec 64 ← perform .getPml4
  cr3Load root
  let pml4 : BitVec 64 ← perform .allocPhysPage
  let pdp : BitVec 64 ← perform .allocPhysPage
  let pd : BitVec 64 ← perform .allocPhysPage
  initTable pml4 511 pdp
  initTable pdp 511 pd
  let kernelPt : BitVec 64 ← perform .getKernelPt
  initTable pd 0 (kernelPt &&& 0x0FFFFFFF#64)
  cr3Load pml4
  intrEnable

/-! ## `page_init`

It runs before the tables are in use and writes them where they lie. -/

/-- The loop of `page_init`: `last[i>>12] = calc_page(i)` for `n` pages from `i` on, in
the table at `last` and, past its end, in the frames behind it. -/
def identityLoop (last : Frame) : Nat → Nat → (Frame → Page) → Frame → Page
  | 0, _, m => m
  | n + 1, i, m =>
    identityLoop last n (i + 1)
      (setEntry m (last + BitVec.ofNat 40 (i / 512)) (BitVec.ofNat 9 i)
        (calcPage (BitVec.ofNat 64 (i * 0x1000))))

/-- An empty table but for entry `i`. -/
def tableOf (i : BitVec 9) (e : Pte) : Page := fun j => if j = i then e else 0

/-- `page_init`, with `*last_phys_page = last` a frame-aligned address. -/
def pageInit (last : BitVec 64) (s : PageState) : PageState :=
  let m := setPage s.mem (frameOf last) (tableOf 511 (calcPage (last + 0x1000#64)))
  let m := setPage m (frameOf (last + 0x1000#64)) (tableOf 511 (calcPage (last + 0x2000#64)))
  let m := setPage m (frameOf (last + 0x2000#64)) (tableOf 0 (calcPage (last + 0x3000#64)))
  let m := setPage m (frameOf (last + 0x3000#64)) fun _ => 0
  { s with
    mem := identityLoop (frameOf (last + 0x3000#64)) ((last.toNat + 0x3000) / 0x1000 + 1 - 0xB8) 0xB8 m
    pml4 := last
    kernelPt := (last + 0x3000#64) ||| 0xFFFFFFFFC0000000#64
    cr3 := last &&& 0x000FFFFFFFFFF000#64
    intf := decide (s.sema = 0) }

end OS64.Mm
