import OS64.Lib.ByteMem
import OS64.Mm.PageBytes

/-!
# The program loader of `elf/elf.c`

`elf64_load_file` takes the address of a file in memory, checks the header, and then
either copies the loadable segments of an executable to their addresses or leaves a
relocatable file where it is; in both it works off the relocation sections. Addresses,
sizes and offsets come from the file and are used as they stand.

The functions are programs over `ElfOp`: bytes are read and written one by one through
the address space of the task, so that the loader reads what it has itself overwritten,
and a fault stops it where it happens. `elfExec` runs them on the machine of
`mm/page.c`.

Mirroring notes:
- `memset`, `memcpy` and `memcmp` go through their bytes in ascending order.
- `ktty_puts` writes to the console, which is outside the state here.
- `elf64_get_symval` and `elf64_load_stage1` have an empty body: their value is
  whatever is left in the register.
- `irela()` jumps to an address of the file; what is run there is a parameter.
- Addresses are added in 64 bits; `e_phentsize` and `e_shentsize` are not looked at.
- The loop over a table of relocations has a unit of fuel for each value of its 32-bit
  index; a table with more entries than that is never left.
- `elf64_str_table` and `elf64_find_string` are called by nobody and left out.
-/

namespace OS64.Elf

open OS64.Lib OS64.Mm

/-! ## The machine under the loader -/

/-- The primitive operations. -/
inductive ElfOp
  | load (v : BitVec 64)
  | store (v : BitVec 64) (b : BitVec 8)
  | allocPagesUser (addr size : BitVec 64)
  | kttyPuts (msg : String)
  /-- The value of a function that returns none -/
  | undefined
  /-- A function called at an address -/
  | call (addr : BitVec 64)
  /-- A division by zero, or a loop that is never left -/
  | stop

/-- What an operation returns. -/
abbrev ElfOp.Res : ElfOp → Type
  | load _ => BitVec 8
  | undefined => BitVec 64
  | call _ => BitVec 64
  | _ => Unit

/-- A function of `elf.c`. -/
abbrev ElfProg : Type → Type := Prog ElfOp ElfOp.Res

/-- The operation as a program. -/
def perform (o : ElfOp) : ElfProg o.Res := Prog.perform o

/-- What the loader runs in: where the heap of the kernel starts, what a function without a
value returns, and what code at an address does. -/
structure ElfEnv where
  kernelHeap : BitVec 64
  undefined : PageState → BitVec 64
  call : BitVec 64 → PageState → Option (BitVec 64 × PageState)

/-- The operations on the machine. -/
def elfExec (env : ElfEnv) : (o : ElfOp) → PageState → Option (o.Res × PageState)
  | .load v, s => s.loadByte env.kernelHeap v
  | .store v b, s => (s.storeByte env.kernelHeap v b).map fun s' => ((), s')
  | .allocPagesUser addr size, s => some ((Mm.allocPagesUser addr size).run pageExec s)
  | .kttyPuts _, s => some ((), s)
  | .undefined, s => some (env.undefined s, s)
  | .call addr, s => env.call addr s
  | .stop, _ => none

/-! ## Memory -/

/-- The little-endian number in the `n` bytes at `a`. -/
def readBytes : Nat → BitVec 64 → ElfProg Nat
  | 0, _ => pure 0
  | n + 1, a => do
    let b : BitVec 8 ← perform (.load a)
    let rest ← readBytes n (a + 1)
    pure (b.toNat + 256 * rest)

/-- The low `n` bytes of `v` stored at `a`. -/
def writeBytes : Nat → BitVec 64 → Nat → ElfProg Unit
  | 0, _, _ => pure ()
  | n + 1, a, v => do
    perform (.store a (BitVec.ofNat 8 v))
    writeBytes n (a + 1) (v / 256)

/-- A field of `w` bits at an offset in the structure at `base`. -/
def field (w offset : Nat) (base : BitVec 64) : ElfProg (BitVec w) := do
  let n ← readBytes (w / 8) (base + BitVec.ofNat 64 offset)
  pure (BitVec.ofNat w n)

/-- `memset(addr, 0, n)`. -/
def memset : Nat → BitVec 64 → ElfProg Unit
  | 0, _ => pure ()
  | n + 1, addr => do
    perform (.store addr 0)
    memset n (addr + 1)

/-- `memcpy(dst, src, n)`. -/
def memcpy : Nat → BitVec 64 → BitVec 64 → ElfProg Unit
  | 0, _, _ => pure ()
  | n + 1, dst, src => do
    let b : BitVec 8 ← perform (.load src)
    perform (.store dst b)
    memcpy n (dst + 1) (src + 1)

/-! ## The structures of `elf.h` -/

/-- `e_ident[i]`. -/
def eIdent (i : Nat) : BitVec 64 → ElfProg (BitVec 8) := field 8 i

def eType : BitVec 64 → ElfProg (BitVec 16) := field 16 16
def eMachine : BitVec 64 → ElfProg (BitVec 16) := field 16 18
def eVersion : BitVec 64 → ElfProg (BitVec 32) := field 32 20
def eEntry : BitVec 64 → ElfProg (BitVec 64) := field 64 24
def ePhoff : BitVec 64 → ElfProg (BitVec 64) := field 64 32
def eShoff : BitVec 64 → ElfProg (BitVec 64) := field 64 40
def ePhnum : BitVec 64 → ElfProg (BitVec 16) := field 16 56
def eShnum : BitVec 64 → ElfProg (BitVec 16) := field 16 60

def pType : BitVec 64 → ElfProg (BitVec 32) := field 32 0
def pOffset : BitVec 64 → ElfProg (BitVec 64) := field 64 8
def pVaddr : BitVec 64 → ElfProg (BitVec 64) := field 64 16
def pFilesz : BitVec 64 → ElfProg (BitVec 64) := field 64 32
def pMemsz : BitVec 64 → ElfProg (BitVec 64) := field 64 40

def shType : BitVec 64 → ElfProg (BitVec 32) := field 32 4
def shOffset : BitVec 64 → ElfProg (BitVec 64) := field 64 24
def shSize : BitVec 64 → ElfProg (BitVec 64) := field 64 32
def shLink : BitVec 64 → ElfProg (BitVec 32) := field 32 40
def shInfo : BitVec 64 → ElfProg (BitVec 32) := field 32 44
def shEntsize : BitVec 64 → ElfProg (BitVec 64) := field 64 56

def rOffset : BitVec 64 → ElfProg (BitVec 64) := field 64 0
def rInfo : BitVec 64 → ElfProg (BitVec 64) := field 64 8
def rAddend : BitVec 64 → ElfProg (BitVec 64) := field 64 16

/-- `sizeof(Elf64_Phdr)`. -/
def phdrSize : Nat := 56

/-- `sizeof(Elf64_Shdr)`. -/
def shdrSize : Nat := 64

/-- `ELFMAG`, its `SELFMAG` bytes as a number. -/
def elfMag : Nat := 0x464C457F

def eiClass : Nat := 4
def eiData : Nat := 5
def eiVersion : Nat := 6
def elfClass64 : BitVec 8 := 2
def elfData2Lsb : BitVec 8 := 1
def evCurrent : Nat := 1
def emAmd64 : BitVec 16 := 62
def etRel : BitVec 16 := 1
def etExec : BitVec 16 := 2
def ptLoad : BitVec 32 := 1
def shtRela : BitVec 32 := 4
def shtRel : BitVec 32 := 9
def shnUndef : BitVec 64 := 0

/-- `ELF_LOAD_ERR`. -/
def elfLoadErr : BitVec 32 := -1

/-- `ELF_REL_ERR`. -/
def elfRelErr : Int := -2

/-- `x & 0xFFF`. -/
def pageTail (v : BitVec 64) : BitVec 64 := v &&& 0xFFF#64

/-- `x & (~0xFFF)`. -/
def pageBase (v : BitVec 64) : BitVec 64 := v &&& 0xFFFFFFFFFFFFF000#64

/-! ## The header -/

/-- The end of a check that fails. -/
def refuse (msg : String) : ElfProg Bool := do
  perform (.kttyPuts msg)
  pure false

/-- `elf64_check_magic`. -/
def elf64CheckMagic (hdr : BitVec 64) : ElfProg Bool :=
  if hdr = 0 then pure false
  else do
    let magic ← readBytes 4 hdr
    if magic ≠ elfMag then refuse "ELF header magic incorrect!" else pure true

/-- `elf64_is_supported`. -/
def elf64IsSupported (hdr : BitVec 64) : ElfProg Bool := do
  let magic ← elf64CheckMagic hdr
  if magic = false then refuse "File isn't an ELF"
  else do
    let cls ← eIdent eiClass hdr
    if cls ≠ elfClass64 then refuse "ELF file has unsupported class"
    else do
      let order ← eIdent eiData hdr
      if order ≠ elfData2Lsb then refuse "ELF file has unsupported byte order"
      else do
        let machine ← eMachine hdr
        if machine ≠ emAmd64 then refuse "ELF file has unsupported architecture"
        else do
          let version ← eVersion hdr
          if version ≠ BitVec.ofNat 32 evCurrent then refuse "ELF file has unsupported version"
          else do
            let version ← eIdent eiVersion hdr
            if version ≠ BitVec.ofNat 8 evCurrent then refuse "ELF file has unsupported version"
            else do
              let type ← eType hdr
              if type ≠ etExec ∧ type ≠ etRel then refuse "ELF file has unsupported type"
              else pure true

/-- `elf64_sheader`. -/
def elf64Sheader (hdr : BitVec 64) : ElfProg (BitVec 64) := do
  let off ← eShoff hdr
  pure (hdr + off)

/-- `elf64_pheader`. -/
def elf64Pheader (hdr : BitVec 64) : ElfProg (BitVec 64) := do
  let off ← ePhoff hdr
  pure (hdr + off)

/-- `elf64_section`: `idx` is an `int`, and there is no check against a negative one. -/
def elf64Section (hdr : BitVec 64) (idx : BitVec 32) : ElfProg (BitVec 64) := do
  let n ← eShnum hdr
  if (n.toNat : Int) ≤ idx.toInt then pure 0
  else do
    let table ← elf64Sheader hdr
    pure (table + idx.signExtend 64 * BitVec.ofNat 64 shdrSize)

/-- `&table[i]`. -/
def entryAt (table : BitVec 64) (size i : Nat) : BitVec 64 := table + BitVec.ofNat 64 (size * i)

/-- `elf64_get_symval`, which has no body. -/
def elf64GetSymval (_hdr : BitVec 64) (_table _idx : BitVec 32) : ElfProg (BitVec 64) :=
  perform .undefined

/-- The loop of `elf64_get_baseaddr` from index `i` on. -/
def baseaddrLoop (hdr phdr : BitVec 64) : Nat → Nat → ElfProg (BitVec 32)
  | 0, _ => pure 0
  | fuel + 1, i => do
    let n ← ePhnum hdr
    if i < n.toNat then do
      let segment := entryAt phdr phdrSize i
      let type ← pType segment
      if type = ptLoad then do
        let vaddr ← pVaddr segment
        pure ((pageBase vaddr).setWidth 32)
      else baseaddrLoop hdr phdr fuel (i + 1)
    else pure 0

/-- `elf64_get_baseaddr`: its `int` keeps the low half of the address. -/
def elf64GetBaseaddr (hdr : BitVec 64) : ElfProg (BitVec 32) := do
  let type ← eType hdr
  if type ≠ etExec then pure 0
  else do
    let phdr ← elf64Pheader hdr
    baseaddrLoop hdr phdr (2 ^ 16) 0

/-! ## Relocations -/

/-- `ELF64_R_SYM`. -/
def elf64RSym (info : BitVec 64) : BitVec 64 := info >>> 32

/-- `ELF64_R_TYPE`. -/
def elf64RType (info : BitVec 64) : Nat := (info &&& 0xFFFFFFFF#64).toNat

/-- The types of `RtT_Types`, as `elf64_do_rela` tells them apart. -/
inductive RelType
  | none
  | amd64
  | pc32
  | relative
  | irelative
  | unsupported
  deriving DecidableEq

/-- The type of a relocation. -/
def relType (info : BitVec 64) : RelType :=
  match elf64RType info with
  | 0 => .none
  | 1 => .amd64
  | 2 => .pc32
  | 8 => .relative
  | 37 => .irelative
  | _ => .unsupported

/-- The `switch` of `elf64_do_rela`; the result is an `int`. -/
def relaApply (hdr ref symval addend : BitVec 64) : RelType → ElfProg (BitVec 32)
  | .none => pure (symval.setWidth 32)
  | .amd64 => do
    writeBytes 8 ref (symval + addend).toNat
    pure (symval.setWidth 32)
  | .pc32 => do
    writeBytes 4 ref ((symval + addend - ref) &&& 0xFFFFFFFF#64).toNat
    pure (symval.setWidth 32)
  | .relative => do
    let base ← elf64GetBaseaddr hdr
    writeBytes 8 ref (base.signExtend 64 + addend).toNat
    pure (symval.setWidth 32)
  | .irelative => do
    let value : BitVec 64 ← perform (.call addend)
    writeBytes 8 ref value.toNat
    pure (symval.setWidth 32)
  | .unsupported => do
    perform (.kttyPuts "Unsupported relocation type")
    pure (BitVec.ofInt 32 elfRelErr)

/-- `elf64_do_rela`. -/
def elf64DoRela (hdr rel reltab : BitVec 64) : ElfProg (BitVec 32) := do
  let info ← shInfo reltab
  let target ← elf64Section hdr info
  let off ← shOffset target
  let type ← eType hdr
  let rOff ← rOffset rel
  let ref := if type = etRel then hdr + off + rOff else rOff
  let tabType ← shType reltab
  let addend ← if tabType = shtRel then field 64 0 ref else rAddend rel
  let info ← rInfo rel
  if elf64RSym info ≠ shnUndef then do
    let link ← shLink reltab
    let symval ← elf64GetSymval hdr link ((elf64RSym info).setWidth 32)
    if symval = BitVec.ofInt 64 elfRelErr then pure (BitVec.ofInt 32 elfRelErr)
    else relaApply hdr ref symval addend (relType info)
  else relaApply hdr ref 0 addend (relType info)

/-- `sizeof(Elf64_Rel)` or `sizeof(Elf64_Rela)`. -/
def relSize (type : BitVec 32) : Nat := if type = shtRel then 16 else 24

/-- `elf64_get_rela`. -/
def elf64GetRela (hdr sect : BitVec 64) (idx : BitVec 32) : ElfProg (BitVec 64) := do
  let type ← shType sect
  let off ← shOffset sect
  pure (entryAt (hdr + off) (relSize type) idx.toNat)

/-- The loop of `elf64_load_stage2` over the entries of a section, from `idx` on. -/
def relLoop (hdr sect : BitVec 64) : Nat → BitVec 32 → ElfProg (BitVec 32)
  | 0, _ => do
    perform .stop
    pure 0
  | fuel + 1, idx => do
    let size ← shSize sect
    let entsize ← shEntsize sect
    if entsize = 0 then do
      perform .stop
      pure 0
    else if idx.toNat < size.toNat / entsize.toNat then do
      let relatab ← elf64GetRela hdr sect idx
      let result ← elf64DoRela hdr relatab sect
      if result = BitVec.ofInt 32 elfRelErr then do
        perform (.kttyPuts "Failed to relocate symbol")
        pure elfLoadErr
      else relLoop hdr sect fuel (idx + 1)
    else pure 0

/-- The loop of `elf64_load_stage2` over the sections, from index `i` on. -/
def sectionLoop (hdr shdr : BitVec 64) : Nat → Nat → ElfProg (BitVec 32)
  | 0, _ => pure 0
  | fuel + 1, i => do
    let n ← eShnum hdr
    if i < n.toNat then do
      let sect := entryAt shdr shdrSize i
      let type ← shType sect
      if type = shtRel ∨ type = shtRela then do
        let result ← relLoop hdr sect (2 ^ 32) 0
        if result = elfLoadErr then pure elfLoadErr else sectionLoop hdr shdr fuel (i + 1)
      else do
        perform (.kttyPuts "Unsupported symbol type")
        sectionLoop hdr shdr fuel (i + 1)
    else pure 0

/-! ## The stages -/

/-- `elf64_load_stage1`, which has no body. -/
def elf64LoadStage1 (_hdr : BitVec 64) : ElfProg (BitVec 32) := do
  let result : BitVec 64 ← perform .undefined
  pure (result.setWidth 32)

/-- `elf64_load_stage2`. -/
def elf64LoadStage2 (hdr : BitVec 64) : ElfProg (BitVec 32) := do
  let shdr ← elf64Sheader hdr
  sectionLoop hdr shdr (2 ^ 16) 0

/-- The body of `elf64_load_stage3` for a loadable segment. -/
def loadSegment (hdr segment : BitVec 64) : ElfProg Unit := do
  let vaddr ← pVaddr segment
  let tail := pageTail vaddr
  let vaddr ← pVaddr segment
  let memsz ← pMemsz segment
  perform (.allocPagesUser (pageBase vaddr) (memsz + tail))
  let addr ← pVaddr segment
  let memsz ← pMemsz segment
  memset memsz.toNat addr
  let offset ← pOffset segment
  let filesz ← pFilesz segment
  memcpy filesz.toNat addr (hdr + offset)

/-- The loop of `elf64_load_stage3` from index `i` on. -/
def segmentLoop (hdr phdr : BitVec 64) : Nat → Nat → ElfProg (BitVec 32)
  | 0, _ => pure 0
  | fuel + 1, i => do
    let n ← ePhnum hdr
    if i < n.toNat then do
      let segment := entryAt phdr phdrSize i
      let type ← pType segment
      if type = ptLoad then do
        loadSegment hdr segment
        segmentLoop hdr phdr fuel (i + 1)
      else segmentLoop hdr phdr fuel (i + 1)
    else pure 0

/-- `elf64_load_stage3`. -/
def elf64LoadStage3 (hdr : BitVec 64) : ElfProg (BitVec 32) := do
  let phdr ← elf64Pheader hdr
  segmentLoop hdr phdr (2 ^ 16) 0

/-- The end of a load that fails: `NULL`. -/
def fail (msg : String) : ElfProg (BitVec 64) := do
  perform (.kttyPuts msg)
  pure 0

/-- `elf64_load_rel`. -/
def elf64LoadRel (hdr : BitVec 64) : ElfProg (BitVec 64) := do
  let result ← elf64LoadStage1 hdr
  if result = elfLoadErr then fail "Loading REL file failed at Stage 1"
  else do
    let result ← elf64LoadStage2 hdr
    if result = elfLoadErr then fail "Loading REL file failed at Stage 2" else eEntry hdr

/-- `elf64_load_exec`. -/
def elf64LoadExec (hdr : BitVec 64) : ElfProg (BitVec 64) := do
  let result ← elf64LoadStage3 hdr
  if result = elfLoadErr then fail "Loading EXEC file failed at Stage 3"
  else do
    let result ← elf64LoadStage2 hdr
    if result = elfLoadErr then fail "Loading EXEC file failed at Stage 2" else eEntry hdr

/-- `elf64_load_file`. -/
def elf64LoadFile (hdr : BitVec 64) : ElfProg (BitVec 64) := do
  let supported ← elf64IsSupported hdr
  if supported = false then fail "File can't be loaded"
  else do
    let type ← eType hdr
    if type = etExec then elf64LoadExec hdr
    else if type = etRel then elf64LoadRel hdr
    else pure 0

end OS64.Elf
