import OS64.Lib.ByteMem
import OS64.Lib.Tiling
import OS64.Lib.Run
import OS64.Lib.Pool
import OS64.Lib.X86
import OS64.Lib.Walk
import OS64.Lib.Ring
import OS64.Lib.Prog
import OS64.Lib.Tables
import OS64.Lib.Chase
import OS64.Lib.Preorder
import OS64.Lib.CStr
import OS64.Mm.Mem
import OS64.Mm.Chain
import OS64.Mm.Kmalloc
import OS64.Mm.Kfree
import OS64.Mm.HeapRun
import OS64.Mm.HeapCanon
import OS64.Mm.Phys
import OS64.Mm.PhysInit
import OS64.Mm.Page
import OS64.Mm.PageRun
import OS64.Mm.PageTree
import OS64.Mm.PageInit
import OS64.Mm.PageMount
import OS64.Mm.PageAnon
import OS64.Mm.PageUmount
import OS64.Mm.PageBoot
import OS64.Mm.PageRace
import OS64.Mm.PageCopy
import OS64.Mm.PageFork
import OS64.Mm.PageAp
import OS64.Mm.PageSpaces
import OS64.Mm.PageZeroed
import OS64.Mm.PageAccess
import OS64.Mm.PageRemap
import OS64.Mm.PageHeap
import OS64.X86.Regs
import OS64.Sys.Syscall
import OS64.Kernel.Task
import OS64.Kernel.TaskRun
import OS64.Kernel.TaskRing
import OS64.Kernel.TaskInit
import OS64.Kernel.TaskMem
import OS64.X86.Timer
import OS64.X86.SwitchCode
import OS64.X86.TimerRun
import OS64.X86.TimerPid
import OS64.Fs.Vfs
import OS64.Fs.Mount
import OS64.Fs.Umount
import OS64.Fs.Mdpart
import OS64.Fs.Ext2
import OS64.Fs.Ext2Pos
import OS64.Fs.Ext2Div
import OS64.Fs.Ext2Chain
import OS64.Fs.Ext2Read
import OS64.Fs.Ext2Stale
import OS64.Fs.Ext2File
import OS64.Fs.Ext2Dir
import OS64.Fs.Ext2Records
import OS64.Fs.Ext2Lookup
import OS64.Fs.Ext2Enum
import OS64.Fs.Initrd
import OS64.Fs.Devfs
import OS64.Fs.Ata
import OS64.Fs.DevfsTable
import OS64.Fs.DevfsSite
import OS64.Fs.Discovery
import OS64.Fs.MdpartInit
import OS64.Fs.DevfsNames
import OS64.Fs.DiskRead
import OS64.Fs.FsInit
import OS64.Kernel.Ktty
import OS64.X86.Intr
import OS64.Mm.PageBytes
import OS64.Elf.Elf
import OS64.Elf.Image
import OS64.Elf.Load
import OS64.Elf.LoadExec
import OS64.Elf.ExecImage
import OS64.Elf.KernelSpace
import OS64.Elf.KernelKept
import OS64.Mm.FirstFit
import OS64.Kernel.CopyStack
import OS64.X86.Critical
import OS64.X86.Gdt
import OS64.Mm.HeapLive
import OS64.Mm.PageLive
import OS64.Fs.Ext2Live
import OS64.X86.ReadRip
import OS64.Fs.Ext2Order
import OS64.Sys.SysWrite
import OS64.Elf.Relative
import OS64.Elf.Relocs
import OS64.Fs.Ext2Path
import OS64.Lib.Cache
import OS64.Lib.Interfere
import OS64.Mm.Tlb
import OS64.Mm.TlbMount
import OS64.Mm.TlbRun
import OS64.Lib.Bits
import OS64.X86.Descriptor
import OS64.Lib.Pieces
import OS64.Lib.Plot
import OS64.Vesa.Utf2win
import OS64.Vesa.Cp1251
import OS64.Vesa.PutChar
import OS64.X86.Smp
import OS64.Lib.Lock
import OS64.X86.Spinlock
import OS64.X86.SmpBoot
import OS64.X86.AtaPio
import OS64.Fs.AtaDisk
import OS64.X86.Boot
import OS64.X86.Start
import OS64.Sys.Stdout
import OS64.X86.Idt
import OS64.Fs.DeviceStack
import OS64.Vesa.Show
import OS64.Fs.PrintDir
