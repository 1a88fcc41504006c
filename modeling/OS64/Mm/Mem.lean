import OS64.Lib.ByteMem

/-!
# The kernel heap of `mm/mem.c`

`kmem_header` is 16 packed bytes in front of every chunk: a 32-bit magic
number, one 32-bit word whose low 31 bits are the chunk's size and whose top
bit says that it is free, and the 64-bit address of the previous header. The
heap is those headers in memory and nothing else, so the model keeps them
there: `header` reads one, `setMagic`, `setSize`, `setFree` and `setPrev` are
the field assignments of the C, and `kmalloc`, `kfree` and `memInit` are the
functions of the file, assignment by assignment.

Mirroring notes:
- Pointers are 64-bit, so every address the C computes is reduced modulo
  `2 ^ 64` where it is computed. The region `memInit` lays out ends exactly
  at `2 ^ 64`, which is why this matters.
- `kmalloc`'s `while` is `kmallocWalk`, with one unit of fuel for each header
  it may look at; `kmallocReads` says which headers it looks at, whether or
  not it ever stops.
- `page_init` and `phys_init` reach `mem_init` only through `last_page`, so
  `memInit` takes the value they leave in it.
-/

namespace OS64.Mm

open OS64.Lib (ByteMem)

/-- `KMEM_MAGIC`. -/
def kmemMagic : Nat := 0xF0B0DEFC

/-- The fields of a `kmem_header`. -/
structure KmemHeader where
  magic : Nat
  size : Nat
  free : Nat
  prev : Nat
deriving DecidableEq, Repr

/-- The header at address `a`. -/
def header (m : ByteMem) (a : Nat) : KmemHeader where
  magic := m.read a 4
  size := m.read (a + 4) 4 % 2 ^ 31
  free := m.read (a + 4) 4 / 2 ^ 31
  prev := m.read (a + 8) 8

/-! ## Field assignments -/

/-- `((kmem_header *)a)->magic = v`. -/
def setMagic (m : ByteMem) (a v : Nat) : ByteMem := m.write a 4 v

/-- `((kmem_header *)a)->size = v`: a 31-bit field, its neighbour `free` kept. -/
def setSize (m : ByteMem) (a v : Nat) : ByteMem :=
  m.write (a + 4) 4 (v % 2 ^ 31 + 2 ^ 31 * (header m a).free)

/-- `((kmem_header *)a)->free = v`: the top bit, its neighbour `size` kept. -/
def setFree (m : ByteMem) (a v : Nat) : ByteMem :=
  m.write (a + 4) 4 ((header m a).size + 2 ^ 31 * (v % 2))

/-- `((kmem_header *)a)->prev = v`. -/
def setPrev (m : ByteMem) (a v : Nat) : ByteMem := m.write (a + 8) 8 v

section Fields

variable (m : ByteMem) (a v : Nat)

theorem header_free_le : (header m a).free ≤ 1 := by
  have h := m.read_lt 4 (a + 4)
  show m.read (a + 4) 4 / 2 ^ 31 ≤ 1
  omega

@[simp] theorem header_setMagic :
    header (setMagic m a v) a = { header m a with magic := v % 2 ^ 32 } := by
  simp only [header, setMagic, ByteMem.read_write_same]
  rw [ByteMem.read_write_disjoint (by omega), ByteMem.read_write_disjoint (by omega),
    show 256 ^ 4 = 2 ^ 32 from rfl]

@[simp] theorem header_setPrev :
    header (setPrev m a v) a = { header m a with prev := v % 2 ^ 64 } := by
  simp only [header, setPrev, ByteMem.read_write_same]
  rw [ByteMem.read_write_disjoint (by omega), ByteMem.read_write_disjoint (by omega),
    show 256 ^ 8 = 2 ^ 64 from rfl]

@[simp] theorem header_setSize :
    header (setSize m a v) a = { header m a with size := v % 2 ^ 31 } := by
  have hf := header_free_le m a
  have h1 : (setSize m a v).read (a + 4) 4 = v % 2 ^ 31 + 2 ^ 31 * (header m a).free := by
    rw [setSize, ByteMem.read_write_same]
    exact Nat.mod_eq_of_lt (by omega)
  have h2 : (setSize m a v).read a 4 = m.read a 4 := ByteMem.read_write_disjoint (by omega)
  have h3 : (setSize m a v).read (a + 8) 8 = m.read (a + 8) 8 :=
    ByteMem.read_write_disjoint (by omega)
  unfold header at *
  simp only [h1, h2, h3, KmemHeader.mk.injEq, true_and, and_true]
  omega

@[simp] theorem header_setFree :
    header (setFree m a v) a = { header m a with free := v % 2 } := by
  have hs : (header m a).size < 2 ^ 31 := Nat.mod_lt _ (by omega)
  have h1 : (setFree m a v).read (a + 4) 4 = (header m a).size + 2 ^ 31 * (v % 2) := by
    rw [setFree, ByteMem.read_write_same]
    exact Nat.mod_eq_of_lt (by omega)
  have h2 : (setFree m a v).read a 4 = m.read a 4 := ByteMem.read_write_disjoint (by omega)
  have h3 : (setFree m a v).read (a + 8) 8 = m.read (a + 8) 8 :=
    ByteMem.read_write_disjoint (by omega)
  unfold header at *
  simp only [h1, h2, h3, KmemHeader.mk.injEq, true_and, and_true]
  omega

end Fields

/-! ## What a field assignment leaves alone -/

/-- `m'` differs from `m` at most inside the header at `a`. -/
def HeaderWrite (a : Nat) (m m' : ByteMem) : Prop :=
  ∀ x, x < a ∨ a + 16 ≤ x → m' x = m x

theorem setMagic_write (m : ByteMem) (a v : Nat) : HeaderWrite a m (setMagic m a v) :=
  fun _ _ => ByteMem.write_apply_out (by omega)

theorem setSize_write (m : ByteMem) (a v : Nat) : HeaderWrite a m (setSize m a v) :=
  fun _ _ => ByteMem.write_apply_out (by omega)

theorem setFree_write (m : ByteMem) (a v : Nat) : HeaderWrite a m (setFree m a v) :=
  fun _ _ => ByteMem.write_apply_out (by omega)

theorem setPrev_write (m : ByteMem) (a v : Nat) : HeaderWrite a m (setPrev m a v) :=
  fun _ _ => ByteMem.write_apply_out (by omega)

/-- A header is its 16 bytes. -/
theorem header_congr {m m' : ByteMem} {a : Nat} (h : ∀ x, a ≤ x → x < a + 16 → m' x = m x) :
    header m' a = header m a := by
  unfold header
  rw [ByteMem.read_congr 4 fun x hx hx' => h x (by omega) (by omega),
    ByteMem.read_congr (a := a + 4) 4 fun x hx hx' => h x (by omega) (by omega),
    ByteMem.read_congr (a := a + 8) 8 fun x hx hx' => h x (by omega) (by omega)]

/-- An assignment to one header leaves a header elsewhere as it was. -/
theorem HeaderWrite.header_ne {m m' : ByteMem} {a b : Nat} (h : HeaderWrite a m m')
    (hab : b + 16 ≤ a ∨ a + 16 ≤ b) : header m' b = header m b :=
  header_congr fun x _ _ => h x (by omega)

/-! ## The heap -/

/-- The heap: memory and the two globals `kernel_heap` and `kernel_hlim`. -/
structure Heap where
  mem : ByteMem
  kernelHeap : Nat
  kernelHlim : Nat

/-- `(uint64_t)kernel_heap + kernel_hlim`, the bound every walk tests against. -/
def Heap.limit (h : Heap) : Nat := (h.kernelHeap + h.kernelHlim) % 2 ^ 64

/-- The address the header at `a` leads to: `a + a->size + sizeof(kmem_header)`. -/
def nextHeader (m : ByteMem) (a : Nat) : Nat := (a + (header m a).size + 16) % 2 ^ 64

/-- `a` is a block header: the chain from `kernel_heap` reaches it before the end
of the region. -/
inductive IsHeader (h : Heap) : Nat → Prop
  | first : IsHeader h h.kernelHeap
  | next {a : Nat} : IsHeader h a →
      a + (header h.mem a).size + 16 < h.kernelHeap + 16 + h.kernelHlim →
      IsHeader h (a + (header h.mem a).size + 16)

/-- `mem_init` after `page_init` and `phys_init`: one free block up to the top
of the address space. -/
def memInit (lastPage : Nat) (m : ByteMem) : Heap :=
  let kernelHlim := (0x40000000 + 2 ^ 64 - lastPage - 16) % 2 ^ 64
  let kernelHeap := lastPage ||| 0xFFFFFFFFC0000000
  let m := setMagic m kernelHeap kmemMagic
  let m := setSize m kernelHeap kernelHlim
  let m := setFree m kernelHeap 1
  let m := setPrev m kernelHeap 0
  { mem := m, kernelHeap := kernelHeap, kernelHlim := kernelHlim }

/-! ## `kmalloc` -/

/-- The condition of `kmalloc`'s `while`: `head` is not past the end and its
block is too small or taken. -/
def kmallocSkips (h : Heap) (size head : Nat) : Prop :=
  head < h.limit ∧ ((header h.mem head).size < size ∨ (header h.mem head).free = 0)

instance (h : Heap) (size head : Nat) : Decidable (kmallocSkips h size head) :=
  inferInstanceAs (Decidable (_ ∧ _))

/-- The `while` of `kmalloc`, from `head`, for at most `fuel` blocks. -/
def kmallocWalk (h : Heap) (size : Nat) : Nat → Nat → Option Nat
  | 0, _ => none
  | fuel + 1, head =>
    if kmallocSkips h size head then kmallocWalk h size fuel (nextHeader h.mem head)
    else some head

/-- The addresses whose `size` and `free` fields `kmalloc`'s `while` reads: every
value of `head` that passes the first half of its condition. -/
inductive kmallocReads (h : Heap) (size : Nat) : Nat → Prop
  | first : h.kernelHeap < h.limit → kmallocReads h size h.kernelHeap
  | next {head : Nat} : kmallocReads h size head → kmallocSkips h size head →
      nextHeader h.mem head < h.limit → kmallocReads h size (nextHeader h.mem head)

/-- The four assignments to `*next` in a split. -/
def kmallocNewHeader (m : ByteMem) (next size head : Nat) : ByteMem :=
  let m := setSize m next size
  let m := setFree m next 1
  let m := setMagic m next kmemMagic
  setPrev m next head

/-- The split of the block at `head`: a free header behind the first `size`
bytes, linked into the chain. -/
def kmallocSplit (h : Heap) (size head : Nat) : ByteMem :=
  let next := (head + size + 16) % 2 ^ 64
  let m := kmallocNewHeader h.mem next ((header h.mem head).size - size - 16) head
  let m :=
    if (head + (header m head).size) % 2 ^ 64 < h.limit then
      setPrev m (nextHeader m head) next
    else m
  setSize m head size

/-- Taking the block at `head`, with the split if it is large enough. -/
def kmallocTake (h : Heap) (size head : Nat) : ByteMem :=
  let m := if (size + 16) % 2 ^ 64 < (header h.mem head).size then kmallocSplit h size head
    else h.mem
  setFree m head 0

/-- `kmalloc`: the returned pointer and the heap after the call, or `none` if
the walk has not stopped after as many blocks as the heap has bytes. -/
def kmalloc (h : Heap) (size : Nat) : Option (Nat × Heap) :=
  if size = 0 ∨ size ≥ h.kernelHlim then some (0, h)
  else
    match kmallocWalk h size (h.kernelHlim + 1) h.kernelHeap with
    | none => none
    | some head =>
      if head ≥ h.limit then some (0, h)
      else some ((head + 16) % 2 ^ 64, { h with mem := kmallocTake h size head })

/-! ## `kfree` -/

/-- Clearing the three fields of a header that a merge has swallowed. -/
def clearHeader (m : ByteMem) (a : Nat) : ByteMem :=
  let m := setMagic m a 0
  let m := setSize m a 0
  setPrev m a 0

/-- First part of `kfree`: join the block at `ptr` to a free block before it.
Returns the memory and the new `ptr`. -/
def kfreeMergePrev (m : ByteMem) (ptr : Nat) : ByteMem × Nat :=
  let prev := (header m ptr).prev
  if prev ≠ 0 ∧ (header m prev).magic = kmemMagic ∧ (header m prev).free = 1 then
    let m := setSize m prev ((header m prev).size + ((header m ptr).size + 16))
    (clearHeader m ptr, prev)
  else (m, ptr)

/-- Second part of `kfree`: join a free block after `ptr` to it. Returns the
memory and the new `next`. -/
def kfreeMergeNext (limit : Nat) (m : ByteMem) (ptr : Nat) : ByteMem × Nat :=
  let next := nextHeader m ptr
  if next ≠ 0 ∧ next < limit ∧ (header m next).magic = kmemMagic ∧ (header m next).free = 1 then
    let m := setSize m ptr ((header m ptr).size + ((header m next).size + 16))
    let m := clearHeader m next
    (m, nextHeader m ptr)
  else (m, next)

/-- Last part of `kfree`: the block at `next`, if there is one, follows `ptr`. -/
def kfreeRelink (limit : Nat) (m : ByteMem) (next ptr : Nat) : ByteMem :=
  if next ≠ 0 ∧ next < limit ∧ (header m next).magic = kmemMagic then setPrev m next ptr else m

/-- What `kfree` does to memory for a pointer that is not null. -/
def kfreeMem (limit : Nat) (m : ByteMem) (p : Nat) : ByteMem :=
  let ptr := (p + 2 ^ 64 - 16) % 2 ^ 64
  let joined := kfreeMergePrev (setFree m ptr 1) ptr
  let last := kfreeMergeNext limit joined.1 joined.2
  kfreeRelink limit last.1 last.2 joined.2

/-- `kfree`. -/
def kfree (h : Heap) (p : Nat) : Heap :=
  if p = 0 then h else { h with mem := kfreeMem h.limit h.mem p }

theorem kfree_kernelHeap (h : Heap) (p : Nat) : (kfree h p).kernelHeap = h.kernelHeap := by
  unfold kfree
  split <;> rfl

theorem kfree_kernelHlim (h : Heap) (p : Nat) : (kfree h p).kernelHlim = h.kernelHlim := by
  unfold kfree
  split <;> rfl

theorem kfree_mem {h : Heap} {p : Nat} (hp : p ≠ 0) :
    (kfree h p).mem = kfreeMem h.limit h.mem p := by
  rw [kfree, if_neg hp]

end OS64.Mm
