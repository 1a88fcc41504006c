import OS64.Mm.PageSpaces

/-!
# The kernel heap in every address space

The heap begins behind the kernel and grows by page faults. Its first pages belong
to `kernel_pt`, which every address space shares: a fault on one of these is
repaired for all of them, and all of them agree on it. The pages behind the 2 MiB of
`kernel_pt` have tables under `PML4` alone. There a fault is repaired in the first
address space and in no other, and `copy_pages` takes such a page for one of the
task and copies it.
-/

namespace OS64.Mm

open OS64.Lib

/-! ## Pages of the heap -/

/-- No page of the heap is mapped under `r` but in `kernel_pt`. -/
def HeapNear (kernelHeap : BitVec 64) (s : PageState) (r : Frame) : Prop :=
  ∀ v, kernelHeap ≤ v → tablePath v ≠ kernelPath → s.translate r v = none

theorem HeapNear.loaded {kernelHeap : BitVec 64} {s : PageState} {r : Frame} (h : HeapNear kernelHeap s r)
    (cr3 : BitVec 64) : HeapNear kernelHeap (s.loaded cr3) r := h

theorem TableChain.loaded {s : PageState} {r pdp pd kpt : Frame} (h : TableChain s r pdp pd kpt)
    (cr3 : BitVec 64) : TableChain (s.loaded cr3) r pdp pd kpt := ⟨h.pml4, h.pdp, h.pd⟩

end OS64.Mm
