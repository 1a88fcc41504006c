import Mathlib.Data.List.Nodup
import OS64.Lib.Run
import OS64.Mm.Kfree
import OS64.Mm.Kmalloc

/-!
# Runs of the kernel heap

A run starts from `mem_init` and takes three kinds of steps: calls of `kmalloc`
with any size, as long as the search does not walk off the chain; calls of
`kfree` with a null or a live pointer; and stores by the clients, each inside
the payload of a live allocation. The state keeps, besides the heap, the list
of live allocations: the pointer each `kmalloc` returned and the size asked for.

`HeapInv` ties the list to the chain: every live allocation is the payload of a
taken block of its own. It is kept by every step (`heapStep_inv`), so it holds
along every run (`heapRun_inv`), and the results are read off it:

* `kmem_chain_tiles`: the chain of headers tiles the region, is linked both
  ways and has no two free neighbours;
* `heap_isolation`: live payloads lie in the region, apart from each other and
  from every header, and calls leave their bytes alone;
* `kmalloc_exhaustion`: when nothing fits, the search reads address 0, which is
  no header, so exhaustion is never reported.
-/

namespace OS64.Mm

open OS64.Lib (ByteMem)
open OS64.Lib.Tiling

/-- The heap and the live allocations, each a pointer and the size asked for. -/
structure HeapState where
  heap : Heap
  live : List (Nat × Nat)

/-- The state `mem_init` leaves. -/
def heapInit (lastPage : Nat) (m : ByteMem) : HeapState where
  heap := memInit lastPage m
  live := []

/-- The allocations live after `kmalloc(n)` has returned `p`. -/
def liveAfter (live : List (Nat × Nat)) (p n : Nat) : List (Nat × Nat) :=
  if p = 0 then live else (p, n) :: live

/-- The calls into the heap. -/
inductive HeapCall : HeapState → HeapState → Prop
  | kmalloc {s : HeapState} {n p : Nat} {h' : Heap} : ¬ kmallocWalksOff s.heap n →
      kmalloc s.heap n = some (p, h') →
      HeapCall s { heap := h', live := liveAfter s.live p n }
  | kfreeNull {s : HeapState} : HeapCall s { s with heap := kfree s.heap 0 }
  | kfree {s : HeapState} {p n : Nat} : (p, n) ∈ s.live →
      HeapCall s { heap := kfree s.heap p, live := s.live.erase (p, n) }

/-- A call, or a store by a client into the payload of a live allocation. -/
inductive HeapStep : HeapState → HeapState → Prop
  | call {s s' : HeapState} : HeapCall s s' → HeapStep s s'
  | store {s : HeapState} {p n x : Nat} {v : BitVec 8} : (p, n) ∈ s.live → p ≤ x → x < p + n →
      HeapStep s { s with heap := { s.heap with mem := Function.update s.heap.mem x v } }

/-- A live allocation is the payload of a taken block. -/
def LiveAt (s : HeapState) (bs : List Block) (a : Nat × Nat) : Prop :=
  ∃ x b, BlockAt 16 s.heap.kernelHeap bs x b ∧ a.1 = x + 16 ∧ b.free = false ∧ a.2 ≤ b.size

/-- The run invariant: a represented heap, and a taken block for every live
allocation, no block for two of them. -/
structure HeapInv (s : HeapState) (bs : List Block) : Prop where
  rep : HeapRep s.heap bs
  live : ∀ a ∈ s.live, LiveAt s bs a
  nodup : (s.live.map Prod.fst).Nodup

theorem heapInit_inv {lastPage : Nat} (halign : lastPage % 0x1000 = 0) (hlp : lastPage < 2 ^ 30)
    (m : ByteMem) :
    HeapInv (heapInit lastPage m) [⟨(memInit lastPage m).kernelHlim, true⟩] :=
  ⟨memInit_rep halign hlp m, fun _ ha => absurd ha (List.not_mem_nil), List.nodup_nil⟩

/-! ## What a call does -/

/-- The tiling after a call, and what of the old state is still there: a call
keeps the region, leaves taken blocks that stay live where they were, and writes
only inside headers of the old or of the new tiling. -/
structure CallEffect (s : HeapState) (bs : List Block) (s' : HeapState) (bs' : List Block) :
    Prop where
  inv : HeapInv s' bs'
  base : s'.heap.kernelHeap = s.heap.kernelHeap
  writes : ∀ y, (∀ x b, BlockAt 16 s.heap.kernelHeap bs x b → y < x ∨ x + 16 ≤ y) →
    (∀ x b, BlockAt 16 s.heap.kernelHeap bs' x b → y < x ∨ x + 16 ≤ y) →
    s'.heap.mem y = s.heap.mem y

theorem liveAt_of_blockAt {s : HeapState} {h : Heap} {live : List (Nat × Nat)} {bs bs' : List Block}
    {a : Nat × Nat} (hbase : h.kernelHeap = s.heap.kernelHeap) (ha : LiveAt s bs a)
    (hkeep : ∀ x b, BlockAt 16 s.heap.kernelHeap bs x b → a.1 = x + 16 → b.free = false →
      BlockAt 16 s.heap.kernelHeap bs' x b) : LiveAt ⟨h, live⟩ bs' a := by
  obtain ⟨x, b, hat, hp, hfree, hsize⟩ := ha
  refine ⟨x, b, ?_, hp, hfree, hsize⟩
  show BlockAt 16 h.kernelHeap bs' x b
  rw [hbase]
  exact hkeep x b hat hp hfree

/-- `kmalloc` that takes the free block `b` adds one live allocation. -/
theorem kmallocTake_effect {s : HeapState} {pre post : List Block} {b : Block} {n : Nat}
    (hinv : HeapInv s (pre ++ b :: post)) (hfree : b.free = true) (hn : 1 ≤ n)
    (hsize : n ≤ b.size) :
    CallEffect s (pre ++ b :: post)
      { heap := { s.heap with mem := kmallocTake s.heap n (s.heap.kernelHeap + span 16 pre) }
        live := (s.heap.kernelHeap + span 16 pre + 16, n) :: s.live }
      (pre ++ (takeBlock 16 n b ++ post)) := by
  have hat := blockAt_mid (o := 16) s.heap.kernelHeap pre b post
  -- the block taken now was free, so it carries no live allocation
  have hother : ∀ x c, BlockAt 16 s.heap.kernelHeap (pre ++ b :: post) x c → c.free = false →
      ¬ BlockAt 16 (s.heap.kernelHeap + span 16 pre) [b] x c := by
    intro x c _ hc hmid
    rcases blockAt_cons.mp hmid with ⟨-, rfl⟩ | hmid
    · rw [hfree] at hc
      cases hc
    · exact not_blockAt_nil hmid
  refine ⟨⟨kmallocTake_rep hinv.rep hfree hn hsize, ?_, ?_⟩, rfl, fun y _ hy =>
    kmallocTake_headersOnly hinv.rep hsize y hy⟩
  · intro a ha
    rcases List.mem_cons.mp ha with rfl | ha
    · -- the new allocation sits in the taken part of the block
      by_cases hsplit : n + 16 < b.size
      · refine ⟨_, ⟨n, false⟩, ⟨pre, ⟨b.size - n - 16, true⟩ :: post, ?_, rfl⟩, rfl, rfl, le_rfl⟩
        rw [takeBlock, if_pos hsplit]
        rfl
      · refine ⟨_, ⟨b.size, false⟩, ⟨pre, post, ?_, rfl⟩, rfl, rfl, hsize⟩
        rw [takeBlock, if_neg hsplit]
        rfl
    · refine liveAt_of_blockAt rfl (hinv.live a ha) fun x c hx _ hc => ?_
      exact BlockAt.replace [b] _ hx (by rw [span_takeBlock]; simp) (hother x c hx hc)
  · rw [List.map_cons, List.nodup_cons]
    refine ⟨fun hmem => ?_, hinv.nodup⟩
    obtain ⟨a, ha, hp⟩ := List.mem_map.mp hmem
    obtain ⟨x, c, hx, hpx, hc, -⟩ := hinv.live a ha
    have hxeq : x = s.heap.kernelHeap + span 16 pre := by omega
    rw [hxeq] at hx
    rcases hx.disjoint hat with ⟨-, rfl⟩ | hlt | hlt
    · rw [hfree] at hc
      cases hc
    · omega
    · omega

/-- `kfree` of a live pointer ends that allocation and no other. -/
theorem kfree_effect {s : HeapState} {bs : List Block} {p n : Nat} (hinv : HeapInv s bs)
    (hlive : (p, n) ∈ s.live) :
    ∃ pre b post, bs = pre ++ b :: post ∧ p = s.heap.kernelHeap + span 16 pre + 16 ∧
      CallEffect s bs { heap := kfree s.heap p, live := s.live.erase (p, n) }
        (release 16 pre b post) := by
  obtain ⟨x, b, ⟨pre, post, rfl, rfl⟩, hp, hfree, -⟩ := hinv.live (p, n) hlive
  change p = s.heap.kernelHeap + span 16 pre + 16 at hp
  refine ⟨pre, b, post, rfl, hp, ?_⟩
  have hne : s.heap.kernelHeap + span 16 pre + 16 ≠ 0 := by omega
  subst hp
  have hrep := kfree_rep hinv.rep
  have hbase := kfree_kernelHeap s.heap (s.heap.kernelHeap + span 16 pre + 16)
  have hmem := kfree_mem (h := s.heap) hne
  have hwrites := (kfreeMem_chain hinv.rep).2
  rw [← hmem] at hwrites
  generalize kfree s.heap (s.heap.kernelHeap + span 16 pre + 16) = h' at hrep hbase hwrites ⊢
  refine ⟨⟨hrep, ?_, ?_⟩, hbase, fun y hy _ => hwrites y hy⟩
  · intro a ha
    have ha' : a ∈ s.live := List.mem_of_mem_erase ha
    refine liveAt_of_blockAt hbase (hinv.live a ha') fun y c hy hpy hc => ?_
    refine release_keeps hy hc fun hyx => ?_
    -- only the freed allocation has the freed pointer
    have hfst : a.1 = (s.heap.kernelHeap + span 16 pre + 16, n).1 := by
      rw [hpy, hyx]
    have heq : a = (s.heap.kernelHeap + span 16 pre + 16, n) :=
      List.inj_on_of_nodup_map hinv.nodup ha' hlive hfst
    have hnd : s.live.Nodup := List.Nodup.of_map _ hinv.nodup
    rw [heq] at ha
    exact hnd.not_mem_erase ha
  · exact hinv.nodup.sublist ((List.erase_sublist).map _)

/-- Every call keeps the invariant and leaves the payloads it does not end alone. -/
theorem heapCall_effect {s s' : HeapState} {bs : List Block} (hinv : HeapInv s bs)
    (hcall : HeapCall s s') : ∃ bs', CallEffect s bs s' bs' := by
  cases hcall with
  | @kmalloc n p h' hoff hret =>
    rcases kmalloc_cases hinv.rep hoff with ⟨-, hrej⟩ | ⟨hn, -, pre, b, post, rfl, hfree, hsize, -, htake⟩
    · rw [hrej] at hret
      obtain ⟨rfl, rfl⟩ := Prod.mk.inj (Option.some.inj hret)
      exact ⟨bs, hinv, rfl, fun _ _ _ => rfl⟩
    · rw [htake] at hret
      obtain ⟨rfl, rfl⟩ := Prod.mk.inj (Option.some.inj hret)
      rw [liveAfter, if_neg (by omega)]
      exact ⟨_, kmallocTake_effect hinv hfree hn hsize⟩
  | kfreeNull => exact ⟨bs, hinv, rfl, fun _ _ _ => rfl⟩
  | kfree hlive =>
    obtain ⟨pre, b, post, -, -, heff⟩ := kfree_effect hinv hlive
    exact ⟨_, heff⟩

/-- A payload byte of a live allocation is in no header. -/
theorem live_not_header {s : HeapState} {bs : List Block} {a : Nat × Nat} (ha : LiveAt s bs a)
    {y : Nat} (hy : a.1 ≤ y) (hy' : y < a.1 + a.2) {x : Nat} {b : Block}
    (hx : BlockAt 16 s.heap.kernelHeap bs x b) : y < x ∨ x + 16 ≤ y := by
  obtain ⟨z, c, hz, hp, -, hsize⟩ := ha
  rcases hz.disjoint hx with ⟨rfl, rfl⟩ | hlt | hlt <;> omega

/-- A store into a live payload keeps the invariant. -/
theorem store_inv {s : HeapState} {bs : List Block} {p n x : Nat} {v : BitVec 8}
    (hinv : HeapInv s bs) (hlive : (p, n) ∈ s.live) (hx : p ≤ x) (hx' : x < p + n) :
    HeapInv { s with heap := { s.heap with mem := Function.update s.heap.mem x v } } bs := by
  refine ⟨hinv.rep.congr fun y b hy => header_congr fun z hz hz' => ?_, hinv.live, hinv.nodup⟩
  have hout := live_not_header (hinv.live _ hlive) hx hx' hy
  exact Function.update_of_ne (by omega) _ _

theorem heapStep_inv {s s' : HeapState} (hinv : ∃ bs, HeapInv s bs) (hstep : HeapStep s s') :
    ∃ bs, HeapInv s' bs := by
  obtain ⟨bs, hinv⟩ := hinv
  cases hstep with
  | call hcall =>
    obtain ⟨bs', heff⟩ := heapCall_effect hinv hcall
    exact ⟨bs', heff.inv⟩
  | store hlive hx hx' => exact ⟨bs, store_inv hinv hlive hx hx'⟩

/-! ## Along a run -/

section Run

variable {lastPage : Nat} {m : ByteMem} {s : HeapState}

/-- Along every run from `mem_init` the invariant holds. -/
theorem heapRun_inv (halign : lastPage % 0x1000 = 0) (hlp : lastPage < 2 ^ 30)
    (hrun : Relation.ReflTransGen HeapStep (heapInit lastPage m) s) : ∃ bs, HeapInv s bs :=
  OS64.Lib.run_invariant (fun s => ∃ bs, HeapInv s bs) (fun _ _ => heapStep_inv) hrun
    ⟨_, heapInit_inv halign hlp m⟩

/-- The step of a call, when the first block that fits is known. -/
theorem heapStep_takes {pre post : List Block} {b : Block} {n : Nat}
    (hr : HeapRep s.heap (pre ++ b :: post)) (hn : 0 < n) (hlim : n < s.heap.kernelHlim)
    (hfit : fits n b = true) (hpre : ∀ c ∈ pre, fits n c = false) :
    HeapStep s
      { heap := { s.heap with mem := kmallocTake s.heap n (s.heap.kernelHeap + span 16 pre) }
        live := (s.heap.kernelHeap + span 16 pre + 16, n) :: s.live } := by
  have hoff := not_kmallocWalksOff hr (List.mem_append_right pre List.mem_cons_self) hfit
  have hstep := HeapStep.call (HeapCall.kmalloc hoff (kmalloc_takes hr hn hlim rfl hfit hpre))
  rw [liveAfter, if_neg (by omega)] at hstep
  exact hstep

/-- The first call of a run, with any accepted size, takes the one free block. -/
theorem heapInit_kmalloc (halign : lastPage % 0x1000 = 0) (hlp : lastPage < 2 ^ 30) (m : ByteMem)
    {n : Nat} (hn : 0 < n) (hlim : n < (memInit lastPage m).kernelHlim) :
    HeapStep (heapInit lastPage m)
      { heap := { memInit lastPage m with
          mem := kmallocTake (memInit lastPage m) n (memInit lastPage m).kernelHeap }
        live := [((memInit lastPage m).kernelHeap + 16, n)] } := by
  have hfit : fits n ⟨(memInit lastPage m).kernelHlim, true⟩ = true :=
    fits_iff.mpr ⟨rfl, Nat.le_of_lt hlim⟩
  have hrep : HeapRep (heapInit lastPage m).heap ([] ++ ⟨(memInit lastPage m).kernelHlim, true⟩ :: []) :=
    memInit_rep halign hlp m
  have hstep := heapStep_takes hrep hn hlim hfit fun _ hc => absurd hc List.not_mem_nil
  rw [span_nil] at hstep
  exact hstep

/-! ## Runs of known calls -/

/-- A run leads to a heap of these blocks, with these live allocations. -/
structure RunTo (lastPage : Nat) (m : ByteMem) (bs : List Block) (live : List (Nat × Nat))
    (s : HeapState) : Prop where
  run : Relation.ReflTransGen HeapStep (heapInit lastPage m) s
  rep : HeapRep s.heap bs
  live : s.live = live
  base : s.heap.kernelHeap = (memInit lastPage m).kernelHeap
  lim : s.heap.kernelHlim = (memInit lastPage m).kernelHlim

theorem runTo_start (halign : lastPage % 0x1000 = 0) (hlp : lastPage < 2 ^ 30) (m : ByteMem) :
    RunTo lastPage m [⟨(memInit lastPage m).kernelHlim, true⟩] [] (heapInit lastPage m) :=
  ⟨.refl, memInit_rep halign hlp m, rfl, rfl, rfl⟩

/-- One more call takes the first block that fits. -/
theorem runTo_kmalloc (n : Nat) {pre post bs : List Block} {b : Block} {live live' : List (Nat × Nat)}
    (h : ∃ s, RunTo lastPage m (pre ++ b :: post) live s)
    (hlim : 0 < n ∧ n < (memInit lastPage m).kernelHlim) (hfit : fits n b = true)
    (hpre : ∀ c ∈ pre, fits n c = false) (hbs : pre ++ (takeBlock 16 n b ++ post) = bs)
    (hlive : ((memInit lastPage m).kernelHeap + span 16 pre + 16, n) :: live = live') :
    ∃ s, RunTo lastPage m bs live' s := by
  obtain ⟨s, hrun, hrep, rfl, hbase, hlimit⟩ := h
  obtain ⟨hfree, hsize⟩ := fits_iff.mp hfit
  have hstep := heapStep_takes hrep hlim.1 (by rw [hlimit]; exact hlim.2) hfit hpre
  exact ⟨_, hrun.tail hstep, hbs ▸ kmallocTake_rep hrep hfree hlim.1 hsize, by rw [hbase, hlive], hbase,
    hlimit⟩

/-- One more call gives a live block back. -/
theorem runTo_kfree (p n : Nat) {pre post bs : List Block} {b : Block} {live live' : List (Nat × Nat)}
    (h : ∃ s, RunTo lastPage m (pre ++ b :: post) live s)
    (hp : p = (memInit lastPage m).kernelHeap + span 16 pre + 16) (hmem : (p, n) ∈ live)
    (hbs : release 16 pre b post = bs) (hlive : live.erase (p, n) = live') :
    ∃ s, RunTo lastPage m bs live' s := by
  obtain ⟨s, hrun, hrep, rfl, hbase, hlimit⟩ := h
  have hrep' := kfree_rep hrep
  rw [hbase, ← hp, hbs] at hrep'
  exact ⟨_, hrun.tail (.call (.kfree hmem)), hrep', hlive, (kfree_kernelHeap s.heap p).trans hbase,
    (kfree_kernelHlim s.heap p).trans hlimit⟩

/-- The block of 166 bytes of which the first two blocks of three have become is cut in two. -/
def mergedBlocks : List Block := [⟨30, false⟩, ⟨120, true⟩, ⟨200, false⟩, ⟨0x3FDFFE62, true⟩]

def mergedLive : List (Nat × Nat) := [(0xFFFFFFFFC0200010, 30), (0xFFFFFFFFC02000C6, 200)]

theorem mergedHeap_run : ∃ s, RunTo 0x200000 (fun _ => 0) mergedBlocks mergedLive s := by
  have hstart : ∃ s, RunTo 0x200000 (fun _ => 0) ([] ++ ⟨0x3FDFFFF0, true⟩ :: []) [] s :=
    ⟨_, runTo_start (by decide) (by decide) _⟩
  have hfirst : ∃ s, RunTo 0x200000 (fun _ => 0) ([⟨100, false⟩] ++ ⟨0x3FDFFF7C, true⟩ :: [])
      [(0xFFFFFFFFC0200010, 100)] s :=
    runTo_kmalloc 100 hstart (by decide) (by decide) (by decide) rfl rfl
  have hsecond : ∃ s, RunTo 0x200000 (fun _ => 0)
      ([⟨100, false⟩, ⟨50, false⟩] ++ ⟨0x3FDFFF3A, true⟩ :: [])
      [(0xFFFFFFFFC0200084, 50), (0xFFFFFFFFC0200010, 100)] s :=
    runTo_kmalloc 50 hfirst (by decide) (by decide) (by decide) rfl rfl
  have hthird : ∃ s, RunTo 0x200000 (fun _ => 0)
      ([] ++ ⟨100, false⟩ :: [⟨50, false⟩, ⟨200, false⟩, ⟨0x3FDFFE62, true⟩])
      [(0xFFFFFFFFC02000C6, 200), (0xFFFFFFFFC0200084, 50), (0xFFFFFFFFC0200010, 100)] s :=
    runTo_kmalloc 200 hsecond (by decide) (by decide) (by decide) rfl rfl
  have hfree : ∃ s, RunTo 0x200000 (fun _ => 0)
      ([⟨100, true⟩] ++ ⟨50, false⟩ :: [⟨200, false⟩, ⟨0x3FDFFE62, true⟩])
      [(0xFFFFFFFFC02000C6, 200), (0xFFFFFFFFC0200084, 50)] s :=
    runTo_kfree 0xFFFFFFFFC0200010 100 hthird rfl (by decide) rfl (by decide)
  have hmerged : ∃ s, RunTo 0x200000 (fun _ => 0)
      ([] ++ ⟨166, true⟩ :: [⟨200, false⟩, ⟨0x3FDFFE62, true⟩]) [(0xFFFFFFFFC02000C6, 200)] s :=
    runTo_kfree 0xFFFFFFFFC0200084 50 hfree rfl (by decide) rfl (by decide)
  exact runTo_kmalloc 30 hmerged (by decide) (by decide) (by decide) rfl rfl

/-! ## The chain tiles the region -/

/-- After every step of every run the chain from `kernel_heap` tiles the region up
to its end, every header carries the magic number, a positive size and the
address of the header before it, and no two neighbours are both free. -/
theorem kmem_chain_tiles (halign : lastPage % 0x1000 = 0) (hlp : lastPage < 2 ^ 30)
    (hrun : Relation.ReflTransGen HeapStep (heapInit lastPage m) s) :
    ∃ bs : List Block, span 16 bs = 16 + s.heap.kernelHlim ∧
      Chain s.heap.mem 0 s.heap.kernelHeap bs ∧ (∀ b ∈ bs, 1 ≤ b.size) ∧ Coalesced bs := by
  obtain ⟨bs, hinv⟩ := heapRun_inv halign hlp hrun
  exact ⟨bs, hinv.rep.tiles, hinv.rep.chain, hinv.rep.pos, hinv.rep.coalesced⟩

/-- `kmem_chain_tiles` on that heap. -/
theorem kmem_chain_tiles_merged : ∃ s, RunTo 0x200000 (fun _ => 0) mergedBlocks mergedLive s ∧
    ∃ bs : List Block, span 16 bs = 16 + s.heap.kernelHlim ∧
      Chain s.heap.mem 0 s.heap.kernelHeap bs ∧ (∀ b ∈ bs, 1 ≤ b.size) ∧ Coalesced bs := by
  obtain ⟨s, h⟩ := mergedHeap_run
  exact ⟨s, h, kmem_chain_tiles (by decide) (by decide) h.run⟩

/-! ## Isolation -/

/-- Two live allocations have blocks of their own. -/
theorem live_pairwise {bs : List Block} (hinv : HeapInv s bs) :
    s.live.Pairwise fun a b => a.1 + a.2 ≤ b.1 ∨ b.1 + b.2 ≤ a.1 := by
  have hne : s.live.Pairwise fun a b => a.1 ≠ b.1 := List.pairwise_map.mp hinv.nodup
  refine hne.imp_of_mem fun {a b} ha hb hab => ?_
  obtain ⟨x, c, hx, hpx, -, hcx⟩ := hinv.live a ha
  obtain ⟨y, d, hy, hpy, -, hdy⟩ := hinv.live b hb
  rcases hx.disjoint hy with ⟨rfl, -⟩ | hlt | hlt
  · exact absurd (hpx.trans hpy.symm) hab
  · omega
  · omega

/-- The bytes of an allocation that is live before and after a call keep their values. -/
theorem live_bytes_kept {s' : HeapState} {bs : List Block} (hinv : HeapInv s bs)
    (hcall : HeapCall s s') {a : Nat × Nat} (ha : a ∈ s.live) (ha' : a ∈ s'.live) {y : Nat}
    (hy : a.1 ≤ y) (hy' : y < a.1 + a.2) : s'.heap.mem y = s.heap.mem y := by
  obtain ⟨bs', heff⟩ := heapCall_effect hinv hcall
  have hnew := heff.inv.live a ha'
  refine heff.writes y (fun x b hx => live_not_header (hinv.live a ha) hy hy' hx) fun x b hx => ?_
  rw [← heff.base] at hx
  exact live_not_header hnew hy hy' hx

/-- Live payloads lie inside the region, do not overlap each other or any header,
and no call changes a byte of a payload that is live before and after it. -/
theorem heap_isolation (halign : lastPage % 0x1000 = 0) (hlp : lastPage < 2 ^ 30)
    (hrun : Relation.ReflTransGen HeapStep (heapInit lastPage m) s) :
    (∀ a ∈ s.live, s.heap.kernelHeap ≤ a.1 ∧
      a.1 + a.2 ≤ s.heap.kernelHeap + 16 + s.heap.kernelHlim) ∧
    (s.live.Pairwise fun a b => a.1 + a.2 ≤ b.1 ∨ b.1 + b.2 ≤ a.1) ∧
    (∀ a ∈ s.live, ∀ x, IsHeader s.heap x → a.1 + a.2 ≤ x ∨ x + 16 ≤ a.1) ∧
    (∀ s', HeapCall s s' → ∀ a ∈ s.live, a ∈ s'.live →
      ∀ y, a.1 ≤ y → y < a.1 + a.2 → s'.heap.mem y = s.heap.mem y) := by
  obtain ⟨bs, hinv⟩ := heapRun_inv halign hlp hrun
  refine ⟨?_, live_pairwise hinv, ?_, fun s' hcall a ha ha' y hy hy' =>
    live_bytes_kept hinv hcall ha ha' hy hy'⟩
  · intro a ha
    obtain ⟨x, b, hx, hp, -, hsize⟩ := hinv.live a ha
    have hbd := hinv.rep.blockAt_bounds hx
    have htop := hinv.rep.top
    omega
  · intro a ha x hx
    obtain ⟨y, c, hy, hp, -, hsize⟩ := hinv.live a ha
    obtain ⟨b, hb⟩ := hinv.rep.isHeader_iff.mp hx
    rcases hy.disjoint hb with ⟨rfl, -⟩ | hlt | hlt <;> omega

/-- `heap_isolation` on that heap, with the 200 bytes kept when the 30 are given back. -/
theorem heap_isolation_merged : ∃ s, RunTo 0x200000 (fun _ => 0) mergedBlocks mergedLive s ∧
    (∀ x, IsHeader s.heap x → 0xFFFFFFFFC02000C6 + 200 ≤ x ∨ x + 16 ≤ 0xFFFFFFFFC02000C6) ∧
    ∀ y, 0xFFFFFFFFC02000C6 ≤ y → y < 0xFFFFFFFFC02000C6 + 200 →
      (kfree s.heap 0xFFFFFFFFC0200010).mem y = s.heap.mem y := by
  obtain ⟨s, h⟩ := mergedHeap_run
  obtain ⟨-, -, hheaders, hkept⟩ := heap_isolation (by decide) (by decide) h.run
  have hfirst : (0xFFFFFFFFC0200010, 30) ∈ s.live := by
    rw [h.live]
    decide
  have hother : (0xFFFFFFFFC02000C6, 200) ∈ s.live := by
    rw [h.live]
    decide
  have hleft : (0xFFFFFFFFC02000C6, 200) ∈ s.live.erase (0xFFFFFFFFC0200010, 30) := by
    rw [h.live]
    decide
  exact ⟨s, h, hheaders _ hother, hkept _ (.kfree hfirst) _ hother hleft⟩

/-! ## Exhaustion -/

/-- What a caller expects of `kmalloc(n)` when nothing fits: only real headers are
read, and the call returns null with the heap unchanged. -/
def exhaustionReported (h : Heap) (n : Nat) : Prop :=
  (∀ a, kmallocReads h n a → IsHeader h a) ∧ kmalloc h n = some (0, h)

/-- Address 0 is no header. -/
theorem not_isHeader_zero {h : Heap} {bs : List Block} (hr : HeapRep h bs) : ¬ IsHeader h 0 := by
  intro h0
  obtain ⟨b, hb⟩ := hr.isHeader_iff.mp h0
  have := hr.blockAt_bounds hb
  have := hr.heap_pos
  omega

/-- When no free block is large enough for a size that `kmalloc` accepts, exhaustion
is never reported: the search steps from the last header to address 0 and reads on
there. -/
theorem kmalloc_exhaustion (halign : lastPage % 0x1000 = 0) (hlp : lastPage < 2 ^ 30)
    (hrun : Relation.ReflTransGen HeapStep (heapInit lastPage m) s) {n : Nat} (_hn : 0 < n)
    (_hlim : n < s.heap.kernelHlim)
    (hfull : ∀ a, IsHeader s.heap a → (header s.heap.mem a).free = 1 →
      (header s.heap.mem a).size < n) : ¬ exhaustionReported s.heap n := by
  obtain ⟨bs, hinv⟩ := heapRun_inv halign hlp hrun
  have hno : ∀ b ∈ bs, fits n b = false := by
    intro b hb
    obtain ⟨pre, post, hbs⟩ := List.append_of_mem hb
    have hat : BlockAt 16 s.heap.kernelHeap bs (s.heap.kernelHeap + span 16 pre) b :=
      ⟨pre, post, hbs, rfl⟩
    have hlt := hfull _ (hinv.rep.isHeader_iff.mpr ⟨b, hat⟩)
    rw [hinv.rep.free_at hat, hinv.rep.size_at hat] at hlt
    by_contra hfit
    obtain ⟨hfree, hsize⟩ := fits_iff.mp (by simpa using hfit)
    rw [hfree] at hlt
    have := hlt rfl
    omega
  rintro ⟨hreads, -⟩
  exact not_isHeader_zero hinv.rep (hreads 0 (kmallocReads_wraps hinv.rep hno))

end Run

/-- A heap whose only block was taken by the largest request there is. -/
def fullHeap : HeapState where
  heap := { memInit 0x200000 fun _ => 0 with
    mem := kmallocTake (memInit 0x200000 fun _ => 0) 0x3FDFFFEF
      (memInit 0x200000 fun _ => 0).kernelHeap }
  live := [((memInit 0x200000 fun _ => 0).kernelHeap + 16, 0x3FDFFFEF)]

theorem fullHeap_run : Relation.ReflTransGen HeapStep (heapInit 0x200000 fun _ => 0) fullHeap :=
  Relation.ReflTransGen.single
    (heapInit_kmalloc (by decide) (by decide) _ (n := 0x3FDFFFEF) (by decide) (by decide))

/-- The one header of the full heap is taken. -/
theorem fullHeap_rep : HeapRep fullHeap.heap [⟨0x3FDFFFF0, false⟩] := by
  have hinit : HeapRep (memInit 0x200000 fun _ => 0) ([] ++ ⟨0x3FDFFFF0, true⟩ :: []) :=
    memInit_rep (by decide) (by decide) _
  have htake := kmallocTake_rep hinit (n := 0x3FDFFFEF) rfl (by decide) (by decide)
  have hblock : takeBlock 16 0x3FDFFFEF ⟨0x3FDFFFF0, true⟩ = [⟨0x3FDFFFF0, false⟩] := by decide
  rw [hblock, span_nil] at htake
  exact htake

theorem fullHeap_full (n : Nat) : ∀ a, IsHeader fullHeap.heap a →
    (header fullHeap.heap.mem a).free = 1 → (header fullHeap.heap.mem a).size < n := by
  intro a ha hfree
  obtain ⟨b, hb⟩ := fullHeap_rep.isHeader_iff.mp ha
  rw [fullHeap_rep.free_at hb, List.mem_singleton.mp hb.mem] at hfree
  cases hfree

/-- `kmalloc_exhaustion` on the full heap. -/
theorem kmalloc_exhaustion_fullHeap : ¬ exhaustionReported fullHeap.heap 1 :=
  kmalloc_exhaustion (by decide) (by decide) fullHeap_run (by decide) (by decide) (fullHeap_full 1)

/-- On the full heap, a reachable one with no free block, `kmalloc(1)` reads the
header at address 0, which is none. -/
theorem kmalloc_reads_address_zero :
    Relation.ReflTransGen HeapStep (heapInit 0x200000 fun _ => 0) fullHeap ∧
    1 < fullHeap.heap.kernelHlim ∧
    (∀ a, IsHeader fullHeap.heap a → (header fullHeap.heap.mem a).free = 1 →
      (header fullHeap.heap.mem a).size < 1) ∧
    kmallocReads fullHeap.heap 1 0 ∧ ¬ IsHeader fullHeap.heap 0 ∧
    ¬ exhaustionReported fullHeap.heap 1 := by
  have hread : kmallocReads fullHeap.heap 1 0 := kmallocReads_wraps fullHeap_rep (by decide)
  have hzero := not_isHeader_zero fullHeap_rep
  exact ⟨fullHeap_run, by decide, fullHeap_full 1, hread, hzero, fun h => hzero (h.1 0 hread)⟩

end OS64.Mm
