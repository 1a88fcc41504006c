import OS64.Lib.Tiling
import OS64.Mm.Mem

/-!
# The header chain and what single writes do to it

`Chain m prev a bs` says that memory `m` holds, from address `a` on, the headers
of the blocks `bs`, each with its magic number, size and free bit and with the
address of the header before it in `prev`. `HeapRep h bs` is the heap's
representation invariant: the chain from `kernel_heap` is `bs`, and `bs` is a
coalesced tiling of the region that `mem_init` laid out.

`kmalloc` and `kfree` change the chain by writing one header at a time, so two
lemmas carry both proofs: a write to a header outside a stretch of the chain
leaves that stretch alone (`Chain.frame`), and assigning `prev` of its first
header relinks a stretch (`Chain.relink`).
-/

namespace OS64.Mm

open OS64.Lib (ByteMem)
open OS64.Lib.Tiling

/-- The header of block `b` when the header before it is at `prev`. -/
def blockHeader (prev : Nat) (b : Block) : KmemHeader where
  magic := kmemMagic
  size := b.size
  free := b.free.toNat
  prev := prev

/-- From address `a` on, memory holds the headers of `bs`, linked back to `prev`. -/
def Chain (m : ByteMem) : Nat → Nat → List Block → Prop
  | _, _, [] => True
  | prev, a, b :: bs => header m a = blockHeader prev b ∧ Chain m a (a + 16 + b.size) bs

/-- The address of the last header of `bs`, laid out from `a` behind `prev`. -/
def lastHeader (prev a : Nat) : List Block → Nat
  | [] => prev
  | b :: bs => lastHeader a (a + 16 + b.size) bs

theorem lastHeader_concat : ∀ (bs : List Block) (prev a : Nat) (b : Block),
    lastHeader prev a (bs ++ [b]) = a + span 16 bs
  | [], _, _, _ => rfl
  | c :: bs, prev, a, b => by
    show lastHeader a (a + 16 + c.size) (bs ++ [b]) = a + span 16 (c :: bs)
    rw [lastHeader_concat bs, span_cons]
    omega

theorem chain_append {m : ByteMem} : ∀ {xs ys : List Block} {prev a : Nat},
    Chain m prev a (xs ++ ys) ↔
      Chain m prev a xs ∧ Chain m (lastHeader prev a xs) (a + span 16 xs) ys
  | [], ys, prev, a => by simp [Chain, lastHeader]
  | b :: xs, ys, prev, a => by
    show header m a = blockHeader prev b ∧ Chain m a (a + 16 + b.size) (xs ++ ys) ↔
      (header m a = blockHeader prev b ∧ Chain m a (a + 16 + b.size) xs) ∧
        Chain m (lastHeader a (a + 16 + b.size) xs) (a + span 16 (b :: xs)) ys
    rw [chain_append, and_assoc, span_cons,
      show a + 16 + b.size + span 16 xs = a + (16 + b.size + span 16 xs) by omega]

/-- Every block of a chain has its header where it lies. -/
theorem Chain.header_at {m : ByteMem} {prev a x : Nat} {b : Block} {bs : List Block}
    (hc : Chain m prev a bs) (hb : BlockAt 16 a bs x b) : ∃ q, header m x = blockHeader q b := by
  obtain ⟨pre, post, rfl, rfl⟩ := hb
  exact ⟨_, (chain_append.mp hc).2.1⟩

/-- A chain is its headers: a memory with the same headers has the same chain. -/
theorem Chain.congr {m m' : ByteMem} : ∀ {bs : List Block} {prev a : Nat}, Chain m prev a bs →
    (∀ x b, BlockAt 16 a bs x b → header m' x = header m x) → Chain m' prev a bs
  | [], _, _, _, _ => trivial
  | b :: bs, prev, a, hc, h => by
    refine ⟨?_, Chain.congr hc.2 fun x c hx => h x c (blockAt_cons.mpr (Or.inr hx))⟩
    rw [h a b (blockAt_cons.mpr (Or.inl ⟨rfl, rfl⟩))]
    exact hc.1

/-- A write to a header before or behind a stretch of the chain leaves it alone. -/
theorem Chain.frame {m m' : ByteMem} {prev a y : Nat} {bs : List Block} (hc : Chain m prev a bs)
    (hw : HeaderWrite y m m') (hy : y + 16 ≤ a ∨ a + span 16 bs ≤ y) : Chain m' prev a bs :=
  hc.congr fun x b hx => hw.header_ne (by have := hx.bounds; omega)

/-- Assigning `prev` of its first header links a stretch of the chain to `p`. -/
theorem Chain.relink {m : ByteMem} {prev a p : Nat} {b : Block} {bs : List Block}
    (hc : Chain m prev a (b :: bs)) (hp : p < 2 ^ 64) :
    Chain (setPrev m a p) p a (b :: bs) := by
  refine ⟨?_, hc.2.frame (setPrev_write m a p) (by omega)⟩
  rw [header_setPrev, hc.1, Nat.mod_eq_of_lt hp]
  rfl

/-- Writes that stay inside the headers of the blocks `bs`. -/
def HeadersOnly (a : Nat) (bs : List Block) (m m' : ByteMem) : Prop :=
  ∀ y, (∀ x b, BlockAt 16 a bs x b → y < x ∨ x + 16 ≤ y) → m' y = m y

theorem HeadersOnly.refl (a : Nat) (bs : List Block) (m : ByteMem) : HeadersOnly a bs m m :=
  fun _ _ => rfl

theorem HeadersOnly.trans {a : Nat} {bs : List Block} {m m' m'' : ByteMem}
    (h : HeadersOnly a bs m m') (h' : HeadersOnly a bs m' m'') : HeadersOnly a bs m m'' :=
  fun y hy => (h' y hy).trans (h y hy)

theorem HeadersOnly.mono {a : Nat} {bs bs' : List Block} {m m' : ByteMem}
    (h : HeadersOnly a bs m m')
    (hsub : ∀ x b, BlockAt 16 a bs x b → ∃ b', BlockAt 16 a bs' x b') : HeadersOnly a bs' m m' :=
  fun y hy => h y fun x b hx =>
    let ⟨b', hx'⟩ := hsub x b hx
    hy x b' hx'

theorem HeaderWrite.headersOnly {a x : Nat} {b : Block} {bs : List Block} {m m' : ByteMem}
    (h : HeaderWrite x m m') (hx : BlockAt 16 a bs x b) : HeadersOnly a bs m m' :=
  fun y hy => h y (hy x b hx)

theorem HeaderWrite.trans {x : Nat} {m m' m'' : ByteMem} (h : HeaderWrite x m m')
    (h' : HeaderWrite x m' m'') : HeaderWrite x m m'' :=
  fun y hy => (h' y hy).trans (h y hy)

/-! ## The representation invariant -/

/-- The heap holds the blocks `bs`: the region ends at the top of the address
space, `bs` tiles it with no empty block and no two free neighbours, and the
headers in memory are those of `bs`. -/
structure HeapRep (h : Heap) (bs : List Block) : Prop where
  top : h.kernelHeap + 16 + h.kernelHlim = 2 ^ 64
  hlim_lt : h.kernelHlim < 2 ^ 30
  tiles : span 16 bs = 16 + h.kernelHlim
  pos : ∀ b ∈ bs, 1 ≤ b.size
  coalesced : Coalesced bs
  chain : Chain h.mem 0 h.kernelHeap bs

section Rep

variable {h : Heap} {bs : List Block} {x : Nat} {b : Block}

theorem HeapRep.limit_eq (hr : HeapRep h bs) : h.limit = 2 ^ 64 - 16 := by
  have := hr.top
  unfold Heap.limit
  omega

theorem HeapRep.heap_pos (hr : HeapRep h bs) : 2 ^ 64 - 2 ^ 31 < h.kernelHeap := by
  have := hr.top
  have := hr.hlim_lt
  omega

/-- Every header lies inside the region and below the bound that the walks test. -/
theorem HeapRep.blockAt_bounds (hr : HeapRep h bs) (hb : BlockAt 16 h.kernelHeap bs x b) :
    h.kernelHeap ≤ x ∧ x + 16 + b.size ≤ 2 ^ 64 ∧ 1 ≤ b.size ∧ b.size < 2 ^ 31 := by
  have := hb.bounds
  have := hr.pos b hb.mem
  have := hr.tiles
  have := hr.top
  have := hr.hlim_lt
  omega

theorem HeapRep.size_at (hr : HeapRep h bs) (hb : BlockAt 16 h.kernelHeap bs x b) :
    (header h.mem x).size = b.size := by
  obtain ⟨q, hq⟩ := hr.chain.header_at hb
  rw [hq]
  rfl

theorem HeapRep.free_at (hr : HeapRep h bs) (hb : BlockAt 16 h.kernelHeap bs x b) :
    (header h.mem x).free = b.free.toNat := by
  obtain ⟨q, hq⟩ := hr.chain.header_at hb
  rw [hq]
  rfl

/-- Replacing the memory by one with the same headers keeps the representation. -/
theorem HeapRep.congr {m : ByteMem} (hr : HeapRep h bs)
    (hm : ∀ x b, BlockAt 16 h.kernelHeap bs x b → header m x = header h.mem x) :
    HeapRep { h with mem := m } bs :=
  { hr with chain := hr.chain.congr hm }

/-- The last block ends where the region does. -/
theorem HeapRep.last_end (hr : HeapRep h bs) {pre : List Block} (hbs : bs = pre ++ [b]) :
    h.kernelHeap + span 16 pre + 16 + b.size = 2 ^ 64 := by
  have htop := hr.top
  have htiles := hr.tiles
  rw [hbs, span_append, span_cons, span_nil] at htiles
  omega

/-- The headers that the chain visits are those of the blocks. -/
theorem HeapRep.isHeader_iff (hr : HeapRep h bs) :
    IsHeader h x ↔ ∃ b, BlockAt 16 h.kernelHeap bs x b := by
  constructor
  · intro hx
    induction hx with
    | first =>
      cases hbs : bs with
      | nil =>
        have htiles := hr.tiles
        rw [hbs, span_nil] at htiles
        omega
      | cons b bs => exact ⟨b, [], bs, rfl, rfl⟩
    | @next a _ hlt ih =>
      obtain ⟨b, pre, post, hbs, rfl⟩ := ih
      rw [hr.size_at ⟨pre, post, hbs, rfl⟩] at hlt ⊢
      cases post with
      | nil =>
        have hend := hr.last_end hbs
        have htop := hr.top
        omega
      | cons c post =>
        refine ⟨c, pre ++ [b], post, by rw [hbs]; simp, ?_⟩
        simp only [span_append, span_cons, span_nil]
        omega
  · rintro ⟨b, pre, post, hbs, rfl⟩
    induction pre using List.reverseRecOn generalizing b post with
    | nil => exact IsHeader.first
    | append_singleton pre c ih =>
      rw [List.append_assoc, List.singleton_append] at hbs
      have hsize := hr.size_at ⟨pre, b :: post, hbs, rfl⟩
      have hbd := hr.blockAt_bounds (x := h.kernelHeap + span 16 (pre ++ [c])) (b := b)
        ⟨pre ++ [c], post, by rw [hbs]; simp, rfl⟩
      have htop := hr.top
      have hx : h.kernelHeap + span 16 (pre ++ [c]) =
          h.kernelHeap + span 16 pre + (header h.mem (h.kernelHeap + span 16 pre)).size + 16 := by
        rw [hsize]
        simp only [span_append, span_cons, span_nil]
        omega
      rw [hx] at hbd ⊢
      exact IsHeader.next (ih c (b :: post) hbs) (by omega)

end Rep

/-! ## `mem_init` -/

theorem heap_base_eq {lastPage : Nat} (hlp : lastPage < 2 ^ 30) :
    lastPage ||| 0xFFFFFFFFC0000000 = lastPage + 0xFFFFFFFFC0000000 := by
  have h : 0xFFFFFFFFC0000000 + lastPage = 0xFFFFFFFFC0000000 ||| lastPage :=
    Nat.two_pow_add_eq_or_of_lt hlp (2 ^ 34 - 1)
  rw [Nat.or_comm, Nat.add_comm]
  exact h.symm

/-- `mem_init` leaves one free block over the whole region. -/
theorem memInit_rep {lastPage : Nat} (halign : lastPage % 0x1000 = 0) (hlp : lastPage < 2 ^ 30)
    (m : ByteMem) :
    HeapRep (memInit lastPage m) [⟨(memInit lastPage m).kernelHlim, true⟩] := by
  have hbase : (memInit lastPage m).kernelHeap = lastPage + 0xFFFFFFFFC0000000 :=
    heap_base_eq hlp
  have hhlim : (memInit lastPage m).kernelHlim = 0x40000000 - lastPage - 16 := by
    show (0x40000000 + 2 ^ 64 - lastPage - 16) % 2 ^ 64 = _
    omega
  have hheader : header (memInit lastPage m).mem (memInit lastPage m).kernelHeap =
      blockHeader 0 ⟨(memInit lastPage m).kernelHlim, true⟩ := by
    have hlt : (memInit lastPage m).kernelHlim % 2 ^ 31 = (memInit lastPage m).kernelHlim := by
      rw [hhlim]
      omega
    simp only [memInit] at hlt ⊢
    simp only [header_setPrev, header_setFree, header_setSize, header_setMagic, hlt]
    rfl
  refine ⟨?_, ?_, ?_, ?_, List.isChain_singleton _, hheader, trivial⟩
  · rw [hbase, hhlim]
    omega
  · rw [hhlim]
    omega
  · simp
  · intro b hb
    simp only [List.mem_cons, List.not_mem_nil, or_false] at hb
    subst hb
    show 1 ≤ (memInit lastPage m).kernelHlim
    rw [hhlim]
    omega

end OS64.Mm
