import OS64.Mm.HeapCanon

/-!
# `kmalloc` is first fit

`kmalloc_cases` says which block of the tiling a call takes. Here the same is said of
the headers in memory: `kmalloc_first_fit` names the block that is taken, the header
that a split adds, and what every other header keeps. A split writes one header besides
these two, the link of the block behind it; whether there is such a block is the case
split of `splitMem`, and the chain after the call hides it.
-/

namespace OS64.Mm

open OS64.Lib (ByteMem)
open OS64.Lib.Tiling

/-- The header at `x` is that of a free block of at least `n` bytes. -/
def Suitable (h : Heap) (n x : Nat) : Prop :=
  IsHeader h x ∧ (header h.mem x).free = 1 ∧ n ≤ (header h.mem x).size

/-- A block of `old` bytes is split for `n` bytes. -/
def splits (n old : Nat) : Prop := n + 16 < old

instance (n old : Nat) : Decidable (splits n old) := inferInstanceAs (Decidable (_ < _))

/-- Between the heaps `h` and `h'` the block at `x` has been taken for `n` bytes. -/
structure BlockTaken (h h' : Heap) (n x : Nat) : Prop where
  headers : ∀ y, IsHeader h' y ↔
    IsHeader h y ∨ (splits n (header h.mem x).size ∧ y = x + 16 + n)
  taken : header h'.mem x = { header h.mem x with
    size := if splits n (header h.mem x).size then n else (header h.mem x).size
    free := 0 }
  rest : splits n (header h.mem x).size →
    header h'.mem (x + 16 + n) = ⟨kmemMagic, (header h.mem x).size - n - 16, 1, x⟩
  others : ∀ y, IsHeader h y → y ≠ x →
    header h'.mem y = { header h.mem y with
      prev := if splits n (header h.mem x).size ∧ y = x + 16 + (header h.mem x).size
        then x + 16 + n else (header h.mem y).prev }

/-- A stretch of the chain that is linked back to another header differs in the link of
its first header only. -/
theorem chain_header_relink {m m' : ByteMem} {prev prev' a x : Nat} {b : Block} {bs : List Block}
    (hm : Chain m prev a bs) (hm' : Chain m' prev' a bs) (hx : BlockAt 16 a bs x b) :
    header m' x = { header m x with prev := if x = a then prev' else (header m x).prev } := by
  cases bs with
  | nil => exact absurd hx not_blockAt_nil
  | cons c bs =>
    rcases blockAt_cons.mp hx with ⟨rfl, -⟩ | hx
    · rw [if_pos rfl, hm'.1, hm.1]
      rfl
    · have hxa : x ≠ a := by
        have := hx.bounds
        omega
      rw [if_neg hxa, chain_header_eq hm'.2 hm.2 hx]

section Take

variable {h : Heap} {pre post : List Block} {b : Block} {n : Nat}

/-- Taking a block with a split. -/
theorem kmallocTake_taken_split (hr : HeapRep h (pre ++ b :: post)) (hfree : b.free = true)
    (hn : 1 ≤ n) (hsplit : splits n b.size) :
    BlockTaken h { h with mem := kmallocTake h n (h.kernelHeap + span 16 pre) } n
      (h.kernelHeap + span 16 pre) := by
  have hlt : n + 16 < b.size := hsplit
  have hr' := kmallocTake_rep hr hfree hn (by omega)
  have hsize := hr.size_at (blockAt_mid h.kernelHeap pre b post)
  have htake : takeBlock 16 n b = [⟨n, false⟩, ⟨b.size - n - 16, true⟩] := if_pos hsplit
  obtain ⟨hpre, hx, hpost⟩ := chain_append.mp hr.chain
  obtain ⟨hpre', hrest'⟩ := chain_append.mp hr'.chain
  have hiff := fun y : Nat => hr'.isHeader_iff (x := y)
  rw [htake] at hrest' hiff
  obtain ⟨hx', hnew', hpost'⟩ := hrest'
  generalize kmallocTake h n (h.kernelHeap + span 16 pre) = m at *
  have hnew : h.kernelHeap + span 16 pre + 16 + n + 16 + (b.size - n - 16) =
      h.kernelHeap + span 16 pre + 16 + b.size := by omega
  refine ⟨fun y => ?_, ?_, fun _ => ?_, fun y hy hne => ?_⟩
  · rw [hiff, hr.isHeader_iff, hsize]
    -- the new block is where the rest of the taken one begins
    have hmid : ∀ c, BlockAt 16 h.kernelHeap
        (pre ++ ([⟨n, false⟩, ⟨b.size - n - 16, true⟩] ++ post)) y c ↔
        BlockAt 16 h.kernelHeap pre y c ∨ (y = h.kernelHeap + span 16 pre ∧ c = ⟨n, false⟩) ∨
        (y = h.kernelHeap + span 16 pre + 16 + n ∧ c = ⟨b.size - n - 16, true⟩) ∨
        BlockAt 16 (h.kernelHeap + span 16 pre + 16 + b.size) post y c := by
      intro c
      rw [blockAt_append, List.cons_append, blockAt_cons, List.cons_append, List.nil_append,
        blockAt_cons, ← hnew]
    constructor
    · rintro ⟨c, hc⟩
      rcases (hmid c).mp hc with hc | ⟨rfl, -⟩ | ⟨rfl, -⟩ | hc
      · exact Or.inl ⟨c, blockAt_append.mpr (Or.inl hc)⟩
      · exact Or.inl ⟨b, blockAt_mid _ pre b post⟩
      · exact Or.inr ⟨hsplit, rfl⟩
      · exact Or.inl ⟨c, blockAt_append.mpr (Or.inr (blockAt_cons.mpr (Or.inr hc)))⟩
    · rintro (⟨c, hc⟩ | ⟨-, rfl⟩)
      · rcases blockAt_append.mp hc with hc | hc
        · exact ⟨c, (hmid c).mpr (Or.inl hc)⟩
        · rcases blockAt_cons.mp hc with ⟨rfl, rfl⟩ | hc
          · exact ⟨_, (hmid _).mpr (Or.inr (Or.inl ⟨rfl, rfl⟩))⟩
          · exact ⟨c, (hmid c).mpr (Or.inr (Or.inr (Or.inr hc)))⟩
      · exact ⟨_, (hmid _).mpr (Or.inr (Or.inr (Or.inl ⟨rfl, rfl⟩)))⟩
  · rw [hsize, if_pos hsplit]
    refine hx'.trans ?_
    rw [hx]
    rfl
  · rw [hsize]
    exact hnew'
  · rw [hsize]
    obtain ⟨c, hc⟩ := hr.isHeader_iff.mp hy
    rcases blockAt_append.mp hc with hc | hc
    · -- in front of the taken block nothing changes
      have hyx : ¬ (splits n b.size ∧ y = h.kernelHeap + span 16 pre + 16 + b.size) := by
        have := hc.bounds
        omega
      rw [if_neg hyx]
      exact chain_header_eq hpre' hpre hc
    · rcases blockAt_cons.mp hc with ⟨heq, -⟩ | hc
      · exact absurd heq hne
      · rw [hnew] at hpost'
        have hrelink := chain_header_relink hpost hpost' hc
        simp only [hsplit, true_and]
        exact hrelink

/-- Taking a block without a split. -/
theorem kmallocTake_taken_whole (hr : HeapRep h (pre ++ b :: post)) (hfree : b.free = true)
    (hn : 1 ≤ n) (hfit : n ≤ b.size) (hsplit : ¬ splits n b.size) :
    BlockTaken h { h with mem := kmallocTake h n (h.kernelHeap + span 16 pre) } n
      (h.kernelHeap + span 16 pre) := by
  have hr' := kmallocTake_rep hr hfree hn hfit
  have hsize := hr.size_at (blockAt_mid h.kernelHeap pre b post)
  have htake : takeBlock 16 n b = [⟨b.size, false⟩] := if_neg hsplit
  obtain ⟨hpre, hx, hpost⟩ := chain_append.mp hr.chain
  obtain ⟨hpre', hrest'⟩ := chain_append.mp hr'.chain
  have hiff := fun y : Nat => hr'.isHeader_iff (x := y)
  rw [htake] at hrest' hiff
  obtain ⟨hx', hpost'⟩ := hrest'
  generalize kmallocTake h n (h.kernelHeap + span 16 pre) = m at *
  refine ⟨fun y => ?_, ?_, fun hs => ?_, fun y hy hne => ?_⟩
  · rw [hiff, hr.isHeader_iff, hsize]
    simp only [hsplit, false_and, or_false]
    constructor
    · rintro ⟨c, hc⟩
      rcases blockAt_append.mp hc with hc | hc
      · exact ⟨c, blockAt_append.mpr (Or.inl hc)⟩
      · rcases blockAt_cons.mp hc with ⟨rfl, -⟩ | hc
        · exact ⟨b, blockAt_mid _ pre b post⟩
        · exact ⟨c, blockAt_append.mpr (Or.inr (blockAt_cons.mpr (Or.inr hc)))⟩
    · rintro ⟨c, hc⟩
      rcases blockAt_append.mp hc with hc | hc
      · exact ⟨c, blockAt_append.mpr (Or.inl hc)⟩
      · rcases blockAt_cons.mp hc with ⟨rfl, -⟩ | hc
        · exact ⟨_, blockAt_mid _ pre ⟨b.size, false⟩ post⟩
        · exact ⟨c, blockAt_append.mpr (Or.inr (blockAt_cons.mpr (Or.inr hc)))⟩
  · rw [hsize, if_neg hsplit]
    refine hx'.trans ?_
    rw [hx]
    rfl
  · rw [hsize] at hs
    exact absurd hs hsplit
  · rw [hsize]
    simp only [hsplit, false_and, if_false]
    obtain ⟨c, hc⟩ := hr.isHeader_iff.mp hy
    rcases blockAt_append.mp hc with hc | hc
    · exact chain_header_eq hpre' hpre hc
    · rcases blockAt_cons.mp hc with ⟨heq, -⟩ | hc
      · exact absurd heq hne
      · exact chain_header_eq hpost' hpost hc

end Take

/-- On every heap that calls lead to and for every size accepted that some free block
has, `kmalloc` returns the payload of the first free block that is large enough. That
block becomes used; it is cut to the size, with a free block behind it, just when more than
a header is left over; every other block keeps its place, size and mark, and all but the
one behind a split its link. -/
theorem kmalloc_first_fit {lastPage : Nat} {m : ByteMem} {s : HeapState}
    (halign : lastPage % 0x1000 = 0) (hlp : lastPage < 2 ^ 30)
    (hrun : Relation.ReflTransGen HeapStep (heapInit lastPage m) s) {n : Nat} (hn : 0 < n)
    (hlim : n < s.heap.kernelHlim) (hsome : ∃ y, Suitable s.heap n y) :
    ∃ x h', kmalloc s.heap n = some (x + 16, h') ∧ Suitable s.heap n x ∧
      (∀ y, Suitable s.heap n y → x ≤ y) ∧ BlockTaken s.heap h' n x := by
  obtain ⟨bs, hinv⟩ := heapRun_inv halign hlp hrun
  -- A header that is suitable is a block that fits.
  have hblock : ∀ {y b}, BlockAt 16 s.heap.kernelHeap bs y b →
      (Suitable s.heap n y ↔ fits n b = true) := by
    intro y b hb
    unfold Suitable
    rw [hinv.rep.size_at hb, hinv.rep.free_at hb, fits_iff]
    have hy := hinv.rep.isHeader_iff.mpr ⟨b, hb⟩
    cases b.free <;> simp [hy]
  have hoff : ¬ kmallocWalksOff s.heap n := by
    obtain ⟨y, hy⟩ := hsome
    obtain ⟨b, hb⟩ := hinv.rep.isHeader_iff.mp hy.1
    exact not_kmallocWalksOff hinv.rep hb.mem ((hblock hb).mp hy)
  rcases kmalloc_cases hinv.rep hoff with ⟨hrej, -⟩ | ⟨-, -, pre, b, post, rfl, hfree, hsize, hskip, hcall⟩
  · omega
  · have hmid := blockAt_mid (o := 16) s.heap.kernelHeap pre b post
    refine ⟨s.heap.kernelHeap + span 16 pre, _, hcall, (hblock hmid).mpr (fits_iff.mpr ⟨hfree, hsize⟩),
      ?_, ?_⟩
    · intro y hy
      obtain ⟨c, hc⟩ := hinv.rep.isHeader_iff.mp hy.1
      have hfit := (hblock hc).mp hy
      rcases blockAt_append.mp hc with hpre | hpost
      · -- a block in front has been skipped
        rw [hskip c hpre.mem] at hfit
        cases hfit
      · exact hpost.bounds.1
    · by_cases hsplit : splits n b.size
      · exact kmallocTake_taken_split hinv.rep hfree hn hsplit
      · exact kmallocTake_taken_whole hinv.rep hfree hn hsize hsplit

/-- `kmalloc_first_fit` on a heap with a free block between two others: of the two blocks that are
suitable for 100 bytes the one of 120 is taken, and split. -/
theorem kmalloc_first_fit_merged :
    ∃ s h', RunTo 0x200000 (fun _ => 0) mergedBlocks mergedLive s ∧
      kmalloc s.heap 100 = some (0xFFFFFFFFC020003E, h') ∧
      BlockTaken s.heap h' 100 0xFFFFFFFFC020002E := by
  obtain ⟨s, hs⟩ := mergedHeap_run
  have hat : BlockAt 16 s.heap.kernelHeap mergedBlocks 0xFFFFFFFFC020002E ⟨120, true⟩ :=
    ⟨[⟨30, false⟩], _, rfl, by rw [hs.base]; rfl⟩
  have hsuits : Suitable s.heap 100 0xFFFFFFFFC020002E :=
    ⟨hs.rep.isHeader_iff.mpr ⟨_, hat⟩, hs.rep.free_at hat, by rw [hs.rep.size_at hat]; decide⟩
  obtain ⟨x, h', hcall, hsuit, hfirst, htaken⟩ :=
    kmalloc_first_fit (n := 100) (by decide) (by decide) hs.run (by decide)
      (by rw [hs.lim]; decide) ⟨_, hsuits⟩
  obtain ⟨b, hb⟩ := hs.rep.isHeader_iff.mp hsuit.1
  have hfree := (hs.rep.free_at hb).symm.trans hsuit.2.1
  have hx : x = 0xFFFFFFFFC020002E := by
    rcases blockAt_cons.mp hb with ⟨-, rfl⟩ | hb
    · -- the block in front of it is taken
      cases hfree
    · refine Nat.le_antisymm (hfirst _ hsuits) ?_
      have hbehind := hb.bounds.1
      rw [hs.base] at hbehind
      exact hbehind
  rw [hx] at hcall htaken
  exact ⟨s, h', hs, hcall, htaken⟩

end OS64.Mm
