import OS64.Mm.Chain

/-!
# `kfree` on a represented heap

`kfree` works in three parts, and between them the chain has one wrong link:
the header after the freed block may still point back to a header that has been
swallowed. `Gap m H pre t post` is that intermediate state, a chain up to and
including the block `t` with a chain of `post` behind it that is linked to
anything.

* `kfreeMergePrev_gap` and `kfreeMergeNext_gap`: each merge takes the gap from
  `t` to the joined block, exactly as `mergePrev` and `mergeNext` do on lists;
* `kfreeRelink_chain`: the last part closes the gap;
* `kfree_rep`: together, giving back the block between `pre` and `post` leaves
  the heap at `release` of it, and `kfree_headersOnly`: only headers of the old
  tiling are written.

The region ends at `2 ^ 64`, so the address after the last block is 0, which
`kfree`, unlike `kmalloc`, tests for.
-/

namespace OS64.Mm

open OS64.Lib (ByteMem)
open OS64.Lib.Tiling

/-- The blocks fill the address space from `H` to its top, and none is empty. -/
structure Region (H : Nat) (bs : List Block) : Prop where
  top : H + span 16 bs = 2 ^ 64
  base : 2 ^ 64 - 2 ^ 31 < H
  pos : ∀ b ∈ bs, 1 ≤ b.size

theorem HeapRep.region {h : Heap} {bs : List Block} (hr : HeapRep h bs) :
    Region h.kernelHeap bs := by
  have := hr.tiles
  have := hr.top
  exact ⟨by omega, hr.heap_pos, hr.pos⟩

/-- A chain through `t`, and behind it a chain of `post` with any back link. -/
structure Gap (m : ByteMem) (H : Nat) (pre : List Block) (t : Block) (post : List Block) :
    Prop where
  before : Chain m 0 H pre
  mid : header m (H + span 16 pre) = blockHeader (lastHeader 0 H pre) t
  behind : ∃ q, Chain m q (H + span 16 pre + 16 + t.size) post

section Region

variable {H : Nat} {pre post : List Block} {t c : Block}

theorem Region.mid_bounds (hg : Region H (pre ++ t :: post)) :
    H + span 16 pre + 16 + t.size + span 16 post = 2 ^ 64 ∧ 1 ≤ t.size ∧ t.size < 2 ^ 31 := by
  have htop := hg.top
  have hbase := hg.base
  have hpos := hg.pos t (by simp)
  rw [span_append, span_cons] at htop
  omega

/-- Joining two neighbours keeps the region filled. -/
theorem Region.join (hg : Region H (pre ++ t :: c :: post)) :
    Region H (pre ++ ⟨t.size + (c.size + 16), true⟩ :: post) := by
  have htop := hg.top
  simp only [span_append, span_cons] at htop
  refine ⟨?_, hg.base, fun d hd => ?_⟩
  · simp only [span_append, span_cons]
    omega
  · have ht := hg.pos t (by simp)
    simp only [List.mem_append, List.mem_cons] at hd
    rcases hd with hd | rfl | hd
    · exact hg.pos d (by simp [hd])
    · show 1 ≤ t.size + (c.size + 16)
      omega
    · exact hg.pos d (by simp [hd])

end Region

/-! ## Clearing a swallowed header -/

theorem clearHeader_write (m : ByteMem) (a : Nat) : HeaderWrite a m (clearHeader m a) :=
  ((setMagic_write _ _ _).trans (setSize_write _ _ _)).trans (setPrev_write _ _ _)

/-- Joining `c` to `t`: the size of `t` grows over the header and the payload of
`c`, whose header is cleared. -/
theorem gap_join {m : ByteMem} {H : Nat} {pre post : List Block} {t c : Block}
    (hg : Region H (pre ++ t :: c :: post)) (ht : t.free = true) (hpre : Chain m 0 H pre)
    (hmid : header m (H + span 16 pre) = blockHeader (lastHeader 0 H pre) t)
    (hpost : ∃ q, Chain m q (H + span 16 pre + 16 + t.size + 16 + c.size) post) :
    Gap (clearHeader (setSize m (H + span 16 pre) (t.size + (c.size + 16)))
        (H + span 16 pre + 16 + t.size)) H pre ⟨t.size + (c.size + 16), true⟩ post := by
  have hbd := hg.mid_bounds
  have hbdc := hg.join.mid_bounds
  obtain ⟨q, hpost⟩ := hpost
  have hw1 := setSize_write m (H + span 16 pre) (t.size + (c.size + 16))
  have hw2 := clearHeader_write (setSize m (H + span 16 pre) (t.size + (c.size + 16)))
    (H + span 16 pre + 16 + t.size)
  refine ⟨(hpre.frame hw1 (by omega)).frame hw2 (by omega), ?_, q, ?_⟩
  · rw [hw2.header_ne (by omega), header_setSize, hmid, Nat.mod_eq_of_lt hbdc.2.2]
    simp only [blockHeader, ht]
  · have haddr : H + span 16 pre + 16 + (t.size + (c.size + 16)) =
        H + span 16 pre + 16 + t.size + 16 + c.size := by omega
    show Chain _ q (H + span 16 pre + 16 + (t.size + (c.size + 16))) post
    rw [haddr]
    exact (hpost.frame hw1 (by omega)).frame hw2 (by omega)

/-- The two headers written when `c` is joined to `t`. -/
theorem join_headersOnly {m : ByteMem} {H s : Nat} {pre post : List Block} {t c : Block} :
    HeadersOnly H (pre ++ t :: c :: post) m
      (clearHeader (setSize m (H + span 16 pre) s) (H + span 16 pre + 16 + t.size)) := by
  refine ((setSize_write _ _ _).headersOnly (blockAt_mid _ pre t _)).trans
    ((clearHeader_write _ _).headersOnly (b := c) ⟨pre ++ [t], post, by simp, ?_⟩)
  simp only [span_append, span_cons, span_nil]
  omega

/-! ## The three parts -/

section Parts

variable {m : ByteMem} {H : Nat} {pre post : List Block} {b t : Block}

/-- Joining to the left. -/
theorem kfreeMergePrev_gap (hg : Region H (pre ++ b :: post))
    (hgap : Gap m H pre ⟨b.size, true⟩ post) :
    Gap (kfreeMergePrev m (H + span 16 pre)).1 H (mergePrev 16 pre b).1 (mergePrev 16 pre b).2
        post ∧
      (kfreeMergePrev m (H + span 16 pre)).2 = H + span 16 (mergePrev 16 pre b).1 ∧
      HeadersOnly H (pre ++ b :: post) m (kfreeMergePrev m (H + span 16 pre)).1 := by
  rcases mergePrev_cases 16 pre b with ⟨hlast, hmerge⟩ | ⟨pre', a, rfl, ha, hmerge⟩
  · -- nothing before the block, or a taken block: the test fails
    have hno : ¬ ((header m (H + span 16 pre)).prev ≠ 0 ∧
        (header m (header m (H + span 16 pre)).prev).magic = kmemMagic ∧
        (header m (header m (H + span 16 pre)).prev).free = 1) := by
      rintro ⟨hne, -, hfree⟩
      rw [hgap.mid] at hne hfree
      rcases List.eq_nil_or_concat pre with rfl | ⟨pre', a, rfl⟩
      · exact hne rfl
      · rw [List.concat_eq_append] at hlast hfree
        have hpre := hgap.before
        rw [List.concat_eq_append, chain_append] at hpre
        have ha : a.free = false := hlast a (by simp)
        rw [show (blockHeader (lastHeader 0 H (pre' ++ [a])) ⟨b.size, true⟩).prev =
          H + span 16 pre' from lastHeader_concat pre' 0 H a, hpre.2.1] at hfree
        simp [blockHeader, ha] at hfree
    unfold kfreeMergePrev
    dsimp only
    rw [if_neg hno, hmerge]
    exact ⟨hgap, rfl, HeadersOnly.refl _ _ _⟩
  · -- a free block before it: the two become one
    rw [List.append_assoc, List.singleton_append] at hg
    have hpre := chain_append.mp hgap.before
    have hx : H + span 16 (pre' ++ [a]) = H + span 16 pre' + 16 + a.size := by
      simp only [span_append, span_cons, span_nil]
      omega
    have hprev : (header m (H + span 16 (pre' ++ [a]))).prev = H + span 16 pre' := by
      rw [hgap.mid]
      exact lastHeader_concat pre' 0 H a
    have hsize : (header m (H + span 16 (pre' ++ [a]))).size = b.size := by
      rw [hgap.mid]
      rfl
    have hyes : (header m (H + span 16 (pre' ++ [a]))).prev ≠ 0 ∧
        (header m (header m (H + span 16 (pre' ++ [a]))).prev).magic = kmemMagic ∧
        (header m (header m (H + span 16 (pre' ++ [a]))).prev).free = 1 := by
      have hbase := hg.base
      rw [hprev, hpre.2.1]
      exact ⟨by omega, rfl, by simp [blockHeader, ha]⟩
    unfold kfreeMergePrev
    dsimp only
    rw [if_pos hyes, hmerge, hprev, hsize, hpre.2.1, hx]
    refine ⟨gap_join hg ha hpre.1 hpre.2.1 ?_, rfl, ?_⟩
    · obtain ⟨q, hpost⟩ := hgap.behind
      exact ⟨q, by rwa [hx] at hpost⟩
    · rw [List.append_assoc]
      exact join_headersOnly

/-- The address behind `t`, as the C computes it: that of the next header, or 0. -/
theorem nextHeader_gap (hgap : Gap m H pre t post) :
    nextHeader m (H + span 16 pre) = (H + span 16 pre + 16 + t.size) % 2 ^ 64 := by
  unfold nextHeader
  rw [hgap.mid]
  show (H + span 16 pre + t.size + 16) % 2 ^ 64 = _
  congr 1
  omega

/-- Joining to the right. -/
theorem kfreeMergeNext_gap (hg : Region H (pre ++ t :: post)) (ht : t.free = true)
    (hgap : Gap m H pre t post) :
    Gap (kfreeMergeNext (2 ^ 64 - 16) m (H + span 16 pre)).1 H pre (mergeNext 16 t post).1
        (mergeNext 16 t post).2 ∧
      (kfreeMergeNext (2 ^ 64 - 16) m (H + span 16 pre)).2 =
        (H + span 16 pre + 16 + (mergeNext 16 t post).1.size) % 2 ^ 64 ∧
      HeadersOnly H (pre ++ t :: post) m
        (kfreeMergeNext (2 ^ 64 - 16) m (H + span 16 pre)).1 := by
  have hbd := hg.mid_bounds
  have hnext := nextHeader_gap hgap
  obtain ⟨q, hpost⟩ := hgap.behind
  rcases mergeNext_cases 16 t post with ⟨hhead, hmerge⟩ | ⟨c, post', rfl, hc, hmerge⟩
  · -- nothing after the block, or a taken block: the test fails
    have hno : ¬ (nextHeader m (H + span 16 pre) ≠ 0 ∧
        nextHeader m (H + span 16 pre) < 2 ^ 64 - 16 ∧
        (header m (nextHeader m (H + span 16 pre))).magic = kmemMagic ∧
        (header m (nextHeader m (H + span 16 pre))).free = 1) := by
      rintro ⟨hne, -, -, hfree⟩
      rw [hnext] at hne hfree
      cases post with
      | nil =>
        rw [span_nil] at hbd
        omega
      | cons c post =>
        rw [span_cons] at hbd
        rw [Nat.mod_eq_of_lt (by omega), hpost.1] at hfree
        have hcf : c.free = false := hhead c rfl
        simp [blockHeader, hcf] at hfree
    unfold kfreeMergeNext
    dsimp only
    rw [if_neg hno, hmerge]
    exact ⟨hgap, hnext, HeadersOnly.refl _ _ _⟩
  · -- a free block behind it: the two become one
    have hcpos := hg.pos c (by simp)
    rw [span_cons] at hbd
    rw [Nat.mod_eq_of_lt (by omega)] at hnext
    have hyes : nextHeader m (H + span 16 pre) ≠ 0 ∧
        nextHeader m (H + span 16 pre) < 2 ^ 64 - 16 ∧
        (header m (nextHeader m (H + span 16 pre))).magic = kmemMagic ∧
        (header m (nextHeader m (H + span 16 pre))).free = 1 := by
      rw [hnext, hpost.1]
      exact ⟨by omega, by omega, rfl, by simp [blockHeader, hc]⟩
    have hgap' := gap_join hg ht hgap.before hgap.mid ⟨_, hpost.2⟩
    unfold kfreeMergeNext
    dsimp only
    have hsize : (header m (H + span 16 pre)).size = t.size := by
      rw [hgap.mid]
      rfl
    have hcsize : (header m (H + span 16 pre + 16 + t.size)).size = c.size := by
      rw [hpost.1]
      rfl
    rw [if_pos hyes, hmerge, hnext, hsize, hcsize]
    exact ⟨hgap', nextHeader_gap hgap', join_headersOnly⟩

/-- The last part closes the gap. -/
theorem kfreeRelink_chain (hg : Region H (pre ++ t :: post)) (hgap : Gap m H pre t post) :
    Chain (kfreeRelink (2 ^ 64 - 16) m ((H + span 16 pre + 16 + t.size) % 2 ^ 64) (H + span 16 pre))
      0 H (pre ++ t :: post) ∧
    HeadersOnly H (pre ++ t :: post) m
      (kfreeRelink (2 ^ 64 - 16) m ((H + span 16 pre + 16 + t.size) % 2 ^ 64)
        (H + span 16 pre)) := by
  have hbd := hg.mid_bounds
  obtain ⟨q, hpost⟩ := hgap.behind
  cases post with
  | nil =>
    rw [span_nil] at hbd
    have hzero : (H + span 16 pre + 16 + t.size) % 2 ^ 64 = 0 := by omega
    unfold kfreeRelink
    rw [hzero, if_neg (fun h => h.1 rfl)]
    exact ⟨chain_append.mpr ⟨hgap.before, hgap.mid, trivial⟩, HeadersOnly.refl _ _ _⟩
  | cons c post =>
    have hcpos := hg.pos c (by simp)
    rw [span_cons] at hbd
    have hw := setPrev_write m (H + span 16 pre + 16 + t.size) (H + span 16 pre)
    have hyes : H + span 16 pre + 16 + t.size ≠ 0 ∧
        H + span 16 pre + 16 + t.size < 2 ^ 64 - 16 ∧
        (header m (H + span 16 pre + 16 + t.size)).magic = kmemMagic := by
      rw [hpost.1]
      exact ⟨by omega, by omega, rfl⟩
    unfold kfreeRelink
    rw [Nat.mod_eq_of_lt (by omega), if_pos hyes]
    refine ⟨chain_append.mpr ⟨hgap.before.frame hw (by omega), ?_, hpost.relink (by omega)⟩,
      hw.headersOnly (b := c) ⟨pre ++ [t], post, by simp, ?_⟩⟩
    · rw [hw.header_ne (by omega)]
      exact hgap.mid
    · simp only [span_append, span_cons, span_nil]
      omega

end Parts

/-! ## The whole of `kfree` -/

section Free

variable {h : Heap} {pre post : List Block} {b : Block}

/-- Clearing the way: with its `free` bit set, the block is the middle of a gap. -/
theorem gap_of_rep (hr : HeapRep h (pre ++ b :: post)) :
    Gap (setFree h.mem (h.kernelHeap + span 16 pre) 1) h.kernelHeap pre ⟨b.size, true⟩ post := by
  obtain ⟨hpre, hmid, hpost⟩ := chain_append.mp hr.chain
  have hw := setFree_write h.mem (h.kernelHeap + span 16 pre) 1
  refine ⟨hpre.frame hw (by omega), ?_, _, hpost.frame hw (by omega)⟩
  rw [header_setFree, hmid]
  rfl

/-- Joining to the left keeps the region filled. -/
theorem Region.mergePrev {H : Nat} (hg : Region H (pre ++ b :: post)) :
    Region H ((mergePrev 16 pre b).1 ++ (mergePrev 16 pre b).2 :: post) := by
  rcases mergePrev_cases 16 pre b with ⟨-, h⟩ | ⟨pre', a, rfl, -, h⟩ <;> rw [h]
  · have htop := hg.top
    refine ⟨by simpa using htop, hg.base, fun d hd => ?_⟩
    simp only [List.mem_append, List.mem_cons] at hd
    rcases hd with hd | rfl | hd
    · exact hg.pos d (by simp [hd])
    · exact hg.pos b (by simp)
    · exact hg.pos d (by simp [hd])
  · rw [List.append_assoc] at hg
    exact hg.join

/-- Joining to the right keeps the region filled. -/
theorem Region.mergeNext {H : Nat} (hg : Region H (pre ++ b :: post)) :
    Region H (pre ++ (mergeNext 16 b post).1 :: (mergeNext 16 b post).2) := by
  rcases mergeNext_cases 16 b post with ⟨-, h⟩ | ⟨c, post', rfl, -, h⟩ <;> rw [h]
  · exact hg
  · exact hg.join

/-- The memory `kfree` leaves when the block between `pre` and `post` is given back. -/
theorem kfreeMem_chain (hr : HeapRep h (pre ++ b :: post)) :
    Chain (kfreeMem h.limit h.mem (h.kernelHeap + span 16 pre + 16)) 0 h.kernelHeap
      (release 16 pre b post) ∧
    HeadersOnly h.kernelHeap (pre ++ b :: post) h.mem
      (kfreeMem h.limit h.mem (h.kernelHeap + span 16 pre + 16)) := by
  have hat := blockAt_mid (o := 16) h.kernelHeap pre b post
  have hbd := hr.blockAt_bounds hat
  have hg := hr.region
  have hptr : (h.kernelHeap + span 16 pre + 16 + 2 ^ 64 - 16) % 2 ^ 64 =
      h.kernelHeap + span 16 pre := by omega
  obtain ⟨hgap1, hptr1, hw1⟩ := kfreeMergePrev_gap hg (gap_of_rep hr)
  obtain ⟨hgap2, hnext2, hw2⟩ :=
    kfreeMergeNext_gap hg.mergePrev (mergePrev_free pre b) hgap1
  obtain ⟨hchain, hw3⟩ := kfreeRelink_chain hg.mergePrev.mergeNext hgap2
  unfold kfreeMem
  dsimp only
  rw [hptr, hr.limit_eq, hptr1, hnext2]
  refine ⟨hchain, ?_⟩
  -- each part writes headers of the tiling it starts from, and no part makes a new header
  have hw0 : HeadersOnly h.kernelHeap (pre ++ b :: post) h.mem
      (setFree h.mem (h.kernelHeap + span 16 pre) 1) := (setFree_write _ _ _).headersOnly hat
  refine ((hw0.trans hw1).trans (hw2.mono fun x d hx => mergePrev_blockAt hx)).trans
    (hw3.mono fun x d hx => ?_)
  obtain ⟨d', hx'⟩ := mergeNext_blockAt hx
  exact mergePrev_blockAt hx'

/-- Giving back the block between `pre` and `post` releases it in the tiling. -/
theorem kfree_rep (hr : HeapRep h (pre ++ b :: post)) :
    HeapRep (kfree h (h.kernelHeap + span 16 pre + 16)) (release 16 pre b post) := by
  have htiles : span 16 (release 16 pre b post) = 16 + h.kernelHlim := by
    rw [span_release]
    exact hr.tiles
  have hchain := (kfreeMem_chain hr).1
  have hne : h.kernelHeap + span 16 pre + 16 ≠ 0 := by omega
  rw [kfree, if_neg hne]
  generalize kfreeMem h.limit h.mem (h.kernelHeap + span 16 pre + 16) = m at hchain ⊢
  exact ⟨hr.top, hr.hlim_lt, htiles, release_pos hr.pos, coalesced_release hr.coalesced, hchain⟩

end Free

end OS64.Mm
