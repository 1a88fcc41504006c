import OS64.Mm.Chain

/-!
# `kmalloc` on a represented heap

On a heap that represents the blocks `bs`, `kmalloc`'s `while` is a first-fit
search of `bs` (`kmallocWalk_finds`), and taking the block it stops at replaces
that block by `takeBlock` of it (`kmallocTake_rep`), writing headers of the new
tiling only (`kmallocTake_headersOnly`).

When no free block is large enough, the search does not stop at the end of the
region. The last block ends at `2 ^ 64`, so the step past it is address 0, which
is below the bound: `kmallocReads_wraps`. A call that does this *walks off the
chain* (`kmallocWalksOff`); `kmalloc_cases` is what every other call does.
-/

namespace OS64.Mm

open OS64.Lib (ByteMem)
open OS64.Lib.Tiling

/-- A free block of at least `n` bytes. -/
def fits (n : Nat) (b : Block) : Bool := b.free && decide (n ≤ b.size)

theorem fits_iff {n : Nat} {b : Block} : fits n b = true ↔ b.free = true ∧ n ≤ b.size := by
  simp [fits]

/-- The call takes the search past the last block of the region. -/
def kmallocWalksOff (h : Heap) (n : Nat) : Prop :=
  0 < n ∧ n < h.kernelHlim ∧ kmallocReads h n ((h.kernelHeap + 16 + h.kernelHlim) % 2 ^ 64)

section Walk

variable {h : Heap} {bs : List Block} {n : Nat}

theorem kmallocSkips_iff {x : Nat} {b : Block} (hr : HeapRep h bs)
    (hb : BlockAt 16 h.kernelHeap bs x b) : kmallocSkips h n x ↔ fits n b = false := by
  have hlt : x < h.limit := by
    have := hr.blockAt_bounds hb
    rw [hr.limit_eq]
    omega
  unfold kmallocSkips
  rw [hr.size_at hb, hr.free_at hb]
  cases hf : b.free <;> simp [fits, hf, hlt]

theorem nextHeader_at {x : Nat} {b : Block} (hr : HeapRep h bs)
    (hb : BlockAt 16 h.kernelHeap bs x b) : nextHeader h.mem x = (x + 16 + b.size) % 2 ^ 64 := by
  unfold nextHeader
  rw [hr.size_at hb]
  congr 1
  omega

/-- The step from a block that is not the last one leads to the next block. -/
theorem nextHeader_mid {pre post : List Block} {b c : Block} (hr : HeapRep h bs)
    (hbs : bs = pre ++ b :: c :: post) :
    nextHeader h.mem (h.kernelHeap + span 16 pre) = h.kernelHeap + span 16 (pre ++ [b]) := by
  subst hbs
  have hc : BlockAt 16 h.kernelHeap (pre ++ b :: c :: post)
      (h.kernelHeap + span 16 (pre ++ [b])) c := ⟨pre ++ [b], post, by simp, rfl⟩
  have hbd := hr.blockAt_bounds hc
  rw [nextHeader_at hr (blockAt_mid _ pre b (c :: post))]
  simp only [span_append, span_cons, span_nil] at hbd ⊢
  omega

/-- The step from the last block leads to address 0. -/
theorem nextHeader_last {pre : List Block} {b : Block} (hr : HeapRep h bs)
    (hbs : bs = pre ++ [b]) : nextHeader h.mem (h.kernelHeap + span 16 pre) = 0 := by
  subst hbs
  have htiles := hr.tiles
  have htop := hr.top
  rw [nextHeader_at hr (blockAt_mid _ pre b [])]
  simp only [span_append, span_cons, span_nil] at htiles
  omega

/-- The search, started at any block, stops at the first block that fits. -/
theorem kmallocWalk_finds (hr : HeapRep h bs) {b : Block} {post : List Block}
    (hb : fits n b = true) : ∀ (skip pre : List Block) (fuel : Nat),
      bs = pre ++ (skip ++ b :: post) → (∀ c ∈ skip, fits n c = false) → skip.length < fuel →
        kmallocWalk h n fuel (h.kernelHeap + span 16 pre) =
          some (h.kernelHeap + span 16 (pre ++ skip)) := by
  intro skip
  induction skip with
  | nil =>
    intro pre fuel hbs _ hfuel
    obtain ⟨fuel, rfl⟩ := Nat.exists_eq_succ_of_ne_zero (Nat.ne_of_gt hfuel)
    have hat : BlockAt 16 h.kernelHeap bs (h.kernelHeap + span 16 pre) b := ⟨pre, post, hbs, rfl⟩
    rw [kmallocWalk, if_neg (by rw [kmallocSkips_iff hr hat, hb]; simp), List.append_nil]
  | cons c skip ih =>
    intro pre fuel hbs hskip hfuel
    obtain ⟨fuel, rfl⟩ := Nat.exists_eq_succ_of_ne_zero (Nat.ne_of_gt (Nat.zero_lt_of_lt hfuel))
    have hat : BlockAt 16 h.kernelHeap bs (h.kernelHeap + span 16 pre) c := ⟨pre, _, hbs, rfl⟩
    have hnext : nextHeader h.mem (h.kernelHeap + span 16 pre) =
        h.kernelHeap + span 16 (pre ++ [c]) := by
      cases skip with
      | nil => exact nextHeader_mid hr hbs
      | cons d skip => exact nextHeader_mid hr hbs
    rw [kmallocWalk, if_pos ((kmallocSkips_iff hr hat).mpr (hskip c (List.mem_cons_self ..))), hnext,
      ih (pre ++ [c]) fuel (by rw [hbs]; simp)
        (fun d hd => hskip d (List.mem_cons_of_mem _ hd)) (by simpa using hfuel)]
    simp

/-- With no block that fits, the search reads every header. -/
theorem kmallocReads_all (hr : HeapRep h bs) (hno : ∀ b ∈ bs, fits n b = false)
    (pre : List Block) : ∀ (b : Block) (post : List Block), bs = pre ++ b :: post →
      kmallocReads h n (h.kernelHeap + span 16 pre) := by
  induction pre using List.reverseRecOn with
  | nil =>
    intro b post hbs
    have hbd := hr.blockAt_bounds ⟨[], post, hbs, rfl⟩
    rw [span_nil] at hbd ⊢
    refine kmallocReads.first ?_
    rw [hr.limit_eq]
    omega
  | append_singleton pre c ih =>
    intro b post hbs
    rw [List.append_assoc, List.singleton_append] at hbs
    have hread := ih c (b :: post) hbs
    have hat : BlockAt 16 h.kernelHeap bs (h.kernelHeap + span 16 pre) c := ⟨pre, _, hbs, rfl⟩
    have hskip : kmallocSkips h n (h.kernelHeap + span 16 pre) :=
      (kmallocSkips_iff hr hat).mpr (hno c hat.mem)
    have hbd := hr.blockAt_bounds (x := h.kernelHeap + span 16 (pre ++ [c])) (b := b)
      ⟨pre ++ [c], post, by rw [hbs]; simp, rfl⟩
    rw [← nextHeader_mid hr hbs] at hbd ⊢
    refine kmallocReads.next hread hskip ?_
    rw [hr.limit_eq]
    omega

/-- With no block that fits, the search goes on to read address 0. -/
theorem kmallocReads_wraps (hr : HeapRep h bs) (hno : ∀ b ∈ bs, fits n b = false) :
    kmallocReads h n 0 := by
  rcases List.eq_nil_or_concat bs with rfl | ⟨pre, b, hbs⟩
  · -- a tiling of the region is not empty
    have htiles := hr.tiles
    rw [span_nil] at htiles
    omega
  · rw [List.concat_eq_append] at hbs
    have hat : BlockAt 16 h.kernelHeap bs (h.kernelHeap + span 16 pre) b := ⟨pre, [], hbs, rfl⟩
    have hskip : kmallocSkips h n (h.kernelHeap + span 16 pre) :=
      (kmallocSkips_iff hr hat).mpr (hno b hat.mem)
    have hnext := nextHeader_last hr hbs
    have := kmallocReads.next (kmallocReads_all hr hno pre b [] hbs) hskip
      (by rw [hnext, hr.limit_eq]; omega)
    rwa [hnext] at this

/-- Whatever the search reads while a block that fits lies ahead is a header, and
every block before it is skipped. -/
theorem kmallocReads_header (hr : HeapRep h bs) (hfit : ∃ b ∈ bs, fits n b = true) {a : Nat}
    (ha : kmallocReads h n a) :
    ∃ pre b post, bs = pre ++ b :: post ∧ a = h.kernelHeap + span 16 pre ∧
      ∀ c ∈ pre, fits n c = false := by
  induction ha with
  | first =>
    obtain ⟨b, hb, -⟩ := hfit
    cases bs with
    | nil => cases hb
    | cons c bs => exact ⟨[], c, bs, rfl, rfl, by simp⟩
  | next _ hskip _ ih =>
    obtain ⟨pre, b, post, hbs, rfl, hpre⟩ := ih
    have hb : fits n b = false := (kmallocSkips_iff hr ⟨pre, post, hbs, rfl⟩).mp hskip
    have hpre' : ∀ c ∈ pre ++ [b], fits n c = false := by
      intro c hc
      rcases List.mem_append.mp hc with hc | hc
      · exact hpre c hc
      · rwa [List.mem_singleton.mp hc]
    cases post with
    | nil =>
      -- every block has been skipped
      obtain ⟨c, hc, hcfit⟩ := hfit
      rw [hbs] at hc
      rw [hpre' c hc] at hcfit
      cases hcfit
    | cons c post => exact ⟨pre ++ [b], c, post, by rw [hbs]; simp, nextHeader_mid hr hbs, hpre'⟩

/-- A call walks off the chain exactly when its size is accepted and no block fits. -/
theorem kmallocWalksOff_iff (hr : HeapRep h bs) :
    kmallocWalksOff h n ↔ 0 < n ∧ n < h.kernelHlim ∧ ∀ b ∈ bs, fits n b = false := by
  unfold kmallocWalksOff
  rw [hr.top, Nat.mod_self]
  constructor
  · rintro ⟨hn, hlim, hread⟩
    refine ⟨hn, hlim, fun b hb => ?_⟩
    by_contra hfit
    obtain ⟨pre, c, post, -, hzero, -⟩ := kmallocReads_header hr
      ⟨b, hb, by simpa using hfit⟩ hread
    have := hr.heap_pos
    omega
  · rintro ⟨hn, hlim, hno⟩
    exact ⟨hn, hlim, kmallocReads_wraps hr hno⟩

/-- With a block that fits the call stays on the chain. -/
theorem not_kmallocWalksOff (hr : HeapRep h bs) {b : Block} (hmem : b ∈ bs)
    (hfit : fits n b = true) : ¬ kmallocWalksOff h n := by
  rw [kmallocWalksOff_iff hr]
  rintro ⟨-, -, hno⟩
  rw [hno b hmem] at hfit
  cases hfit

/-- A region of positive blocks has fewer blocks than bytes, so the walk's fuel
covers them all. -/
theorem length_le_span : ∀ {cs : List Block}, (∀ b ∈ cs, 1 ≤ b.size) →
    17 * cs.length ≤ span 16 cs
  | [], _ => by simp
  | b :: cs, hpos => by
    have ih : 17 * cs.length ≤ span 16 cs :=
      length_le_span fun c hc => hpos c (List.mem_cons_of_mem _ hc)
    have hb := hpos b (List.mem_cons_self ..)
    rw [List.length_cons, span_cons]
    omega

/-- A call takes the first block that fits. -/
theorem kmalloc_takes (hr : HeapRep h bs) (hn0 : 0 < n) (hnlim : n < h.kernelHlim)
    {pre post : List Block} {b : Block} (hbs : bs = pre ++ b :: post) (hb : fits n b = true)
    (hpre : ∀ c ∈ pre, fits n c = false) :
    kmalloc h n = some (h.kernelHeap + span 16 pre + 16,
      { h with mem := kmallocTake h n (h.kernelHeap + span 16 pre) }) := by
  have hat : BlockAt 16 h.kernelHeap bs (h.kernelHeap + span 16 pre) b := ⟨pre, post, hbs, rfl⟩
  have hbd := hr.blockAt_bounds hat
  have hfuel : pre.length < h.kernelHlim + 1 := by
    have hlen := length_le_span hr.pos
    have htiles := hr.tiles
    rw [hbs] at hlen htiles
    rw [List.length_append, List.length_cons] at hlen
    omega
  have hwalk := kmallocWalk_finds hr hb pre [] _ hbs hpre hfuel
  simp only [span_nil, Nat.add_zero, List.nil_append] at hwalk
  unfold kmalloc
  rw [if_neg (by omega), hwalk]
  dsimp only
  rw [if_neg (by rw [hr.limit_eq]; omega), Nat.mod_eq_of_lt (by omega)]

/-- What a call that does not walk off the chain does: it is rejected by its
size, or it takes the first block that fits. -/
theorem kmalloc_cases (hr : HeapRep h bs) (hn : ¬ kmallocWalksOff h n) :
    ((n = 0 ∨ n ≥ h.kernelHlim) ∧ kmalloc h n = some (0, h)) ∨
    (0 < n ∧ n < h.kernelHlim ∧ ∃ pre b post, bs = pre ++ b :: post ∧ b.free = true ∧ n ≤ b.size ∧
      (∀ c ∈ pre, fits n c = false) ∧
      kmalloc h n = some (h.kernelHeap + span 16 pre + 16,
        { h with mem := kmallocTake h n (h.kernelHeap + span 16 pre) })) := by
  by_cases hrej : n = 0 ∨ n ≥ h.kernelHlim
  · exact Or.inl ⟨hrej, if_pos hrej⟩
  · right
    have hn0 : 0 < n := by omega
    have hnlim : n < h.kernelHlim := by omega
    refine ⟨hn0, hnlim, ?_⟩
    cases hfind : bs.find? (fits n) with
    | none =>
      -- nothing fits: the search would have read address 0
      exfalso
      have hno : ∀ b ∈ bs, fits n b = false := by
        simpa using List.find?_eq_none.mp hfind
      exact hn ((kmallocWalksOff_iff hr).mpr ⟨hn0, hnlim, hno⟩)
    | some b =>
      obtain ⟨hb, pre, post, hbs, hpre⟩ := List.find?_eq_some_iff_append.mp hfind
      have hpre' : ∀ c ∈ pre, fits n c = false := fun c hc => by simpa using hpre c hc
      obtain ⟨hfree, hsize⟩ := fits_iff.mp hb
      exact ⟨pre, b, post, hbs, hfree, hsize, hpre', kmalloc_takes hr hn0 hnlim hbs hb hpre'⟩

end Walk

/-! ## Taking a block -/

theorem kmallocNewHeader_at {m : ByteMem} {next size head : Nat} (hs : size < 2 ^ 31)
    (hh : head < 2 ^ 64) :
    header (kmallocNewHeader m next size head) next = blockHeader head ⟨size, true⟩ := by
  unfold kmallocNewHeader
  simp only [header_setPrev, header_setMagic, header_setFree, header_setSize,
    Nat.mod_eq_of_lt hs, Nat.mod_eq_of_lt hh]
  rfl

theorem kmallocNewHeader_write (m : ByteMem) (next size head : Nat) :
    HeaderWrite next m (kmallocNewHeader m next size head) :=
  (((setSize_write _ _ _).trans (setFree_write _ _ _)).trans (setMagic_write _ _ _)).trans
    (setPrev_write _ _ _)

/-- The header of a block whose `free` bit has been cleared. -/
theorem header_taken {m : ByteMem} {x q s : Nat} {f : Bool}
    (hx : header m x = blockHeader q ⟨s, f⟩) : header (setFree m x 0) x = blockHeader q ⟨s, false⟩ := by
  rw [header_setFree, hx]
  rfl

section Take

variable {h : Heap} {pre post : List Block} {b : Block} {n : Nat}

/-- Without a split only the `free` bit changes. -/
theorem kmallocTake_whole (hr : HeapRep h (pre ++ b :: post)) (hn : ¬ n + 16 < b.size)
    (hsize : n ≤ b.size) :
    kmallocTake h n (h.kernelHeap + span 16 pre) =
      setFree h.mem (h.kernelHeap + span 16 pre) 0 := by
  have hat := blockAt_mid (o := 16) h.kernelHeap pre b post
  have hbd := hr.blockAt_bounds hat
  unfold kmallocTake
  rw [hr.size_at hat, Nat.mod_eq_of_lt (by omega), if_neg hn]

/-- The memory after a split, before the two assignments to the taken header:
a new header behind the first `n` bytes, and the block after it, if there is
one, linked back to the new header. -/
def splitMem (h : Heap) (pre : List Block) (b : Block) (post : List Block) (n : Nat) : ByteMem :=
  let x := h.kernelHeap + span 16 pre
  let m := kmallocNewHeader h.mem (x + n + 16) (b.size - n - 16) x
  match post with
  | [] => m
  | _ :: _ => setPrev m (x + 16 + b.size) (x + n + 16)

/-- With a split, `kmalloc` relinks the following block exactly when there is one. -/
theorem kmallocTake_split (hr : HeapRep h (pre ++ b :: post)) (hn : n + 16 < b.size) :
    kmallocTake h n (h.kernelHeap + span 16 pre) =
      setFree (setSize (splitMem h pre b post n) (h.kernelHeap + span 16 pre) n)
        (h.kernelHeap + span 16 pre) 0 := by
  have hat := blockAt_mid (o := 16) h.kernelHeap pre b post
  have hbd := hr.blockAt_bounds hat
  have hlim := hr.limit_eq
  have htop := hr.top
  have htiles := hr.tiles
  rw [span_append, span_cons] at htiles
  unfold kmallocTake kmallocSplit splitMem
  simp only [hr.size_at hat]
  generalize hx : h.kernelHeap + span 16 pre = x at *
  have hnext : (x + n + 16) % 2 ^ 64 = x + n + 16 := Nat.mod_eq_of_lt (by omega)
  rw [Nat.mod_eq_of_lt (show n + 16 < 2 ^ 64 by omega), if_pos hn, hnext]
  -- the new header does not touch the one being split
  have hsz : (header (kmallocNewHeader h.mem (x + n + 16) (b.size - n - 16) x) x).size = b.size := by
    rw [(kmallocNewHeader_write _ _ _ _).header_ne (by omega), hr.size_at hat]
  cases post with
  | nil =>
    rw [span_nil] at htiles
    rw [hsz, if_neg (by rw [hlim]; omega)]
  | cons c post =>
    have hc := hr.blockAt_bounds (x := x + 16 + b.size) (b := c)
      ⟨pre ++ [b], post, by simp, by simp only [span_append, span_cons, span_nil]; omega⟩
    have hw : nextHeader (kmallocNewHeader h.mem (x + n + 16) (b.size - n - 16) x) x =
        x + 16 + b.size := by
      unfold nextHeader
      rw [hsz]
      omega
    rw [hsz, if_pos (by rw [hlim]; omega), hw]

/-- The chain after a split, up to the header of the block that was split. -/
theorem splitMem_chain (hr : HeapRep h (pre ++ b :: post)) (hn : n + 16 < b.size) :
    Chain (splitMem h pre b post n) 0 h.kernelHeap pre ∧
    header (splitMem h pre b post n) (h.kernelHeap + span 16 pre) =
      blockHeader (lastHeader 0 h.kernelHeap pre) b ∧
    Chain (splitMem h pre b post n) (h.kernelHeap + span 16 pre)
      (h.kernelHeap + span 16 pre + n + 16) (⟨b.size - n - 16, true⟩ :: post) := by
  have hat := blockAt_mid (o := 16) h.kernelHeap pre b post
  have hbd := hr.blockAt_bounds hat
  obtain ⟨hpre, hx, hpost⟩ := chain_append.mp hr.chain
  unfold splitMem
  generalize hxdef : h.kernelHeap + span 16 pre = x at *
  have hfresh : header (kmallocNewHeader h.mem (x + n + 16) (b.size - n - 16) x) (x + n + 16) =
      blockHeader x ⟨b.size - n - 16, true⟩ := kmallocNewHeader_at (by omega) (by omega)
  have hwr := kmallocNewHeader_write h.mem (x + n + 16) (b.size - n - 16) x
  have hw : x + n + 16 + 16 + (b.size - n - 16) = x + 16 + b.size := by omega
  have hpost' : Chain (kmallocNewHeader h.mem (x + n + 16) (b.size - n - 16) x) x
      (x + 16 + b.size) post := hpost.frame hwr (by omega)
  cases post with
  | nil =>
    exact ⟨hpre.frame hwr (by omega), (hwr.header_ne (by omega)).trans hx, hfresh, trivial⟩
  | cons c post =>
    have hwr' := setPrev_write (kmallocNewHeader h.mem (x + n + 16) (b.size - n - 16) x)
      (x + 16 + b.size) (x + n + 16)
    refine ⟨(hpre.frame hwr (by omega)).frame hwr' (by omega), ?_, ?_, ?_⟩
    · rw [hwr'.header_ne (by omega), hwr.header_ne (by omega)]
      exact hx
    · rw [hwr'.header_ne (by omega)]
      exact hfresh
    · show Chain _ (x + n + 16) (x + n + 16 + 16 + (b.size - n - 16)) (c :: post)
      rw [hw]
      exact hpost'.relink (by omega)

/-- Taking the block between `pre` and `post` turns it into `takeBlock` of it. -/
theorem kmallocTake_rep (hr : HeapRep h (pre ++ b :: post)) (hfree : b.free = true)
    (hn : 1 ≤ n) (hsize : n ≤ b.size) :
    HeapRep { h with mem := kmallocTake h n (h.kernelHeap + span 16 pre) }
      (pre ++ (takeBlock 16 n b ++ post)) := by
  have hat := blockAt_mid (o := 16) h.kernelHeap pre b post
  have hbd := hr.blockAt_bounds hat
  refine ⟨hr.top, hr.hlim_lt, ?_, ?_, coalesced_takeBlock hfree hr.coalesced, ?_⟩
  · have htiles := hr.tiles
    rw [span_append, span_cons] at htiles
    rw [span_append, span_append, span_takeBlock]
    show _ = 16 + h.kernelHlim
    omega
  · intro c hc
    simp only [List.mem_append] at hc
    rcases hc with hc | hc | hc
    · exact hr.pos c (by simp [hc])
    · exact takeBlock_pos hn hbd.2.2.1 c hc
    · exact hr.pos c (by simp [hc])
  · show Chain (kmallocTake h n (h.kernelHeap + span 16 pre)) 0 h.kernelHeap _
    rw [chain_append]
    by_cases hsplit : n + 16 < b.size
    · obtain ⟨hpre, hx, hnext, hpost⟩ := splitMem_chain hr hsplit
      have htake : takeBlock 16 n b = [⟨n, false⟩, ⟨b.size - n - 16, true⟩] := if_pos hsplit
      have hwr := (setSize_write (splitMem h pre b post n) (h.kernelHeap + span 16 pre) n).trans
        (setFree_write _ (h.kernelHeap + span 16 pre) 0)
      rw [kmallocTake_split hr hsplit, htake]
      have hxn : h.kernelHeap + span 16 pre + 16 + n = h.kernelHeap + span 16 pre + n + 16 := by
        omega
      refine ⟨hpre.frame hwr (by omega), header_taken (f := b.free) ?_, ?_⟩
      · rw [header_setSize, hx, Nat.mod_eq_of_lt (by omega)]
        rfl
      · show Chain _ _ (h.kernelHeap + span 16 pre + 16 + n) _
        rw [hxn]
        exact Chain.frame ⟨hnext, hpost⟩ hwr (by omega)
    · obtain ⟨hpre, hx, hpost⟩ := chain_append.mp hr.chain
      have htake : takeBlock 16 n b = [⟨b.size, false⟩] := if_neg hsplit
      have hwr := setFree_write h.mem (h.kernelHeap + span 16 pre) 0
      rw [kmallocTake_whole hr hsplit hsize, htake]
      exact ⟨hpre.frame hwr (by omega), header_taken hx, hpost.frame hwr (by omega)⟩

/-- `kmalloc` writes headers of the new tiling and nothing else. -/
theorem kmallocTake_headersOnly (hr : HeapRep h (pre ++ b :: post)) (hsize : n ≤ b.size) :
    HeadersOnly h.kernelHeap (pre ++ (takeBlock 16 n b ++ post)) h.mem
      (kmallocTake h n (h.kernelHeap + span 16 pre)) := by
  by_cases hsplit : n + 16 < b.size
  · have htake : takeBlock 16 n b = [⟨n, false⟩, ⟨b.size - n - 16, true⟩] := if_pos hsplit
    rw [kmallocTake_split hr hsplit, htake]
    generalize hx : h.kernelHeap + span 16 pre = x
    -- the three headers written: the taken one, the new one and the one after it
    have hat1 : BlockAt 16 h.kernelHeap
        (pre ++ ([⟨n, false⟩, ⟨b.size - n - 16, true⟩] ++ post)) x ⟨n, false⟩ :=
      ⟨pre, _, rfl, hx.symm⟩
    have hat2 : BlockAt 16 h.kernelHeap
        (pre ++ ([⟨n, false⟩, ⟨b.size - n - 16, true⟩] ++ post)) (x + n + 16)
        ⟨b.size - n - 16, true⟩ :=
      ⟨pre ++ [⟨n, false⟩], post, by simp, by
        simp only [span_append, span_cons, span_nil]
        omega⟩
    have hwr1 := (setSize_write (splitMem h pre b post n) x n).trans (setFree_write _ x 0)
    refine HeadersOnly.trans ?_ (hwr1.headersOnly hat1)
    unfold splitMem
    rw [hx]
    have hwr2 := kmallocNewHeader_write h.mem (x + n + 16) (b.size - n - 16) x
    cases post with
    | nil => exact hwr2.headersOnly hat2
    | cons c post =>
      refine (hwr2.headersOnly hat2).trans ((setPrev_write _ _ _).headersOnly (b := c)
        ⟨pre ++ [⟨n, false⟩, ⟨b.size - n - 16, true⟩], post, by simp, ?_⟩)
      simp only [span_append, span_cons, span_nil]
      omega
  · have htake : takeBlock 16 n b = [⟨b.size, false⟩] := if_neg hsplit
    rw [kmallocTake_whole hr hsplit hsize, htake]
    exact (setFree_write _ _ _).headersOnly (b := ⟨b.size, false⟩) ⟨pre, post, by simp, rfl⟩

end Take

end OS64.Mm
