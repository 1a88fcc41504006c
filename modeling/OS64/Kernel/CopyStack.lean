import OS64.Lib.X86
import OS64.Mm.HeapCanon

/-!
# The stack of a new task (`copy_stack` in `kernel/task.c`)

`copy_stack` copies the kernel stack into a block of its own and moves every word in the
copy that looks like a pointer into the stack. The length of the stack is in bytes, and the
loop counts words: it goes on over eight times the block, through whatever lies behind it.
`copy_stack_iff` says what must not lie there.

Mirroring notes:
- The locals of `copy_stack` are in registers; what is copied is the stack as it is when
  `memcpy` runs.
- The old stack is below the heap, which starts behind the kernel at 1 MiB, so `memcpy`
  copies between disjoint ranges.
- The address of a word is reduced modulo `2 ^ 64`: behind the last block of the heap the
  loop goes on at address 0.
-/

namespace OS64.Kernel

open OS64.Lib OS64.Lib.X86 OS64.Lib.Tiling OS64.Mm

/-- `STACK_SIZE`. -/
@[irreducible] def stackSize : Nat := 0x4000

/-- `kernel_stack_new`. -/
def kernelStackNew : BitVec 64 := 0xFFFFFFFFC0080000

/-- The test of the loop: `w` is at least `stack_old` and at most `stack_end`. -/
def pointsToStack (w : BitVec 64) : Prop :=
  w ≤ kernelStackNew + BitVec.ofNat 64 stackSize ∧ w ≥ kernelStackNew

instance (w : BitVec 64) : Decidable (pointsToStack w) := inferInstanceAs (Decidable (_ ∧ _))

/-- A word of the stack, moved by `offset` if it is a pointer into the stack. -/
def relocWord (offset w : BitVec 64) : BitVec 64 := if pointsToStack w then w + offset else w

/-- The address of `new_stack[i]`. -/
def wordAddr (p : BitVec 64) (i : Nat) : BitVec 64 := p + BitVec.ofNat 64 (8 * i)

/-- The loop of `copy_stack` from `i` on. -/
def relocLoop (p offset : BitVec 64) : Nat → Nat → ByteMem → ByteMem
  | 0, _, m => m
  | fuel + 1, i, m =>
    let w := ld m (wordAddr p i)
    relocLoop p offset fuel (i + 1)
      (if pointsToStack w then st m (wordAddr p i) (w + offset) else m)

/-- `memcpy` and the loop, with the block at `p`. -/
@[irreducible] def relocated (p : BitVec 64) (m : ByteMem) : ByteMem :=
  relocLoop p (p - kernelStackNew) stackSize 0 (m.copy p.toNat kernelStackNew.toNat stackSize)

/-- `copy_stack`: the offset and the heap after the call; `none` if `kmalloc` does not
return. -/
def copyStack (h : Heap) : Option (BitVec 64 × Heap) :=
  match kmalloc h stackSize with
  | none => none
  | some (p, h₁) =>
    some (BitVec.ofNat 64 p - kernelStackNew,
      { h₁ with mem := relocated (BitVec.ofNat 64 p) h₁.mem })

/-- What `copy_stack` is for, the state in front of it being `s`, the block from `kmalloc`
`p` and the memory as `kmalloc` leaves it `m₁`: the block holds the old stack with its
pointers into itself moved, and nothing else has changed. -/
structure StackCopied (s : HeapState) (p : BitVec 64) (m₁ m' : ByteMem) : Prop where
  words : ∀ i, i < stackSize / 8 →
    ld m' (wordAddr p i) = relocWord (p - kernelStackNew) (ld s.heap.mem (wordAddr kernelStackNew i))
  others : ∀ x, x < p.toNat ∨ p.toNat + stackSize ≤ x → m' x = m₁ x
  live : ∀ a ∈ s.live, ∀ x, a.1 ≤ x → x < a.1 + a.2 → m' x = s.heap.mem x

/-- No word behind the block that the loop comes by looks like a pointer into the stack. -/
def noneBehind (p : BitVec 64) (m₁ : ByteMem) : Prop :=
  ∀ i, stackSize / 8 ≤ i → i < stackSize → ¬ pointsToStack (ld m₁ (wordAddr p i))

/-! ## The loop -/

section Loop

variable {p offset : BitVec 64}

theorem wordAddr_toNat (p : BitVec 64) (i : Nat) :
    (wordAddr p i).toNat = (p.toNat + 8 * i) % 2 ^ 64 := by
  rw [wordAddr, BitVec.toNat_add, BitVec.toNat_ofNat, Nat.add_mod_mod]

/-- The words of the loop do not overlap. -/
theorem wordAddr_apart (p : BitVec 64) {i j : Nat} (hi : i < stackSize) (hj : j < stackSize)
    (hne : i ≠ j) : (wordAddr p i).toNat + 8 ≤ (wordAddr p j).toNat ∨
      (wordAddr p j).toNat + 8 ≤ (wordAddr p i).toNat := by
  rw [wordAddr_toNat, wordAddr_toNat]
  unfold stackSize at hi hj
  have := p.isLt
  omega

/-- The loop moves each of its words; a byte that is in no word that it moves stays. -/
theorem relocLoop_spec (fuel : Nat) : ∀ (i : Nat) (m : ByteMem), i + fuel ≤ stackSize →
    (∀ j, i ≤ j → j < i + fuel →
      ld (relocLoop p offset fuel i m) (wordAddr p j) = relocWord offset (ld m (wordAddr p j))) ∧
    ∀ x, (∀ j, i ≤ j → j < i + fuel → (wordAddr p j).toNat ≤ x → x < (wordAddr p j).toNat + 8 →
        ¬ pointsToStack (ld m (wordAddr p j))) → relocLoop p offset fuel i m x = m x := by
  induction fuel with
  | zero => exact fun i m _ => ⟨fun j hj hj' => absurd hj' (by omega), fun x _ => rfl⟩
  | succ fuel ih =>
    intro i m hle
    simp only [relocLoop]
    -- one round: word `i` is moved, the bytes outside it are not
    obtain ⟨m', hm', hword, hout⟩ : ∃ m', (if pointsToStack (ld m (wordAddr p i)) then
        st m (wordAddr p i) (ld m (wordAddr p i) + offset) else m) = m' ∧
        ld m' (wordAddr p i) = relocWord offset (ld m (wordAddr p i)) ∧
        ∀ x, ((wordAddr p i).toNat ≤ x → x < (wordAddr p i).toNat + 8 →
          ¬ pointsToStack (ld m (wordAddr p i))) → m' x = m x := by
      refine ⟨_, rfl, ?_⟩
      unfold relocWord
      by_cases hpt : pointsToStack (ld m (wordAddr p i))
      · rw [if_pos hpt, if_pos hpt]
        refine ⟨ld_st_same _ _ _, fun x hx => st_apply_out ?_⟩
        by_contra hin
        exact hx (by omega) (by omega) hpt
      · rw [if_neg hpt, if_neg hpt]
        exact ⟨rfl, fun _ _ => rfl⟩
    rw [hm']
    obtain ⟨hrest, hkeep⟩ := ih (i + 1) m' (by omega)
    -- the later words are as they were
    have hlater : ∀ j, i + 1 ≤ j → j < i + 1 + fuel → ld m' (wordAddr p j) = ld m (wordAddr p j) := by
      intro j hj hj'
      have hapart := wordAddr_apart p (i := i) (j := j) (by omega) (by omega) (by omega)
      exact ld_congr fun x hx hx' => hout x fun _ _ => absurd hapart (by omega)
    refine ⟨fun j hj hj' => ?_, fun x hx => ?_⟩
    · by_cases hji : j = i
      · subst hji
        rw [← hword]
        refine ld_congr fun x hx hx' => hkeep x fun k hk hk' hin hin' => ?_
        have hapart := wordAddr_apart p (i := j) (j := k) (by omega) (by omega) (by omega)
        omega
      · rw [hrest j (by omega) (by omega), hlater j (by omega) (by omega)]
    · rw [hkeep x fun j hj hj' hin hin' => ?_]
      · exact hout x fun hin hin' => hx i (by omega) (by omega) hin hin'
      · rw [hlater j hj hj']
        exact hx j (by omega) (by omega) hin hin'

end Loop

/-! ## The call -/

section Call

variable {s : HeapState} {p : BitVec 64} {m₁ m' : ByteMem}

theorem kernelStackNew_word {i : Nat} (hi : i < stackSize / 8) :
    (wordAddr kernelStackNew i).toNat = kernelStackNew.toNat + 8 * i := by
  rw [wordAddr_toNat]
  unfold stackSize at hi
  have hstack : kernelStackNew.toNat = 0xFFFFFFFFC0080000 := rfl
  omega

/-- The block above the old stack. -/
structure NewBlock (p : BitVec 64) : Prop where
  above : kernelStackNew.toNat + stackSize ≤ p.toNat
  fits : p.toNat + stackSize ≤ 2 ^ 64

/-- A word of the block lies in it, any other of the loop outside. -/
theorem NewBlock.word (h : NewBlock p) {i : Nat} (hi : i < stackSize) :
    if i < stackSize / 8 then (wordAddr p i).toNat = p.toNat + 8 * i
    else (wordAddr p i).toNat + 8 ≤ p.toNat ∨ p.toNat + stackSize ≤ (wordAddr p i).toNat := by
  have habove := h.above
  have hfits := h.fits
  have hstack : kernelStackNew.toNat = 0xFFFFFFFFC0080000 := rfl
  rw [wordAddr_toNat]
  unfold stackSize at *
  split <;> omega

theorem NewBlock.offset_ne_zero (h : NewBlock p) : p - kernelStackNew ≠ 0 := by
  have habove := h.above
  unfold stackSize at habove
  intro h0
  have heq : p = kernelStackNew := by
    rw [BitVec.sub_eq_iff_eq_add] at h0
    simpa using h0
  rw [heq] at habove
  omega

/-- The words of the block after the copy, and the words behind it. -/
theorem NewBlock.copied (h : NewBlock p) {i : Nat} (hi : i < stackSize) :
    ld (m₁.copy p.toNat kernelStackNew.toNat stackSize) (wordAddr p i) =
      if i < stackSize / 8 then ld m₁ (wordAddr kernelStackNew i) else ld m₁ (wordAddr p i) := by
  have hword := h.word hi
  by_cases hin : i < stackSize / 8
  · rw [if_pos hin] at hword ⊢
    unfold ld
    rw [hword, kernelStackNew_word hin,
      ByteMem.read_copy_same 8 (8 * i) (by unfold stackSize at hin ⊢; omega)]
  · rw [if_neg hin] at hword ⊢
    exact ld_congr fun x hx hx' => ByteMem.copy_apply_out (by omega)

/-- The words of the block hold the old stack, its pointers into itself moved. -/
theorem relocated_words (h : NewBlock p) {i : Nat} (hi : i < stackSize / 8) :
    ld (relocated p m₁) (wordAddr p i) =
      relocWord (p - kernelStackNew) (ld m₁ (wordAddr kernelStackNew i)) := by
  have hlt : i < stackSize := by
    unfold stackSize at hi ⊢
    omega
  rw [relocated, (relocLoop_spec stackSize 0 _ (by omega)).1 i (by omega) (by omega),
    h.copied hlt, if_pos hi]

/-- With no pointer into the stack behind the block only the block changes. -/
theorem relocated_others (h : NewBlock p) (hnone : noneBehind p m₁) {x : Nat}
    (hx : x < p.toNat ∨ p.toNat + stackSize ≤ x) : relocated p m₁ x = m₁ x := by
  rw [relocated, (relocLoop_spec stackSize 0 _ (by omega)).2 x fun i _ hi hin hin' => ?_]
  · exact ByteMem.copy_apply_out hx
  · have hlt : i < stackSize := by omega
    have hword := h.word hlt
    by_cases hblock : i < stackSize / 8
    · -- the byte would be in the block
      rw [if_pos hblock] at hword
      unfold stackSize at hblock hx
      omega
    · rw [h.copied hlt, if_neg hblock]
      exact hnone i (by omega) hlt

/-- A pointer into the stack behind the block is changed. -/
theorem relocated_behind (h : NewBlock p) {i : Nat} (hi : stackSize / 8 ≤ i) (hlt : i < stackSize)
    (hpt : pointsToStack (ld m₁ (wordAddr p i))) :
    ld (relocated p m₁) (wordAddr p i) ≠ ld m₁ (wordAddr p i) := by
  rw [relocated, (relocLoop_spec stackSize 0 _ (by omega)).1 i (by omega) (by omega),
    h.copied hlt, if_neg (by omega), relocWord, if_pos hpt]
  intro heq
  exact h.offset_ne_zero (by simpa using heq)

/-- The other allocations keep their bytes in `kmalloc` and lie apart from the block, and
so does all memory below the heap. -/
structure OthersKept (s : HeapState) (p : BitVec 64) (m₁ : ByteMem) : Prop where
  block : NewBlock p
  stack : ∀ x, x < kernelStackNew.toNat + stackSize → m₁ x = s.heap.mem x
  apart : ∀ b ∈ s.live, b.1 + b.2 ≤ p.toNat ∨ p.toNat + stackSize ≤ b.1
  live : ∀ b ∈ s.live, ∀ x, b.1 ≤ x → x < b.1 + b.2 → m₁ x = s.heap.mem x

theorem stackCopied_iff (h : OthersKept s p m₁) :
    StackCopied s p m₁ (relocated p m₁) ↔ noneBehind p m₁ := by
  constructor
  · intro hc i hi hlt hpt
    -- the frame keeps the word, the loop does not
    have hword := h.block.word hlt
    rw [if_neg (by omega)] at hword
    exact relocated_behind h.block hi hlt hpt (ld_congr fun x hx hx' => hc.others x (by omega))
  · intro hnone
    refine ⟨fun i hi => ?_, fun x hx => relocated_others h.block hnone hx, fun b hb x hx hx' => ?_⟩
    · rw [relocated_words h.block hi]
      refine congrArg (relocWord _) (ld_congr fun x hx hx' => h.stack x ?_)
      rw [kernelStackNew_word hi] at hx hx'
      unfold stackSize at hi ⊢
      omega
    · have hapart := h.apart b hb
      rw [← h.live b hb x hx hx']
      exact relocated_others h.block hnone (by omega)

/-- In a reachable heap a block that `kmalloc` returns is above the old stack. -/
theorem othersKept_of_kmalloc {lastPage : Nat} {m : ByteMem} (halign : lastPage % 0x1000 = 0)
    (hlp : lastPage < 2 ^ 30) (hlow : 0x100000 ≤ lastPage)
    (hrun : Relation.ReflTransGen HeapStep (heapInit lastPage m) s)
    (hoff : ¬ kmallocWalksOff s.heap stackSize) {a : Nat} {h₁ : Heap}
    (hk : kmalloc s.heap stackSize = some (a, h₁)) (ha : a ≠ 0) :
    OthersKept s (BitVec.ofNat 64 a) h₁.mem := by
  obtain ⟨⟨bs, hinv⟩, -, hbase⟩ := heapRun_canon halign hlp hrun
  have hheap : s.heap.kernelHeap = lastPage + 0xFFFFFFFFC0000000 := by
    rw [hbase]
    exact heap_base_eq hlp
  have hstack : kernelStackNew.toNat = 0xFFFFFFFFC0080000 := rfl
  have hsz : stackSize = 0x4000 := by
    unfold stackSize
    rfl
  -- the new stack is one more live block, apart from all others
  have hcall : HeapCall s { heap := h₁, live := liveAfter s.live a stackSize } := .kmalloc hoff hk
  rw [liveAfter, if_neg ha] at hcall
  obtain ⟨bs', heff⟩ := heapCall_effect hinv hcall
  have hpair := (List.pairwise_cons.mp (live_pairwise heff.inv)).1
  have hkept : ∀ b ∈ s.live, ∀ x, b.1 ≤ x → x < b.1 + b.2 → h₁.mem x = s.heap.mem x :=
    fun b hb x hx hx' => live_bytes_kept hinv hcall hb (List.mem_cons_of_mem _ hb) hx hx'
  rcases kmalloc_cases hinv.rep hoff with ⟨-, hrej⟩ | ⟨-, -, pre, b, post, rfl, -, hsize, -, htake⟩
  · rw [hrej] at hk
    exact absurd (Prod.mk.inj (Option.some.inj hk)).1.symm ha
  · rw [htake] at hk
    obtain ⟨rfl, hh₁⟩ := Prod.mk.inj (Option.some.inj hk)
    have hbd := hinv.rep.blockAt_bounds (blockAt_mid s.heap.kernelHeap pre b post)
    have hnat : (BitVec.ofNat 64 (s.heap.kernelHeap + span 16 pre + 16)).toNat =
        s.heap.kernelHeap + span 16 pre + 16 := by
      rw [BitVec.toNat_ofNat]
      omega
    refine ⟨⟨?_, ?_⟩, ?_, ?_, hkept⟩
    · omega
    · omega
    · intro x hx
      rw [← hh₁]
      refine kmallocTake_headersOnly hinv.rep hsize x fun y c hy => ?_
      have hbound := hy.bounds
      omega
    · intro c hc
      have hc' := hpair c hc
      dsimp only at hc'
      omega

/-- The call, given what `kmalloc` returns. -/
theorem copyStack_eq {h h₁ : Heap} {a : Nat} (hk : kmalloc h stackSize = some (a, h₁)) :
    copyStack h = some (BitVec.ofNat 64 a - kernelStackNew,
      { h₁ with mem := relocated (BitVec.ofNat 64 a) h₁.mem }) := by
  unfold copyStack
  rw [hk]

end Call

/-- On every heap that calls lead to, whatever the old stack and the rest of memory hold,
a `copy_stack` that gets its block copies and relocates the stack and changes nothing else
exactly when, behind the block, none of the words that the loop comes by has a value in the
range of the old stack. -/
theorem copy_stack_iff {lastPage : Nat} {m : ByteMem} {s : HeapState}
    (halign : lastPage % 0x1000 = 0) (hlp : lastPage < 2 ^ 30) (hlow : 0x100000 ≤ lastPage)
    (hrun : Relation.ReflTransGen HeapStep (heapInit lastPage m) s)
    (hoff : ¬ kmallocWalksOff s.heap stackSize) {a : Nat} {h₁ : Heap}
    (hk : kmalloc s.heap stackSize = some (a, h₁)) (ha : a ≠ 0) :
    ∃ h', copyStack s.heap = some (BitVec.ofNat 64 a - kernelStackNew, h') ∧
      (StackCopied s (BitVec.ofNat 64 a) h₁.mem h'.mem ↔
        noneBehind (BitVec.ofNat 64 a) h₁.mem) :=
  ⟨_, copyStack_eq hk,
    stackCopied_iff (othersKept_of_kmalloc halign hlp hlow hrun hoff hk ha)⟩

/-- A heap whose first free block is too small for a stack. -/
theorem copy_stack_iff_merged :
    ∃ s a h₁ h', RunTo 0x200000 (fun _ => 0) mergedBlocks mergedLive s ∧
      kmalloc s.heap stackSize = some (a, h₁) ∧
      copyStack s.heap = some (BitVec.ofNat 64 a - kernelStackNew, h') ∧
      (StackCopied s (BitVec.ofNat 64 a) h₁.mem h'.mem ↔ noneBehind (BitVec.ofNat 64 a) h₁.mem) := by
  obtain ⟨s, hs⟩ := mergedHeap_run
  have hrep : HeapRep s.heap
      ([⟨30, false⟩, ⟨120, true⟩, ⟨200, false⟩] ++ ⟨0x3FDFFE62, true⟩ :: []) := hs.rep
  have hlim : stackSize < s.heap.kernelHlim := by
    rw [hs.lim]
    decide +kernel
  have hfit : fits stackSize ⟨0x3FDFFE62, true⟩ = true := fits_iff.mpr ⟨rfl, by decide +kernel⟩
  have hk := kmalloc_takes hrep (by decide +kernel) hlim rfl hfit (by decide +kernel)
  have hoff := not_kmallocWalksOff hrep (List.mem_append_right _ List.mem_cons_self) hfit
  obtain ⟨h', hrun, hiff⟩ := copy_stack_iff (show 0x200000 % 0x1000 = 0 by decide) (by decide)
    (by decide) hs.run hoff hk (Nat.succ_ne_zero _)
  exact ⟨s, _, _, h', hs, hk, hrun, hiff⟩

/-! ## A neighbour -/

/-- Two blocks are allocated behind each other on an empty heap, and the first is given
back. -/
def holeHeap (h : Heap) (n k : Nat) : Heap :=
  let h₁ := { h with mem := kmallocTake h n h.kernelHeap }
  let h₂ := { h₁ with mem := kmallocTake h₁ k (h.kernelHeap + (16 + n)) }
  kfree h₂ (h.kernelHeap + 16)

/-- The free block is in front of the one in use then. -/
theorem holeHeap_run {lastPage : Nat} {m : ByteMem} (halign : lastPage % 0x1000 = 0)
    (hlp : lastPage < 2 ^ 30) {h : Heap} (hh : memInit lastPage m = h) {n k : Nat} (hn : 0 < n)
    (hk : 0 < k) (hroom : n + k + 32 < h.kernelHlim) :
    Relation.ReflTransGen HeapStep (heapInit lastPage m)
      { heap := holeHeap h n k, live := [(h.kernelHeap + (16 + n) + 16, k)] } ∧
    HeapRep (holeHeap h n k) [⟨n, true⟩, ⟨k, false⟩, ⟨h.kernelHlim - n - 16 - k - 16, true⟩] := by
  have hinit : heapInit lastPage m = ⟨h, []⟩ := by rw [heapInit, hh]
  have hr₀ : HeapRep (HeapState.mk h []).heap ([] ++ ⟨h.kernelHlim, true⟩ :: []) := by
    rw [← hh]
    exact memInit_rep halign hlp m
  rw [hinit]
  unfold holeHeap
  -- the first block
  have hs₁ := heapStep_takes hr₀ hn (show n < h.kernelHlim by omega)
    (fits_iff.mpr ⟨rfl, show n ≤ h.kernelHlim by omega⟩) fun _ hc => absurd hc List.not_mem_nil
  have hr₁ := kmallocTake_rep hr₀ rfl hn (show n ≤ h.kernelHlim by omega)
  rw [takeBlock, if_pos (show n + 16 < h.kernelHlim by omega)] at hr₁
  simp only [span_nil, Nat.add_zero] at hs₁ hr₁
  generalize hh₁ : ({ h with mem := kmallocTake h n h.kernelHeap } : Heap) = h₁ at *
  have hbase₁ : h₁.kernelHeap = h.kernelHeap := by rw [← hh₁]
  have hhlim₁ : h₁.kernelHlim = h.kernelHlim := by rw [← hh₁]
  -- the second, behind it
  have hr₁' : HeapRep (HeapState.mk h₁ [(h.kernelHeap + 16, n)]).heap
      ([⟨n, false⟩] ++ ⟨h.kernelHlim - n - 16, true⟩ :: []) := hr₁
  have hs₂ := heapStep_takes hr₁' hk (show k < h₁.kernelHlim by omega)
    (fits_iff.mpr ⟨rfl, show k ≤ h.kernelHlim - n - 16 by omega⟩) fun c hc => by
      rw [List.mem_singleton.mp hc]
      rfl
  have hr₂ := kmallocTake_rep hr₁' rfl hk (show k ≤ h.kernelHlim - n - 16 by omega)
  rw [takeBlock, if_pos (show k + 16 < h.kernelHlim - n - 16 by omega)] at hr₂
  have hat : (HeapState.mk h₁ [(h.kernelHeap + 16, n)]).heap.kernelHeap +
      span 16 [⟨n, false⟩] = h.kernelHeap + (16 + n) := by
    rw [span_cons, span_nil, Nat.add_zero]
    exact congrArg (· + (16 + n)) hbase₁
  rw [hat] at hs₂ hr₂
  dsimp only at hs₂ hr₂
  generalize hh₂ : ({ h₁ with mem := kmallocTake h₁ k (h.kernelHeap + (16 + n)) } : Heap) = h₂ at *
  have hbase₂ : h₂.kernelHeap = h.kernelHeap := by rw [← hh₂, ← hbase₁]
  -- and back goes the first
  have hs₃ : HeapStep
      ⟨h₂, [(h.kernelHeap + (16 + n) + 16, k), (h.kernelHeap + 16, n)]⟩
      ⟨kfree h₂ (h.kernelHeap + 16), [(h.kernelHeap + (16 + n) + 16, k), (h.kernelHeap + 16, n)].erase
        (h.kernelHeap + 16, n)⟩ :=
    .call (.kfree (List.mem_cons_of_mem _ List.mem_cons_self))
  rw [List.erase_cons_tail (by simp only [beq_iff_eq, Prod.mk.injEq]; omega),
    List.erase_cons_head] at hs₃
  have hr₃ := @kfree_rep h₂ [] [⟨k, false⟩, ⟨h.kernelHlim - n - 16 - k - 16, true⟩] ⟨n, false⟩ hr₂
  rw [span_nil, Nat.add_zero, hbase₂] at hr₃
  dsimp only
  rw [hh₂]
  exact ⟨((Relation.ReflTransGen.single hs₁).tail hs₂).tail hs₃, hr₃⟩

/-- A live word behind the block that looks like a pointer into the stack is changed. -/
theorem OthersKept.live_changed {s : HeapState} {p : BitVec 64} {m₁ : ByteMem}
    (h : OthersKept s p m₁) {b : Nat × Nat} (hb : b ∈ s.live) {i : Nat} (hi : stackSize / 8 ≤ i)
    (hlt : i < stackSize) (hin : b.1 ≤ (wordAddr p i).toNat)
    (hin' : (wordAddr p i).toNat + 8 ≤ b.1 + b.2) (hpt : pointsToStack (ld m₁ (wordAddr p i))) :
    ∃ x, b.1 ≤ x ∧ x < b.1 + b.2 ∧ relocated p m₁ x ≠ s.heap.mem x := by
  by_contra hkept
  push Not at hkept
  refine relocated_behind h.block hi hlt hpt (ld_congr fun x hx hx' => ?_)
  rw [hkept x (by omega) (by omega), h.live b hb x (by omega) (by omega)]

/-- A heap whose memory has a word with the value `stack_old`, 16 bytes behind the first
block of `STACK_SIZE` bytes. -/
def neighbourHeap : Heap :=
  memInit 0x200000 (ByteMem.write (fun _ => 0) 0xFFFFFFFFC0204020 8 0xFFFFFFFFC0080000)

/-- Two blocks of `STACK_SIZE` and of 8 bytes are allocated and the first is freed.
`copy_stack` gets it again, and the word in the second, whose value is that of a stack
address, is changed. -/
theorem copy_stack_changes_neighbour :
    ∃ (s : HeapState) (a : Nat) (h₁ h' : Heap),
      Relation.ReflTransGen HeapStep ⟨neighbourHeap, []⟩ s ∧
      ¬ kmallocWalksOff s.heap stackSize ∧ kmalloc s.heap stackSize = some (a, h₁) ∧ a ≠ 0 ∧
      copyStack s.heap = some (BitVec.ofNat 64 a - kernelStackNew, h') ∧
      ¬ StackCopied s (BitVec.ofNat 64 a) h₁.mem h'.mem ∧
      ∃ b ∈ s.live, ∃ x, b.1 ≤ x ∧ x < b.1 + b.2 ∧ h'.mem x ≠ s.heap.mem x := by
  obtain ⟨hrun, hrep⟩ := holeHeap_run (show 0x200000 % 0x1000 = 0 by decide) (by decide)
    (show _ = neighbourHeap from rfl) (n := stackSize) (k := 8) (by decide +kernel) (by decide)
    (by decide +kernel)
  have hk := kmalloc_takes hrep (by decide +kernel) (by decide +kernel) (show _ = [] ++ _ :: _ from rfl)
    (fits_iff.mpr ⟨rfl, Nat.le_refl _⟩) fun _ hc => absurd hc List.not_mem_nil
  have hoff := not_kmallocWalksOff hrep List.mem_cons_self (fits_iff.mpr ⟨rfl, Nat.le_refl _⟩)
  rw [span_nil, Nat.add_zero] at hk
  have ha : (holeHeap neighbourHeap stackSize 8).kernelHeap + 16 ≠ 0 := Nat.succ_ne_zero _
  have hothers := othersKept_of_kmalloc (show 0x200000 % 0x1000 = 0 by decide) (by decide)
    (by decide) hrun hoff hk ha
  obtain ⟨x, hx, hx', hne⟩ := hothers.live_changed List.mem_cons_self (i := 2050)
    (by decide +kernel) (by decide +kernel) (by decide +kernel) (by decide +kernel)
    (by decide +kernel)
  refine ⟨_, _, _, _, hrun, hoff, hk, ha, copyStack_eq hk, fun hc => ?_, _, List.mem_cons_self, x,
    hx, hx', hne⟩
  exact hne (hc.live _ List.mem_cons_self x hx hx')

end OS64.Kernel
