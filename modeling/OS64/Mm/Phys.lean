import OS64.Lib.Pool
import Mathlib.Data.List.Nodup
import Mathlib.Order.Bounds.Defs

/-!
# The page bitmap of `mm/phys.c`

`phys_map` has one bit for each physical page, set while the page is in use,
in 64-bit words. `alloc_phys_page` looks for a word that is not all ones and
then, as the comment there tells, works on its two 32-bit halves to stay clear
of a sign-extension bug; `free_phys_page` builds its mask in the `int`
arithmetic that the comment warns of.

Mirroring notes:
- `1 << j` is an `int`. On the x86 of the kernel a 32-bit shift takes its count
  modulo 32, and `~(1 << j)` is widened to the word by sign extension.
- A `for` loop that only looks is a recursion with fuel, one unit an iteration.
- Addresses are 64-bit: `(64*i + j) << 12` is reduced modulo `2 ^ 64`.

`alloc_phys_page_lowest` says what an allocation does on a map of any size. A free is
right exactly where `freeMeets` holds (`freePhysPage_exact_iff`), and while every free
is, the map refines a pool of pages.
-/

namespace OS64.Mm

open OS64.Lib

/-- `phys_map` and `phys_size`. -/
structure PhysMap where
  physMap : Nat → BitVec 64
  physSize : Nat

/-- The map as the kernel has it. `phys_init` sets the size to four words for each MiB,
of which `kernel_main` counts at least two and at most `2 ^ 22 + 1`, so both bounds hold
with room to spare: the second keeps every page in the 52 bits of a physical address. -/
structure PhysMem extends PhysMap where
  size_ge : 8 ≤ physSize
  size_le : physSize ≤ 2 ^ 34

instance : Coe PhysMem PhysMap := ⟨PhysMem.toPhysMap⟩

/-- `phys_map[i] = w`. -/
def PhysMap.setWord (s : PhysMap) (i : Nat) (w : BitVec 64) : PhysMap :=
  { s with physMap := fun k => if k = i then w else s.physMap k }

/-- `phys_map[i] = w`. -/
def PhysMem.setWord (s : PhysMem) (i : Nat) (w : BitVec 64) : PhysMem :=
  { s with physMap := fun k => if k = i then w else s.physMap k }

/-- The bit of page number `p`. -/
def PhysMap.used (s : PhysMap) (p : Nat) : Bool := (s.physMap (p / 64)).getLsbD (p % 64)

/-- `((uint32_t *)phys_map)[2*i + k]`, half `k` of the word `w = phys_map[i]`. -/
def physHalf (w : BitVec 64) (k : Nat) : BitVec 32 := w.extractLsb' (32 * k) 32

/-- The word `w` after half `k` of it is assigned. -/
def setPhysHalf (w : BitVec 64) (k : Nat) (v : BitVec 32) : BitVec 64 :=
  if k = 0 then w.extractLsb' 32 32 ++ v else v ++ w.extractLsb' 0 32

/-- The search for a word: `for (; i < phys_size && phys_map[i] is all ones; i++)`. -/
def allocFindWord (s : PhysMap) : Nat → Nat → Nat
  | 0, i => i
  | fuel + 1, i =>
    if i < s.physSize ∧ s.physMap i = 0xFFFFFFFFFFFFFFFF#64 then allocFindWord s fuel (i + 1) else i

/-- The search in a half: `for (; j < 32 && (itmp | (1<<j)) == itmp; j++)`. -/
def allocFindBit (itmp : BitVec 32) : Nat → Nat → Nat
  | 0, j => j
  | fuel + 1, j =>
    if j < 32 ∧ itmp ||| (1#32 <<< j) = itmp then allocFindBit itmp fuel (j + 1) else j

/-- The halves one after the other, left at the first with a clear bit: its index
`k` and the bit `j`, which is 32 when neither has one. -/
def allocFindHalf (w : BitVec 64) : Nat × Nat :=
  if allocFindBit (physHalf w 0) 32 0 ≠ 32 then (0, allocFindBit (physHalf w 0) 32 0)
  else (1, allocFindBit (physHalf w 1) 32 0)

/-- The assignment of the bit `kj` of word `i` and the address of its page. -/
def allocMark (s : PhysMap) (i : Nat) (kj : Nat × Nat) : Nat × PhysMap :=
  ((64 * i + (kj.2 + kj.1 * 32)) * 2 ^ 12 % 2 ^ 64,
    s.setWord i (setPhysHalf (s.physMap i) kj.1 (physHalf (s.physMap i) kj.1 ||| (1#32 <<< kj.2))))

/-- `alloc_phys_page`: the address of the page, or 0. -/
def PhysMap.allocPhysPage (s : PhysMap) : Nat × PhysMap :=
  let i := allocFindWord s s.physSize 4
  if i = s.physSize then (0, s)
  else if (allocFindHalf (s.physMap i)).2 = 32 then (0, s)
  else allocMark s i (allocFindHalf (s.physMap i))

theorem PhysMap.allocPhysPage_physSize (s : PhysMap) :
    s.allocPhysPage.2.physSize = s.physSize := by
  unfold PhysMap.allocPhysPage
  dsimp only
  split
  · rfl
  · split <;> rfl

/-- `alloc_phys_page` on the map of the kernel, whose size it keeps. -/
def allocPhysPage (s : PhysMem) : Nat × PhysMem :=
  (s.toPhysMap.allocPhysPage.1,
    { toPhysMap := s.toPhysMap.allocPhysPage.2
      size_ge := s.toPhysMap.allocPhysPage_physSize ▸ s.size_ge
      size_le := s.toPhysMap.allocPhysPage_physSize ▸ s.size_le })

/-- `~(1 << j)`, an `int` widened to 64 bits. -/
def freeMask (j : Nat) : BitVec 64 := (~~~ (1#32 <<< (j % 32))).signExtend 64

/-- `free_phys_page`. -/
def freePhysPage (s : PhysMem) (page : Nat) : PhysMem :=
  if page = 0 then s
  else
    let pageaddr := page / 2 ^ 12
    s.setWord (pageaddr / 64) (s.physMap (pageaddr / 64) &&& freeMask (pageaddr % 64))

/-! ## Words and halves -/

@[simp] theorem setWord_physSize (s : PhysMem) (i : Nat) (w : BitVec 64) :
    (s.setWord i w).physSize = s.physSize := rfl

theorem PhysMap.setWord_used (s : PhysMap) (i : Nat) (w : BitVec 64) (p : Nat) :
    (s.setWord i w).used p = if p / 64 = i then w.getLsbD (p % 64) else s.used p := by
  unfold PhysMap.used PhysMap.setWord
  by_cases h : p / 64 = i
  · simp [h]
  · simp [h]

theorem setWord_used (s : PhysMem) (i : Nat) (w : BitVec 64) (p : Nat) :
    (s.setWord i w).used p = if p / 64 = i then w.getLsbD (p % 64) else s.used p :=
  s.toPhysMap.setWord_used i w p

@[simp] theorem physHalf_getLsbD (w : BitVec 64) (k j : Nat) :
    (physHalf w k).getLsbD j = (decide (j < 32) && w.getLsbD (32 * k + j)) := by
  simp [physHalf]

/-- Setting bit `j` of a half. -/
theorem or_bit_getLsbD (v : BitVec 32) {j l : Nat} (hl : l < 32) :
    (v ||| (1#32 <<< j)).getLsbD l = (v.getLsbD l || decide (l = j)) := by
  simp only [BitVec.getLsbD_or, BitVec.getLsbD_shiftLeft, BitVec.getLsbD_one, hl]
  by_cases hlt : l < j
  · simp [hlt, show l ≠ j by omega]
  · by_cases hlj : l = j
    · simp [hlj]
    · simp [hlj, show ¬ l - j = 0 by omega]

/-- The test of the search in a half: setting bit `j` changes nothing. -/
theorem or_bit_eq_iff (v : BitVec 32) {j : Nat} (hj : j < 32) :
    v ||| (1#32 <<< j) = v ↔ v.getLsbD j = true := by
  constructor
  · intro h
    rw [← h, or_bit_getLsbD v hj]
    simp
  · intro h
    apply BitVec.eq_of_getLsbD_eq
    intro l hl
    rw [or_bit_getLsbD v hl]
    by_cases hlj : l = j
    · simp [hlj, h]
    · simp [hlj]

theorem setPhysHalf_getLsbD (w : BitVec 64) {k i : Nat} (v : BitVec 32) (hk : k < 2) (hi : i < 64) :
    (setPhysHalf w k v).getLsbD i = if i / 32 = k then v.getLsbD (i % 32) else w.getLsbD i := by
  unfold setPhysHalf
  by_cases hlt : i < 32
  · by_cases hk0 : k = 0
    · simp only [hk0, ↓reduceIte, BitVec.getLsbD_append, hlt, show i / 32 = 0 by omega,
        show i % 32 = i by omega]
    · simp only [hk0, ↓reduceIte, BitVec.getLsbD_append, hlt, show ¬ i / 32 = k by omega,
        BitVec.getLsbD_extractLsb', decide_true, Bool.true_and, Nat.zero_add]
  · by_cases hk0 : k = 0
    · simp only [hk0, ↓reduceIte, BitVec.getLsbD_append, hlt, show ¬ i / 32 = 0 by omega,
        BitVec.getLsbD_extractLsb', show i - 32 < 32 by omega, decide_true, Bool.true_and,
        show 32 + (i - 32) = i by omega]
    · simp only [hk0, ↓reduceIte, BitVec.getLsbD_append, hlt, show i / 32 = k by omega,
        show i % 32 = i - 32 by omega]

/-- Assigning half `k` with bit `j` added sets that bit of the word. -/
theorem setPhysHalf_or_bit (w : BitVec 64) {k j i : Nat} (hk : k < 2) (hj : j < 32) (hi : i < 64) :
    (setPhysHalf w k (physHalf w k ||| (1#32 <<< j))).getLsbD i =
      (w.getLsbD i || decide (i = j + k * 32)) := by
  rw [setPhysHalf_getLsbD w _ hk hi]
  by_cases hik : i / 32 = k
  · have hidx : 32 * k + i % 32 = i := by omega
    have hbit : i % 32 = j ↔ i = j + k * 32 := by omega
    rw [if_pos hik, or_bit_getLsbD _ (by omega), physHalf_getLsbD, hidx]
    simp [hbit, show i % 32 < 32 by omega]
  · rw [if_neg hik]
    simp [show ¬ i = j + k * 32 by omega]

/-- The bits of the mask: all but bit `j` while `j` is below 31; from 31 on the sign
extension reaches into the upper half. -/
theorem freeMask_getLsbD {j i : Nat} (hi : i < 64) :
    (freeMask j).getLsbD i = if j % 32 = 31 then decide (i < 31) else decide (i ≠ j % 32) := by
  have hone : ∀ l, l < 32 → (~~~ (1#32 <<< (j % 32))).getLsbD l = decide (l ≠ j % 32) := by
    intro l hl
    by_cases hlt : l < j % 32
    · simp [hl, hlt, show l ≠ j % 32 by omega]
    · by_cases hlj : l = j % 32
      · simp [hlj]
      · simp [hl, hlt, hlj, show ¬ l - j % 32 = 0 by omega]
  have hmsb : (~~~ (1#32 <<< (j % 32))).msb = decide (31 ≠ j % 32) := by
    rw [BitVec.msb_eq_getLsbD_last]
    exact hone 31 (by omega)
  rw [freeMask, BitVec.getLsbD_signExtend, hmsb]
  by_cases hlt : i < 32
  · simp only [hi, decide_true, hlt, ↓reduceIte, hone i hlt, Bool.true_and]
    by_cases hj : j % 32 = 31
    · simp [hj, show i ≠ 31 ↔ i < 31 by omega]
    · simp [hj]
  · simp only [hi, decide_true, hlt, ↓reduceIte, Bool.true_and]
    by_cases hj : j % 32 = 31
    · simp [hj, show ¬ i < 31 by omega]
    · simp [hj, show 31 ≠ j % 32 by omega, show i ≠ j % 32 by omega]

/-! ## Allocation -/

/-- The pages `alloc_phys_page` may return: from the first MiB on, within the map, clear. -/
def allocatable (s : PhysMap) (p : Nat) : Prop :=
  256 ≤ p ∧ p < 64 * s.physSize ∧ s.used p = false

theorem allocFindWord_spec (s : PhysMap) (fuel i : Nat) (hfuel : s.physSize ≤ i + fuel)
    (hi : i ≤ s.physSize) :
    i ≤ allocFindWord s fuel i ∧ allocFindWord s fuel i ≤ s.physSize ∧
    (∀ k, i ≤ k → k < allocFindWord s fuel i → s.physMap k = 0xFFFFFFFFFFFFFFFF#64) ∧
    (allocFindWord s fuel i < s.physSize →
      s.physMap (allocFindWord s fuel i) ≠ 0xFFFFFFFFFFFFFFFF#64) := by
  induction fuel generalizing i with
  | zero =>
    simp only [allocFindWord]
    exact ⟨by omega, hi, fun k h₁ h₂ => absurd h₁ (by omega), fun h => absurd h (by omega)⟩
  | succ fuel ih =>
    simp only [allocFindWord]
    by_cases h : i < s.physSize ∧ s.physMap i = 0xFFFFFFFFFFFFFFFF#64
    · rw [if_pos h]
      obtain ⟨h₁, h₂, h₃, h₄⟩ := ih (i + 1) (by omega) (by omega)
      refine ⟨by omega, h₂, ?_, h₄⟩
      intro k hik hk
      by_cases hki : k = i
      · rw [hki]
        exact h.2
      · exact h₃ k (by omega) hk
    · rw [if_neg h]
      exact ⟨le_refl i, hi, fun k h₁ h₂ => absurd h₁ (by omega), fun hlt hw => h ⟨hlt, hw⟩⟩

theorem allocFindBit_spec (v : BitVec 32) (fuel j : Nat) (hfuel : 32 ≤ j + fuel) (hj : j ≤ 32) :
    j ≤ allocFindBit v fuel j ∧ allocFindBit v fuel j ≤ 32 ∧
    (∀ l, j ≤ l → l < allocFindBit v fuel j → v.getLsbD l = true) ∧
    (allocFindBit v fuel j < 32 → v.getLsbD (allocFindBit v fuel j) = false) := by
  induction fuel generalizing j with
  | zero =>
    simp only [allocFindBit]
    exact ⟨by omega, hj, fun l h₁ h₂ => absurd h₁ (by omega), fun h => absurd h (by omega)⟩
  | succ fuel ih =>
    simp only [allocFindBit]
    by_cases h : j < 32 ∧ v ||| (1#32 <<< j) = v
    · rw [if_pos h]
      obtain ⟨h₁, h₂, h₃, h₄⟩ := ih (j + 1) (by omega) (by omega)
      refine ⟨by omega, h₂, ?_, h₄⟩
      intro l hjl hl
      by_cases hlj : l = j
      · rw [hlj]
        exact (or_bit_eq_iff v h.1).mp h.2
      · exact h₃ l (by omega) hl
    · rw [if_neg h]
      refine ⟨le_refl j, hj, fun l h₁ h₂ => absurd h₁ (by omega), fun hlt => ?_⟩
      rw [Bool.eq_false_iff]
      exact fun hbit => h ⟨hlt, (or_bit_eq_iff v hlt).mpr hbit⟩

/-- In a word that is not all ones the two halves yield its first clear bit. -/
theorem allocFindHalf_spec {w : BitVec 64} (hw : w ≠ 0xFFFFFFFFFFFFFFFF#64) :
    (allocFindHalf w).1 < 2 ∧ (allocFindHalf w).2 < 32 ∧
    w.getLsbD ((allocFindHalf w).2 + (allocFindHalf w).1 * 32) = false ∧
    ∀ l, l < (allocFindHalf w).2 + (allocFindHalf w).1 * 32 → w.getLsbD l = true := by
  obtain ⟨-, hle₀, hset₀, hclear₀⟩ := allocFindBit_spec (physHalf w 0) 32 0 (by omega) (by omega)
  obtain ⟨-, hle₁, hset₁, hclear₁⟩ := allocFindBit_spec (physHalf w 1) 32 0 (by omega) (by omega)
  have hlow : ∀ l, l < allocFindBit (physHalf w 0) 32 0 → w.getLsbD l = true := by
    intro l hl
    have h := hset₀ l (Nat.zero_le l) hl
    rw [physHalf_getLsbD] at h
    simpa [show l < 32 by omega] using h
  have hhigh : ∀ l, 32 ≤ l → l < 32 + allocFindBit (physHalf w 1) 32 0 → w.getLsbD l = true := by
    intro l hl hlt
    have h := hset₁ (l - 32) (Nat.zero_le _) (by omega)
    rw [physHalf_getLsbD] at h
    simpa [show l - 32 < 32 by omega, show 32 + (l - 32) = l by omega] using h
  unfold allocFindHalf
  by_cases h0 : allocFindBit (physHalf w 0) 32 0 = 32
  · rw [if_neg (by simp [h0])]
    -- the lower half is full, and the upper one is not, or the word were all ones
    have hlt : allocFindBit (physHalf w 1) 32 0 < 32 := by
      by_contra h1
      apply hw
      apply BitVec.eq_of_getLsbD_eq
      intro l hl
      rw [show (0xFFFFFFFFFFFFFFFF#64) = BitVec.allOnes 64 from rfl, BitVec.getLsbD_allOnes,
        decide_eq_true hl]
      by_cases hl32 : l < 32
      · exact hlow l (by omega)
      · exact hhigh l (by omega) (by omega)
    refine ⟨by omega, hlt, ?_, ?_⟩
    · have h := hclear₁ hlt
      rw [physHalf_getLsbD] at h
      simpa [hlt, Nat.add_comm] using h
    · intro l hl
      by_cases hl32 : l < 32
      · exact hlow l (by omega)
      · exact hhigh l (by omega) (by omega)
  · rw [if_pos h0]
    have hlt : allocFindBit (physHalf w 0) 32 0 < 32 := by omega
    refine ⟨by omega, hlt, ?_, fun l hl => hlow l (by omega)⟩
    have h := hclear₀ hlt
    rw [physHalf_getLsbD] at h
    simpa [hlt] using h

/-- What `alloc_phys_page` does on a map of any size from four words on: 0 and no change
when no page is allocatable, else the first allocatable page, whose bit it sets. -/
theorem PhysMap.allocPhysPage_cases (s : PhysMap) (hge : 4 ≤ s.physSize) :
    ((∀ p, ¬ allocatable s p) ∧ s.allocPhysPage = (0, s)) ∨
    ∃ p s', allocatable s p ∧ (∀ q, q < p → ¬ allocatable s q) ∧
      s.allocPhysPage = (p * 2 ^ 12 % 2 ^ 64, s') ∧
      ∀ q, s'.used q = (s.used q || decide (q = p)) := by
  obtain ⟨h4, hsz, hfull, hstop⟩ := allocFindWord_spec s s.physSize 4 (by omega) (by omega)
  generalize hi : allocFindWord s s.physSize 4 = i at h4 hsz hfull hstop
  -- the words that are passed over have no clear bit
  have hskip : ∀ q, q < 64 * i → ¬ allocatable s q := by
    rintro q hq ⟨h256, -, hused⟩
    unfold PhysMap.used at hused
    rw [hfull (q / 64) (by omega) (by omega)] at hused
    rw [show (0xFFFFFFFFFFFFFFFF#64) = BitVec.allOnes 64 from rfl, BitVec.getLsbD_allOnes,
      decide_eq_true (Nat.mod_lt q (by omega))] at hused
    cases hused
  by_cases hend : i = s.physSize
  · left
    refine ⟨?_, by simp [PhysMap.allocPhysPage, hi, hend]⟩
    intro p hp
    exact hskip p (by have := hp.2.1; omega) hp
  · right
    obtain ⟨hk, hj, hclear, hset⟩ := allocFindHalf_spec (hstop (by omega))
    generalize hkj : allocFindHalf (s.physMap i) = kj at hk hj hclear hset
    have halloc : s.allocPhysPage = allocMark s i kj := by
      simp only [PhysMap.allocPhysPage, hi, hkj]
      rw [if_neg hend, if_neg (by omega)]
    refine ⟨64 * i + (kj.2 + kj.1 * 32), (allocMark s i kj).2, ⟨by omega, by omega, ?_⟩, ?_, halloc, ?_⟩
    · unfold PhysMap.used
      rw [show (64 * i + (kj.2 + kj.1 * 32)) / 64 = i by omega,
        show (64 * i + (kj.2 + kj.1 * 32)) % 64 = kj.2 + kj.1 * 32 by omega]
      exact hclear
    · intro q hq hal
      by_cases hword : q < 64 * i
      · exact hskip q hword hal
      · have h := hset (q % 64) (by omega)
        have hused := hal.2.2
        unfold PhysMap.used at hused
        rw [show q / 64 = i by omega, h] at hused
        cases hused
    · intro q
      simp only [allocMark]
      rw [PhysMap.setWord_used]
      by_cases hq : q / 64 = i
      · rw [if_pos hq, setPhysHalf_or_bit _ hk hj (Nat.mod_lt q (by omega))]
        unfold PhysMap.used
        rw [hq]
        simp only [show q % 64 = kj.2 + kj.1 * 32 ↔ q = 64 * i + (kj.2 + kj.1 * 32) by omega]
      · rw [if_neg hq]
        simp [show q ≠ 64 * i + (kj.2 + kj.1 * 32) by omega]

/-- What `alloc_phys_page` does with the map of the kernel. -/
theorem allocPhysPage_cases (s : PhysMem) :
    ((∀ p, ¬ allocatable s p) ∧ allocPhysPage s = (0, s)) ∨
    ∃ p s', allocatable s p ∧ (∀ q, q < p → ¬ allocatable s q) ∧
      allocPhysPage s = (p * 2 ^ 12, s') ∧ s'.physSize = s.physSize ∧
      ∀ q, s'.used q = (s.used q || decide (q = p)) := by
  have hge := s.size_ge
  have hle := s.size_le
  rcases s.toPhysMap.allocPhysPage_cases (by omega) with ⟨hnone, heq⟩ | ⟨p, t, hp, hleast, heq, hused⟩
  · left
    refine ⟨hnone, ?_⟩
    unfold allocPhysPage
    simp only [heq]
  · right
    have hlt := hp.2.1
    refine ⟨p, (allocPhysPage s).2, hp, hleast, Prod.ext ?_ rfl,
      s.toPhysMap.allocPhysPage_physSize, ?_⟩
    · show s.toPhysMap.allocPhysPage.1 = p * 2 ^ 12
      rw [heq]
      exact Nat.mod_eq_of_lt (by omega)
    · intro q
      show s.toPhysMap.allocPhysPage.2.used q = _
      rw [heq]
      exact hused q

/-- On every map of at least four words, read as bits or as halves of words,
`alloc_phys_page` returns the address of the page with the smallest clear bit from 256 on
and sets that bit and no other; when all of them are set it returns 0 and changes
nothing. The address is one of 64 bits, which the page number leaves only on a map of
more than `2 ^ 46` words. -/
theorem alloc_phys_page_lowest (s : PhysMap) (hge : 4 ≤ s.physSize) :
    ((∀ p, 256 ≤ p → p < 64 * s.physSize → s.used p = true) ∧ s.allocPhysPage = (0, s)) ∨
    ∃ m, IsLeast {p | 256 ≤ p ∧ p < 64 * s.physSize ∧ s.used p = false} m ∧
      s.allocPhysPage.1 = 4096 * m % 2 ^ 64 ∧
      (s.physSize ≤ 2 ^ 46 → 4096 * m % 2 ^ 64 = 4096 * m) ∧
      s.allocPhysPage.2.physSize = s.physSize ∧
      (∀ q, s.allocPhysPage.2.used q = (s.used q || decide (q = m))) ∧
      ∀ i k j, k < 2 → j < 32 → (physHalf (s.allocPhysPage.2.physMap i) k).getLsbD j =
        ((physHalf (s.physMap i) k).getLsbD j || decide (32 * (2 * i + k) + j = m)) := by
  rcases s.allocPhysPage_cases hge with ⟨hnone, heq⟩ | ⟨m, t, hm, hleast, heq, hused⟩
  · left
    refine ⟨fun p hp hlt => ?_, heq⟩
    by_contra hclear
    exact hnone p ⟨hp, hlt, by simpa using hclear⟩
  · right
    have hlt := hm.2.1
    have hhalf : ∀ (t : PhysMap) (i k j : Nat), k < 2 → j < 32 →
        (physHalf (t.physMap i) k).getLsbD j = t.used (32 * (2 * i + k) + j) := by
      intro t i k j hk hj
      rw [physHalf_getLsbD, decide_eq_true hj, Bool.true_and]
      unfold PhysMap.used
      rw [show (32 * (2 * i + k) + j) / 64 = i by omega,
        show (32 * (2 * i + k) + j) % 64 = 32 * k + j by omega]
    refine ⟨m, ⟨hm, fun q hq => ?_⟩, ?_, fun hsmall => Nat.mod_eq_of_lt (by omega),
      s.allocPhysPage_physSize, ?_, ?_⟩
    · by_contra hqm
      exact hleast q (by omega) hq
    · rw [heq, Nat.mul_comm 4096 m]
      rfl
    · rw [heq]
      exact hused
    · intro i k j hk hj
      rw [hhalf _ i k j hk hj, hhalf _ i k j hk hj, heq]
      exact hused _

/-- A map of five words whose last one has only its top bit clear. -/
def topBitMap : PhysMap := ⟨fun _ => 0x7FFFFFFFFFFFFFFF#64, 5⟩

/-- The clear bit is bit 31 of the second half. -/
theorem alloc_phys_page_lowest_top :
    ((∀ p, 256 ≤ p → p < 64 * 5 → topBitMap.used p = true) ∧
      topBitMap.allocPhysPage = (0, topBitMap)) ∨
    ∃ m, IsLeast {p | 256 ≤ p ∧ p < 64 * 5 ∧ topBitMap.used p = false} m ∧
      topBitMap.allocPhysPage.1 = 4096 * m % 2 ^ 64 ∧
      (5 ≤ 2 ^ 46 → 4096 * m % 2 ^ 64 = 4096 * m) ∧ topBitMap.allocPhysPage.2.physSize = 5 ∧
      (∀ q, topBitMap.allocPhysPage.2.used q = (topBitMap.used q || decide (q = m))) ∧
      ∀ i k j, k < 2 → j < 32 → (physHalf (topBitMap.allocPhysPage.2.physMap i) k).getLsbD j =
        ((physHalf (topBitMap.physMap i) k).getLsbD j || decide (32 * (2 * i + k) + j = m)) :=
  alloc_phys_page_lowest topBitMap (by decide)

/-! ## Freeing -/

/-- A free of page `p` clears the bit of `p` alone: below bit 31 the mask is right; at
bits 31 and 63 the sign of `1 << 31` also clears bits 31 to 63, which does no harm
when these are clear. -/
def freeMeets (s : PhysMem) (p : Nat) : Prop :=
  p % 64 < 31 ∨ (p % 32 = 31 ∧
    ∀ i, i < 64 → 31 ≤ i → i ≠ p % 64 → (s.physMap (p / 64)).getLsbD i = false)

instance (s : PhysMem) (p : Nat) : Decidable (freeMeets s p) :=
  inferInstanceAs (Decidable (_ ∨ (_ ∧ _)))

/-- A free of `page` makes that page allocatable and no other. -/
def freeExact (s : PhysMem) (page : Nat) : Prop :=
  ∀ q, allocatable (freePhysPage s page) q ↔ allocatable s q ∨ q = page / 2 ^ 12

@[simp] theorem freePhysPage_physSize (s : PhysMem) (page : Nat) :
    (freePhysPage s page).physSize = s.physSize := by
  unfold freePhysPage
  by_cases h : page = 0
  · rw [if_pos h]
  · rw [if_neg h]
    exact setWord_physSize _ _ _

/-- The bits after a free: within the word of `p`, those the mask leaves. -/
theorem freePhysPage_used (s : PhysMem) {p : Nat} (hp : 0 < p) (q : Nat) :
    (freePhysPage s (p * 2 ^ 12)).used q =
      (s.used q && (decide (q / 64 ≠ p / 64) ||
        if p % 32 = 31 then decide (q % 64 < 31) else decide (q % 64 ≠ p % 32))) := by
  unfold freePhysPage
  rw [if_neg (by omega), Nat.mul_div_cancel p (by omega)]
  rw [setWord_used]
  by_cases hq : q / 64 = p / 64
  · rw [if_pos hq, BitVec.getLsbD_and, freeMask_getLsbD (Nat.mod_lt q (by omega)),
      show p % 64 % 32 = p % 32 by omega]
    simp [PhysMap.used, hq]
  · rw [if_neg hq]
    simp [hq]

/-- A free of a page in use is right exactly when `freeMeets` holds. -/
theorem freePhysPage_exact_iff (s : PhysMem) {p : Nat} (hp : 256 ≤ p) (hlt : p < 64 * s.physSize)
    (hused : s.used p = true) : freeExact s (p * 2 ^ 12) ↔ freeMeets s p := by
  have hdiv : p * 2 ^ 12 / 2 ^ 12 = p := Nat.mul_div_cancel p (by omega)
  constructor
  · intro hex
    -- `p` is allocatable after the free, so the mask must clear its bit.
    have hself := (hex p).mpr (Or.inr hdiv.symm)
    have hclear := hself.2.2
    rw [freePhysPage_used s (by omega), hused] at hclear
    by_cases h31 : p % 32 = 31
    · refine Or.inr ⟨h31, ?_⟩
      intro i hi h31i hne
      by_contra hset
      have hused' : s.used (64 * (p / 64) + i) = true := by
        unfold PhysMap.used
        rw [show (64 * (p / 64) + i) / 64 = p / 64 by omega,
          show (64 * (p / 64) + i) % 64 = i by omega]
        simpa using hset
      have hal : allocatable (freePhysPage s (p * 2 ^ 12)) (64 * (p / 64) + i) := by
        refine ⟨by omega, by rw [freePhysPage_physSize]; omega, ?_⟩
        rw [freePhysPage_used s (by omega), if_pos h31,
          decide_eq_false (show ¬ (64 * (p / 64) + i) % 64 < 31 by omega),
          show (64 * (p / 64) + i) / 64 = p / 64 by omega]
        simp
      rcases (hex _).mp hal with hbefore | heq
      · rw [hbefore.2.2] at hused'
        cases hused'
      · omega
    · left
      simp [h31] at hclear
      omega
  · intro hmeets q
    rw [hdiv]
    unfold allocatable
    rw [freePhysPage_physSize, freePhysPage_used s (by omega)]
    by_cases hqp : q = p
    · subst hqp
      have hmask : (if q % 32 = 31 then decide (q % 64 < 31) else decide (q % 64 ≠ q % 32)) =
          false := by
        rcases hmeets with h | ⟨h, -⟩
        · rw [if_neg (by omega)]
          simp [show q % 64 = q % 32 by omega]
        · rw [if_pos h]
          simp
          omega
      rw [hmask]
      simp [hp, hlt]
    · simp only [hqp, or_false]
      by_cases hword : q / 64 = p / 64
      · rcases hmeets with h | ⟨h, hrest⟩
        · rw [if_neg (by omega)]
          simp [show q % 64 ≠ p % 32 by omega]
        · by_cases hlow : q % 64 < 31
          · simp [h, hlow]
          · have hq : s.used q = false := by
              unfold PhysMap.used
              rw [hword]
              exact hrest _ (Nat.mod_lt q (by omega)) (by omega) (by omega)
            simp [hq]
      · simp [hword]

/-! ## Runs -/

/-- The allocator between two calls, with the pages its clients hold and the pages
they have given back so far. -/
structure PhysState where
  mem : PhysMem
  held : List Nat
  freed : List Nat

/-- The state in which the allocator is handed over: the map as it was set up. -/
def physStart (init : PhysMem) : PhysState := ⟨init, [], []⟩

/-- A call of `alloc_phys_page`; a page it returns is held from then on. -/
def physAlloc (s : PhysState) : PhysState where
  mem := (allocPhysPage s.mem).2
  held := if (allocPhysPage s.mem).1 = 0 then s.held else (allocPhysPage s.mem).1 :: s.held
  freed := s.freed

/-- A call of `free_phys_page`. -/
def physFree (s : PhysState) (page : Nat) : PhysState where
  mem := freePhysPage s.mem page
  held := s.held.erase page
  freed := page :: s.freed

/-- The clients' calls: any allocation, and a free of a page that is held and for
which `ok` holds. -/
inductive PhysStep (ok : PhysMem → Nat → Prop) : PhysState → PhysState → Prop
  | alloc (s : PhysState) : PhysStep ok s (physAlloc s)
  | free (s : PhysState) (page : Nat) (hheld : page ∈ s.held) (hok : ok s.mem (page / 2 ^ 12)) :
      PhysStep ok s (physFree s page)

/-- No frame has two owners: the held pages are distinct, the next allocation returns
none of them, and it returns no page that was in use at the start unless that page
was freed since. -/
structure NoDoubleAlloc (init : PhysMem) (s : PhysState) : Prop where
  distinct : s.held.Nodup
  fresh : (allocPhysPage s.mem).1 ∉ s.held
  kept : (allocPhysPage s.mem).1 ≠ 0 → init.used ((allocPhysPage s.mem).1 / 2 ^ 12) = true →
    (allocPhysPage s.mem).1 ∈ s.freed

/-- The map stands for a pool of pages, those of `physSize` words. -/
structure PhysRep (size : Nat) (s : PhysState) (a : Pool Nat) : Prop where
  avail : ∀ p, p ∈ a.avail ↔ allocatable s.mem p
  held : s.held = a.held.map (· * 2 ^ 12)
  size_eq : s.mem.physSize = size

theorem mul_page_injective : Function.Injective fun p : Nat => p * 2 ^ 12 := by
  intro p q h
  exact Nat.eq_of_mul_eq_mul_right (by omega) h

/-- An allocation takes a page from the pool, or finds it empty. -/
theorem physAlloc_rep {size : Nat} {s : PhysState} {a : Pool Nat} (h : PhysRep size s a) :
    ∃ a', PhysRep size (physAlloc s) a' ∧ Relation.ReflTransGen PoolStep a a' := by
  unfold physAlloc
  rcases allocPhysPage_cases s.mem with ⟨-, heq⟩ | ⟨p, m, hp, -, heq, hsize, hused⟩
  · rw [heq]
    exact ⟨a, h, .refl⟩
  · refine ⟨_, ?_, .single (.take a p ((h.avail p).mpr hp))⟩
    have hne : p * 2 ^ 12 ≠ 0 := by
      have := hp.1
      omega
    rw [heq, if_neg hne]
    refine ⟨?_, by simp [h.held], hsize.trans h.size_eq⟩
    intro q
    have hq := h.avail q
    simp only [Set.mem_sdiff, Set.mem_singleton_iff, hq, allocatable, hsize, hused]
    by_cases hqp : q = p
    · simp [hqp]
    · simp [hqp]

/-- A free that meets its condition gives the page back to the pool. -/
theorem physFree_rep {size : Nat} {s : PhysState} {a : Pool Nat} (h : PhysRep size s a) {p : Nat}
    (hheld : p ∈ a.held) (hexact : freeExact s.mem (p * 2 ^ 12)) :
    ∃ a', PhysRep size (physFree s (p * 2 ^ 12)) a' ∧ Relation.ReflTransGen PoolStep a a' := by
  refine ⟨_, ?_, .single (.give a p hheld)⟩
  unfold physFree
  refine ⟨?_, ?_, ?_⟩
  · intro q
    rw [hexact q, Nat.mul_div_cancel p (by omega), Set.mem_insert_iff, h.avail q]
    exact or_comm
  · rw [h.held, List.map_erase mul_page_injective]
  · exact (freePhysPage_physSize _ _).trans h.size_eq

/-- In a pool of the allocatable pages of `init`, a held page is a page of the map in use. -/
theorem PhysRep.held_used {init : PhysMem} {s : PhysState} {a : Pool Nat}
    (h : PhysRep init.physSize s a) (hpool : PoolInv {p | allocatable init p} a) {p : Nat}
    (hp : p ∈ a.held) : 256 ≤ p ∧ p < 64 * s.mem.physSize ∧ s.mem.used p = true := by
  obtain ⟨h256, hlt, -⟩ := (hpool.units p).mp (Or.inr hp)
  refine ⟨h256, by rw [h.size_eq]; exact hlt, ?_⟩
  by_contra hclear
  apply hpool.held_unavail p hp
  exact (h.avail p).mpr ⟨h256, by rw [h.size_eq]; exact hlt, by simpa using hclear⟩

/-- Every run whose frees meet their condition is a run of the pool of pages that the
map offers at the start. -/
theorem physRun_rep {init : PhysMem} {s : PhysState}
    (hrun : Relation.ReflTransGen (PhysStep freeMeets) (physStart init) s) :
    ∃ a, PhysRep init.physSize s a ∧ PoolInv {p | allocatable init p} a := by
  have hstart : PhysRep init.physSize (physStart init) ⟨{p | allocatable init p}, []⟩ :=
    ⟨fun _ => Iff.rfl, rfl, rfl⟩
  have hsim : ∀ s s' a,
      (PhysRep init.physSize s a ∧ PoolInv {p | allocatable init p} a) → PhysStep freeMeets s s' →
      ∃ a', (PhysRep init.physSize s' a' ∧ PoolInv {p | allocatable init p} a') ∧
        Relation.ReflTransGen PoolStep a a' := by
    rintro s s' a ⟨hrep, hpool⟩ hstep
    have hkeep : ∀ {t}, (∃ a', PhysRep init.physSize t a' ∧ Relation.ReflTransGen PoolStep a a') →
        ∃ a', (PhysRep init.physSize t a' ∧ PoolInv {p | allocatable init p} a') ∧
          Relation.ReflTransGen PoolStep a a' := by
      intro t ⟨a', hrep', hsteps⟩
      exact ⟨a', ⟨hrep', poolRun_inv hpool hsteps⟩, hsteps⟩
    cases hstep with
    | alloc => exact hkeep (physAlloc_rep hrep)
    | free page hheld hok =>
      rw [hrep.held] at hheld
      obtain ⟨p, hp, hpage⟩ := List.mem_map.mp hheld
      subst hpage
      obtain ⟨h256, hlt, hused⟩ := hrep.held_used hpool hp
      rw [Nat.mul_div_cancel p (by omega)] at hok
      exact hkeep (physFree_rep hrep hp
        ((freePhysPage_exact_iff s.mem h256 hlt hused).mpr hok))
  obtain ⟨a, h, -⟩ := run_simulation _ hsim hrun ⟨hstart, poolInv_start _⟩
  exact ⟨a, h⟩

/-- In every run whose frees all meet `freeMeets`, no frame has two owners; and a free
of a held page is exact there just when it meets `freeMeets` too. -/
theorem phys_no_double_alloc {init : PhysMem} {s : PhysState}
    (hrun : Relation.ReflTransGen (PhysStep freeMeets) (physStart init) s) :
    NoDoubleAlloc init s ∧
    ∀ page ∈ s.held, (freeExact s.mem page ↔ freeMeets s.mem (page / 2 ^ 12)) := by
  obtain ⟨a, hrep, hpool⟩ := physRun_rep hrun
  have hbound : ∀ p ∈ a.held, 256 ≤ p := fun p hp => (hrep.held_used hpool hp).1
  refine ⟨⟨?_, ?_, ?_⟩, ?_⟩
  · rw [hrep.held]
    exact List.Nodup.map mul_page_injective hpool.distinct
  · intro hmem
    rw [hrep.held] at hmem
    obtain ⟨q, hq, hqeq⟩ := List.mem_map.mp hmem
    rcases allocPhysPage_cases s.mem with ⟨-, heq⟩ | ⟨p, m, hp, -, heq, -, -⟩
    · rw [heq] at hqeq
      have := hbound q hq
      simp only at hqeq
      omega
    · rw [heq] at hqeq
      have hqp : q = p := mul_page_injective hqeq
      exact hpool.held_unavail q hq ((hrep.avail q).mpr (hqp ▸ hp))
  · intro hne hinit
    exfalso
    rcases allocPhysPage_cases s.mem with ⟨-, heq⟩ | ⟨p, m, hp, -, heq, -, -⟩
    · rw [heq] at hne
      exact hne rfl
    · rw [heq, Nat.mul_div_cancel p (by omega)] at hinit
      have hstart : allocatable init p := (hpool.units p).mp (Or.inl ((hrep.avail p).mpr hp))
      rw [hstart.2.2] at hinit
      cases hinit
  · intro page hpage
    rw [hrep.held] at hpage
    obtain ⟨p, hp, heq⟩ := List.mem_map.mp hpage
    subst heq
    obtain ⟨h256, hlt, hused⟩ := hrep.held_used hpool hp
    rw [Nat.mul_div_cancel p (by omega)]
    exact freePhysPage_exact_iff s.mem h256 hlt hused

/-! ## The failing free -/

theorem physAlloc_run (ok : PhysMem → Nat → Prop) (s : PhysState) (n : Nat) :
    Relation.ReflTransGen (PhysStep ok) s (physAlloc^[n] s) := by
  induction n with
  | zero => exact .refl
  | succ n ih =>
    rw [Function.iterate_succ_apply']
    exact ih.tail (.alloc _)

theorem smallMap_ge : 8 ≤ 8 := Nat.le_refl 8

theorem smallMap_le : 8 ≤ 2 ^ 34 := by decide

/-- A map of 2 MiB as `phys_init` leaves it, the second 256 KiB of the second MiB free. -/
def bootMap : PhysMem where
  physMap := fun i => if i = 5 then 0 else 0xFFFFFFFFFFFFFFFF#64
  physSize := 8
  size_ge := smallMap_ge
  size_le := smallMap_le

/-- A page is allocated and freed again. -/
theorem phys_no_double_alloc_boot :
    NoDoubleAlloc bootMap (physFree (physAlloc (physStart bootMap)) 0x140000) ∧
    ∀ page ∈ (physFree (physAlloc (physStart bootMap)) 0x140000).held,
      (freeExact (physFree (physAlloc (physStart bootMap)) 0x140000).mem page ↔
        freeMeets (physFree (physAlloc (physStart bootMap)) 0x140000).mem (page / 2 ^ 12)) :=
  phys_no_double_alloc
    (((Relation.ReflTransGen.refl).tail (.alloc _)).tail (.free _ _ (by decide) (by decide)))

/-- Thirty-three pages are allocated, the thirty-second is freed and allocated again. -/
def twoOwners : PhysState :=
  physAlloc (physFree (physAlloc^[33] (physStart bootMap)) 0x15F000)

/-- The free of page `0x15F` also cleared the bit of page `0x160`, which is still held
and is returned next. -/
theorem phys_page_two_owners :
    Relation.ReflTransGen (PhysStep fun _ _ => True) (physStart bootMap) twoOwners ∧
    0x160000 ∈ twoOwners.held ∧ (allocPhysPage twoOwners.mem).1 = 0x160000 ∧
    ¬ NoDoubleAlloc bootMap twoOwners := by
  have hheld : 0x160000 ∈ twoOwners.held := by decide +kernel
  have halloc : (allocPhysPage twoOwners.mem).1 = 0x160000 := by decide +kernel
  refine ⟨?_, hheld, halloc, ?_⟩
  · have hfree : 0x15F000 ∈ (physAlloc^[33] (physStart bootMap)).held := by decide +kernel
    exact ((physAlloc_run _ _ 33).tail (.free _ _ hfree trivial)).tail (.alloc _)
  · intro h
    apply h.fresh
    rw [halloc]
    exact hheld

end OS64.Mm
