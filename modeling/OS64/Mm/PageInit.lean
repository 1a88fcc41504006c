import OS64.Mm.PageTree

/-!
# The first address space

`page_init` builds the tree everything else hangs from: one table on each level,
`PML4[511]`, `PDP[511]` and `PD[0]` leading down to `kernel_pt`. A tree of that
shape has four tables and no more (`tableChain_walk`), whatever the lowest of them
maps.

The bounds on `last_phys_page` are those of `mem_init`, which masks the end of the
kernel with `0x0FFFF000` and adds a page; three more must lie below `2 ^ 28` for
the mask of `copy_page` to find `kernel_pt`.
-/

namespace OS64.Mm

open OS64.Lib

/-! ## A tree of one table a level -/

/-- The entries of `r` above the lowest level: each table has one present entry. -/
structure TableChain (s : PageState) (r pdp pd kpt : Frame) : Prop where
  pml4 : ∀ i, (s.mem r i).next = if i = 511 then some pdp else none
  pdp : ∀ i, (s.mem pdp i).next = if i = 511 then some pd else none
  pd : ∀ i, (s.mem pd i).next = if i = 0 then some kpt else none

variable {s : PageState} {r pdp pd kpt : Frame}

/-- Its tables, and the paths to them. -/
theorem tableChain_walk (h : TableChain s r pdp pd kpt) {p : List (BitVec 9)} {f : Frame}
    (hp : p.length ≤ 3) (hf : s.walk r p = some f) :
    (p = [] ∧ f = r) ∨ (p = [511] ∧ f = pdp) ∨ (p = [511, 511] ∧ f = pd) ∨
      (p = kernelPath ∧ f = kpt) := by
  unfold PageState.walk at hf
  rcases p with _ | ⟨i, p⟩
  · cases hf
    exact Or.inl ⟨rfl, rfl⟩
  rw [follow_cons, h.pml4] at hf
  by_cases hi : i = 511
  swap
  · rw [if_neg hi] at hf
    cases hf
  rw [if_pos hi, Option.bind_some] at hf
  rcases p with _ | ⟨j, p⟩
  · cases hf
    exact Or.inr (Or.inl ⟨by rw [hi], rfl⟩)
  rw [follow_cons, h.pdp] at hf
  by_cases hj : j = 511
  swap
  · rw [if_neg hj] at hf
    cases hf
  rw [if_pos hj, Option.bind_some] at hf
  rcases p with _ | ⟨k, p⟩
  · cases hf
    exact Or.inr (Or.inr (Or.inl ⟨by rw [hi, hj], rfl⟩))
  rw [follow_cons, h.pd] at hf
  by_cases hk : k = 0
  swap
  · rw [if_neg hk] at hf
    cases hf
  rw [if_pos hk, Option.bind_some] at hf
  rcases p with _ | ⟨l, p⟩
  · cases hf
    exact Or.inr (Or.inr (Or.inr ⟨by rw [hi, hj, hk]; rfl, rfl⟩))
  · simp only [List.length_cons] at hp
    omega

theorem tableChain_kernel (h : TableChain s r pdp pd kpt) : s.walk r kernelPath = some kpt := by
  show follow Pte.next s.mem r [511, 511, 0] = some kpt
  rw [follow_cons, h.pml4, if_pos rfl, Option.bind_some, follow_cons, h.pdp, if_pos rfl,
    Option.bind_some, follow_cons, h.pd, if_pos rfl]
  rfl

/-- Such a tree under `PML4`, of taken frames. -/
theorem tableChain_tree (h : TableChain s s.root pdp pd s.kptFrame)
    (hne : [s.root, pdp, pd, s.kptFrame].Nodup)
    (htaken : ∀ f ∈ [s.root, pdp, pd, s.kptFrame], ¬ s.free f) : PageTree s where
  tree := by
    simp only [List.nodup_cons, List.mem_cons, List.not_mem_nil, or_false, not_or] at hne
    obtain ⟨⟨h01, h02, h03⟩, ⟨h12, h13⟩, h23, -⟩ := hne
    intro p q f hp hq hpf hqf
    rcases tableChain_walk h hp hpf with ⟨rfl, rfl⟩ | ⟨rfl, rfl⟩ | ⟨rfl, rfl⟩ | ⟨rfl, rfl⟩ <;>
      rcases tableChain_walk h hq hqf with ⟨rfl, hh⟩ | ⟨rfl, hh⟩ | ⟨rfl, hh⟩ | ⟨rfl, hh⟩ <;>
      first
        | rfl
        | exact absurd hh (by assumption)
        | exact absurd hh.symm (by assumption)
  taken := by
    intro p f hp hf
    apply htaken
    rcases tableChain_walk h hp hf with ⟨-, rfl⟩ | ⟨-, rfl⟩ | ⟨-, rfl⟩ | ⟨-, rfl⟩ <;> simp
  kernel := tableChain_kernel h

/-! ## What `page_init` writes -/

/-- The identity entries stay in their table and the frames behind it. -/
theorem identityLoop_other (last g : Frame) (n i : Nat) (m : Frame → Page) (j : BitVec 9)
    (h : ∀ k, i ≤ k → k < i + n → ¬ (g = last + BitVec.ofNat 40 (k / 512) ∧ j = BitVec.ofNat 9 k)) :
    identityLoop last n i m g j = m g j := by
  induction n generalizing i m with
  | zero => rfl
  | succ n ih =>
    unfold identityLoop
    rw [ih (i + 1) _ fun k h₁ h₂ => h k (by omega) (by omega)]
    exact setEntry_other (h i (le_refl i) (by omega))

/-- `last_phys_page` as `mem_init` hands it over. -/
structure LastPage (last : BitVec 64) : Prop where
  aligned : last.toNat % 0x1000 = 0
  pos : 0x1000 ≤ last.toNat
  low : last.toNat + 0x4000 ≤ 2 ^ 28

theorem frameOf_toNat (a : BitVec 64) : (frameOf a).toNat = a.toNat / 0x1000 % 2 ^ 40 := by
  rw [frameOf, BitVec.extractLsb'_toNat, Nat.shiftRight_eq_div_pow]

namespace LastPage

variable {last : BitVec 64}

theorem frame (h : LastPage last) {a : Nat} (ha : a % 0x1000 = 0) (hlt : a ≤ 0x3000) :
    (frameOf (last + BitVec.ofNat 64 a)).toNat = (last.toNat + a) / 0x1000 := by
  have hal := h.aligned
  have hlow := h.low
  rw [frameOf_toNat, BitVec.toNat_add, BitVec.toNat_ofNat]
  omega

/-- The frames of the four tables follow one another. -/
theorem frames (h : LastPage last) :
    (frameOf (last + 0x1000#64)).toNat = (frameOf last).toNat + 1 ∧
    (frameOf (last + 0x2000#64)).toNat = (frameOf last).toNat + 2 ∧
    (frameOf (last + 0x3000#64)).toNat = (frameOf last).toNat + 3 ∧
    (frameOf last).toNat = last.toNat / 0x1000 := by
  have hal := h.aligned
  have hlow := h.low
  have h0 : (frameOf last).toNat = last.toNat / 0x1000 := by
    rw [frameOf_toNat]
    omega
  rw [h.frame (by decide) (by decide), h.frame (by decide) (by decide),
    h.frame (by decide) (by decide), h0]
  omega

/-- `kernel_pt & 0x0FFFFFFF` is the physical address again. -/
theorem mask (h : LastPage last) :
    ((last + 0x3000#64) ||| 0xFFFFFFFFC0000000#64) &&& 0x0FFFFFFF#64 = last + 0x3000#64 := by
  have hlow := h.low
  have hlt : (last + 0x3000#64).toNat < 2 ^ 28 := by
    rw [BitVec.toNat_add]
    show (last.toNat + 0x3000) % 2 ^ 64 < 2 ^ 28
    omega
  apply BitVec.eq_of_getLsbD_eq
  intro i hi
  rw [BitVec.getLsbD_and, BitVec.getLsbD_or]
  by_cases h28 : i < 28
  · have hconst : (0x0FFFFFFF#64).getLsbD i = true ∧ (0xFFFFFFFFC0000000#64).getLsbD i = false := by
      clear hi
      revert i
      decide +kernel
    rw [hconst.1, hconst.2, Bool.or_false, Bool.and_true]
  · have hconst : (0x0FFFFFFF#64).getLsbD i = false := by
      clear hlt hlow h
      revert i
      decide +kernel
    rw [hconst, Bool.and_false]
    symm
    rw [BitVec.getLsbD, Nat.testBit_lt_two_pow]
    exact Nat.lt_of_lt_of_le hlt (Nat.pow_le_pow_right (by omega) (by omega))

theorem nodup (h : LastPage last) :
    [frameOf last, frameOf (last + 0x1000#64), frameOf (last + 0x2000#64),
      frameOf (last + 0x3000#64)].Nodup := by
  obtain ⟨h1, h2, h3, -⟩ := h.frames
  generalize frameOf last = f0 at *
  generalize frameOf (last + 0x1000#64) = f1 at *
  generalize frameOf (last + 0x2000#64) = f2 at *
  generalize frameOf (last + 0x3000#64) = f3 at *
  simp only [List.nodup_cons, List.mem_cons, List.not_mem_nil, or_false, not_or, List.nodup_nil,
    and_true, not_false_eq_true, ← BitVec.toNat_inj]
  omega

/-- The identity entries are behind the three upper tables. -/
theorem identityLoop_upper (h : LastPage last) {f : Frame} (hf : f.toNat < (frameOf last).toNat + 3)
    (m : Frame → Page) :
    identityLoop (frameOf (last + 0x3000#64))
      ((last.toNat + 0x3000) / 0x1000 + 1 - 0xB8) 0xB8 m f = m f := by
  obtain ⟨-, -, h3, h0⟩ := h.frames
  have hlow := h.low
  funext j
  apply identityLoop_other
  rintro l hl hlt ⟨heq, -⟩
  have hnat := congrArg BitVec.toNat heq
  rw [BitVec.toNat_add, BitVec.toNat_ofNat, h3] at hnat
  omega

end LastPage

theorem tableOf_next (i : BitVec 9) (phys : BitVec 64) (j : BitVec 9) :
    (tableOf i (calcPage phys) j).next = if j = i then some (frameOf phys) else none := by
  unfold tableOf
  by_cases h : j = i
  · rw [if_pos h, if_pos h]
    exact Pte.next_pteOf phys (by decide)
  · rw [if_neg h, if_neg h, Pte.next_zero]

section

variable {last : BitVec 64}

theorem pageInit_root (last : BitVec 64) (s : PageState) : (pageInit last s).root = frameOf last := rfl

theorem pageInit_kptFrame (h : LastPage last) (s : PageState) :
    (pageInit last s).kptFrame = frameOf (last + 0x3000#64) := congrArg frameOf h.mask

theorem pageInit_mem (last : BitVec 64) (s : PageState) :
    (pageInit last s).mem =
      identityLoop (frameOf (last + 0x3000#64)) ((last.toNat + 0x3000) / 0x1000 + 1 - 0xB8) 0xB8
        (setPage (setPage (setPage (setPage s.mem
          (frameOf last) (tableOf 511 (calcPage (last + 0x1000#64))))
          (frameOf (last + 0x1000#64)) (tableOf 511 (calcPage (last + 0x2000#64))))
          (frameOf (last + 0x2000#64)) (tableOf 0 (calcPage (last + 0x3000#64))))
          (frameOf (last + 0x3000#64)) fun _ => 0) := by
  simp only [pageInit]

theorem pageInit_phys (last : BitVec 64) (s : PageState) : (pageInit last s).phys = s.phys := by
  cases s
  simp only [pageInit]

theorem pageInit_free (last : BitVec 64) (s : PageState) (f : Frame) :
    (pageInit last s).free f ↔ s.free f := by
  rw [PageState.free, PageState.free, pageInit_phys]

/-- The three upper tables: one entry each. -/
theorem pageInit_tables (h : LastPage last) (s : PageState) :
    (pageInit last s).mem (frameOf last) = tableOf 511 (calcPage (last + 0x1000#64)) ∧
    (pageInit last s).mem (frameOf (last + 0x1000#64)) = tableOf 511 (calcPage (last + 0x2000#64)) ∧
    (pageInit last s).mem (frameOf (last + 0x2000#64)) = tableOf 0 (calcPage (last + 0x3000#64)) := by
  obtain ⟨h1, h2, h3, -⟩ := h.frames
  have hne := h.nodup
  simp only [List.nodup_cons, List.mem_cons, List.not_mem_nil, or_false, not_or] at hne
  obtain ⟨⟨h01, h02, h03⟩, ⟨h12, h13⟩, h23, -⟩ := hne
  refine ⟨?_, ?_, ?_⟩
  · rw [pageInit_mem, h.identityLoop_upper (by omega), setPage_other h03, setPage_other h02,
      setPage_other h01, setPage_same]
  · rw [pageInit_mem, h.identityLoop_upper (by omega), setPage_other h13, setPage_other h12,
      setPage_same]
  · rw [pageInit_mem, h.identityLoop_upper (by omega), setPage_other h23, setPage_same]

/-- `page_init` builds a chain of four tables. -/
theorem pageInit_chain (h : LastPage last) (s : PageState) :
    TableChain (pageInit last s) (pageInit last s).root (frameOf (last + 0x1000#64))
      (frameOf (last + 0x2000#64)) (pageInit last s).kptFrame := by
  obtain ⟨hpml4, hpdp, hpd⟩ := pageInit_tables h s
  rw [pageInit_kptFrame h, pageInit_root]
  refine ⟨?_, ?_, ?_⟩
  · intro i
    rw [hpml4, tableOf_next]
  · intro i
    rw [hpdp, tableOf_next]
  · intro i
    rw [hpd, tableOf_next]

/-- The window is closed. -/
theorem pageInit_slot (h : LastPage last) (s : PageState) : (pageInit last s).slot = 0 := by
  obtain ⟨-, -, h3, h0⟩ := h.frames
  have hlow := h.low
  rw [PageState.slot, pageInit_kptFrame h, pageInit_mem, identityLoop_other, setPage_same]
  rintro k hk hlt ⟨heq, hidx⟩
  have hnat := congrArg BitVec.toNat heq
  have hzero := congrArg BitVec.toNat hidx
  rw [BitVec.toNat_add, BitVec.toNat_ofNat, h3] at hnat
  rw [BitVec.toNat_ofNat] at hzero
  have hz : (0 : BitVec 9).toNat = 0 := rfl
  omega

/-- The address space of `page_init` is a tree, where the bitmap keeps its four tables. -/
theorem pageInit_tree (h : LastPage last) (s : PageState)
    (htaken : ∀ f, (frameOf last).toNat ≤ f.toNat → f.toNat ≤ (frameOf last).toNat + 3 → ¬ s.free f) :
    PageTree (pageInit last s) := by
  obtain ⟨h1, h2, h3, -⟩ := h.frames
  apply tableChain_tree (pageInit_chain h s)
  · rw [pageInit_kptFrame h, pageInit_root]
    exact h.nodup
  · rw [pageInit_kptFrame h, pageInit_root]
    intro f hf
    simp only [List.mem_cons, List.not_mem_nil, or_false] at hf
    rw [pageInit_free]
    apply htaken f
    · rcases hf with rfl | rfl | rfl | rfl <;> omega
    · rcases hf with rfl | rfl | rfl | rfl <;> omega

end

/-! ## A small machine -/

/-- A bitmap of 512 pages, of which 256 to 319 are free. -/
def bootPhys : PhysMem where
  physMap i := if i = 4 then 0#64 else 0xFFFFFFFFFFFFFFFF#64
  physSize := 8
  size_ge := smallMap_ge
  size_le := smallMap_le

/-- `page_init` at 0x150000, in a memory whose frames all hold `junk`. -/
@[irreducible] def bootState (junk : Page) : PageState :=
  pageInit 0x150000#64 ⟨fun _ => junk, bootPhys, 0, 0, 0, 0, true⟩

theorem bootPhys_taken {p : Nat} (hp : p / 64 ≠ 4) : ¬ allocatable bootPhys p := by
  rintro ⟨-, -, hused⟩
  have hword : bootPhys.physMap (p / 64) = BitVec.allOnes 64 := if_neg hp
  rw [PhysMap.used, hword, BitVec.getLsbD_allOnes, decide_eq_true (Nat.mod_lt p (by omega))] at hused
  cases hused

theorem bootLast : LastPage 0x150000#64 := ⟨by decide, by decide, by decide⟩

theorem bootState_slot (junk : Page) : (bootState junk).slot = 0 := by
  unfold bootState
  exact pageInit_slot bootLast _

theorem bootState_tree (junk : Page) : PageTree (bootState junk) := by
  unfold bootState
  apply pageInit_tree bootLast
  intro f h₁ h₂
  have h0 : (frameOf 0x150000#64).toNat = 336 := by decide
  rw [h0] at h₁ h₂
  exact bootPhys_taken (by omega)

end OS64.Mm
