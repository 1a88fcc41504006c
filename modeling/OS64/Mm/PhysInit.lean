import OS64.Mm.Phys

/-!
# Filling the page bitmap (`phys_init` of `mm/phys.c`)

`phys_init` puts the bitmap behind the kernel, marks every page used and then clears
whole words of the map, 256 KiB each, for the entries of the bootloader's memory map
that tell of usable memory. The start of an entry is rounded down to a word; and the
entry at 1 MiB, where the kernel lies, gets a new base behind the kernel and keeps
its length, so that its end moves along.

Mirroring notes:
- The bitmap and the memory map are taken as data: the pages that `phys_init` mounts
  to get at them are left out.
- The loop over the bitmap's pages has one page for each 128 MiB, and only what it does
  to `*last` is kept.
- The memory in MiB is `(mem_upper >> 10) + 2` for a 32-bit `mem_upper`.
-/

namespace OS64.Mm

/-- `mmap_info_t`. -/
structure MmapInfo where
  baseAddr : BitVec 64
  length : BitVec 64
  type : BitVec 32

/-- A size of memory in MiB. -/
abbrev RamSize := {n : Nat // 2 ≤ n ∧ n ≤ 2 ^ 22 + 1}

/-- `for (; sz < size; sz += 128) *last += 0x1000`. -/
def physMapPages (size : Nat) : Nat → Nat → BitVec 64 → BitVec 64
  | 0, _, last => last
  | fuel + 1, sz, last =>
    if sz < size then physMapPages size fuel (sz + 128) (last + 0x1000) else last

/-- `for (; i < stop && i < phys_size; i++) phys_map[i] = w`. -/
def physFill (w : BitVec 64) (stop : Nat) : Nat → Nat → PhysMem → PhysMem
  | 0, _, s => s
  | fuel + 1, i, s =>
    if i < stop ∧ i < s.physSize then physFill w stop fuel (i + 1) (s.setWord i w) else s

/-- The base of an entry when its words are cleared. -/
def mmapBase (last : BitVec 64) (e : MmapInfo) : BitVec 64 :=
  if e.baseAddr = 0x100000 then ((last >>> 18) + 1) <<< 18 else e.baseAddr

/-- The body of the loop over the memory map. -/
def physEntry (last : BitVec 64) (s : PhysMem) (e : MmapInfo) : PhysMem :=
  if e.type = 1 then
    physFill 0 ((mmapBase last e + e.length) >>> 18).toNat s.physSize (mmapBase last e >>> 18).toNat s
  else s

/-- The map before the loop over the entries, all ones. -/
def physFull (size : RamSize) (map : Nat → BitVec 64) : PhysMem :=
  let s : PhysMem :=
    ⟨⟨map, size.1 * 4⟩, by have := size.2; dsimp only; omega, by have := size.2; dsimp only; omega⟩
  physFill 0xFFFFFFFFFFFFFFFF s.physSize s.physSize 0 s

/-- `phys_init`: `*last` and the map, `map` being what memory holds in its place. -/
def physInit (last : BitVec 64) (size : RamSize) (map : Nat → BitVec 64) (mmap : List MmapInfo) :
    BitVec 64 × PhysMem :=
  let last' := physMapPages size.1 size.1 0 last
  (last', mmap.foldl (physEntry last') (physFull size map))

/-! ## The loops -/

/-- The pages of the bitmap. -/
def bitmapPages (size : RamSize) : Nat := (size.1 + 127) / 128

theorem physMapPages_eq (size fuel sz : Nat) (last : BitVec 64) (hfuel : size ≤ sz + fuel) :
    physMapPages size fuel sz last = last + BitVec.ofNat 64 (0x1000 * ((size - sz + 127) / 128)) := by
  induction fuel generalizing sz last with
  | zero =>
    rw [physMapPages, show (size - sz + 127) / 128 = 0 by omega]
    simp
  | succ fuel ih =>
    rw [physMapPages]
    by_cases h : sz < size
    · have hstep : (size - sz + 127) / 128 = (size - (sz + 128) + 127) / 128 + 1 := by omega
      rw [if_pos h, ih _ _ (by omega), hstep, Nat.mul_add, BitVec.ofNat_add, BitVec.add_assoc,
        BitVec.add_comm (0x1000 : BitVec 64)]
      rfl
    · rw [if_neg h, show (size - sz + 127) / 128 = 0 by omega]
      simp

/-- `*last` moves behind the bitmap. -/
theorem physInit_last (last : BitVec 64) (size : RamSize) (map : Nat → BitVec 64)
    (mmap : List MmapInfo) :
    (physInit last size map mmap).1 = last + BitVec.ofNat 64 (0x1000 * bitmapPages size) :=
  physMapPages_eq size.1 size.1 0 last (by omega)

theorem physFill_physSize (w : BitVec 64) (stop fuel i : Nat) (s : PhysMem) :
    (physFill w stop fuel i s).physSize = s.physSize := by
  induction fuel generalizing i s with
  | zero => rfl
  | succ fuel ih =>
    rw [physFill]
    split
    · rw [ih, setWord_physSize]
    · rfl

/-- The words from `i` on get the value `w`, the others keep theirs. -/
theorem physFill_used (w : BitVec 64) (stop fuel i : Nat) (s : PhysMem)
    (hfuel : s.physSize ≤ i + fuel) (p : Nat) :
    (physFill w stop fuel i s).used p =
      if i ≤ p / 64 ∧ p / 64 < stop ∧ p / 64 < s.physSize then w.getLsbD (p % 64) else s.used p := by
  induction fuel generalizing i s with
  | zero =>
    rw [physFill, if_neg (by omega)]
  | succ fuel ih =>
    rw [physFill]
    by_cases h : i < stop ∧ i < s.physSize
    · rw [if_pos h, ih _ _ (by rw [setWord_physSize]; omega), setWord_physSize, setWord_used]
      by_cases hp : p / 64 = i
      · rw [if_neg (by omega), if_pos hp, if_pos (by omega)]
      · rw [if_neg hp]
        by_cases hin : i ≤ p / 64 ∧ p / 64 < stop ∧ p / 64 < s.physSize
        · rw [if_pos hin, if_pos (by omega)]
        · rw [if_neg hin, if_neg (by omega)]
    · rw [if_neg h, if_neg (by omega)]

/-- The first word an entry clears at or above 1 MiB. -/
def mmapFirst (last : BitVec 64) (e : MmapInfo) : Nat := max 4 ((mmapBase last e).toNat / 2 ^ 18)

/-- The word behind the last one it clears. -/
def mmapStop (last : BitVec 64) (size : RamSize) (e : MmapInfo) : Nat :=
  min (size.1 * 4) ((mmapBase last e + e.length).toNat / 2 ^ 18)

theorem physEntry_physSize (last : BitVec 64) (s : PhysMem) (e : MmapInfo) :
    (physEntry last s e).physSize = s.physSize := by
  unfold physEntry
  split
  · exact physFill_physSize ..
  · rfl

/-- What one entry makes of the bit of a page at or above 1 MiB. -/
theorem physEntry_used {last : BitVec 64} {size : RamSize} {s : PhysMem} (e : MmapInfo)
    (hs : s.physSize = size.1 * 4) {p : Nat} (hp : 256 ≤ p) :
    (physEntry last s e).used p = false ↔
      (e.type = 1 ∧ mmapFirst last e ≤ p / 64 ∧ p / 64 < mmapStop last size e) ∨
      s.used p = false := by
  have hlo : (mmapBase last e >>> 18).toNat = (mmapBase last e).toNat / 2 ^ 18 := by
    rw [BitVec.toNat_ushiftRight, Nat.shiftRight_eq_div_pow]
  have hhi : ((mmapBase last e + e.length) >>> 18).toNat =
      (mmapBase last e + e.length).toNat / 2 ^ 18 := by
    rw [BitVec.toNat_ushiftRight, Nat.shiftRight_eq_div_pow]
  unfold physEntry
  by_cases htype : e.type = 1
  · rw [if_pos htype, physFill_used _ _ _ _ _ (by omega), hlo, hhi, hs]
    unfold mmapFirst mmapStop
    generalize (mmapBase last e).toNat / 2 ^ 18 = lo
    generalize (mmapBase last e + e.length).toNat / 2 ^ 18 = hi
    by_cases hin : lo ≤ p / 64 ∧ p / 64 < hi ∧ p / 64 < size.1 * 4
    · rw [if_pos hin]
      simp only [BitVec.ofNat_eq_ofNat, BitVec.getLsbD_zero, true_iff]
      exact Or.inl ⟨htype, by omega, by omega⟩
    · rw [if_neg hin]
      constructor
      · exact Or.inr
      · rintro (⟨-, h⟩ | h)
        · omega
        · exact h
  · rw [if_neg htype]
    exact ⟨Or.inr, fun h => h.resolve_left fun hin => htype hin.1⟩

theorem foldl_physEntry_used {last : BitVec 64} {size : RamSize} (mmap : List MmapInfo)
    {s : PhysMem} (hs : s.physSize = size.1 * 4) {p : Nat} (hp : 256 ≤ p) :
    (mmap.foldl (physEntry last) s).used p = false ↔
      (∃ e ∈ mmap, e.type = 1 ∧ mmapFirst last e ≤ p / 64 ∧ p / 64 < mmapStop last size e) ∨
      s.used p = false := by
  induction mmap generalizing s with
  | nil => simp
  | cons e mmap ih =>
    rw [List.foldl_cons, ih ((physEntry_physSize last s e).trans hs), physEntry_used e hs hp]
    simp only [List.exists_mem_cons_iff]
    rw [or_left_comm, ← or_assoc]

/-- The pages offered are those of the words that some entry clears. -/
theorem physInit_used (last : BitVec 64) (size : RamSize) (map : Nat → BitVec 64)
    (mmap : List MmapInfo) {p : Nat} (hp : 256 ≤ p) (hlt : p < 64 * (size.1 * 4)) :
    (physInit last size map mmap).2.used p = false ↔
      ∃ e ∈ mmap, e.type = 1 ∧ mmapFirst (last + BitVec.ofNat 64 (0x1000 * bitmapPages size)) e ≤ p / 64 ∧
        p / 64 < mmapStop (last + BitVec.ofNat 64 (0x1000 * bitmapPages size)) size e := by
  have hlast := physInit_last last size map mmap
  have hsize : (physFull size map).physSize = size.1 * 4 := physFill_physSize ..
  have hfull : (physFull size map).used p = true := by
    have hword : p / 64 < size.1 * 4 := by omega
    unfold physFull
    simp only
    rw [physFill_used _ _ _ _ _ (by simp), if_pos ⟨Nat.zero_le _, hword, hword⟩,
      show (0xFFFFFFFFFFFFFFFF : BitVec 64) = BitVec.allOnes 64 from rfl, BitVec.getLsbD_allOnes,
      decide_eq_true (Nat.mod_lt p (by omega))]
  unfold physInit at hlast ⊢
  simp only at hlast ⊢
  rw [hlast, foldl_physEntry_used mmap hsize hp, hfull]
  simp

/-! ## What is offered -/

/-- Page `p` lies wholly inside the memory the entry tells of. -/
def MmapInfo.holds (e : MmapInfo) (p : Nat) : Prop :=
  e.baseAddr.toNat ≤ 4096 * p ∧ 4096 * (p + 1) ≤ e.baseAddr.toNat + e.length.toNat

/-- The end of the kernel, its page tables and the bitmap. -/
def kernelEnd (last : BitVec 64) (size : RamSize) : Nat := last.toNat + 0x1000 * bitmapPages size

/-- Every page at or above 1 MiB whose bit is clear is usable memory of some entry and
lies behind the kernel. -/
def offersRam (last : BitVec 64) (size : RamSize) (mmap : List MmapInfo) (s : PhysMem) : Prop :=
  ∀ p, 256 ≤ p → p < 64 * s.physSize → s.used p = false →
    (∃ e ∈ mmap, e.type = 1 ∧ e.holds p) ∧ kernelEnd last size ≤ 4096 * p

/-- A page of the words that the entry clears which sticks out: in front of the base that
was rounded down, or behind the end of the entry whose base was moved. -/
def sticksOut (e : MmapInfo) (p : Nat) : Prop :=
  if e.baseAddr = 0x100000 then 0x100000 + e.length.toNat < 4096 * (p + 1)
  else 4096 * p < e.baseAddr.toNat

/-- The words an entry of usable memory clears do no harm: they begin behind the kernel, and
their pages that stick out lie in other usable memory. -/
def mmapMeets (last : BitVec 64) (size : RamSize) (mmap : List MmapInfo) (e : MmapInfo) : Prop :=
  let last' := last + BitVec.ofNat 64 (0x1000 * bitmapPages size)
  mmapFirst last' e < mmapStop last' size e →
    kernelEnd last size ≤ 2 ^ 18 * mmapFirst last' e ∧
    ∀ p, 64 * mmapFirst last' e ≤ p → p < 64 * mmapStop last' size e → sticksOut e p →
      ∃ e' ∈ mmap, e'.type = 1 ∧ e'.holds p

/-- A page of the cleared words that does not stick out is in the entry. -/
theorem holds_of_not_sticksOut {last : BitVec 64} {size : RamSize} {e : MmapInfo} {p : Nat}
    (hp : 256 ≤ p) (hstop : p / 64 < mmapStop last size e) (h : ¬ sticksOut e p) : e.holds p := by
  unfold sticksOut at h
  unfold MmapInfo.holds
  by_cases hbase : e.baseAddr = 0x100000
  · rw [if_pos hbase] at h
    rw [hbase, show (0x100000 : BitVec 64).toNat = 0x100000 from rfl]
    omega
  · rw [if_neg hbase] at h
    have hend : (e.baseAddr + e.length).toNat ≤ e.baseAddr.toNat + e.length.toNat := by
      rw [BitVec.toNat_add]
      exact Nat.mod_le _ _
    unfold mmapStop at hstop
    rw [mmapBase, if_neg hbase] at hstop
    omega

/-- After `phys_init` only usable memory is offered just when every entry of usable memory
does no harm. -/
theorem phys_init_offers_ram_iff (last : BitVec 64) (size : RamSize) (map : Nat → BitVec 64)
    (mmap : List MmapInfo) :
    offersRam last size mmap (physInit last size map mmap).2 ↔
      ∀ e ∈ mmap, e.type = 1 → mmapMeets last size mmap e := by
  have hsize : (physInit last size map mmap).2.physSize = size.1 * 4 := by
    have hfold : ∀ (l : List MmapInfo) (b : BitVec 64) (s : PhysMem),
        (l.foldl (physEntry b) s).physSize = s.physSize := by
      intro l b
      induction l with
      | nil => exact fun s => rfl
      | cons e l ih => exact fun s => (ih _).trans (physEntry_physSize b s e)
    exact (hfold _ _ _).trans (physFill_physSize ..)
  have hused := fun p => physInit_used last size map mmap (p := p)
  unfold offersRam mmapMeets
  simp only [hsize]
  generalize last + BitVec.ofNat 64 (0x1000 * bitmapPages size) = last' at hused ⊢
  have hfirst : ∀ e, 4 ≤ mmapFirst last' e := fun e => Nat.le_max_left _ _
  have hstop : ∀ e, mmapStop last' size e ≤ size.1 * 4 := fun e => Nat.min_le_left _ _
  constructor
  · intro hoffers e he htype hlt
    have h4 := hfirst e
    have hend := hstop e
    have hclear : ∀ p, 64 * mmapFirst last' e ≤ p → p < 64 * mmapStop last' size e →
        (∃ e' ∈ mmap, e'.type = 1 ∧ e'.holds p) ∧ kernelEnd last size ≤ 4096 * p := by
      intro p hp hp'
      exact hoffers p (by omega) (by omega)
        ((hused p (by omega) (by omega)).mpr ⟨e, he, htype, by omega, by omega⟩)
    refine ⟨?_, fun p hp hp' _ => (hclear p hp hp').1⟩
    have hend' := (hclear (64 * mmapFirst last' e) (by omega) (by omega)).2
    omega
  · intro hmeets p hp hp' hclear
    obtain ⟨e, he, htype, hlo, hhi⟩ := (hused p hp hp').mp hclear
    obtain ⟨hkernel, hout⟩ := hmeets e he htype (by omega)
    refine ⟨?_, by omega⟩
    by_cases h : sticksOut e p
    · exact hout p (by omega) (by omega) h
    · exact ⟨e, he, htype, holds_of_not_sticksOut hp hhi h⟩

/-- On a machine of 8 MiB, with the kernel up to 1.5 MiB: memory from 1 MiB to 8 MiB. -/
def smallMap : List MmapInfo := [⟨0x100000, 0x700000, 1⟩]

/-- The page at 8 MiB is offered, where there is no memory. -/
theorem phys_init_offers_no_ram :
    (physInit 0x180000 ⟨9, by decide⟩ (fun _ => 0) smallMap).2.used 0x800 = false ∧
    ¬ offersRam 0x180000 ⟨9, by decide⟩ smallMap
      (physInit 0x180000 ⟨9, by decide⟩ (fun _ => 0) smallMap).2 := by
  have hclear : (physInit 0x180000 ⟨9, by decide⟩ (fun _ => 0) smallMap).2.used 0x800 = false := by
    rw [physInit_used _ _ _ _ (by decide) (by decide)]
    exact ⟨_, List.mem_singleton_self _, rfl, by decide, by decide⟩
  refine ⟨hclear, fun hoffers => ?_⟩
  obtain ⟨⟨e, he, -, hholds⟩, -⟩ := hoffers 0x800 (by decide) (by decide) hclear
  rw [smallMap, List.mem_singleton] at he
  subst he
  exact absurd hholds.2 (by decide)

end OS64.Mm
