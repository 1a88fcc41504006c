import OS64.Lib.Bits
import OS64.X86.Gdt

/-!
# Segment descriptors

A descriptor is a base of 32 bits, a limit of 20 and twelve attributes, which the processor wants
scattered over one quadword. `SegDescriptor.ofWord` reads it back by that layout; `toWord` puts it
together, and the two are inverse to each other.

`GDT_smartput` does with masks and shifts what `toWord` does (`gdtData_eq_toWord`), so what is read
back from its slots is what it was asked for (`gdt_smartput_decodes`). The upper half of a base
goes into the following slot where the flags have `SEG_TSS64`.
-/

namespace OS64.X86

open OS64.Lib

/-! ## The layout -/

/-- A segment descriptor. `access` holds the type, `S`, the privilege level and `P`, `attrs` holds
`AVL`, `L`, `D/B` and `G`. -/
@[ext] structure SegDescriptor where
  base : BitVec 32
  limit : BitVec 20
  access : BitVec 8
  attrs : BitVec 4

namespace SegDescriptor

/-- What the processor finds in a quadword. -/
def ofWord (w : BitVec 64) : SegDescriptor where
  base := w.extractLsb' 56 8 ++ w.extractLsb' 32 8 ++ w.extractLsb' 16 16
  limit := w.extractLsb' 48 4 ++ w.extractLsb' 0 16
  access := w.extractLsb' 40 8
  attrs := w.extractLsb' 52 4

/-- The quadword of a descriptor. -/
def toWord (d : SegDescriptor) : BitVec 64 :=
  d.base.extractLsb' 24 8 ++ d.attrs ++ d.limit.extractLsb' 16 4 ++ d.access ++
    d.base.extractLsb' 16 8 ++ d.base.extractLsb' 0 16 ++ d.limit.extractLsb' 0 16

/-- `G`: the limit counts pages. -/
def granular (d : SegDescriptor) : Bool := d.attrs.getLsbD 3

/-- The last byte of the segment, from its base on. -/
def byteLimit (d : SegDescriptor) : BitVec 64 :=
  if d.granular then (d.limit.setWidth 64 <<< 12) ||| 0xFFF else d.limit.setWidth 64

/-- The attributes but `G`, in the places that the `SEG_` flags have. -/
def flags (d : SegDescriptor) : BitVec 64 :=
  (d.access.setWidth 64 <<< 8) ||| ((d.attrs.extractLsb' 0 3).setWidth 64 <<< 20)

theorem toWord_ofWord (w : BitVec 64) : (ofWord w).toWord = w := by
  apply BitVec.eq_of_getLsbD_eq
  intro i hi
  simp only [toWord, ofWord, BitVec.getLsbD_append, BitVec.getLsbD_extractLsb']
  grind

/-- Where each bit of the quadword comes from. -/
theorem toWord_bit (d : SegDescriptor) (i : Nat) : d.toWord.getLsbD i =
    if i < 16 then d.limit.getLsbD i
    else if i < 40 then d.base.getLsbD (i - 16)
    else if i < 48 then d.access.getLsbD (i - 40)
    else if i < 52 then d.limit.getLsbD (i - 32)
    else if i < 56 then d.attrs.getLsbD (i - 52)
    else d.base.getLsbD (i - 32) := by
  simp only [toWord, BitVec.getLsbD_append, BitVec.getLsbD_extractLsb']
  grind

theorem ofWord_toWord (d : SegDescriptor) : ofWord d.toWord = d := by
  ext1
  · apply BitVec.eq_of_getLsbD_eq
    intro i hi
    simp only [ofWord, BitVec.getLsbD_append, BitVec.getLsbD_extractLsb', toWord_bit]
    grind
  · apply BitVec.eq_of_getLsbD_eq
    intro i hi
    simp only [ofWord, BitVec.getLsbD_append, BitVec.getLsbD_extractLsb', toWord_bit]
    grind
  · apply BitVec.eq_of_getLsbD_eq
    intro i hi
    simp only [ofWord, BitVec.getLsbD_extractLsb', toWord_bit]
    grind
  · apply BitVec.eq_of_getLsbD_eq
    intro i hi
    simp only [ofWord, BitVec.getLsbD_extractLsb', toWord_bit]
    grind

end SegDescriptor

/-! ## What `GDT_smartput` is asked for -/

/-- The descriptor of a segment: the lower half of its base, its limit in bytes or in pages, and its
attributes, with `G` set where the limit is in pages. -/
def segRequested (base limit flags : BitVec 64) : SegDescriptor where
  base := base.setWidth 32
  limit := if limit > 0x000FFFFF then limit.extractLsb' 12 20 else limit.setWidth 20
  access := flags.extractLsb' 8 8
  attrs := flags.extractLsb' 20 4 ||| if limit > 0x000FFFFF then 8 else 0

/-- The attribute bits of the `SEG_` flags but `SEG_BIG`. -/
def segMask : BitVec 64 := 0x0070FF00

section Smartput

variable {base limit flags : BitVec 64}

/-- The quadword that is put together from a limit of 20 bits and attributes. -/
theorem ofWord_fields (hflags : flags &&& 0x00F0FF00 = flags) :
    SegDescriptor.ofWord ((limit &&& 0x0000FFFF#64) ||| ((base <<< 16) &&& 0xFFFF0000#64) |||
      ((((base >>> 16) &&& 0x000000FF#64) ||| (base &&& 0xFF000000#64) |||
        (limit &&& 0x000F0000#64) ||| flags) <<< 32)) =
      ⟨base.setWidth 32, limit.setWidth 20, flags.extractLsb' 8 8, flags.extractLsb' 20 4⟩ := by
  -- the flags have nothing where the base and the limit go
  have hmid : flags.extractLsb' 0 8 = 0#8 := extract_of_masked hflags (by decide)
  have hlim : flags.extractLsb' 16 4 = 0#4 := extract_of_masked hflags (by decide)
  have hbase : flags.extractLsb' 24 8 = 0#8 := extract_of_masked hflags (by decide)
  ext1 <;> simp (disch := first | omega | decide) only [SegDescriptor.ofWord,
    BitVec.extractLsb'_or, extract_and_ones, extract_and_zero, extract_shiftLeft,
    extract_shiftLeft_low, extract_shiftRight, Nat.sub_self, Nat.add_zero, Nat.reduceSub,
    Nat.reduceAdd, BitVec.or_zero, BitVec.zero_or, hmid, hlim, hbase]
  · rw [BitVec.extractLsb'_append_extractLsb'_eq_extractLsb' (show 24 = 16 + 8 from rfl),
      BitVec.extractLsb'_append_extractLsb'_eq_extractLsb' (show 16 = 0 + 16 from rfl)]
    exact (BitVec.setWidth_eq_extractLsb' (by omega)).symm
  · rw [BitVec.extractLsb'_append_extractLsb'_eq_extractLsb' (show 16 = 0 + 16 from rfl)]
    exact (BitVec.setWidth_eq_extractLsb' (by omega)).symm

/-- Read back, the first slot is what was asked for. -/
theorem ofWord_gdtData (hflags : flags &&& segMask = flags) :
    SegDescriptor.ofWord (gdtData base limit flags) = segRequested base limit flags := by
  have hmask : flags &&& 0x00F0FF00 = flags := by
    rw [← hflags, BitVec.and_assoc]
    rfl
  by_cases hp : limit > 0x000FFFFF
  · have hbig : (flags ||| segBig) &&& 0x00F0FF00 = flags ||| segBig := by
      rw [BitVec.and_or_distrib_right, hmask]
      rfl
    have hword := @ofWord_fields base (limit >>> 12) (flags ||| segBig) hbig
    have haccess : segBig.extractLsb' 8 8 = 0#8 := by decide
    have hattrs : segBig.extractLsb' 20 4 = 8#4 := by decide
    refine Eq.trans (congrArg SegDescriptor.ofWord ?_) (hword.trans ?_)
    · unfold gdtData
      rw [if_pos hp, if_pos hp]
      rfl
    · unfold segRequested
      rw [if_pos hp, if_pos hp, BitVec.setWidth_ushiftRight_eq_extractLsb, BitVec.extractLsb'_or,
        BitVec.extractLsb'_or, haccess, hattrs, BitVec.or_zero]
      rfl
  · have hword := @ofWord_fields base limit flags hmask
    refine Eq.trans (congrArg SegDescriptor.ofWord ?_) (hword.trans ?_)
    · unfold gdtData
      rw [if_neg hp, if_neg hp]
      rfl
    · unfold segRequested
      rw [if_neg hp, if_neg hp]
      exact congrArg _ BitVec.or_zero.symm

/-- The masks and shifts put together the quadword of the descriptor. -/
theorem gdtData_eq_toWord (hflags : flags &&& segMask = flags) :
    gdtData base limit flags = (segRequested base limit flags).toWord := by
  rw [← ofWord_gdtData hflags, SegDescriptor.toWord_ofWord]

/-- What the slots of `GDT_smartput` hold afterwards, read by the layout. -/
structure Decodes (g g' : Gdt) (seg : Nat) (base limit flags : BitVec 64) : Prop where
  low : (SegDescriptor.ofWord (g'.word seg)).base = base.setWidth 32
  high : flags &&& segTss64 = segTss64 →
    (g'.word (seg + 1)).setWidth 32 ++ (SegDescriptor.ofWord (g'.word seg)).base = base
  attributes : (SegDescriptor.ofWord (g'.word seg)).flags = flags
  bytes : limit.toNat ≤ 0xFFFFF → (SegDescriptor.ofWord (g'.word seg)).granular = false ∧
    (SegDescriptor.ofWord (g'.word seg)).limit.setWidth 64 = limit
  pages : 0xFFFFF < limit.toNat → (SegDescriptor.ofWord (g'.word seg)).granular = true ∧
    (SegDescriptor.ofWord (g'.word seg)).byteLimit = limit ||| 0xFFF
  others : ∀ i, i ≠ seg → ¬ (flags &&& segTss64 = segTss64 ∧ i = seg + 1) → g'.word i = g.word i

theorem gdtSmartput_seg (g : Gdt) (seg : Nat) (base limit flags : BitVec 64) :
    (gdtSmartput g seg base limit flags).word seg = gdtData base limit flags := by
  unfold gdtSmartput
  split
  · simp [gdtPut]
  · simp [gdtPut]

theorem gdtSmartput_next {g : Gdt} {seg : Nat} (h : flags &&& segTss64 = segTss64) :
    (gdtSmartput g seg base limit flags).word (seg + 1) = base >>> 32 := by
  unfold gdtSmartput
  rw [if_pos h]
  exact if_pos rfl

theorem gdtSmartput_others {g : Gdt} {seg i : Nat} (hi : i ≠ seg)
    (hnext : ¬ (flags &&& segTss64 = segTss64 ∧ i = seg + 1)) :
    (gdtSmartput g seg base limit flags).word i = g.word i := by
  unfold gdtSmartput
  by_cases h : flags &&& segTss64 = segTss64
  · have hne : i ≠ seg + 1 := fun hi => hnext ⟨h, hi⟩
    simp [if_pos h, gdtPut, hi, hne]
  · simp [if_neg h, gdtPut, hi]

/-- A bit of the attributes is one of their mask. -/
theorem segMask_bit (hflags : flags &&& segMask = flags) {i : Nat} (hi : flags.getLsbD i = true) :
    8 ≤ i ∧ i < 16 ∨ 20 ≤ i ∧ i < 23 := by
  have hmask : ∀ j < 64, segMask.getLsbD j = true → 8 ≤ j ∧ j < 16 ∨ 20 ≤ j ∧ j < 23 := by decide
  rw [← hflags, BitVec.getLsbD_and, Bool.and_eq_true] at hi
  exact hmask i (BitVec.lt_of_getLsbD hi.2) hi.2

/-- The attributes as they were given. -/
theorem requested_flags (hflags : flags &&& segMask = flags) :
    (segRequested base limit flags).flags = flags := by
  have hbig : ∀ j < 3, (if limit > 0x000FFFFF then (8 : BitVec 4) else 0).getLsbD j = false := by
    intro j hj
    split
    · exact (show ∀ j < 3, (8 : BitVec 4).getLsbD j = false by decide) j hj
    · simp
  apply BitVec.eq_of_getLsbD_eq
  intro i hi
  have hmask := @segMask_bit flags hflags i
  simp only [segRequested, SegDescriptor.flags, BitVec.getLsbD_or, BitVec.getLsbD_shiftLeft,
    BitVec.getLsbD_setWidth, BitVec.getLsbD_extractLsb']
  grind

theorem requested_granular (hflags : flags &&& segMask = flags) :
    (segRequested base limit flags).granular = decide (limit > 0x000FFFFF) := by
  have hmask := @segMask_bit flags hflags 23
  have hbit : flags.getLsbD 23 = false := by
    cases h : flags.getLsbD 23 with
    | false => rfl
    | true => exact absurd (hmask h) (by omega)
  unfold SegDescriptor.granular segRequested
  rw [BitVec.getLsbD_or, BitVec.getLsbD_extractLsb', hbit]
  split
  · simpa using ‹limit > 0x000FFFFF›
  · simpa using ‹¬ limit > 0x000FFFFF›

/-- A limit in pages reaches to the end of its last page. -/
theorem page_limit (hlimit : limit.toNat < 2 ^ 32) :
    ((limit.extractLsb' 12 20).setWidth 64 <<< 12) ||| 0xFFF = limit ||| 0xFFF := by
  apply BitVec.eq_of_getLsbD_eq
  intro i hi
  have hhigh : 32 ≤ i → limit.getLsbD i = false := fun h =>
    Nat.testBit_lt_two_pow (Nat.lt_of_lt_of_le hlimit (Nat.pow_le_pow_right (by omega) h))
  have hlow : ∀ j < 12, (0xFFF : BitVec 64).getLsbD j = true := by decide
  simp only [BitVec.getLsbD_or, BitVec.getLsbD_shiftLeft, BitVec.getLsbD_setWidth,
    BitVec.getLsbD_extractLsb']
  grind

/-- `GDT_smartput` stores what it is asked for: for every base, limit, attributes and slot. -/
theorem gdt_smartput_decodes (g : Gdt) (seg : Nat) (base : BitVec 64) {limit flags : BitVec 64}
    (hlimit : limit.toNat < 2 ^ 32) (hflags : flags &&& segMask = flags) :
    Decodes g (gdtSmartput g seg base limit flags) seg base limit flags := by
  have hword : SegDescriptor.ofWord ((gdtSmartput g seg base limit flags).word seg) =
      segRequested base limit flags := by
    rw [gdtSmartput_seg, gdtData_eq_toWord hflags, SegDescriptor.ofWord_toWord]
  constructor
  · rw [hword]
    rfl
  · intro htss
    rw [hword, gdtSmartput_next htss, BitVec.setWidth_ushiftRight_eq_extractLsb]
    show base.extractLsb' 32 32 ++ base.setWidth 32 = base
    rw [BitVec.setWidth_eq_extractLsb' (by omega),
      BitVec.extractLsb'_append_extractLsb'_eq_extractLsb' (show 32 = 0 + 32 from rfl)]
    exact BitVec.extractLsb'_eq_self
  · rw [hword, requested_flags hflags]
  · intro hle
    have hnot : ¬ limit > 0x000FFFFF := fun hgt => absurd (show 0xFFFFF < limit.toNat from hgt) (by omega)
    rw [hword, requested_granular hflags]
    refine ⟨decide_eq_false hnot, BitVec.eq_of_toNat_eq ?_⟩
    unfold segRequested
    rw [if_neg hnot, BitVec.toNat_setWidth, BitVec.toNat_setWidth]
    omega
  · intro hgt
    have hpages : limit > 0x000FFFFF := hgt
    have hgran : (segRequested base limit flags).granular = true :=
      (requested_granular hflags).trans (decide_eq_true hpages)
    rw [hword]
    refine ⟨hgran, ?_⟩
    unfold SegDescriptor.byteLimit
    rw [if_pos hgran, segRequested, if_pos hpages]
    exact page_limit hlimit
  · exact fun i hi hnext => gdtSmartput_others hi hnext

end Smartput

/-- A task state segment with its limit in pages, in an empty table. -/
theorem gdt_smartput_decodes_tss :
    Decodes ⟨fun _ => 0, []⟩ (gdtSmartput ⟨fun _ => 0, []⟩ 5 0xFFFF80001234ABCD 0xFFFFFFFF
      (segPresent ||| segTss64 ||| segDpl3)) 5 0xFFFF80001234ABCD 0xFFFFFFFF
      (segPresent ||| segTss64 ||| segDpl3) :=
  gdt_smartput_decodes ⟨fun _ => 0, []⟩ 5 0xFFFF80001234ABCD (by decide) (by decide)

end OS64.X86
