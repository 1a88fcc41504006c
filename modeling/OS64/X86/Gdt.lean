import Mathlib.Tactic.ByContra
import Mathlib.Data.List.Basic

/-!
# The global descriptor table (`x86_64/gdt.c`)

`GDT_smartaput` takes the first slot that holds zero. A TSS descriptor has two slots, and
the second holds the upper half of the base: if that is zero the slot still looks free. The
search runs up to 8192 while the table has sixteen slots. `gdt_slots_iff` says which
sequences of `tss_init_cpu` stay clear of both.

Mirroring notes:
- `word i` is the quadword `i` behind `GDT_addr`; from the sixteenth on these are other
  variables of the kernel, of which nothing is known.
- `puts` records the slots that `GDT_put` has written, the last one first.
- `ltr` marks the descriptor that it loads as busy, which is the state a descriptor of an
  installed TSS is in.
- `GDT_load` does not touch the table.
-/

namespace OS64.X86

/-- `SEG_DPL3`. -/
def segDpl3 : BitVec 64 := 0x6000

/-- `SEG_NOTSYS`. -/
def segNotsys : BitVec 64 := 0x1000

/-- `SEG_PRESENT`. -/
def segPresent : BitVec 64 := 0x8000

/-- `SEG_CODE_EO`. -/
def segCodeEo : BitVec 64 := 0x800

/-- `SEG_64BIT_CODE`. -/
def seg64bitCode : BitVec 64 := 0x200000

/-- `SEG_TSS64`. -/
def segTss64 : BitVec 64 := 0x900

/-- `SEG_TSS64_BUSY`. -/
def segTss64Busy : BitVec 64 := 0xB00

/-- `SEG_DATA_RW`. -/
def segDataRw : BitVec 64 := 0x200

/-- `SEG_BIG`. -/
def segBig : BitVec 64 := 0x800000

/-- `sizeof(TSS64)`. -/
def sizeofTss64 : BitVec 64 := 104

/-- `GDT_addr` and the memory behind it. -/
structure Gdt where
  word : Nat → BitVec 64
  puts : List Nat

/-- `GDT_put`. -/
def gdtPut (g : Gdt) (seg : Nat) (data : BitVec 64) : Gdt where
  word := fun i => if i = seg then data else g.word i
  puts := seg :: g.puts

/-- The descriptor that `GDT_smartput` composes. -/
def gdtData (base limit flags : BitVec 64) : BitVec 64 :=
  let limit' := if limit > 0x000FFFFF then limit >>> 12 else limit
  let flags' := if limit > 0x000FFFFF then flags ||| segBig else flags
  (limit' &&& 0x0000FFFF) ||| ((base <<< 16) &&& 0xFFFF0000) |||
    ((((base >>> 16) &&& 0x000000FF) ||| (base &&& 0xFF000000) ||| (limit' &&& 0x000F0000) |||
      flags') <<< 32)

/-- `GDT_smartput`, which returns `seg`. -/
def gdtSmartput (g : Gdt) (seg : Nat) (base limit flags : BitVec 64) : Gdt :=
  let g₁ := gdtPut g seg (gdtData base limit flags)
  if flags &&& segTss64 = segTss64 then gdtPut g₁ (seg + 1) (base >>> 32) else g₁

/-- `for (; seg < 8192 && GDT_addr[seg] != 0; seg++)`. -/
def gdtSearch (g : Gdt) : Nat → Nat → Nat
  | 0, seg => seg
  | fuel + 1, seg => if seg < 8192 ∧ g.word seg ≠ 0 then gdtSearch g fuel (seg + 1) else seg

/-- The slot that `GDT_smartaput` takes. -/
def gdtFree (g : Gdt) : Nat := gdtSearch g 8192 1

/-- `GDT_smartaput`. -/
def gdtSmartaput (g : Gdt) (base limit flags : BitVec 64) : Nat × Gdt :=
  (gdtFree g, gdtSmartput g (gdtFree g) base limit flags)

/-- `GDT_init`, the memory behind the table being `mem`. -/
def gdtInit (mem : Nat → BitVec 64) : Gdt :=
  let g₀ : Gdt := ⟨fun i => if i < 16 then 0 else mem i, []⟩
  let g₁ := gdtPut g₀ 0 0
  let g₂ := gdtSmartput g₁ 1 0 0xFFFFFFFF (seg64bitCode ||| segNotsys ||| segPresent ||| segCodeEo)
  let g₃ := gdtSmartput g₂ 2 0 0xFFFFFFFF (segNotsys ||| segPresent ||| segDataRw)
  let g₄ := gdtSmartput g₃ 3 0 0xFFFFFFFF
    (seg64bitCode ||| segNotsys ||| segPresent ||| segCodeEo ||| segDpl3)
  gdtSmartput g₄ 4 0 0xFFFFFFFF (segNotsys ||| segPresent ||| segDataRw ||| segDpl3)

/-- `CALC_SELECTOR(s, SEG_GDT | SEG_RPL3)` in the 16 bits of `s`. -/
def calcSelector (s : BitVec 16) : BitVec 16 := (s <<< 3) ||| 3

/-- `ltr`. -/
def ltr (g : Gdt) (s : BitVec 16) : Gdt :=
  { g with word := fun i =>
      if i = (s >>> 3).toNat then g.word i ||| (segTss64Busy <<< 32) else g.word i }

/-- `tss_init_cpu`, the TSS of the processor being at `base`. -/
def tssInitCpu (g : Gdt) (base : BitVec 64) : Gdt :=
  let r := gdtSmartaput g base sizeofTss64 (segPresent ||| segTss64 ||| segDpl3)
  ltr r.2 (calcSelector (BitVec.ofNat 16 r.1))

/-- The descriptor of the TSS at `base`, loaded. -/
def tssWord (base : BitVec 64) : BitVec 64 :=
  gdtData base sizeofTss64 (segPresent ||| segTss64 ||| segDpl3) ||| (segTss64Busy <<< 32)

/-- The table and, the last one first, the TSS descriptors installed in it: slot and base. -/
structure GdtRun where
  gdt : Gdt
  tss : List (Nat × BitVec 64)

/-- A call of `tss_init_cpu`. -/
def tssCall (r : GdtRun) (base : BitVec 64) : GdtRun :=
  ⟨tssInitCpu r.gdt base, (gdtFree r.gdt, base) :: r.tss⟩

/-- The calls behind `GDT_init`. -/
def tssCalls (mem : Nat → BitVec 64) (bases : List (BitVec 64)) : GdtRun :=
  bases.foldl tssCall ⟨gdtInit mem, []⟩

/-- Every write stayed inside the table, and all descriptors are there: the segments of
`GDT_init` and both halves of every TSS descriptor. -/
structure Intact (mem : Nat → BitVec 64) (r : GdtRun) : Prop where
  inside : ∀ i ∈ r.gdt.puts, i < 16
  segments : ∀ i < 5, r.gdt.word i = (gdtInit mem).word i
  low : ∀ e ∈ r.tss, r.gdt.word e.1 = tssWord e.2
  high : ∀ e ∈ r.tss, r.gdt.word (e.1 + 1) = e.2 >>> 32

/-! ## Single calls -/

section Calls

variable {mem : Nat → BitVec 64} {g : Gdt} {r : GdtRun} {f : Nat} {base : BitVec 64}

/-- A descriptor that is no TSS takes one slot. -/
theorem gdtSmartput_segment (seg : Nat) (limit : BitVec 64) {flags : BitVec 64}
    (h : flags &&& segTss64 ≠ segTss64) :
    gdtSmartput g seg base limit flags = gdtPut g seg (gdtData base limit flags) := if_neg h

/-- The slots 1 to 4 are in use behind `GDT_init`. -/
theorem gdtInit_used {i : Nat} (h1 : 1 ≤ i) (h5 : i < 5) : (gdtInit mem).word i ≠ 0 := by
  unfold gdtInit
  simp only
  rw [gdtSmartput_segment _ _ (by decide), gdtSmartput_segment _ _ (by decide),
    gdtSmartput_segment _ _ (by decide), gdtSmartput_segment _ _ (by decide)]
  obtain rfl | rfl | rfl | rfl : i = 1 ∨ i = 2 ∨ i = 3 ∨ i = 4 := by omega
  · exact (show gdtData 0 0xFFFFFFFF (seg64bitCode ||| segNotsys ||| segPresent ||| segCodeEo) ≠ 0
      by decide)
  · exact (show gdtData 0 0xFFFFFFFF (segNotsys ||| segPresent ||| segDataRw) ≠ 0 by decide)
  · exact (show gdtData 0 0xFFFFFFFF
      (seg64bitCode ||| segNotsys ||| segPresent ||| segCodeEo ||| segDpl3) ≠ 0 by decide)
  · exact (show gdtData 0 0xFFFFFFFF (segNotsys ||| segPresent ||| segDataRw ||| segDpl3) ≠ 0
      by decide)

/-- `GDT_init` writes the slots 0 to 4. -/
theorem gdtInit_rest : (gdtInit mem).puts = [4, 3, 2, 1, 0] ∧
    ∀ i, 5 ≤ i → i < 16 → (gdtInit mem).word i = 0 := by
  unfold gdtInit
  simp only
  rw [gdtSmartput_segment _ _ (by decide), gdtSmartput_segment _ _ (by decide),
    gdtSmartput_segment _ _ (by decide), gdtSmartput_segment _ _ (by decide)]
  refine ⟨rfl, fun i h5 h16 => ?_⟩
  simp [gdtPut, show i ≠ 0 by omega, show i ≠ 1 by omega, show i ≠ 2 by omega,
    show i ≠ 3 by omega, show i ≠ 4 by omega, h16]

/-- The search passes over slots that are in use. -/
theorem gdtSearch_used {fuel seg : Nat} (hf : f ≤ 8192) (hfuel : f ≤ seg + fuel) (hseg : seg ≤ f)
    (hused : ∀ i, seg ≤ i → i < f → g.word i ≠ 0) :
    f ≤ gdtSearch g fuel seg ∧ (g.word f = 0 → gdtSearch g fuel seg = f) := by
  induction fuel generalizing seg with
  | zero =>
    have heq : seg = f := by omega
    subst heq
    exact ⟨Nat.le_refl _, fun _ => rfl⟩
  | succ fuel ih =>
    rw [gdtSearch]
    by_cases heq : seg = f
    · subst heq
      by_cases h0 : g.word seg = 0
      · rw [if_neg (by simp [h0])]
        exact ⟨Nat.le_refl _, fun _ => rfl⟩
      · refine ⟨?_, fun hz => absurd hz h0⟩
        -- whatever lies behind, the search does not come back
        have hge : ∀ fuel seg, seg ≤ gdtSearch g fuel seg := by
          intro fuel
          induction fuel with
          | zero => exact fun seg => Nat.le_refl _
          | succ fuel ih =>
            intro seg
            rw [gdtSearch]
            split
            · exact Nat.le_of_succ_le (ih (seg + 1))
            · exact Nat.le_refl _
        split
        · exact Nat.le_of_succ_le (hge fuel (seg + 1))
        · exact Nat.le_refl _
    · have hlt : seg < f := by omega
      rw [if_pos ⟨by omega, hused seg (Nat.le_refl _) hlt⟩]
      exact ih (by omega) hlt fun i hi hif => hused i (by omega) hif

/-- The selector of a slot names the slot. -/
theorem calcSelector_slot {seg : Nat} (h : seg < 8192) :
    (calcSelector (BitVec.ofNat 16 seg) >>> 3).toNat = seg := by
  have hbits : calcSelector (BitVec.ofNat 16 seg) >>> 3 = BitVec.ofNat 16 seg := by
    apply BitVec.eq_of_getLsbD_eq
    intro i hi
    by_cases hi13 : i < 13
    · have hthree : (3 : BitVec 16).getLsbD (3 + i) = false := by
        rw [show (3 : BitVec 16) = BitVec.ofNat 16 3 from rfl, BitVec.getLsbD_ofNat,
          Nat.testBit_lt_two_pow (Nat.lt_of_lt_of_le (by decide : 3 < 2 ^ 3)
            (Nat.pow_le_pow_right (by decide) (by omega))), Bool.and_false]
      rw [calcSelector, BitVec.getLsbD_ushiftRight, BitVec.getLsbD_or, hthree, Bool.or_false,
        BitVec.getLsbD_shiftLeft]
      simp [show 3 + i < 16 by omega]
    · rw [BitVec.getLsbD_ushiftRight, BitVec.getLsbD_of_ge _ _ (by omega), BitVec.getLsbD_ofNat,
        Nat.testBit_lt_two_pow (Nat.lt_of_lt_of_le (show seg < 2 ^ 13 from h)
          (Nat.pow_le_pow_right (by decide) (by omega))), Bool.and_false]
  rw [hbits, BitVec.toNat_ofNat, Nat.mod_eq_of_lt (by omega)]

theorem tssWord_ne_zero (base : BitVec 64) : tssWord base ≠ 0 := by
  intro h
  have hbit : (tssWord base).getLsbD 40 = true := by
    rw [tssWord, BitVec.getLsbD_or]
    exact Bool.or_eq_true_iff.mpr (Or.inr (by decide))
  rw [h] at hbit
  exact absurd hbit (by decide)

/-- A call writes the two slots from the free one on. -/
theorem tssInitCpu_word (hf : gdtFree g = f) (hlt : f < 8192) (i : Nat) :
    (tssInitCpu g base).word i =
      if i = f then tssWord base else if i = f + 1 then base >>> 32 else g.word i := by
  unfold tssInitCpu gdtSmartaput gdtSmartput ltr
  rw [if_pos (by decide)]
  simp only [hf, calcSelector_slot hlt, gdtPut]
  by_cases hif : i = f
  · simp [hif, tssWord]
  · simp [hif]

theorem tssInitCpu_puts (g : Gdt) (base : BitVec 64) :
    (tssInitCpu g base).puts = (gdtFree g + 1) :: gdtFree g :: g.puts := by
  unfold tssInitCpu gdtSmartaput gdtSmartput ltr
  rw [if_pos (by decide)]
  rfl

end Calls

/-! ## Sequences of calls -/

/-- The slots 1 to `f - 1` are in use, those from `f` to the end of the table free, and the
TSS descriptors lie below `f`. -/
structure Filled (r : GdtRun) (f : Nat) : Prop where
  low : 5 ≤ f
  high : f ≤ 16
  used : ∀ i, 1 ≤ i → i < f → r.gdt.word i ≠ 0
  free : ∀ i, f ≤ i → i < 16 → r.gdt.word i = 0
  below : ∀ e ∈ r.tss, e.1 + 1 < f

section Run

variable {mem : Nat → BitVec 64} {r : GdtRun} {f : Nat}

theorem gdtInit_filled (mem : Nat → BitVec 64) : Filled ⟨gdtInit mem, []⟩ 5 :=
  ⟨Nat.le_refl _, by decide, fun _ => gdtInit_used, gdtInit_rest.2,
    fun _ he => absurd he List.not_mem_nil⟩

theorem gdtInit_intact (mem : Nat → BitVec 64) : Intact mem ⟨gdtInit mem, []⟩ := by
  refine ⟨fun i hi => ?_, fun _ _ => rfl, fun _ he => absurd he List.not_mem_nil,
    fun _ he => absurd he List.not_mem_nil⟩
  rw [gdtInit_rest.1] at hi
  simp at hi
  omega

theorem gdtFree_ge (h : Filled r f) : f ≤ gdtFree r.gdt := by
  have := h.high
  have := h.low
  exact (gdtSearch_used (by omega) (by omega) (by omega) h.used).1

theorem gdtFree_eq (h : Filled r f) (hlt : f < 16) : gdtFree r.gdt = f := by
  have := h.low
  exact (gdtSearch_used (by omega) (by omega) (by omega) h.used).2 (h.free f (Nat.le_refl _) hlt)

/-- The descriptor goes into the first two free slots. -/
theorem Filled.word (h : Filled r f) (hf : f + 2 ≤ 16) (base : BitVec 64) (i : Nat) :
    (tssInitCpu r.gdt base).word i =
      if i = f then tssWord base else if i = f + 1 then base >>> 32 else r.gdt.word i :=
  tssInitCpu_word (gdtFree_eq h (by omega)) (by omega) i

/-- Without two slots left the call writes behind the table. -/
theorem tssCall_outside (h : Filled r f) (hf : 15 ≤ f) (base : BitVec 64) :
    ¬ Intact mem (tssCall r base) := by
  intro hi
  have hge := gdtFree_ge h
  have hin := hi.inside (gdtFree r.gdt + 1) (by
    show _ ∈ (tssInitCpu r.gdt base).puts
    rw [tssInitCpu_puts]
    exact List.mem_cons_self)
  omega

/-- With two slots left the call installs its descriptor there and leaves the others alone. -/
theorem tssCall_intact (h : Filled r f) (hi : Intact mem r) (hf : f + 2 ≤ 16) (base : BitVec 64) :
    Intact mem (tssCall r base) := by
  have hlow := h.low
  have hfree := gdtFree_eq h (by omega)
  have hword := h.word hf base
  refine ⟨fun i hmem => ?_, fun i h5 => ?_, fun e he => ?_, fun e he => ?_⟩
  · change i ∈ (tssInitCpu r.gdt base).puts at hmem
    rw [tssInitCpu_puts, hfree] at hmem
    rcases List.mem_cons.mp hmem with rfl | hmem
    · omega
    · rcases List.mem_cons.mp hmem with rfl | hmem
      · omega
      · exact hi.inside i hmem
  · show (tssInitCpu r.gdt base).word i = _
    rw [hword, if_neg (by omega), if_neg (by omega)]
    exact hi.segments i h5
  · show (tssInitCpu r.gdt base).word e.1 = _
    rcases List.mem_cons.mp he with rfl | he
    · rw [hword, if_pos hfree]
    · have hbelow := h.below e he
      rw [hword, if_neg (by omega), if_neg (by omega)]
      exact hi.low e he
  · show (tssInitCpu r.gdt base).word (e.1 + 1) = _
    rcases List.mem_cons.mp he with rfl | he
    · rw [hword, hfree, if_neg (by omega), if_pos rfl]
    · have hbelow := h.below e he
      rw [hword, if_neg (by omega), if_neg (by omega)]
      exact hi.high e he

/-- Both slots are in use then if the upper half of the base is not zero. -/
theorem tssCall_filled (h : Filled r f) (hf : f + 2 ≤ 16) {base : BitVec 64}
    (hbase : base >>> 32 ≠ 0) : Filled (tssCall r base) (f + 2) := by
  have hlow := h.low
  have hfree := gdtFree_eq h (by omega)
  have hword := h.word hf base
  refine ⟨by omega, hf, fun i h1 hi => ?_, fun i hi h16 => ?_, fun e he => ?_⟩
  · show (tssInitCpu r.gdt base).word i ≠ 0
    rw [hword]
    by_cases heq : i = f
    · rw [if_pos heq]
      exact tssWord_ne_zero base
    · rw [if_neg heq]
      by_cases hnext : i = f + 1
      · rw [if_pos hnext]
        exact hbase
      · rw [if_neg hnext]
        exact h.used i h1 (by omega)
  · show (tssInitCpu r.gdt base).word i = 0
    rw [hword, if_neg (by omega), if_neg (by omega)]
    exact h.free i (by omega) h16
  · rcases List.mem_cons.mp he with rfl | he
    · show gdtFree r.gdt + 1 < f + 2
      omega
    · have hbelow := h.below e he
      omega

/-- Else the next call takes the second slot for its own descriptor. -/
theorem tssCall_collides (h : Filled r f) (hf : f + 2 ≤ 16) {base : BitVec 64}
    (hbase : base >>> 32 = 0) (next : BitVec 64) : ¬ Intact mem (tssCall (tssCall r base) next) := by
  have hlow := h.low
  have hfree := gdtFree_eq h (by omega)
  have hword := h.word hf base
  have hused : ∀ i, 1 ≤ i → i < f + 1 → (tssInitCpu r.gdt base).word i ≠ 0 := by
    intro i h1 hi
    rw [hword]
    by_cases heq : i = f
    · rw [if_pos heq]
      exact tssWord_ne_zero base
    · rw [if_neg heq, if_neg (by omega)]
      exact h.used i h1 (by omega)
  have hfree' : gdtFree (tssInitCpu r.gdt base) = f + 1 := by
    refine (gdtSearch_used (by omega) (by omega) (by omega) hused).2 ?_
    rw [hword, if_neg (by omega), if_pos rfl, hbase]
  intro hi
  have hhigh : (tssInitCpu (tssInitCpu r.gdt base) next).word (gdtFree r.gdt + 1) = base >>> 32 :=
    hi.high (gdtFree r.gdt, base) (List.mem_cons_of_mem _ List.mem_cons_self)
  rw [hfree, tssInitCpu_word hfree' (by omega), if_pos rfl, hbase] at hhigh
  exact tssWord_ne_zero next hhigh

/-- From a table with the free slots from `f` on. -/
theorem tssCalls_intact_iff (bases : List (BitVec 64)) (h : Filled r f) (hi : Intact mem r) :
    (∀ k, k ≤ bases.length → Intact mem ((bases.take k).foldl tssCall r)) ↔
      f + 2 * bases.length ≤ 16 ∧ ∀ b ∈ bases.dropLast, b >>> 32 ≠ 0 := by
  induction bases generalizing r f with
  | nil =>
    have hhigh := h.high
    simpa [hhigh] using hi
  | cons b bs ih =>
    rw [List.length_cons]
    by_cases hf : f + 2 ≤ 16
    · have hi' := tssCall_intact h hi hf b
      -- the first call, and the others from the table it leaves
      have hshift : (∀ k, k ≤ bs.length + 1 → Intact mem (((b :: bs).take k).foldl tssCall r)) ↔
          ∀ k, k ≤ bs.length → Intact mem ((bs.take k).foldl tssCall (tssCall r b)) := by
        constructor
        · intro hall k hk
          exact hall (k + 1) (by omega)
        · intro hall k hk
          cases k with
          | zero => exact hi
          | succ k => exact hall k (by omega)
      rw [hshift]
      by_cases hb : b >>> 32 = 0
      · -- only the last TSS may have a base with an empty upper half
        cases bs with
        | nil => simpa [hf] using hi'
        | cons c bs =>
          constructor
          · intro hall
            exact absurd (hall 1 (by simp)) (tssCall_collides h hf hb c)
          · rintro ⟨-, hhigh⟩
            exact absurd hb (hhigh b (by simp))
      · rw [ih (tssCall_filled h hf hb) hi']
        cases bs with
        | nil => simp
        | cons c bs =>
          rw [List.dropLast_cons_cons, List.forall_mem_cons, List.length_cons,
            show f + 2 + 2 * (bs.length + 1) = f + 2 * (bs.length + 1 + 1) by omega]
          exact and_congr_right fun _ => (and_iff_right hb).symm
    · constructor
      · intro hall
        exact absurd (hall 1 (by omega)) (tssCall_outside h (by omega) b)
      · rintro ⟨hlen, -⟩
        omega

end Run

/-- Behind `GDT_init` the calls of `tss_init_cpu` keep to the table and to each other's
descriptors exactly when there are at most five of them and only the last TSS may lie
below 4 GiB. -/
theorem gdt_slots_iff (mem : Nat → BitVec 64) (bases : List (BitVec 64)) :
    (∀ k, k ≤ bases.length → Intact mem (tssCalls mem (bases.take k))) ↔
      bases.length ≤ 5 ∧ ∀ b ∈ bases.dropLast, b >>> 32 ≠ 0 := by
  have h := tssCalls_intact_iff bases (gdtInit_filled mem) (gdtInit_intact mem)
  rw [show 5 + 2 * bases.length ≤ 16 ↔ bases.length ≤ 5 by omega] at h
  exact h

/-- Two processors with TSS below 4 GiB, and six with the TSS in the kernel's half. -/
theorem gdt_slots_collide :
    ¬ Intact (fun _ => 0) (tssCalls (fun _ => 0) [0x200000, 0x200068]) ∧
      ¬ Intact (fun _ => 0) (tssCalls (fun _ => 0) (List.replicate 6 0xFFFFFFFFC0200000)) := by
  constructor
  · intro h
    have hhigh := h.high (5, 0x200000) (by decide)
    exact absurd hhigh (by decide)
  · intro h
    have hin := h.inside 16 (by decide)
    exact absurd hin (by decide)

end OS64.X86
