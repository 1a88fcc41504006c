import OS64.Lib.ByteMem
import OS64.Mm.PageBoot

/-!
# The first page tables

Before there is a stack, `boot.S` lays four tables from `0xA000` on with `stosw` and `rep stosw`,
and fills the lowest of them in a loop. The words of an entry are `%ax` and zeros; how many zeros,
`rep` takes from all of `%ecx`, of which only `%cx` is loaded. What is in its upper half, `cpuid`
has left there. The code itself is not part of memory here, which the zeros reach where that is 8
or more.

With nothing in it, the tables map four windows of 2 MiB to the first 2 MiB of memory, for user code
too (`boot_windows`), and one of them is where the kernel runs when `page_init` loads tables of its
own (`boot_to_page_init`). With anything in it, the first page is not mapped
(`boot_first_page_iff`).
-/

namespace OS64.X86

open OS64.Lib OS64.Mm

/-! ## The code -/

/-- The registers that the code uses, and memory. -/
structure Boot32 where
  eax : BitVec 32
  ecx : BitVec 32
  edi : BitVec 32
  mem : ByteMem

/-- `mov v` to the lower half of a register. -/
def setWord (r : BitVec 32) (v : BitVec 16) : BitVec 32 := r.extractLsb' 16 16 ++ v

/-- `stosw`. -/
def stosw (s : Boot32) : Boot32 :=
  { s with mem := s.mem.write s.edi.toNat 2 (s.eax.setWidth 16).toNat, edi := s.edi + 2 }

/-- `rep stosw`. -/
def repStosw : Nat → Boot32 → Boot32
  | 0, s => { s with ecx := 0 }
  | n + 1, s => repStosw n (stosw s)

/-- The first word of an entry: `mov $v, %ax`, `stosw`. -/
def bootEntry (v : BitVec 16) (s : Boot32) : Boot32 := stosw { s with eax := setWord s.eax v }

/-- The zeros behind it: `xor %ax, %ax`, `mov $n, %cx`, `rep stosw`. -/
def bootZeros (n : BitVec 16) (s : Boot32) : Boot32 :=
  let s := { s with eax := setWord s.eax 0, ecx := setWord s.ecx n }
  repStosw s.ecx.toNat s

/-- A pass of `loo1`. -/
def bootPage (s : Boot32) : Boot32 where
  mem := (s.mem.write s.edi.toNat 4 s.eax.toNat).write (s.edi + 4).toNat 4 0
  edi := s.edi + 4 + 4
  eax := s.eax + 0x1000
  ecx := setWord s.ecx (s.ecx.setWidth 16 - 1)

/-- `loo1`, which ends when `%cx` is 0. -/
def bootPages : Nat → Boot32 → Boot32
  | 0, s => s
  | fuel + 1, s =>
    let s := bootPage s
    if s.ecx.setWidth 16 ≠ (0 : BitVec 16) then bootPages fuel s else s

/-- From behind `cpuid` to the end of `loo1`. -/
def bootTables (s : Boot32) : Boot32 :=
  let s := { s with eax := 0, edi := setWord 0 0xA000 }
  -- PML4
  let s := bootZeros 3 (bootEntry 0xb00f (bootZeros 0x07FB (bootEntry 0xb00f s)))
  -- PDP
  let s := bootZeros 3 (bootEntry 0xc00f (bootZeros 0x07FB (bootEntry 0xc00f s)))
  -- PD
  let s := bootZeros 0x07FF (bootEntry 0xd00f s)
  -- PT
  bootPages 0x10000 { s with ecx := setWord s.ecx 0x400, eax := 0xf }

/-- Memory as tables. -/
def framesOf (m : ByteMem) : Frame → Page := fun f i =>
  BitVec.ofNat 64 (m.read (0x1000 * f.toNat + 8 * i.toNat) 8)

/-- The entry for a virtual address in the tables at `0xA000`. -/
def bootTranslate (mem : Frame → Page) (v : BitVec 64) : Option Pte :=
  lookup Pte.next mem 0xA (tablePath v) (linearIndex 0 v)

/-! ## Rows of words -/

section Words

variable {s : Boot32}

theorem setWord_toNat (r : BitVec 32) (v : BitVec 16) :
    (setWord r v).toNat = r.toNat / 2 ^ 16 * 2 ^ 16 + v.toNat := by
  have hr := r.isLt
  unfold setWord
  rw [BitVec.toNat_append, ← Nat.shiftLeft_add_eq_or_of_lt v.isLt, Nat.shiftLeft_eq,
    BitVec.extractLsb'_toNat, Nat.shiftRight_eq_div_pow]
  omega

theorem setWord_low (r : BitVec 32) (v : BitVec 16) : (setWord r v).setWidth 16 = v := by
  apply BitVec.eq_of_toNat_eq
  have hv := v.isLt
  rw [BitVec.toNat_setWidth, setWord_toNat]
  omega

/-- Zeros, as many words as there are to go. -/
theorem repStosw_zeros (n : Nat) : ∀ {s : Boot32}, s.eax.setWidth 16 = (0 : BitVec 16) →
    s.edi.toNat + 2 * n < 2 ^ 32 →
    (repStosw n s).ecx = 0 ∧ (repStosw n s).eax = s.eax ∧
    (repStosw n s).edi.toNat = s.edi.toNat + 2 * n ∧
    ∀ x, (repStosw n s).mem x =
      if s.edi.toNat ≤ x ∧ x < s.edi.toNat + 2 * n then 0 else s.mem x := by
  induction n with
  | zero =>
    intro s _ _
    exact ⟨rfl, rfl, rfl, fun x => (if_neg (by omega)).symm⟩
  | succ n ih =>
    intro s hax hfit
    have hnext : (stosw s).edi.toNat = s.edi.toNat + 2 := by
      show (s.edi + 2).toNat = _
      rw [BitVec.toNat_add]
      exact Nat.mod_eq_of_lt (by show s.edi.toNat + 2 < _; omega)
    obtain ⟨hecx, heax, hedi, hmem⟩ := ih (s := stosw s) hax (by rw [hnext]; omega)
    rw [repStosw]
    refine ⟨hecx, heax, by rw [hedi, hnext]; omega, fun x => ?_⟩
    rw [hmem x, hnext]
    show (if _ then 0 else s.mem.write s.edi.toNat 2 (s.eax.setWidth 16).toNat x) = _
    rw [hax]
    by_cases hlater : s.edi.toNat + 2 ≤ x ∧ x < s.edi.toNat + 2 + 2 * n
    · rw [if_pos hlater, if_pos (by omega)]
    · rw [if_neg hlater]
      by_cases hfirst : s.edi.toNat ≤ x ∧ x < s.edi.toNat + 2
      · rw [if_pos (by omega), ByteMem.write, if_pos hfirst]
        show BitVec.ofNat 8 (0 / _) = 0
        rw [Nat.zero_div]
        rfl
      · rw [if_neg (by omega), ByteMem.write_apply_out (by omega)]

/-- Zeros from an even address on, which go on at 0 behind the last one. -/
theorem repStosw_wraps (n : Nat) : ∀ {s : Boot32}, s.eax.setWidth 16 = (0 : BitVec 16) →
    s.edi.toNat % 2 = 0 →
    (repStosw n s).ecx = 0 ∧ (repStosw n s).edi.toNat = (s.edi.toNat + 2 * n) % 2 ^ 32 ∧
    ∀ x, x < 2 ^ 32 → (repStosw n s).mem x =
      if (x + 2 ^ 32 - s.edi.toNat) % 2 ^ 32 < 2 * n then 0 else s.mem x := by
  induction n with
  | zero =>
    intro s _ _
    have hedi := s.edi.isLt
    exact ⟨rfl, (Nat.mod_eq_of_lt (by omega)).symm, fun x _ => (if_neg (by omega)).symm⟩
  | succ n ih =>
    intro s hax heven
    have hlt := s.edi.isLt
    have hnext : (stosw s).edi.toNat = (s.edi.toNat + 2) % 2 ^ 32 := BitVec.toNat_add _ _
    obtain ⟨hecx, hedi, hmem⟩ := ih (s := stosw s) hax (by rw [hnext]; omega)
    rw [repStosw]
    refine ⟨hecx, by rw [hedi, hnext]; omega, fun x hx => ?_⟩
    rw [hmem x hx, hnext]
    show (if _ then 0 else s.mem.write s.edi.toNat 2 (s.eax.setWidth 16).toNat x) = _
    rw [hax]
    by_cases hlater : (x + 2 ^ 32 - (s.edi.toNat + 2) % 2 ^ 32) % 2 ^ 32 < 2 * n
    · rw [if_pos hlater]
      by_cases hin : (x + 2 ^ 32 - s.edi.toNat) % 2 ^ 32 < 2 * (n + 1)
      · rw [if_pos hin]
      · omega
    · rw [if_neg hlater]
      by_cases hfirst : s.edi.toNat ≤ x ∧ x < s.edi.toNat + 2
      · rw [if_pos (by omega), ByteMem.write, if_pos hfirst]
        show BitVec.ofNat 8 (0 / _) = 0
        rw [Nat.zero_div]
        rfl
      · rw [if_neg (by omega), ByteMem.write_apply_out (by omega)]

/-- The code has come to quadword `n` from `0xA000` on, and those before it are `g 0`, `g 1` and so
on. -/
structure Laid (m₀ : ByteMem) (g : Nat → Nat) (n : Nat) (s : Boot32) : Prop where
  edi : s.edi.toNat = 0xA000 + 8 * n
  quads : ∀ i, i < n → s.mem.read (0xA000 + 8 * i) 8 = g i
  frame : ∀ x, x < 0xA000 ∨ 0xA000 + 8 * n ≤ x → s.mem x = m₀ x

variable {m₀ : ByteMem} {g : Nat → Nat} {n j : Nat}

/-- Quadwords that a memory gets behind those it has. -/
theorem Laid.grow {s' : Boot32} (h : Laid m₀ g n s) (hedi : s'.edi.toNat = 0xA000 + 8 * (n + j))
    (hnew : ∀ i, i < j → s'.mem.read (0xA000 + 8 * (n + i)) 8 = g (n + i))
    (hold : ∀ x, x < 0xA000 + 8 * n ∨ 0xA000 + 8 * (n + j) ≤ x → s'.mem x = s.mem x) :
    Laid m₀ g (n + j) s' := by
  refine ⟨hedi, fun i hi => ?_, fun x hx => ?_⟩
  · by_cases hin : i < n
    · rw [ByteMem.read_congr 8 fun x _ hx => hold x (Or.inl (by omega))]
      exact h.quads i hin
    · have hat := hnew (i - n) (by omega)
      rw [Nat.add_sub_cancel' (by omega)] at hat
      exact hat
  · rw [hold x (by omega)]
    exact h.frame x (by omega)

/-- The entry `v`, and zeros for all of `%ecx`. -/
theorem bootZeros_spec (v n : BitVec 16) (s : Boot32) {c : Nat}
    (hc : s.ecx.toNat / 2 ^ 16 * 2 ^ 16 + n.toNat = c) (hfit : s.edi.toNat + 2 + 2 * c < 2 ^ 32) :
    (bootZeros n (bootEntry v s)).ecx = 0 ∧
    (bootZeros n (bootEntry v s)).edi.toNat = s.edi.toNat + 2 + 2 * c ∧
    ∀ x, (bootZeros n (bootEntry v s)).mem x =
      if s.edi.toNat + 2 ≤ x ∧ x < s.edi.toNat + 2 + 2 * c then 0
      else s.mem.write s.edi.toNat 2 v.toNat x := by
  have hnext : (s.edi + 2).toNat = s.edi.toNat + 2 := by
    rw [BitVec.toNat_add]
    exact Nat.mod_eq_of_lt (by show s.edi.toNat + 2 < _; omega)
  have hcount : (setWord s.ecx n).toNat = c := (setWord_toNat s.ecx n).trans hc
  have hrun : bootZeros n (bootEntry v s) = repStosw c ⟨setWord (setWord s.eax v) 0,
      setWord s.ecx n, s.edi + 2, s.mem.write s.edi.toNat 2 v.toNat⟩ := by
    unfold bootZeros bootEntry stosw
    dsimp only
    rw [hcount, setWord_low]
  have hfit' : (s.edi + 2).toNat + 2 * c < 2 ^ 32 := by
    rw [hnext]
    exact hfit
  obtain ⟨hecx, -, hedi, hmem⟩ := repStosw_zeros c (s := ⟨setWord (setWord s.eax v) 0,
    setWord s.ecx n, s.edi + 2, s.mem.write s.edi.toNat 2 v.toNat⟩) (setWord_low _ 0) hfit'
  dsimp only at hedi hmem
  rw [hrun, ← hnext]
  exact ⟨hecx, hedi, hmem⟩

/-- A row: one entry, and `j` entries of zeros. -/
theorem bootRow {v k : BitVec 16} (h : Laid m₀ g n s) (hecx : s.ecx.toNat < 2 ^ 16)
    (hk : k.toNat = 4 * j + 3) (hfit : n + (j + 1) < 2 ^ 20) (hfirst : g n = v.toNat)
    (hzero : ∀ i, i < j → g (n + (i + 1)) = 0) :
    Laid m₀ g (n + (j + 1)) (bootZeros k (bootEntry v s)) ∧
      (bootZeros k (bootEntry v s)).ecx = 0 := by
  have hat := h.edi
  obtain ⟨hecx', hedi, hmem⟩ := bootZeros_spec v k s (c := 4 * j + 3) (by omega) (by omega)
  rw [hat] at hedi hmem
  -- the words behind the first one are what a quadword's upper bytes are
  have hquad (i : Nat) (hi : i < j + 1) : (bootZeros k (bootEntry v s)).mem.read
      (0xA000 + 8 * (n + i)) 8 = if i = 0 then v.toNat else 0 := by
    have hv := v.isLt
    have hsame : (bootZeros k (bootEntry v s)).mem.read (0xA000 + 8 * (n + i)) 8 =
        (s.mem.write (0xA000 + 8 * (n + i)) 8 (if i = 0 then v.toNat else 0)).read
          (0xA000 + 8 * (n + i)) 8 := by
      refine ByteMem.read_congr 8 fun x hx hx' => ?_
      rw [hmem x]
      unfold ByteMem.write
      rw [if_pos (show 0xA000 + 8 * (n + i) ≤ x ∧ x < 0xA000 + 8 * (n + i) + 8 from ⟨hx, hx'⟩)]
      by_cases hi0 : i = 0
      · rw [if_pos hi0]
        by_cases hlow : x < 0xA000 + 8 * n + 2
        · rw [if_neg (by omega), if_pos (by omega), show 0xA000 + 8 * (n + i) = 0xA000 + 8 * n by
            omega]
        · have hpow : 256 ^ 2 ≤ 256 ^ (x - (0xA000 + 8 * (n + i))) :=
            Nat.pow_le_pow_right (by decide) (by omega)
          rw [if_pos (by omega), Nat.div_eq_of_lt (by omega)]
          rfl
      · rw [if_neg hi0, Nat.zero_div, if_pos (by omega)]
        rfl
    rw [hsame, ByteMem.read_write_same]
    refine Nat.mod_eq_of_lt ?_
    by_cases hi0 : i = 0
    · rw [if_pos hi0]
      omega
    · rw [if_neg hi0]
      decide
  refine ⟨h.grow (by rw [hedi]; omega) (fun i hi => ?_) fun x hx => ?_, hecx'⟩
  · rw [hquad i hi]
    by_cases hi0 : i = 0
    · rw [if_pos hi0, hi0]
      exact hfirst.symm
    · rw [if_neg hi0]
      have hrest := hzero (i - 1) (by omega)
      rw [Nat.sub_add_cancel (by omega)] at hrest
      exact hrest.symm
  · rw [hmem x, if_neg (by omega), ByteMem.write_apply_out (by omega)]

/-- A pass of the loop. -/
theorem bootPage_spec (h : Laid m₀ g n s) (hfit : n < 2 ^ 20) (hquad : g n = s.eax.toNat) :
    Laid m₀ g (n + 1) (bootPage s) := by
  have hat := h.edi
  have hfour : (s.edi + 4).toNat = 0xA000 + 8 * n + 4 := by
    rw [BitVec.toNat_add, hat]
    exact Nat.mod_eq_of_lt (by show 0xA000 + 8 * n + 4 < _; omega)
  have height : (s.edi + 4 + 4).toNat = 0xA000 + 8 * n + 8 := by
    rw [BitVec.toNat_add, hfour]
    exact Nat.mod_eq_of_lt (by show 0xA000 + 8 * n + 4 + 4 < _; omega)
  have hmem : (bootPage s).mem = (s.mem.write (0xA000 + 8 * n) 4 s.eax.toNat).write
      (0xA000 + 8 * n + 4) 4 0 := by
    unfold bootPage
    dsimp only
    rw [hat, hfour]
  have heax := s.eax.isLt
  refine h.grow height (fun i hi => ?_) fun x hx => ?_
  · rw [show i = 0 by omega, Nat.add_zero, hmem, hquad]
    have hsame : ((s.mem.write (0xA000 + 8 * n) 4 s.eax.toNat).write (0xA000 + 8 * n + 4) 4 0).read
        (0xA000 + 8 * n) 8 =
          (s.mem.write (0xA000 + 8 * n) 8 s.eax.toNat).read (0xA000 + 8 * n) 8 := by
      refine ByteMem.read_congr 8 fun x hx hx' => ?_
      unfold ByteMem.write
      rw [if_pos (show 0xA000 + 8 * n ≤ x ∧ x < 0xA000 + 8 * n + 8 from ⟨hx, hx'⟩)]
      by_cases hlow : x < 0xA000 + 8 * n + 4
      · rw [if_neg (by omega), if_pos (by omega)]
      · have hpow : 256 ^ 4 ≤ 256 ^ (x - (0xA000 + 8 * n)) :=
          Nat.pow_le_pow_right (by decide) (by omega)
        rw [if_pos (by omega), Nat.zero_div, Nat.div_eq_of_lt (by omega)]
    rw [hsame, ByteMem.read_write_same]
    exact Nat.mod_eq_of_lt (Nat.lt_trans heax (by decide))
  · rw [hmem, ByteMem.write_apply_out (by omega), ByteMem.write_apply_out (by omega)]

end Words

/-! ## The tables -/

section Tables

variable {s : Boot32} {m₀ : ByteMem} {v : BitVec 64}

/-- The quadwords of the tables. -/
def bootQuad (i : Nat) : Nat :=
  if i < 512 then if i = 0 ∨ i = 511 then 0xb00f else 0
  else if i < 1024 then if i = 512 ∨ i = 1023 then 0xc00f else 0
  else if i < 1536 then if i = 1024 then 0xd00f else 0
  else 0xf + 0x1000 * (i - 1536)

/-- The count of the loop. -/
theorem bootPage_ecx {k : Nat} (hecx : s.ecx.toNat = k + 1) (hk : k + 1 < 2 ^ 16) :
    (bootPage s).ecx.toNat = k ∧ ((bootPage s).ecx.setWidth 16 ≠ (0 : BitVec 16) ↔ k ≠ 0) := by
  have hcx : (s.ecx.setWidth 16 - 1 : BitVec 16).toNat = k := by
    rw [BitVec.toNat_sub, BitVec.toNat_setWidth, hecx]
    show (2 ^ 16 - 1 + (k + 1) % 2 ^ 16) % 2 ^ 16 = _
    omega
  have hlow : (bootPage s).ecx.setWidth 16 = s.ecx.setWidth 16 - 1 := setWord_low _ _
  refine ⟨?_, ?_⟩
  · show (setWord s.ecx (s.ecx.setWidth 16 - 1)).toNat = _
    rw [setWord_toNat, hecx, hcx]
    omega
  · rw [hlow, ← hcx]
    exact not_congr ⟨congrArg BitVec.toNat, fun h => BitVec.eq_of_toNat_eq h⟩

/-- The rest of `loo1`. -/
theorem bootPages_run (k : Nat) : ∀ {s : Boot32} {j fuel : Nat}, j + (k + 1) = 1024 →
    k < fuel → Laid m₀ bootQuad (1536 + j) s → s.ecx.toNat = k + 1 →
    s.eax.toNat = 0xf + 0x1000 * j → Laid m₀ bootQuad 2560 (bootPages fuel s) := by
  induction k with
  | zero =>
    intro s j fuel hj hfuel h hecx heax
    obtain ⟨fuel, rfl⟩ : ∃ f, fuel = f + 1 := ⟨fuel - 1, by omega⟩
    have hpage := bootPage_spec h (by omega) (by
      rw [heax, bootQuad, if_neg (by omega), if_neg (by omega), if_neg (by omega),
        Nat.add_sub_cancel_left])
    rw [bootPages, if_neg fun h => (bootPage_ecx hecx (by decide)).2.mp h rfl]
    rw [show 1536 + j + 1 = 2560 by omega] at hpage
    exact hpage
  | succ k ih =>
    intro s j fuel hj hfuel h hecx heax
    obtain ⟨fuel, rfl⟩ : ∃ f, fuel = f + 1 := ⟨fuel - 1, by omega⟩
    have hpage := bootPage_spec h (by omega) (by
      rw [heax, bootQuad, if_neg (by omega), if_neg (by omega), if_neg (by omega),
        Nat.add_sub_cancel_left])
    obtain ⟨hecx', hmore⟩ := bootPage_ecx hecx (by omega)
    have heax' : (bootPage s).eax.toNat = 0xf + 0x1000 * (j + 1) := by
      show (s.eax + 0x1000).toNat = _
      rw [BitVec.toNat_add, heax]
      show (0xf + 0x1000 * j + 0x1000) % 2 ^ 32 = _
      omega
    rw [bootPages, if_pos (hmore.mpr k.succ_ne_zero)]
    exact ih (by omega) (by omega) hpage hecx' heax'

/-- All of them, from `0xA000` to `0xF000`. -/
theorem bootTables_filled (hecx : s.ecx.toNat < 2 ^ 16) :
    Laid s.mem bootQuad 2560 (bootTables s) := by
  have hrow (a : Nat) : ∀ i, a < i → i < a + 511 → (a = 0 ∨ a = 512) → bootQuad i = 0 := by
    intro i hi hi' ha
    unfold bootQuad
    obtain rfl | rfl := ha
    · rw [if_pos (by omega), if_neg (by omega)]
    · rw [if_neg (by omega), if_pos (by omega), if_neg (by omega)]
  have h0 : Laid s.mem bootQuad 0 { s with eax := 0, edi := setWord 0 0xA000 } :=
    ⟨rfl, fun i hi => absurd hi (Nat.not_lt_zero i), fun _ _ => rfl⟩
  obtain ⟨h1, hecx1⟩ := bootRow h0 (v := 0xb00f) (k := 0x07FB) (j := 510) hecx rfl (by decide) rfl
    fun i hi => hrow 0 _ (by omega) (by omega) (Or.inl rfl)
  obtain ⟨h2, hecx2⟩ := bootRow h1 (v := 0xb00f) (k := 3) (j := 0) (by rw [hecx1]; decide) rfl
    (by decide) rfl fun i hi => absurd hi (Nat.not_lt_zero i)
  obtain ⟨h3, hecx3⟩ := bootRow h2 (v := 0xc00f) (k := 0x07FB) (j := 510)
    (by rw [hecx2]; decide) rfl
    (by decide) rfl fun i hi => hrow 512 _ (by omega) (by omega) (Or.inr rfl)
  obtain ⟨h4, hecx4⟩ := bootRow h3 (v := 0xc00f) (k := 3) (j := 0) (by rw [hecx3]; decide) rfl
    (by decide) rfl fun i hi => absurd hi (Nat.not_lt_zero i)
  obtain ⟨h5, hecx5⟩ := bootRow h4 (v := 0xd00f) (k := 0x07FF) (j := 511)
    (by rw [hecx4]; decide) rfl
    (by decide) rfl fun i hi => by
      unfold bootQuad
      rw [if_neg (by omega), if_neg (by omega), if_pos (by omega), if_neg (by omega)]
  unfold bootTables
  refine bootPages_run 1023 (j := 0) rfl (by decide) ⟨h5.edi, h5.quads, h5.frame⟩ ?_ rfl
  show (setWord _ 0x400).toNat = _
  rw [hecx5]
  rfl

/-- The four tables are in memory. -/
def BootFrames (mem : Frame → Page) : Prop :=
  ∀ t, t < 4 → ∀ i,
    mem (BitVec.ofNat 40 (0xA + t)) i = BitVec.ofNat 64 (bootQuad (512 * t + i.toNat))

theorem Laid.frames (h : Laid m₀ bootQuad 2560 s) : BootFrames (framesOf s.mem) := by
  intro t ht i
  have hi := i.isLt
  have hquad := h.quads (512 * t + i.toNat) (by omega)
  unfold framesOf
  rw [BitVec.toNat_ofNat, Nat.mod_eq_of_lt (by omega),
    show 0x1000 * (0xA + t) + 8 * i.toNat = 0xA000 + 8 * (512 * t + i.toNat) by omega, hquad]

/-- Entry `i` of the lowest table: page `i`, for all kinds of access. -/
theorem bootQuad_page {i : Nat} (hi : i < 512) :
    BitVec.ofNat 64 (0xf + 0x1000 * i) = pteOf (BitVec.ofNat 64 (0x1000 * i)) 0xf := by
  have haddr : (BitVec.ofNat 64 (0x1000 * i)).toNat = 0x1000 * i := by
    rw [BitVec.toNat_ofNat]
    exact Nat.mod_eq_of_lt (by omega)
  unfold pteOf
  rw [frameAddr_frameOf (by rw [haddr]; omega) (by rw [haddr]; omega)]
  apply BitVec.eq_of_toNat_eq
  rw [BitVec.toNat_or, haddr, BitVec.toNat_ofNat, Nat.mod_eq_of_lt (by omega)]
  show 0xf + 0x1000 * i = 0x1000 * i ||| 0xf
  rw [show 0x1000 * i = i <<< 12 by rw [Nat.shiftLeft_eq]; omega,
    ← Nat.shiftLeft_add_eq_or_of_lt (by decide), Nat.add_comm]

/-- The entry for a virtual address. -/
theorem bootTranslate_eq {mem : Frame → Page} (h : BootFrames mem) (v : BitVec 64) :
    bootTranslate mem v =
      if ((linearIndex 3 v).toNat = 0 ∨ (linearIndex 3 v).toNat = 511) ∧
        ((linearIndex 2 v).toNat = 0 ∨ (linearIndex 2 v).toNat = 511) ∧ (linearIndex 1 v).toNat = 0
      then some (pteOf (BitVec.ofNat 64 (0x1000 * (linearIndex 0 v).toNat)) 0xf) else none := by
  have h3 := (linearIndex 3 v).isLt
  have h2 := (linearIndex 2 v).isLt
  have h1 := (linearIndex 1 v).isLt
  have h0 := (linearIndex 0 v).isLt
  have hpml4 := h 0 (by decide)
  have hpdp := h 1 (by decide)
  have hpd := h 2 (by decide)
  have hpt := h 3 (by decide)
  have hnone : Pte.next (BitVec.ofNat 64 0) = none := rfl
  unfold bootTranslate lookup tablePath
  rw [show (0xA : Frame) = BitVec.ofNat 40 (0xA + 0) from rfl, follow_cons, hpml4, bootQuad,
    if_pos (by omega)]
  by_cases hi3 : (linearIndex 3 v).toNat = 0 ∨ (linearIndex 3 v).toNat = 511
  swap
  · rw [if_neg (by omega), if_neg (by omega), hnone]
    rfl
  rw [if_pos (by omega), show Pte.next (BitVec.ofNat 64 0xb00f) = some (BitVec.ofNat 40 (0xA + 1))
    from rfl, Option.bind_some, follow_cons, hpdp, bootQuad, if_neg (by omega), if_pos (by omega)]
  by_cases hi2 : (linearIndex 2 v).toNat = 0 ∨ (linearIndex 2 v).toNat = 511
  swap
  · rw [if_neg (by omega), if_neg (by omega), hnone]
    rfl
  rw [if_pos (by omega), show Pte.next (BitVec.ofNat 64 0xc00f) = some (BitVec.ofNat 40 (0xA + 2))
    from rfl, Option.bind_some, follow_cons, hpd, bootQuad, if_neg (by omega), if_neg (by omega),
    if_pos (by omega)]
  by_cases hi1 : (linearIndex 1 v).toNat = 0
  swap
  · rw [if_neg (by omega), if_neg (by omega), hnone]
    rfl
  rw [if_pos (by omega), show Pte.next (BitVec.ofNat 64 0xd00f) = some (BitVec.ofNat 40 (0xA + 3))
    from rfl, Option.bind_some, follow_nil, Option.bind_some, hpt, bootQuad, if_neg (by omega),
    if_neg (by omega), if_neg (by omega), if_pos ⟨hi3, hi2, hi1⟩,
    show 512 * 3 + (linearIndex 0 v).toNat - 1536 = (linearIndex 0 v).toNat by omega]
  have hpresent : (pteOf (BitVec.ofNat 64 (0x1000 * (linearIndex 0 v).toNat)) 0xf).present =
      true := by
    rw [Pte.present, pteOf_getLsbD _ _ (by omega)]
    rfl
  rw [bootQuad_page h0, Pte.next, if_pos hpresent]
  rfl

/-- The four windows of 2 MiB. -/
def bootWindow (v : BitVec 64) : Prop :=
  v.toNat % 2 ^ 30 < 0x200000 ∧
    (v.toNat < 2 ^ 30 ∨ (0x7FC0000000 ≤ v.toNat ∧ v.toNat < 0x8000000000) ∨
      (0xFFFFFF8000000000 ≤ v.toNat ∧ v.toNat < 0xFFFFFF8040000000) ∨
      0xFFFFFFFFC0000000 ≤ v.toNat)

/-- The windows are mapped, and nothing else is: each to the first 2 MiB, to be written, and for
user code as well, which takes every entry of the walk. -/
structure BootWindows (mem : Frame → Page) : Prop where
  mapped : ∀ v, canonical v = true → ((bootTranslate mem v).isSome ↔ bootWindow v)
  entry : ∀ v e, canonical v = true → bootTranslate mem v = some e →
    (frameAddr e.address).toNat + (pageOffset v).toNat = v.toNat % 0x200000 ∧
    e.present = true ∧ e.writable = true ∧ e.r3Access = true
  way : ∀ v p i f, canonical v = true → bootWindow v → (p ++ [i]) <+: pagePath v →
    follow Pte.next mem 0xA p = some f →
    (mem f i).present = true ∧ (mem f i).writable = true ∧ (mem f i).r3Access = true

theorem bootWindow_iff {v : BitVec 64} (hcan : canonical v = true) :
    bootWindow v ↔ ((linearIndex 3 v).toNat = 0 ∨ (linearIndex 3 v).toNat = 511) ∧
      ((linearIndex 2 v).toNat = 0 ∨ (linearIndex 2 v).toNat = 511) ∧
      (linearIndex 1 v).toNat = 0 := by
  have hv := v.isLt
  have h3 := linearIndex_toNat 3 v
  have h2 := linearIndex_toNat 2 v
  have h1 := linearIndex_toNat 1 v
  unfold canonical at hcan
  rw [Bool.or_eq_true, decide_eq_true_eq, decide_eq_true_eq] at hcan
  unfold bootWindow
  omega

/-- The walk to a page of the windows goes through the four tables. -/
theorem BootFrames.walk {mem : Frame → Page} (h : BootFrames mem) {v : BitVec 64}
    (hpath : ((linearIndex 3 v).toNat = 0 ∨ (linearIndex 3 v).toNat = 511) ∧
      ((linearIndex 2 v).toNat = 0 ∨ (linearIndex 2 v).toNat = 511) ∧ (linearIndex 1 v).toNat = 0)
    {p : List (BitVec 9)} {i : BitVec 9} {f : Frame} (hpre : (p ++ [i]) <+: pagePath v)
    (hf : follow Pte.next mem 0xA p = some f) :
    mem f i = 0xb00f ∨ mem f i = 0xc00f ∨ mem f i = 0xd00f ∨
      ∃ a, mem f i = pteOf (BitVec.ofNat 64 a) 0xf := by
  have h3 := (linearIndex 3 v).isLt
  have h2 := (linearIndex 2 v).isLt
  have h1 := (linearIndex 1 v).isLt
  obtain ⟨hi3, hi2, hi1⟩ := hpath
  have hpml4 : mem 0xA (linearIndex 3 v) = 0xb00f := by
    refine (h 0 (by decide) _).trans ?_
    rw [bootQuad, if_pos (by omega), if_pos (by omega)]
    rfl
  have hpdp : mem 0xB (linearIndex 2 v) = 0xc00f := by
    refine (h 1 (by decide) _).trans ?_
    rw [bootQuad, if_neg (by omega), if_pos (by omega), if_pos (by omega)]
    rfl
  have hpd : mem 0xC (linearIndex 1 v) = 0xd00f := by
    refine (h 2 (by decide) _).trans ?_
    rw [bootQuad, if_neg (by omega), if_neg (by omega), if_pos (by omega), if_pos (by omega)]
    rfl
  -- each step of the walk takes the next index of the path
  rcases p with _ | ⟨i₃, p⟩
  · obtain ⟨rfl, -⟩ := List.cons_prefix_cons.mp hpre
    cases hf
    exact Or.inl hpml4
  obtain ⟨rfl, hpre₁⟩ := List.cons_prefix_cons.mp hpre
  rw [follow_cons, hpml4, show Pte.next 0xb00f = some 0xB from rfl, Option.bind_some] at hf
  rcases p with _ | ⟨i₂, p⟩
  · obtain ⟨rfl, -⟩ := List.cons_prefix_cons.mp hpre₁
    cases hf
    exact Or.inr (Or.inl hpdp)
  obtain ⟨rfl, hpre₂⟩ := List.cons_prefix_cons.mp hpre₁
  rw [follow_cons, hpdp, show Pte.next 0xc00f = some 0xC from rfl, Option.bind_some] at hf
  rcases p with _ | ⟨i₁, p⟩
  · obtain ⟨rfl, -⟩ := List.cons_prefix_cons.mp hpre₂
    cases hf
    exact Or.inr (Or.inr (Or.inl hpd))
  obtain ⟨rfl, hpre₃⟩ := List.cons_prefix_cons.mp hpre₂
  rw [follow_cons, hpd, show Pte.next 0xd00f = some 0xD from rfl, Option.bind_some] at hf
  rcases p with _ | ⟨i₀, p⟩
  · have hi := i.isLt
    cases hf
    refine Or.inr (Or.inr (Or.inr ⟨0x1000 * i.toNat, (h 3 (by decide) i).trans ?_⟩))
    rw [bootQuad, if_neg (by omega), if_neg (by omega), if_neg (by omega), Nat.add_sub_cancel_left,
      bootQuad_page hi]
  · have hnil : p ++ [i] = [] := List.prefix_nil.mp (List.cons_prefix_cons.mp hpre₃).2
    cases p <;> cases hnil

/-- What the four tables map. -/
theorem BootFrames.windows {mem : Frame → Page} (h : BootFrames mem) : BootWindows mem := by
  refine ⟨fun v hcan => ?_, fun v e hcan he => ?_, fun v p i f hcan hwin hpre hf => ?_⟩
  · rw [bootTranslate_eq h v, bootWindow_iff hcan]
    split
    · exact iff_of_true rfl (by assumption)
    · exact iff_of_false (by decide) (by assumption)
  · rw [bootTranslate_eq h v] at he
    split at he
    swap
    · cases he
    rename_i hpath
    cases he
    have h0 := (linearIndex 0 v).isLt
    have hindex := linearIndex_toNat 0 v
    have hindex1 := linearIndex_toNat 1 v
    have hoffset := pageOffset_toNat v
    have haddr : (BitVec.ofNat 64 (0x1000 * (linearIndex 0 v).toNat)).toNat =
        0x1000 * (linearIndex 0 v).toNat := by
      rw [BitVec.toNat_ofNat]
      exact Nat.mod_eq_of_lt (by omega)
    refine ⟨?_, ?_, ?_, ?_⟩
    · rw [Pte.address_pteOf, frameAddr_frameOf (by rw [haddr]; omega) (by rw [haddr]; omega), haddr]
      omega
    · rw [Pte.present, pteOf_getLsbD _ _ (by omega)]
      rfl
    · rw [Pte.writable, pteOf_getLsbD _ _ (by omega)]
      rfl
    · rw [Pte.r3Access, pteOf_getLsbD _ _ (by omega)]
      rfl
  · rcases h.walk ((bootWindow_iff hcan).mp hwin) hpre hf with he | he | he | ⟨a, he⟩
    · rw [he]
      decide
    · rw [he]
      decide
    · rw [he]
      decide
    · rw [he, Pte.present, Pte.writable, Pte.r3Access, pteOf_getLsbD _ _ (by omega),
        pteOf_getLsbD _ _ (by omega), pteOf_getLsbD _ _ (by omega)]
      exact ⟨rfl, rfl, rfl⟩

/-- Where `cpuid` leaves nothing in the upper half of `%ecx`, the tables map the windows. -/
theorem boot_windows (s : Boot32) (hecx : s.ecx.toNat < 2 ^ 16) :
    BootWindows (framesOf (bootTables s).mem) :=
  (bootTables_filled hecx).frames.windows

end Tables

/-- A processor that has no such extensions. -/
theorem boot_windows_plain :
    BootWindows (framesOf (bootTables ⟨0x80000001, 0x1F3, 0, fun _ => 0xFF⟩).mem) :=
  boot_windows _ (by decide)

/-! ## Something in the upper half -/

section Upper

variable {s : Boot32} {m₀ : ByteMem} {a b : Nat}

/-- The code has come to an address from `a` to `b`, and memory in front of `a` is `m₀`. -/
structure Past (m₀ : ByteMem) (a b : Nat) (s : Boot32) : Prop where
  low : a ≤ s.edi.toNat
  high : s.edi.toNat ≤ b
  frame : ∀ x, x < a → s.mem x = m₀ x

theorem Past.row {v k : BitVec 16} (h : Past m₀ a b s) (hecx : s.ecx = 0)
    (hfit : b + 2 + 2 * k.toNat < 2 ^ 32) :
    Past m₀ a (b + 2 + 2 * k.toNat) (bootZeros k (bootEntry v s)) ∧
      (bootZeros k (bootEntry v s)).ecx = 0 := by
  have hlow := h.low
  have hhigh := h.high
  obtain ⟨hecx', hedi, hmem⟩ := bootZeros_spec v k s (c := k.toNat)
    (by rw [hecx]; show 0 / 2 ^ 16 * 2 ^ 16 + k.toNat = k.toNat; omega) (by omega)
  refine ⟨⟨by omega, by omega, fun x hx => ?_⟩, hecx'⟩
  rw [hmem x, if_neg (by omega), ByteMem.write_apply_out (by omega)]
  exact h.frame x hx

theorem Past.page (h : Past m₀ a b s) (hfit : b + 8 < 2 ^ 32) : Past m₀ a (b + 8) (bootPage s) := by
  have hlow := h.low
  have hhigh := h.high
  have hfour : (s.edi + 4).toNat = s.edi.toNat + 4 := by
    rw [BitVec.toNat_add]
    exact Nat.mod_eq_of_lt (by show s.edi.toNat + 4 < _; omega)
  have height : (s.edi + 4 + 4).toNat = s.edi.toNat + 8 := by
    rw [BitVec.toNat_add, hfour]
    exact Nat.mod_eq_of_lt (by show s.edi.toNat + 4 + 4 < _; omega)
  refine ⟨?_, ?_, fun x hx => ?_⟩
  · show a ≤ (s.edi + 4 + 4).toNat
    omega
  · show (s.edi + 4 + 4).toNat ≤ b + 8
    omega
  · show ((s.mem.write s.edi.toNat 4 s.eax.toNat).write (s.edi + 4).toNat 4 0) x = m₀ x
    rw [ByteMem.write_apply_out (by omega), ByteMem.write_apply_out (by omega)]
    exact h.frame x hx

theorem Past.pages (k : Nat) : ∀ {s : Boot32} {b fuel : Nat}, Past m₀ a b s →
    s.ecx.toNat = k + 1 → k + 1 < 2 ^ 16 → k < fuel → b + 8 * (k + 1) < 2 ^ 32 →
    ∀ x, x < a → (bootPages fuel s).mem x = m₀ x := by
  induction k with
  | zero =>
    intro s b fuel h hecx hk hfuel hfit
    obtain ⟨fuel, rfl⟩ : ∃ f, fuel = f + 1 := ⟨fuel - 1, by omega⟩
    rw [bootPages, if_neg fun hmore => (bootPage_ecx hecx hk).2.mp hmore rfl]
    exact (h.page (by omega)).frame
  | succ k ih =>
    intro s b fuel h hecx hk hfuel hfit
    obtain ⟨fuel, rfl⟩ : ∃ f, fuel = f + 1 := ⟨fuel - 1, by omega⟩
    obtain ⟨hecx', hmore⟩ := bootPage_ecx hecx hk
    rw [bootPages, if_pos (hmore.mpr k.succ_ne_zero)]
    exact ih (h.page (by omega)) hecx' (by omega) (by omega) (by omega)

/-- What follows the first row goes on behind it, and leaves alone what is in front. -/
theorem bootTables_behind {s₁ : Boot32} (hs₁ : bootZeros 0x07FB
      (bootEntry 0xb00f { s with eax := 0, edi := setWord 0 0xA000 }) = s₁)
    (hecx : s₁.ecx = 0) (hlow : a ≤ s₁.edi.toNat) (hhigh : s₁.edi.toNat + 0x4008 < 2 ^ 32) :
    ∀ x, x < a → (bootTables s).mem x = s₁.mem x := by
  have h₁ : Past s₁.mem a s₁.edi.toNat s₁ := ⟨hlow, Nat.le_refl _, fun _ _ => rfl⟩
  have hthree : (3 : BitVec 16).toNat = 3 := rfl
  have hlong : (0x07FB : BitVec 16).toNat = 0x7FB := rfl
  have hlast : (0x07FF : BitVec 16).toNat = 0x7FF := rfl
  obtain ⟨h₂, hecx₂⟩ := h₁.row (v := 0xb00f) (k := 3) hecx (by omega)
  obtain ⟨h₃, hecx₃⟩ := h₂.row (v := 0xc00f) (k := 0x07FB) hecx₂ (by omega)
  obtain ⟨h₄, hecx₄⟩ := h₃.row (v := 0xc00f) (k := 3) hecx₃ (by omega)
  obtain ⟨h₅, hecx₅⟩ := h₄.row (v := 0xd00f) (k := 0x07FF) hecx₄ (by omega)
  unfold bootTables
  dsimp only
  rw [hs₁]
  refine Past.pages 1023 ⟨h₅.low, h₅.high, h₅.frame⟩ ?_ (by decide) (by decide) (by omega)
  show (setWord _ 0x400).toNat = _
  rw [hecx₅]
  rfl

/-- With less than `2 ^ 31` there, `rep stosw` runs on over what becomes the second table, and the
code goes on behind that. -/
theorem bootTables_upper (hecx : 2 ^ 16 ≤ s.ecx.toNat) (hlt : s.ecx.toNat < 2 ^ 31) :
    bootTranslate (framesOf (bootTables s).mem) 0 = none := by
  obtain ⟨hecx₁, hedi₁, hmem₁⟩ := bootZeros_spec 0xb00f 0x07FB
    { s with eax := 0, edi := setWord 0 0xA000 } (c := s.ecx.toNat / 2 ^ 16 * 2 ^ 16 + 0x7FB) rfl
    (by show 0xA000 + 2 + 2 * (s.ecx.toNat / 2 ^ 16 * 2 ^ 16 + 0x7FB) < _; omega)
  rw [show (setWord 0 0xA000).toNat = 0xA000 from rfl] at hedi₁ hmem₁
  generalize hs₁ :
    bootZeros 0x07FB (bootEntry 0xb00f { s with eax := 0, edi := setWord 0 0xA000 }) = s₁
    at hecx₁ hedi₁ hmem₁
  have hkept := bootTables_behind (a := 0xC000) hs₁ hecx₁ (by omega) (by omega)
  have hpdp : framesOf (bootTables s).mem 0xB 0 = 0 := by
    show BitVec.ofNat 64 ((bootTables s).mem.read 0xB000 8) = 0
    have hzero : (bootTables s).mem.read 0xB000 8 = (s₁.mem.write 0xB000 8 0).read 0xB000 8 := by
      refine ByteMem.read_congr 8 fun x hx hx' => ?_
      rw [hkept x (by omega), hmem₁ x, if_pos (by omega), ByteMem.write, if_pos ⟨hx, hx'⟩,
        Nat.zero_div]
      rfl
    rw [hzero, ByteMem.read_write_same]
    rfl
  have hpml4 : framesOf (bootTables s).mem 0xA 0 = 0xb00f := by
    show BitVec.ofNat 64 ((bootTables s).mem.read 0xA000 8) = _
    have hentry :
        (bootTables s).mem.read 0xA000 8 = (s.mem.write 0xA000 8 0xb00f).read 0xA000 8 := by
      refine ByteMem.read_congr 8 fun x hx hx' => ?_
      rw [hkept x (by omega), hmem₁ x]
      unfold ByteMem.write
      rw [if_pos (show 0xA000 ≤ x ∧ x < 0xA000 + 8 from ⟨hx, hx'⟩)]
      by_cases hlow : x < 0xA000 + 2
      · rw [if_neg (by omega), if_pos (by omega)]
        rfl
      · have hpow : 256 ^ 2 ≤ 256 ^ (x - 0xA000) := Nat.pow_le_pow_right (by decide) (by omega)
        rw [if_pos (by omega), Nat.div_eq_of_lt (by omega)]
        rfl
    rw [hentry, ByteMem.read_write_same]
    rfl
  unfold bootTranslate lookup
  rw [show tablePath 0 = [0, 0, 0] from rfl, follow_cons, hpml4,
    show Pte.next 0xb00f = some 0xB from rfl, Option.bind_some, follow_cons, hpdp]
  rfl

/-- With more there, `rep stosw` comes round to the first entry. -/
theorem bootTables_round (hecx : 2 ^ 31 ≤ s.ecx.toNat) :
    bootTranslate (framesOf (bootTables s).mem) 0 = none := by
  have hlt := s.ecx.isLt
  have hcount : (setWord s.ecx 0x07FB).toNat = s.ecx.toNat / 2 ^ 16 * 2 ^ 16 + 0x7FB :=
    setWord_toNat s.ecx 0x07FB
  have heven : (0xA002 : BitVec 32).toNat % 2 = 0 := by decide
  obtain ⟨hecx₁, hedi₁, hmem₁⟩ := repStosw_wraps (setWord s.ecx 0x07FB).toNat
    (s := ⟨setWord (setWord 0 0xb00f) 0, setWord s.ecx 0x07FB, 0xA002,
      s.mem.write 0xA000 2 0xb00f⟩) (setWord_low _ 0) heven
  have hs₁ : bootZeros 0x07FB (bootEntry 0xb00f { s with eax := 0, edi := setWord 0 0xA000 }) =
      repStosw (setWord s.ecx 0x07FB).toNat ⟨setWord (setWord 0 0xb00f) 0, setWord s.ecx 0x07FB,
        0xA002, s.mem.write 0xA000 2 0xb00f⟩ := by
    unfold bootZeros bootEntry stosw
    dsimp only
    rw [setWord_low]
    rfl
  dsimp only at hedi₁ hmem₁
  generalize repStosw (setWord s.ecx 0x07FB).toNat ⟨setWord (setWord 0 0xb00f) 0,
    setWord s.ecx 0x07FB, 0xA002, s.mem.write 0xA000 2 0xb00f⟩ = s₁ at hecx₁ hedi₁ hmem₁ hs₁
  rw [hcount, show (0xA002 : BitVec 32).toNat = 0xA002 from rfl] at hedi₁ hmem₁
  have hkept := bootTables_behind (a := 0xA008) hs₁ hecx₁ (by omega) (by omega)
  have hpml4 : framesOf (bootTables s).mem 0xA 0 = 0 := by
    show BitVec.ofNat 64 ((bootTables s).mem.read 0xA000 8) = 0
    have hzero : (bootTables s).mem.read 0xA000 8 = (s.mem.write 0xA000 8 0).read 0xA000 8 := by
      refine ByteMem.read_congr 8 fun x hx hx' => ?_
      rw [hkept x (by omega), hmem₁ x (by omega), if_pos (by omega), ByteMem.write, if_pos ⟨hx, hx'⟩,
        Nat.zero_div]
      rfl
    rw [hzero, ByteMem.read_write_same]
    rfl
  unfold bootTranslate lookup
  rw [show tablePath 0 = [0, 0, 0] from rfl, follow_cons, hpml4]
  rfl

/-- The first page is mapped just when nothing is there. -/
theorem boot_first_page_iff (s : Boot32) :
    (bootTranslate (framesOf (bootTables s).mem) 0).isSome ↔ s.ecx.toNat < 2 ^ 16 := by
  constructor
  · intro hmapped
    by_contra hupper
    have hnone : bootTranslate (framesOf (bootTables s).mem) 0 = none := by
      by_cases hlt : s.ecx.toNat < 2 ^ 31
      · exact bootTables_upper (by omega) hlt
      · exact bootTables_round (by omega)
    rw [hnone] at hmapped
    cases hmapped
  · intro hecx
    exact ((bootTables_filled hecx).frames.windows.mapped 0 rfl).mpr ⟨by decide, Or.inl (by decide)⟩

end Upper

/-! ## The kernel's own tables -/

section Switch

variable {last : BitVec 64}

/-- The entry for a virtual address in the tables of `page_init`. -/
theorem pageInitRun_translate (hal : last.toNat % 0x1000 = 0) (hlo : 0xB8000 ≤ last.toNat)
    (hhi : last.toNat + 0x4000 ≤ 0x200000) (s : PageState) (v : BitVec 64) :
    (pageInitRun last s).1.translate (pageInitRun last s).1.root v =
      if tablePath v = kernelPath ∧ 0xB8 ≤ (linearIndex 0 v).toNat ∧
        (linearIndex 0 v).toNat * 0x1000 < last.toNat + 0x4000
      then some (calcPage (BitVec.ofNat 64 ((linearIndex 0 v).toNat * 0x1000))) else none := by
  have h : LastPage last := ⟨hal, by omega, by omega⟩
  have hkept := pageInit_entry h hhi hlo s (linearIndex 0 v)
  rw [pageInitRun_eq h]
  show (pageInit last s).translate (pageInit last s).root v = _
  rw [tableChain_translate (pageInit_chain h s), hkept]
  by_cases hpath : tablePath v = kernelPath
  · rw [if_pos hpath]
    by_cases hj : 0xB8 ≤ (linearIndex 0 v).toNat ∧
        (linearIndex 0 v).toNat * 0x1000 < last.toNat + 0x4000
    · rw [if_pos hj, if_pos ⟨hpath, hj⟩, Pte.next_eq_some.mpr ⟨(calcPage_spec _).2.1, rfl⟩]
      rfl
    · rw [if_neg hj, if_neg fun hall => hj hall.2]
      rfl
  · rw [if_neg hpath, if_neg fun hall => hpath hall.1]

/-- Where `page_init` loads its tables, the first ones still stand, and show each page that the new
ones show at the same place: the code that loads them goes on. -/
theorem boot_to_page_init {b : Boot32} (hecx : b.ecx.toNat < 2 ^ 16)
    (hal : last.toNat % 0x1000 = 0) (hlo : 0xB8000 ≤ last.toNat)
    (hhi : last.toNat + 0x4000 ≤ 0x200000) {s : PageState}
    (hmem : ∀ t, t < 4 → s.mem (BitVec.ofNat 40 (0xA + t)) =
      framesOf (bootTables b).mem (BitVec.ofNat 40 (0xA + t)))
    {v : BitVec 64} {e : Pte}
    (he : (pageInitRun last s).1.translate (pageInitRun last s).1.root v = some e) :
    ∃ e', bootTranslate (pageInitRun last s).1.mem v = some e' ∧ e'.address = e.address ∧
      e'.writable = true := by
  have h : LastPage last := ⟨hal, by omega, by omega⟩
  have hframes : BootFrames (pageInitRun last s).1.mem := by
    intro t ht i
    obtain ⟨h1, h2, h3, h0⟩ := h.frames
    have hat : (BitVec.ofNat 40 (0xA + t)).toNat = 0xA + t := by
      rw [BitVec.toNat_ofNat]
      exact Nat.mod_eq_of_lt (by omega)
    have hne {f : Frame} (hf : (frameOf last).toNat ≤ f.toNat) : BitVec.ofNat 40 (0xA + t) ≠ f := by
      intro heq
      rw [← heq, hat] at hf
      omega
    rw [pageInitRun_eq h]
    show (pageInit last s).mem _ i = _
    rw [pageInit_mem, h.identityLoop_upper (by rw [hat]; omega),
      setPage_other (hne (by omega)), setPage_other (hne (by omega)),
      setPage_other (hne (by omega)), setPage_other (hne (by omega)), hmem t ht]
    exact (bootTables_filled hecx).frames t ht i
  rw [pageInitRun_translate hal hlo hhi] at he
  split at he
  swap
  · cases he
  rename_i hin
  cases he
  obtain ⟨h3, h2, h1⟩ : linearIndex 3 v = 511 ∧ linearIndex 2 v = 511 ∧ linearIndex 1 v = 0 := by
    simpa [tablePath, kernelPath] using hin.1
  rw [bootTranslate_eq hframes, h3, h2, h1, if_pos ⟨Or.inr rfl, Or.inr rfl, rfl⟩]
  refine ⟨_, rfl, ?_, ?_⟩
  · rw [Pte.address_pteOf, (calcPage_spec _).1, Nat.mul_comm]
  · rw [Pte.writable, pteOf_getLsbD _ _ (by omega)]
    rfl

/-- The machine when `page_init` is called, with nothing but the tables in memory. -/
def bootedState : PageState :=
  ⟨framesOf (bootTables ⟨0, 0, 0, fun _ => 0⟩).mem, bootPhys, 0, 0, 0, 0, true⟩

/-- A kernel that ends at `0x150000`, and the address of its first page. -/
theorem boot_to_page_init_small :
    ∃ e', bootTranslate (pageInitRun 0x150000 bootedState).1.mem 0xFFFFFFFFC0100000 = some e' ∧
      e'.address = (calcPage (BitVec.ofNat 64 (256 * 0x1000))).address ∧ e'.writable = true := by
  have hindex : (linearIndex 0 0xFFFFFFFFC0100000).toNat = 256 := by decide
  have he := @pageInitRun_translate 0x150000 (by decide) (by decide) (by decide) bootedState
    0xFFFFFFFFC0100000
  rw [hindex, if_pos (by decide)] at he
  exact @boot_to_page_init 0x150000 ⟨0, 0, 0, fun _ => 0⟩ (by decide) (by decide) (by decide)
    (by decide) bootedState (fun _ _ => rfl) _ _ he

end Switch

end OS64.X86
