import Mathlib.Algebra.Group.Nat.Defs
import Mathlib.Data.BitVec

/-!
# Numbers kept in an `int`

A 64-bit number that is kept in 32 bits and widened again comes back with its sign extended. It
keeps its low half when bit 31 is clear and is huge when it is not (`int_widened`), so that just
the numbers that are small, of either sign, come back as they were (`int_kept_iff`).
-/

namespace OS64.Lib

variable (w : BitVec 64)

/-- What comes back, as a number. -/
theorem int_toNat : ((w.setWidth 32).signExtend 64).toNat =
    w.toNat % 2 ^ 32 + if 2 ^ 31 ≤ w.toNat % 2 ^ 32 then 2 ^ 64 - 2 ^ 32 else 0 := by
  have hlow : (w.setWidth 32).toNat = w.toNat % 2 ^ 32 := BitVec.toNat_setWidth _ _
  have hmsb : (w.setWidth 32).msb = decide (2 ^ 31 ≤ w.toNat % 2 ^ 32) := by
    rw [BitVec.msb_eq_decide, hlow]
  rw [BitVec.toNat_signExtend, BitVec.toNat_setWidth, hlow, hmsb, Nat.mod_eq_of_lt (by omega)]
  simp only [decide_eq_true_eq]

/-- A number kept in an `int` and widened again: it keeps its low half when bit 31 is
clear, and is huge when it is not. -/
theorem int_widened :
    (w.toNat % 2 ^ 32 < 2 ^ 31 → ((w.setWidth 32).signExtend 64).toNat = w.toNat % 2 ^ 32) ∧
    (2 ^ 31 ≤ w.toNat % 2 ^ 32 → 2 ^ 64 - 2 ^ 31 ≤ ((w.setWidth 32).signExtend 64).toNat) := by
  constructor
  · intro hlt
    rw [int_toNat, if_neg (by omega)]
    rfl
  · intro hge
    rw [int_toNat, if_pos hge]
    omega

/-- The numbers that an `int` keeps. -/
theorem int_kept_iff :
    (w.setWidth 32).signExtend 64 = w ↔ w.toNat < 2 ^ 31 ∨ 2 ^ 64 - 2 ^ 31 ≤ w.toNat := by
  have hw := w.isLt
  rw [← BitVec.toNat_inj, int_toNat]
  by_cases hbit : 2 ^ 31 ≤ w.toNat % 2 ^ 32
  · rw [if_pos hbit]
    omega
  · rw [if_neg hbit]
    omega

/-- A value of an `int` that is not 0 is not 0 when it is widened. -/
theorem int_ne_zero {i : BitVec 32} (hi : i ≠ 0) : i.signExtend 64 ≠ 0 := by
  intro h
  have hint := congrArg BitVec.toInt h
  rw [BitVec.toInt_signExtend_of_le (by decide)] at hint
  exact hi (BitVec.eq_of_toInt_eq hint)

end OS64.Lib
