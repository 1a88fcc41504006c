import Mathlib.Data.BitVec

/-!
# Bit fields

A word that is put together from fields by masks and shifts is taken apart field by field:
`extractLsb'` goes through `|||`, and what it finds behind a mask or a shift is the field of the
word in front of it, moved, or nothing. Whether a mask keeps a field is a closed question.
-/

namespace OS64.Lib

variable {n k : Nat} {x m : BitVec n} {a t : Nat}

/-- A mask that keeps the field. -/
theorem extract_and_ones (h : m.extractLsb' a k = BitVec.allOnes k) :
    (x &&& m).extractLsb' a k = x.extractLsb' a k := by
  rw [BitVec.extractLsb'_and, h, BitVec.and_allOnes]

/-- A mask that has nothing of the field. -/
theorem extract_and_zero (h : m.extractLsb' a k = 0#k) : (x &&& m).extractLsb' a k = 0#k := by
  rw [BitVec.extractLsb'_and, h]
  exact BitVec.and_zero

/-- A word has nothing where its mask has nothing. -/
theorem extract_of_masked (hx : x &&& m = x) (h : m.extractLsb' a k = 0#k) : x.extractLsb' a k = 0#k := by
  rw [← hx]
  exact extract_and_zero h

/-- A field of a shifted word. -/
theorem extract_shiftLeft (h : t ≤ a) (hin : a + k ≤ n) :
    (x <<< t).extractLsb' a k = x.extractLsb' (a - t) k := by
  apply BitVec.eq_of_getLsbD_eq
  intro i hi
  have hsub : a + i - t = a - t + i := by omega
  have hlt : a + i < n := by omega
  have hge : ¬ a + i < t := by omega
  rw [BitVec.getLsbD_extractLsb', BitVec.getLsbD_extractLsb', BitVec.getLsbD_shiftLeft, hsub,
    decide_eq_true hlt, decide_eq_false hge]
  rfl

/-- A field below what was shifted. -/
theorem extract_shiftLeft_low (h : a + k ≤ t) : (x <<< t).extractLsb' a k = 0#k := by
  apply BitVec.eq_of_getLsbD_eq
  intro i hi
  have hlt : a + i < t := by omega
  simp [BitVec.getLsbD_extractLsb', BitVec.getLsbD_shiftLeft, hlt]

theorem extract_shiftRight : (x >>> t).extractLsb' a k = x.extractLsb' (t + a) k := by
  apply BitVec.eq_of_getLsbD_eq
  intro i hi
  simp [BitVec.getLsbD_extractLsb', BitVec.getLsbD_ushiftRight, Nat.add_assoc]

end OS64.Lib
