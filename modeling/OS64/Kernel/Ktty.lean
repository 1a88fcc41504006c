import OS64.Lib.ByteMem
import OS64.Lib.Terminal
import Mathlib.Data.BitVec

/-!
# The text console

The screen is a piece of memory from `screen_base` on, 25 rows of 80 cells, each a character and
its attribute. `ktty_putc` writes at `screen_pos`, counted in cells, and as soon as the position
has left the screen, `ktty_shift` copies every row to the one above it, byte by byte from the
first on, and goes back to the last row.

`console_shows_tail` compares it with a terminal that has all rows.
-/

namespace OS64.Kernel

open OS64.Lib

/-- `SCREEN_HEIGHT`. -/
def screenHeight : Nat := 25

/-- `SCREEN_WIDTH`. -/
def screenWidth : Nat := 80

/-- `SCREEN_SIZE`. -/
def screenSize : Nat := screenHeight * screenWidth

/-- The memory, and `screen_pos` and `ktty_attribute`. -/
structure Ktty where
  mem : ByteMem
  pos : Nat
  kttyAttribute : BitVec 8

/-- `*((uint8_t *)a) = b`. -/
def poke (m : ByteMem) (a : Nat) (b : BitVec 8) : ByteMem := fun x => if x = a then b else m x

section Code

variable (base : Nat)

/-- The loops that clear, with `n` rounds left from `i` on. -/
def clearLoop : Nat → Nat → ByteMem → ByteMem
  | 0, _, m => m
  | n + 1, i, m => clearLoop n (i + 1) (poke m (base + i) 0)

/-- The loop that copies, with `n` rounds left from `i` on. -/
def shiftLoop : Nat → Nat → ByteMem → ByteMem
  | 0, _, m => m
  | n + 1, i, m => shiftLoop n (i + 1) (poke m (base + i) (m (base + i + screenWidth * 2)))

/-- `ktty_clear`. -/
def kttyClear (k : Ktty) : Ktty :=
  { k with mem := clearLoop base (screenSize * 2) 0 k.mem, pos := 0 }

/-- `ktty_shift`. -/
def kttyShift (k : Ktty) : Ktty :=
  { k with
    mem := clearLoop base (screenWidth * 2) ((screenSize - screenWidth) * 2)
      (shiftLoop base ((screenSize - screenWidth) * 2) 0 k.mem)
    pos := screenSize - screenWidth }

/-- The `switch` of `ktty_putc`. -/
def kttyWrite (k : Ktty) (c : BitVec 8) : Ktty :=
  if c = 0x0A then
    { k with pos := k.pos + screenWidth - (k.pos + screenWidth) % screenWidth }
  else
    { k with
      mem := poke (poke k.mem (base + k.pos * 2) c) (base + k.pos * 2 + 1) k.kttyAttribute
      pos := k.pos + 1 }

/-- `ktty_putc`. -/
def kttyPutc (k : Ktty) (c : BitVec 8) : Ktty :=
  if screenSize ≤ (kttyWrite base k c).pos then kttyShift base (kttyWrite base k c)
  else kttyWrite base k c

/-- `ktty_puts`. -/
def kttyPuts (k : Ktty) (s : List (BitVec 8)) : Ktty := s.foldl (kttyPutc base) k

end Code

/-- A cell of the screen. -/
def cellAt (base : Nat) (m : ByteMem) (r c : Nat) : BitVec 8 × BitVec 8 :=
  (m (base + 2 * (screenWidth * r + c)), m (base + 2 * (screenWidth * r + c) + 1))

/-- What the terminal makes of a character. -/
def terminalPutc (attr : BitVec 8) (t : Terminal (BitVec 8 × BitVec 8)) (c : BitVec 8) :
    Terminal (BitVec 8 × BitVec 8) :=
  if c = 0x0A then t.newline else t.put screenWidth (c, attr)

/-! ## The loops -/

section Loops

variable {base : Nat}

theorem clearLoop_apply (x : Nat) : ∀ (n i : Nat) (m : ByteMem),
    clearLoop base n i m x = if base + i ≤ x ∧ x < base + i + n then 0 else m x := by
  intro n
  induction n with
  | zero =>
    intro i m
    rw [if_neg (by omega)]
    rfl
  | succ n ih =>
    intro i m
    rw [clearLoop, ih, poke]
    by_cases hx : x = base + i
    · rw [if_neg (by omega), if_pos hx, if_pos (by omega)]
    · rw [if_neg hx]
      by_cases hin : base + (i + 1) ≤ x ∧ x < base + (i + 1) + n
      · rw [if_pos hin, if_pos (by omega)]
      · rw [if_neg hin, if_neg (by omega)]

/-- The copy goes upwards, so a byte is read before it is written. -/
theorem shiftLoop_apply (x : Nat) : ∀ (n i : Nat) (m : ByteMem),
    shiftLoop base n i m x =
      if base + i ≤ x ∧ x < base + i + n then m (x + screenWidth * 2) else m x := by
  intro n
  induction n with
  | zero =>
    intro i m
    rw [if_neg (by omega)]
    rfl
  | succ n ih =>
    intro i m
    rw [shiftLoop, ih]
    by_cases hx : x = base + i
    · rw [if_neg (by omega), if_pos (by omega), poke, if_pos hx, hx]
    · by_cases hin : base + (i + 1) ≤ x ∧ x < base + (i + 1) + n
      · rw [if_pos hin, if_pos (by omega), poke, if_neg (by omega)]
      · rw [if_neg hin, if_neg (by omega), poke, if_neg hx]

/-- Behind the shift each byte is that of a row below, or 0 in the last row. -/
theorem kttyShift_apply (k : Ktty) {x : Nat} (h : x < screenSize * 2) :
    (kttyShift base k).mem (base + x) =
      if x < (screenSize - screenWidth) * 2 then k.mem (base + x + screenWidth * 2) else 0 := by
  have hsize : screenSize = 2000 := rfl
  have hwidth : screenWidth = 80 := rfl
  unfold kttyShift
  dsimp only
  rw [clearLoop_apply, shiftLoop_apply]
  by_cases hlast : x < (screenSize - screenWidth) * 2
  · rw [if_neg (by omega), if_pos (by omega), if_pos hlast]
  · rw [if_pos (by omega), if_neg hlast]

end Loops

/-! ## The screen and the terminal -/

/-- The screen shows the rows of the terminal from `T` on. The cursor may have left it, to the
start of the row behind it. -/
structure ShowsFrom (base T : Nat) (k : Ktty) (t : Terminal (BitVec 8 × BitVec 8)) : Prop where
  col : t.col < screenWidth
  above : T ≤ t.row
  below : t.row < T + screenHeight ∨ (t.row = T + screenHeight ∧ t.col = 0)
  pos : k.pos = screenWidth * (t.row - T) + t.col
  shown : ∀ r c, r < screenHeight → c < screenWidth → cellAt base k.mem r c = t.cells (T + r) c
  blank : t.BlankBehind

section Steps

variable {base T : Nat} {k : Ktty} {t : Terminal (BitVec 8 × BitVec 8)}

theorem newline_shows (h : ShowsFrom base T k t) (hrow : t.row < T + screenHeight) :
    ShowsFrom base T (kttyWrite base k 0x0A) t.newline := by
  have hcol := h.col
  have habove := h.above
  have hpos := h.pos
  have hwidth : screenWidth = 80 := rfl
  refine ⟨Nat.succ_pos _, Nat.le_succ_of_le habove, ?_, ?_, h.shown, Terminal.newline_blank h.blank⟩
  · show t.row + 1 < T + screenHeight ∨ (t.row + 1 = T + screenHeight ∧ 0 = 0)
    omega
  · -- the position goes back to the start of the row below
    show k.pos + screenWidth - (k.pos + screenWidth) % screenWidth =
      screenWidth * (t.row + 1 - T) + 0
    have hstart : k.pos + screenWidth = screenWidth * (t.row + 1 - T) + t.col := by
      rw [hpos, Nat.sub_add_comm habove, Nat.mul_succ]
      omega
    rw [hstart, Nat.mul_add_mod, Nat.mod_eq_of_lt hcol]
    omega

theorem put_shows (h : ShowsFrom base T k t) (hrow : t.row < T + screenHeight) {c : BitVec 8}
    (hc : c ≠ 0x0A) :
    ShowsFrom base T (kttyWrite base k c) (t.put screenWidth (c, k.kttyAttribute)) := by
  have hcol := h.col
  have habove := h.above
  have hpos := h.pos
  have hwidth : screenWidth = 80 := rfl
  have hheight : screenHeight = 25 := rfl
  have hwrite : kttyWrite base k c =
      ⟨poke (poke k.mem (base + k.pos * 2) c) (base + k.pos * 2 + 1) k.kttyAttribute, k.pos + 1,
        k.kttyAttribute⟩ := if_neg hc
  have hnext : (t.put screenWidth (c, k.kttyAttribute)).row = t.row ∧
      (t.put screenWidth (c, k.kttyAttribute)).col = t.col + 1 ∧ t.col + 1 < screenWidth ∨
      (t.put screenWidth (c, k.kttyAttribute)).row = t.row + 1 ∧
      (t.put screenWidth (c, k.kttyAttribute)).col = 0 ∧ t.col + 1 = screenWidth := by
    unfold Terminal.put
    dsimp only
    split
    · next hlt => exact Or.inl ⟨rfl, rfl, hlt⟩
    · exact Or.inr ⟨rfl, rfl, by omega⟩
  refine ⟨Terminal.put_col_lt _ (by omega), by omega, by omega, ?_, ?_, Terminal.put_blank _ h.blank⟩
  · rw [hwrite]
    show k.pos + 1 = _
    rcases hnext with ⟨hr, hk, -⟩ | ⟨hr, hk, hend⟩
    · rw [hr, hk, hpos]
      omega
    · rw [hr, hk, hpos, Nat.sub_add_comm habove, Nat.mul_succ]
      omega
  · intro r c' hr hc'
    rw [hwrite, Terminal.put_cells]
    -- the two bytes of one cell, and no byte of another one
    by_cases hsame : T + r = t.row ∧ c' = t.col
    · have hcell : 2 * (screenWidth * r + c') = k.pos * 2 := by
        rw [hpos, hsame.2, show t.row - T = r by omega]
        omega
      rw [if_pos hsame]
      unfold cellAt poke
      dsimp only
      rw [hcell, if_neg (by omega), if_pos rfl, if_pos rfl]
    · have hcell : screenWidth * r + c' ≠ k.pos := by
        intro heq
        rw [hpos, hwidth] at heq
        omega
      rw [if_neg hsame, ← h.shown r c' hr hc']
      unfold cellAt poke
      dsimp only
      rw [if_neg (by omega), if_neg (by omega), if_neg (by omega), if_neg (by omega)]

/-- The shift goes on to the next row. -/
theorem shift_shows (h : ShowsFrom base T k t) (hrow : t.row = T + screenHeight) :
    ShowsFrom base (T + 1) (kttyShift base k) t := by
  have hwidth : screenWidth = 80 := rfl
  have hheight : screenHeight = 25 := rfl
  have hsize : screenSize = 2000 := rfl
  have hzero : t.col = 0 := by
    rcases h.below with hlt | hend
    · omega
    · exact hend.2
  refine ⟨h.col, by omega, by omega, ?_, fun r c hr hc => ?_, h.blank⟩
  · show screenSize - screenWidth = screenWidth * (t.row - (T + 1)) + t.col
    rw [hzero, hrow, show T + screenHeight - (T + 1) = 24 by omega]
    rfl
  · have hbytes : ∀ j, j < 2 → (kttyShift base k).mem (base + 2 * (screenWidth * r + c) + j) =
        if r < screenHeight - 1 then k.mem (base + 2 * (screenWidth * (r + 1) + c) + j) else 0 := by
      intro j hj
      rw [hwidth, Nat.add_assoc, kttyShift_apply k (by omega)]
      by_cases hlast : r < screenHeight - 1
      · rw [if_pos (by omega), if_pos hlast, hwidth]
        congr 1
        omega
      · rw [if_neg (by omega), if_neg hlast]
    have hfirst := hbytes 0 (by omega)
    have hsecond := hbytes 1 (by omega)
    rw [Nat.add_zero] at hfirst
    unfold cellAt
    rw [hfirst, hsecond]
    by_cases hlast : r < screenHeight - 1
    · rw [if_pos hlast, if_pos hlast, show T + 1 + r = T + (r + 1) by omega]
      exact h.shown (r + 1) c (by omega) hc
    · rw [if_neg hlast, if_neg hlast, h.blank (T + 1 + r) c (by omega)]
      rfl

end Steps

/-- The screen shows the terminal. -/
def Shows (base : Nat) (k : Ktty) (t : Terminal (BitVec 8 × BitVec 8)) : Prop :=
  ShowsFrom base (t.top screenHeight) k t

section Run

variable {base : Nat} {k : Ktty} {t : Terminal (BitVec 8 × BitVec 8)}

/-- As far as the cursor is on the screen, it shows the rows from the top. -/
theorem shows_of_showsFrom {T : Nat} (h : ShowsFrom base T k t) (hrow : t.row < T + screenHeight)
    (htop : T = 0 ∨ T + screenHeight = t.row + 1) : Shows base k t := by
  have hT : t.top screenHeight = T := by
    have habove := h.above
    unfold Terminal.top
    omega
  unfold Shows
  rw [hT]
  exact h

theorem row_in_reach (t : Terminal (BitVec 8 × BitVec 8)) :
    t.row < t.top screenHeight + screenHeight := by
  unfold Terminal.top
  have hheight : screenHeight = 25 := rfl
  omega

/-- The position is on the screen. -/
theorem shows_pos (h : Shows base k t) : k.pos < screenSize := by
  have hcol := h.col
  have hrow := row_in_reach t
  have habove := ShowsFrom.above h
  have hpos := h.pos
  have hwidth : screenWidth = 80 := rfl
  have hheight : screenHeight = 25 := rfl
  have hsize : screenSize = 2000 := rfl
  rw [hpos, hwidth]
  omega

/-- One character: written, and where the cursor has left the screen, shifted. -/
theorem putc_shows (h : Shows base k t) (c : BitVec 8) :
    Shows base (kttyPutc base k c) (terminalPutc k.kttyAttribute t c) := by
  have hrow := row_in_reach t
  have hwidth : screenWidth = 80 := rfl
  have hheight : screenHeight = 25 := rfl
  have hsize : screenSize = 2000 := rfl
  have hwrite : ShowsFrom base (t.top screenHeight) (kttyWrite base k c)
      (terminalPutc k.kttyAttribute t c) := by
    unfold terminalPutc
    by_cases hc : c = 0x0A
    · rw [if_pos hc, hc]
      exact newline_shows h hrow
    · rw [if_neg hc]
      exact put_shows h hrow hc
  have hnext : t.row ≤ (terminalPutc k.kttyAttribute t c).row := by
    unfold terminalPutc Terminal.newline Terminal.put
    dsimp only
    split
    · exact Nat.le_succ _
    · split
      · exact Nat.le_refl _
      · exact Nat.le_succ _
  have habove := hwrite.above
  have hcol := hwrite.col
  have hpos := hwrite.pos
  have htop : t.top screenHeight = t.row - 24 := rfl
  rw [hwidth] at hpos
  unfold kttyPutc
  by_cases hleft : (terminalPutc k.kttyAttribute t c).row = t.top screenHeight + screenHeight
  · -- the cursor is behind the last row
    rw [if_pos (by omega)]
    exact shows_of_showsFrom (shift_shows hwrite hleft) (by omega) (by omega)
  · have hbelow : (terminalPutc k.kttyAttribute t c).row < t.top screenHeight + screenHeight := by
      rcases hwrite.below with hlt | hend
      · exact hlt
      · exact absurd hend.1 hleft
    rw [if_neg (by omega)]
    exact shows_of_showsFrom hwrite hbelow (by omega)

/-- Nothing outside the screen is written. -/
theorem putc_frame (h : k.pos < screenSize) (c : BitVec 8) {x : Nat}
    (hx : x < base ∨ base + screenSize * 2 ≤ x) : (kttyPutc base k c).mem x = k.mem x := by
  have hwidth : screenWidth = 80 := rfl
  have hsize : screenSize = 2000 := rfl
  have hwrite : (kttyWrite base k c).mem x = k.mem x := by
    unfold kttyWrite
    split
    · rfl
    · show poke (poke _ _ _) _ _ x = _
      rw [poke, if_neg (by omega), poke, if_neg (by omega)]
  unfold kttyPutc
  split
  · unfold kttyShift
    dsimp only
    rw [clearLoop_apply, if_neg (by omega), shiftLoop_apply, if_neg (by omega)]
    exact hwrite
  · exact hwrite

theorem putc_attribute (c : BitVec 8) : (kttyPutc base k c).kttyAttribute = k.kttyAttribute := by
  unfold kttyPutc kttyShift kttyWrite
  split <;> split <;> rfl

theorem clear_attribute (k : Ktty) : (kttyClear base k).kttyAttribute = k.kttyAttribute := by
  unfold kttyClear
  rfl

theorem clear_shows (k : Ktty) : Shows base (kttyClear base k) Terminal.empty := by
  have hwidth : screenWidth = 80 := rfl
  have hheight : screenHeight = 25 := rfl
  have hsize : screenSize = 2000 := rfl
  refine ⟨Nat.succ_pos _, Nat.le_refl _, Or.inl (Nat.succ_pos _), rfl, fun r c hr hc => ?_,
    Terminal.empty_blank⟩
  have hbyte : ∀ j, j < 2 → (kttyClear base k).mem (base + 2 * (screenWidth * r + c) + j) = 0 := by
    intro j hj
    unfold kttyClear
    dsimp only
    rw [clearLoop_apply, if_pos]
    rw [hwidth]
    omega
  have hfirst := hbyte 0 (by omega)
  rw [Nat.add_zero] at hfirst
  unfold cellAt
  rw [hfirst, hbyte 1 (by omega)]
  rfl

/-- A run from a screen that shows the terminal. -/
theorem puts_shows (s : List (BitVec 8)) : ∀ {k : Ktty} {t : Terminal (BitVec 8 × BitVec 8)},
    Shows base k t →
    Shows base (kttyPuts base k s) (s.foldl (terminalPutc k.kttyAttribute) t) ∧
      ∀ x, x < base ∨ base + screenSize * 2 ≤ x → (kttyPuts base k s).mem x = k.mem x := by
  induction s with
  | nil => exact fun h => ⟨h, fun _ _ => rfl⟩
  | cons c s ih =>
    intro k t h
    have hstep := putc_shows h c
    obtain ⟨hshows, hframe⟩ := ih hstep
    rw [putc_attribute] at hshows
    refine ⟨hshows, fun x hx => ?_⟩
    exact (hframe x hx).trans (putc_frame (shows_pos h) c hx)

end Run

/-- Whatever is written behind `ktty_clear`, the position stays on the screen, nothing outside it is
written, and it shows 25 rows of the terminal: those from the first one on from which the row of
the cursor can be seen. -/
theorem console_shows_tail (base : Nat) (k : Ktty) (s : List (BitVec 8)) :
    ∃ T, IsLeast {T | T ≤ (s.foldl (terminalPutc k.kttyAttribute) Terminal.empty).row ∧
        (s.foldl (terminalPutc k.kttyAttribute) Terminal.empty).row < T + screenHeight} T ∧
      (kttyPuts base (kttyClear base k) s).pos < screenSize ∧
      (∀ x, x < base ∨ base + screenSize * 2 ≤ x →
        (kttyPuts base (kttyClear base k) s).mem x = k.mem x) ∧
      ∀ r c, r < screenHeight → c < screenWidth →
        cellAt base (kttyPuts base (kttyClear base k) s).mem r c =
          (s.foldl (terminalPutc k.kttyAttribute) Terminal.empty).cells (T + r) c := by
  have hcleared : Shows base (kttyClear base k) Terminal.empty := clear_shows k
  obtain ⟨hshows, hframe⟩ := puts_shows s hcleared
  rw [clear_attribute] at hshows
  have hpos := shows_pos hshows
  have hshown := ShowsFrom.shown hshows
  have hclear : ∀ x, x < base ∨ base + screenSize * 2 ≤ x → (kttyClear base k).mem x = k.mem x := by
    intro x hx
    unfold kttyClear
    dsimp only
    rw [clearLoop_apply, if_neg (by omega)]
  exact ⟨_, Terminal.top_isLeast (Nat.succ_pos _) _, hpos,
    fun x hx => (hframe x hx).trans (hclear x hx), hshown⟩

end OS64.Kernel
