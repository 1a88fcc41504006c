import OS64.Lib.ByteMem
import OS64.Lib.Pieces
import OS64.Lib.Plot
import OS64.Vesa.Cp1251
import Mathlib.Data.BitVec

/-!
# Drawing text

`put_char` and `put_s` of `vesa.c`, and the same functions of `fbtest.c`. The two programs differ in
the size of `framebuf` alone, so the functions have a `Screen` as an argument.

`framebuf[a][b]` is the byte `a * FB_HEIGHT + b`, whatever `a` and `b` are: behind the last row
comes the next column. The cursor goes from cell to cell (`putChar_at`), a character shows in its
own (`putChar_in`) and touches no other (`putChar_out`), as long as there are cells. Nothing stops
`put_char` behind the last one, and the text of `test` has more characters than the screen of
`vesa.c` has cells (`put_s_draws_iff`, `put_s_test`).
-/

namespace OS64.Vesa

open OS64.Lib

/-! ## The functions -/

/-- `FB_WIDTH` and `FB_HEIGHT`. -/
structure Screen where
  width : Nat
  height : Nat
  wide : 8 < width
  small : width < 2 ^ 31 ∧ height < 2 ^ 31

/-- The screen of `vesa.c`. -/
def vesaScreen : Screen := ⟨400, 8, by decide, by decide⟩

/-- The screen of `fbtest.c`. -/
def fbtestScreen : Screen := ⟨160, 45, by decide, by decide⟩

/-- `framebuf`, the cursor, and the indices of the stores to `framebuf` so far. -/
structure Canvas where
  framebuf : ByteMem
  x : BitVec 32
  y : BitVec 32
  puts : List (BitVec 32 × BitVec 32)

section Draw

variable (scr : Screen) (font : BitVec 8 → Nat → BitVec 8)

/-- Where `framebuf[a][b]` is. -/
def fbIndex (a b : BitVec 32) : Nat := a.toNat * scr.height + b.toNat

/-- `framebuf[a][b] = v`. -/
def Canvas.store (s : Canvas) (a b : BitVec 32) (v : BitVec 8) : Canvas :=
  { s with framebuf := Function.update s.framebuf (fbIndex scr a b) v, puts := s.puts ++ [(a, b)] }

/-- An `x` or a blank, as `(1<<(7-j))&font[c][i]` says. -/
def pixel (c : BitVec 8) (i j : Nat) : BitVec 8 :=
  if (1#32 <<< (7 - j)) &&& (font c i).setWidth 32 ≠ 0 then 0x78 else 0x20

/-- The two loops of `put_char`. -/
def drawGlyph (c : BitVec 8) (s : Canvas) : Canvas :=
  (List.range 8).foldl (fun s i =>
    (List.range 8).foldl (fun s j =>
      s.store scr (s.x + BitVec.ofNat 32 j) (s.y + BitVec.ofNat 32 i) (pixel font c i j)) s) s

/-- The rest of it. -/
def advance (s : Canvas) : Canvas :=
  let s := { s with x := s.x + 8 }
  if BitVec.ofNat 32 scr.width ≤ s.x + 8 then { s with x := 0, y := s.y + 8 } else s

/-- `put_char`. -/
def putChar (c : BitVec 8) (s : Canvas) : Canvas := advance scr (drawGlyph scr font c s)

/-- `put_s`, with fuel for as many bytes. -/
def putS (src : ByteMem) : Nat → Nat → Canvas → Option Canvas
  | 0, _, _ => none
  | fuel + 1, i, s =>
    if src i = 0 then some s else putS src fuel (i + 1) (putChar scr font (src i) s)

/-- Several characters. -/
def putChars (t : List (BitVec 8)) (s : Canvas) : Canvas := t.foldl (fun s c => putChar scr font c s) s

end Draw

/-! ## The places of the cells -/

/-- The pixels of a cell, each as its row and its column, in the order they are drawn. -/
def cellPixels : List (Nat × Nat) :=
  (List.range 8).flatMap fun i => (List.range 8).map fun j => (i, j)

theorem mem_cellPixels {p : Nat × Nat} : p ∈ cellPixels ↔ p.1 < 8 ∧ p.2 < 8 := by
  simp only [cellPixels, List.mem_flatMap, List.mem_map, List.mem_range]
  constructor
  · intro h
    obtain ⟨i, hi, j, hj, rfl⟩ := h
    exact ⟨hi, hj⟩
  · exact fun h => ⟨p.1, h.1, p.2, h.2, rfl⟩

namespace Screen

variable (scr : Screen)

/-- How many characters `put_char` draws before it starts a new line. -/
def cols : Nat := (scr.width - 1) / 8

/-- How many lines there is room for. -/
def rows : Nat := scr.height / 8

/-- Where a pixel of the `k`-th cell is in `framebuf`. -/
def place (k : Nat) (p : Nat × Nat) : Nat :=
  (8 * (k % scr.cols) + p.2) * scr.height + (8 * (k / scr.cols) + p.1)

theorem cols_pos : 0 < scr.cols := by
  have hwide := scr.wide
  unfold cols
  omega

variable {scr} {k k' : Nat} {p p' : Nat × Nat}

/-- A cell of the screen is in one of its lines. -/
theorem line_lt (hk : k < scr.cols * scr.rows) : k / scr.cols < scr.rows :=
  Nat.div_lt_of_lt_mul hk

/-- The pixel below the top of a line is inside the screen. -/
theorem row_inside {q i : Nat} (hq : q < scr.rows) (hi : i < 8) : 8 * q + i < scr.height := by
  unfold rows at hq
  omega

theorem col_inside {r j : Nat} (hr : r < scr.cols) (hj : j < 8) : 8 * r + j < scr.width := by
  unfold cols at hr
  omega

/-- Behind the last column the next character does not fit. -/
theorem wraps {r : Nat} (hr : r < scr.cols) : scr.width ≤ 8 * r + 8 + 8 ↔ scr.cols = r + 1 := by
  unfold cols at hr ⊢
  omega

/-- No two pixels of the screen share a place. -/
theorem place_inj (hk : k < scr.cols * scr.rows) (hk' : k' < scr.cols * scr.rows)
    (hp : p ∈ cellPixels) (hp' : p' ∈ cellPixels) (h : scr.place k p = scr.place k' p') :
    k = k' ∧ p = p' := by
  have hin := mem_cellPixels.mp hp
  have hin' := mem_cellPixels.mp hp'
  have hb := row_inside (line_lt hk) hin.1
  have hb' := row_inside (line_lt hk') hin'.1
  have hx : 8 * (k % scr.cols) + p.2 = 8 * (k' % scr.cols) + p'.2 := by
    have hdiv := congrArg (· / scr.height) h
    simp only [place, Nat.mul_comm _ scr.height] at hdiv
    rw [Nat.mul_add_div (by omega), Nat.mul_add_div (by omega), Nat.div_eq_of_lt hb,
      Nat.div_eq_of_lt hb'] at hdiv
    exact hdiv
  have hy : 8 * (k / scr.cols) + p.1 = 8 * (k' / scr.cols) + p'.1 := by
    unfold place at h
    rw [hx] at h
    exact Nat.add_left_cancel h
  have hmod : k % scr.cols = k' % scr.cols := by omega
  have hdiv : k / scr.cols = k' / scr.cols := by omega
  refine ⟨?_, Prod.ext (by omega) (by omega)⟩
  rw [← Nat.div_add_mod k scr.cols, hmod, hdiv, Nat.div_add_mod]

/-- The next cell is on the right, or at the beginning of the next line. -/
theorem next_cell (k : Nat) :
    ((k + 1) % scr.cols = k % scr.cols + 1 ∧ (k + 1) / scr.cols = k / scr.cols ∧
      k % scr.cols + 1 < scr.cols) ∨
    ((k + 1) % scr.cols = 0 ∧ (k + 1) / scr.cols = k / scr.cols + 1 ∧
      k % scr.cols + 1 = scr.cols) := by
  have hpos := scr.cols_pos
  have hlt : k % scr.cols < scr.cols := Nat.mod_lt k hpos
  have hk := Nat.div_add_mod k scr.cols
  by_cases hlast : k % scr.cols + 1 = scr.cols
  · have hnext : (k + 1) / scr.cols = k / scr.cols + 1 ∧ (k + 1) % scr.cols = 0 :=
      (Nat.div_mod_unique hpos).mpr ⟨by rw [Nat.mul_succ]; omega, hpos⟩
    exact Or.inr ⟨hnext.2, hnext.1, hlast⟩
  · have hnext : (k + 1) / scr.cols = k / scr.cols ∧ (k + 1) % scr.cols = k % scr.cols + 1 :=
      (Nat.div_mod_unique hpos).mpr ⟨by omega, by omega⟩
    exact Or.inl ⟨hnext.2, hnext.1, by omega⟩

end Screen

/-! ## One character -/

variable {scr : Screen} {font : BitVec 8 → Nat → BitVec 8} {s : Canvas} {c : BitVec 8} {k : Nat}

/-- Where the cursor points to a pixel. -/
def Canvas.index (s : Canvas) (p : Nat × Nat) : BitVec 32 × BitVec 32 :=
  (s.x + BitVec.ofNat 32 p.2, s.y + BitVec.ofNat 32 p.1)

theorem stores_eq (v : Nat × Nat → BitVec 8) (l : List (Nat × Nat)) (s : Canvas) :
    l.foldl (fun s p => s.store scr (s.x + BitVec.ofNat 32 p.2) (s.y + BitVec.ofNat 32 p.1) (v p)) s =
      { s with
        framebuf := plot (fun p => fbIndex scr (s.index p).1 (s.index p).2) v l s.framebuf
        puts := s.puts ++ l.map s.index } := by
  induction l generalizing s with
  | nil => simp [plot]
  | cons p l ih =>
    rw [List.foldl_cons, ih, List.map_cons, List.append_cons]
    rfl

/-- The two loops store to the pixels of a cell. -/
theorem drawGlyph_eq : drawGlyph scr font c s =
    { s with
      framebuf := plot (fun p => fbIndex scr (s.index p).1 (s.index p).2)
        (fun p => pixel font c p.1 p.2) cellPixels s.framebuf
      puts := s.puts ++ cellPixels.map s.index } := by
  rw [← stores_eq, cellPixels, List.foldl_flatMap]
  simp only [List.foldl_map]
  rfl

/-- A pixel is an `x` if bit `7-j` of its row is set. -/
theorem pixel_eq {i j : Nat} :
    pixel font c i j = if (font c i).getLsbD (7 - j) then 0x78 else 0x20 := by
  have hbit : ((font c i).setWidth 32).getLsbD (7 - j) = (font c i).getLsbD (7 - j) := by
    rw [BitVec.getLsbD_setWidth, decide_eq_true (by omega), Bool.true_and]
  have htwo : 1#32 <<< (7 - j) = BitVec.twoPow 32 (7 - j) := rfl
  rw [pixel, htwo, BitVec.and_comm, BitVec.and_twoPow, hbit]
  cases (font c i).getLsbD (7 - j) with
  | false => rfl
  | true =>
    have hne : ∀ k, k < 8 → BitVec.twoPow 32 k ≠ 0 := by decide
    exact if_pos (hne (7 - j) (by omega))

theorem advance_framebuf : (advance scr s).framebuf = s.framebuf := by
  unfold advance
  dsimp only
  split <;> rfl

theorem advance_puts : (advance scr s).puts = s.puts := by
  unfold advance
  dsimp only
  split <;> rfl

/-- The stores of a character. -/
theorem putChar_puts : (putChar scr font c s).puts = s.puts ++ cellPixels.map s.index := by
  rw [putChar, advance_puts, drawGlyph_eq]

/-- The cursor is at the `k`-th cell. -/
structure Canvas.At (scr : Screen) (s : Canvas) (k : Nat) : Prop where
  x : s.x.toNat = 8 * (k % scr.cols)
  y : s.y.toNat = 8 * (k / scr.cols)

theorem toNat_add_eight {a : BitVec 32} (h : a.toNat + 8 < 2 ^ 32) : (a + 8).toNat = a.toNat + 8 := by
  rw [BitVec.toNat_add]
  exact Nat.mod_eq_of_lt h

section Cell

variable (hat : s.At scr k) (hk : k < scr.cols * scr.rows)

include hat hk

/-- At a cell of the screen a pixel has the indices that its place comes from. -/
theorem index_at {p : Nat × Nat} (hp : p ∈ cellPixels) :
    (s.index p).1.toNat = 8 * (k % scr.cols) + p.2 ∧
      (s.index p).2.toNat = 8 * (k / scr.cols) + p.1 := by
  have hin := mem_cellPixels.mp hp
  have hrow := Screen.row_inside (Screen.line_lt hk) hin.1
  have hcol := Screen.col_inside (Nat.mod_lt k scr.cols_pos) hin.2
  have hsmall := scr.small
  constructor
  · rw [Canvas.index, BitVec.toNat_add, BitVec.toNat_ofNat, hat.x]
    omega
  · rw [Canvas.index, BitVec.toNat_add, BitVec.toNat_ofNat, hat.y]
    omega

theorem fbIndex_at {p : Nat × Nat} (hp : p ∈ cellPixels) :
    fbIndex scr (s.index p).1 (s.index p).2 = scr.place k p := by
  obtain ⟨hx, hy⟩ := index_at hat hk hp
  rw [fbIndex, hx, hy, Screen.place]

/-- A character is drawn inside the screen. -/
theorem index_inside {p : Nat × Nat} (hp : p ∈ cellPixels) :
    (s.index p).1.toNat < scr.width ∧ (s.index p).2.toNat < scr.height := by
  have hin := mem_cellPixels.mp hp
  obtain ⟨hx, hy⟩ := index_at hat hk hp
  rw [hx, hy]
  exact ⟨Screen.col_inside (Nat.mod_lt k scr.cols_pos) hin.2,
    Screen.row_inside (Screen.line_lt hk) hin.1⟩

/-- A character shows in its cell. -/
theorem putChar_in {p : Nat × Nat} (hp : p ∈ cellPixels) :
    (putChar scr font c s).framebuf (scr.place k p) = pixel font c p.1 p.2 := by
  rw [putChar, advance_framebuf, drawGlyph_eq, ← fbIndex_at hat hk hp]
  refine plot_in (fun q hq r hr h => ?_) hp
  rw [fbIndex_at hat hk hq, fbIndex_at hat hk hr] at h
  exact (Screen.place_inj hk hk hq hr h).2

/-- A character leaves the other cells alone. -/
theorem putChar_out {k' : Nat} {p : Nat × Nat} (hk' : k' < scr.cols * scr.rows) (hne : k' ≠ k)
    (hp : p ∈ cellPixels) :
    (putChar scr font c s).framebuf (scr.place k' p) = s.framebuf (scr.place k' p) := by
  rw [putChar, advance_framebuf, drawGlyph_eq]
  refine plot_out fun q hq h => ?_
  rw [fbIndex_at hat hk hq] at h
  exact hne (Screen.place_inj hk hk' hq hp h).1.symm

/-- Behind a character the cursor is at the next cell. -/
theorem putChar_at : (putChar scr font c s).At scr (k + 1) := by
  have hmod : k % scr.cols < scr.cols := Nat.mod_lt k scr.cols_pos
  have hcol : 8 * (k % scr.cols) + 7 < scr.width := Screen.col_inside hmod (by decide)
  have hrow : 8 * (k / scr.cols) + 7 < scr.height :=
    Screen.row_inside (Screen.line_lt hk) (by decide)
  have hsmall := scr.small
  have hx := hat.x
  have hy := hat.y
  have hright : (s.x + 8).toNat = s.x.toNat + 8 := toNat_add_eight (by omega)
  have hbelow : (s.y + 8).toNat = s.y.toNat + 8 := toNat_add_eight (by omega)
  have hwrap : BitVec.ofNat 32 scr.width ≤ s.x + 8 + 8 ↔ scr.cols = k % scr.cols + 1 := by
    rw [BitVec.le_def, toNat_add_eight (by omega), hright, hx, BitVec.toNat_ofNat,
      Nat.mod_eq_of_lt (by omega)]
    exact Screen.wraps hmod
  rw [putChar, drawGlyph_eq, advance]
  dsimp only
  obtain ⟨hnext, hline, hlt⟩ | ⟨hnext, hline, hlast⟩ := @Screen.next_cell scr k
  · rw [if_neg (by rw [hwrap]; omega)]
    refine ⟨?_, by rw [hline]; exact hy⟩
    show (s.x + 8).toNat = _
    omega
  · rw [if_pos (hwrap.mpr hlast.symm)]
    refine ⟨by rw [hnext]; rfl, ?_⟩
    show (s.y + 8).toNat = _
    omega

end Cell

/-! ## Many characters -/

variable {t : List (BitVec 8)}

theorem putChars_append (t t' : List (BitVec 8)) :
    putChars scr font (t ++ t') s = putChars scr font t' (putChars scr font t s) :=
  List.foldl_append

/-- What has been stored stays in the log. -/
theorem putChars_puts {ab : BitVec 32 × BitVec 32} (h : ab ∈ s.puts) :
    ab ∈ (putChars scr font t s).puts := by
  induction t generalizing s with
  | nil => exact h
  | cons c t ih =>
    refine ih (s := putChar scr font c s) ?_
    rw [putChar_puts]
    exact List.mem_append_left _ h

section Run

variable (hat : s.At scr k) (hlen : k + t.length ≤ scr.cols * scr.rows)

include hat hlen

/-- The cursor goes from cell to cell. -/
theorem putChars_at : (putChars scr font t s).At scr (k + t.length) := by
  induction t generalizing s k with
  | nil => exact hat
  | cons c t ih =>
    rw [List.length_cons] at hlen ⊢
    rw [Nat.add_comm t.length, ← Nat.add_assoc]
    exact ih (putChar_at hat (by omega)) (by omega)

/-- Only the screen is stored to. -/
theorem putChars_inside {ab : BitVec 32 × BitVec 32} (hab : ab ∈ (putChars scr font t s).puts) :
    ab ∈ s.puts ∨ ab.1.toNat < scr.width ∧ ab.2.toNat < scr.height := by
  induction t generalizing s k with
  | nil => exact Or.inl hab
  | cons c t ih =>
    rw [List.length_cons] at hlen
    rcases ih (putChar_at hat (by omega)) (by omega) hab with hputs | hin
    · rw [putChar_puts] at hputs
      rcases List.mem_append.mp hputs with hold | hcell
      · exact Or.inl hold
      · obtain ⟨p, hp, rfl⟩ := List.mem_map.mp hcell
        exact Or.inr (index_inside hat (by omega) hp)
    · exact Or.inr hin

/-- The cells before the cursor keep what they show. -/
theorem putChars_out {k' : Nat} {p : Nat × Nat} (hk' : k' < k) (hp : p ∈ cellPixels) :
    (putChars scr font t s).framebuf (scr.place k' p) = s.framebuf (scr.place k' p) := by
  induction t generalizing s k with
  | nil => rfl
  | cons c t ih =>
    rw [List.length_cons] at hlen
    have hrest := ih (@putChar_at scr font s c k hat (by omega)) (by omega) (by omega)
    exact hrest.trans (putChar_out hat (by omega) (by omega) (by omega) hp)

/-- Each character shows in its cell. -/
theorem putChars_in {n : Nat} (hn : n < t.length) {p : Nat × Nat} (hp : p ∈ cellPixels) :
    (putChars scr font t s).framebuf (scr.place (k + n) p) =
      pixel font (t.get ⟨n, hn⟩) p.1 p.2 := by
  induction t generalizing s k n with
  | nil => cases hn
  | cons c t ih =>
    rw [List.length_cons] at hlen
    have hnext := @putChar_at scr font s c k hat (by omega)
    cases n with
    | zero =>
      have hkept := @putChars_out scr font _ _ t hnext (by omega) k p (Nat.lt_succ_self k) hp
      exact hkept.trans (putChar_in hat (by omega) hp)
    | succ n =>
      have hcell : k + (n + 1) = k + 1 + n := by omega
      rw [hcell]
      exact ih hnext (by omega) (Nat.lt_of_succ_lt_succ hn)

end Run

/-! ## The string -/

/-- Before the first character. -/
def start (fb : ByteMem) : Canvas := ⟨fb, 0, 0, []⟩

theorem start_at (fb : ByteMem) : (start fb).At scr 0 :=
  ⟨by rw [Nat.zero_mod]; rfl, by rw [Nat.zero_div]; rfl⟩

/-- The cursor of a character that there is room for. -/
theorem take_at {fb : ByteMem} {n : Nat} (hn : n ≤ t.length) (hn' : n ≤ scr.cols * scr.rows) :
    (putChars scr font (t.take n) (start fb)).At scr n := by
  have htake := @putChars_at scr font _ 0 (t.take n) (start_at fb)
    (by rw [List.length_take]; omega)
  rw [List.length_take, Nat.min_eq_left hn, Nat.zero_add] at htake
  exact htake

/-- The loop of `put_s` takes the characters up to the terminator. -/
theorem putS_eq {src : ByteMem} {fuel i : Nat} (hst : Stored src i (t ++ [0]))
    (hne : ∀ b ∈ t, b ≠ 0) : putS scr font src fuel i s =
      if t.length < fuel then some (putChars scr font t s) else none := by
  induction fuel generalizing t s i with
  | zero => rfl
  | succ fuel ih =>
    cases t with
    | nil =>
      rw [putS, if_pos hst.1]
      rfl
    | cons c t =>
      have hc := List.forall_mem_cons.mp hne
      have hsrc : src i = c := hst.1
      rw [putS, hsrc, if_neg hc.1, ih hst.2 hc.2]
      simp only [List.length_cons, Nat.add_lt_add_iff_right]
      rfl

/-- The glyph of `c` shows where the cursor of `s` is. -/
def Shows (scr : Screen) (font : BitVec 8 → Nat → BitVec 8) (fb : ByteMem) (s : Canvas)
    (c : BitVec 8) : Prop :=
  ∀ i j, i < 8 → j < 8 → fb (fbIndex scr (s.x + BitVec.ofNat 32 j) (s.y + BitVec.ofNat 32 i)) =
    if (font c i).getLsbD (7 - j) then 0x78 else 0x20

/-- `put_s` returns, it has stored to the screen alone, and each character shows where the cursor
was before it. -/
def DrawsText (scr : Screen) (font : BitVec 8 → Nat → BitVec 8) (src fb : ByteMem)
    (t : List (BitVec 8)) : Prop :=
  ∃ fuel s, putS scr font src fuel 0 (start fb) = some s ∧
    (∀ ab ∈ s.puts, ab.1.toNat < scr.width ∧ ab.2.toNat < scr.height) ∧
    ∀ n (hn : n < t.length),
      Shows scr font s.framebuf (putChars scr font (t.take n) (start fb)) (t.get ⟨n, hn⟩)

variable {src fb : ByteMem}

/-- A text that there is room for. -/
theorem draws_of_le (h : IsString src t) (hlen : t.length ≤ scr.cols * scr.rows) :
    DrawsText scr font src fb t := by
  have hzero : 0 + t.length ≤ scr.cols * scr.rows := by omega
  refine ⟨t.length + 1, putChars scr font t (start fb), ?_, fun ab hab => ?_, ?_⟩
  · rw [putS_eq h.stored h.nonzero, if_pos (Nat.lt_succ_self _)]
  · exact (putChars_inside (start_at fb) hzero hab).resolve_left List.not_mem_nil
  · intro n hn i j hi hj
    have hp : (i, j) ∈ cellPixels := mem_cellPixels.mpr ⟨hi, hj⟩
    have hat : (putChars scr font (t.take n) (start fb)).At scr n :=
      take_at (by omega) (by omega)
    have hplace := fbIndex_at hat (by omega) hp
    have hin := @putChars_in scr font _ 0 t (start_at fb) hzero n hn _ hp
    rw [Nat.zero_add, pixel_eq] at hin
    rw [← hin, ← hplace]
    rfl

/-- Of a text that there is no room for, the first character behind the last line is stored
below the screen. -/
theorem not_draws_of_lt (h : IsString src t) (hlen : scr.cols * scr.rows < t.length) :
    ¬ DrawsText scr font src fb t := by
  intro hdraws
  obtain ⟨fuel, s, hrun, hinside, -⟩ := hdraws
  rw [putS_eq h.stored h.nonzero] at hrun
  have hfuel : t.length < fuel := by
    by_contra hfuel
    rw [if_neg hfuel] at hrun
    cases hrun
  rw [if_pos hfuel] at hrun
  cases hrun
  -- the text up to the first character that there is no room for
  have hsplit : t = t.take (scr.cols * scr.rows) ++
      t.get ⟨_, hlen⟩ :: t.drop (scr.cols * scr.rows + 1) := by
    rw [List.get_eq_getElem, List.getElem_cons_drop, List.take_append_drop]
  have hlast : (putChars scr font (t.take (scr.cols * scr.rows)) (start fb)).At scr
      (scr.cols * scr.rows) := take_at (by omega) (Nat.le_refl _)
  have hput : (putChars scr font (t.take (scr.cols * scr.rows)) (start fb)).index (7, 0) ∈
      (putChars scr font t (start fb)).puts := by
    have hrun : putChars scr font t (start fb) = _ :=
      (congrArg (fun t => putChars scr font t (start fb)) hsplit).trans (putChars_append _ _)
    rw [hrun]
    refine putChars_puts (s := putChar scr font _ _) ?_
    rw [putChar_puts]
    exact List.mem_append_right _ (List.mem_map_of_mem (mem_cellPixels.mpr ⟨by decide, by decide⟩))
  have hbelow := (hinside _ hput).2
  have hy := hlast.y
  rw [Nat.mul_div_cancel_left _ scr.cols_pos] at hy
  have hsmall := scr.small
  have hrow : scr.height < 8 * scr.rows + 8 := by unfold Screen.rows; omega
  have hrows : 8 * scr.rows ≤ scr.height := by unfold Screen.rows; omega
  rw [Canvas.index, BitVec.toNat_add, hy, BitVec.toNat_ofNat] at hbelow
  omega

/-- `put_s` draws a text right if it has at most as many characters as the screen has cells: one
cell less in a line than fit, and as many lines as fit. -/
theorem put_s_draws_iff (h : IsString src t) :
    DrawsText scr font src fb t ↔ t.length ≤ scr.cols * scr.rows :=
  ⟨fun hdraws => Nat.le_of_not_lt fun hlt => not_draws_of_lt h hlt hdraws, draws_of_le h⟩

/-- `put_s_draws_iff` on the screen of `vesa.c`, which has 49 cells. -/
theorem put_s_draws_vesa : DrawsText vesaScreen (fun _ _ => 0xff)
    (fun i => [0x4f, 0x53].getD i 0) (fun _ => 0) [0x4f, 0x53] :=
  (put_s_draws_iff (isString_getD (by decide))).mpr (by decide)

example : vesaScreen.cols * vesaScreen.rows = 49 := rfl

example : fbtestScreen.cols * fbtestScreen.rows = 95 := rfl

/-- The text that `test` draws. -/
def testText : List Char :=
  "Широкая электрификация южных губерний! Wild cat jumps over the lazy dog!".toList

/-- `utf2win` makes a string of it that is too long for the screen of `vesa.c`, whatever the font. -/
theorem put_s_test : ∃ buf l,
    (utf2win (fun i => (testText.flatMap utf8).getD i 0) (fun _ => 0) 73).Returns buf l ∧
      IsString buf (testText.map cp1251) ∧
        ∀ font fb, ¬ DrawsText vesaScreen font buf fb (testText.map cp1251) := by
  have htext : ∀ c ∈ testText, IsText c := of_all (by decide)
  have hgood : ∀ c ∈ testText, c ∉ mistaken := of_all (by decide)
  obtain ⟨buf, l, hrun, hbuf⟩ :=
    utf2win_isString htext hgood (isString_getD (text_nonzero htext)).stored
  have hlen : testText.length = 72 := rfl
  rw [hlen] at hrun
  refine ⟨buf, l, hrun, hbuf, fun font fb => not_draws_of_lt hbuf ?_⟩
  rw [List.length_map, hlen]
  decide

end OS64.Vesa
