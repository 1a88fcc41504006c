import OS64.Vesa.PutChar

/-!
# From the bitmap to the screen (`vesa.c`)

`load_font` cuts a bitmap of 128 by 128 bytes into 256 characters of 8 by 8 pixels, a bit for each,
and `test` has `put_s` draw a text with them into `framebuf` and then calls `putpixel` for every
byte of `framebuf` that is no blank.

`vesa_test_shows` puts them together, with `utf2win` in front, for a text that there is room for.
`framebuf` has zeros where nothing was drawn, and a zero is no blank: behind the text the line is
white.

The screen is memory from `VESA_FB_ADDR` on; mounting it is left out. The bitmap is a parameter.
-/

namespace OS64.Vesa

open OS64.Lib

/-! ## The functions -/

/-- A round of `load_font`. -/
def loadPixel (headerData : Nat → BitVec 8) (font : BitVec 8 → Nat → BitVec 8) (i j : Nat) :
    BitVec 8 → Nat → BitVec 8 :=
  if headerData (i * 128 + j) = 0 then font
  else fun c r =>
    if c = BitVec.ofNat 8 ((i >>> 3) * 16 + (j >>> 3)) ∧ r = i % 8 then
      font c r ||| 1#8 <<< (7 - j % 8)
    else font c r

/-- `load_font`. -/
def loadFont (headerData : Nat → BitVec 8) (font : BitVec 8 → Nat → BitVec 8) :
    BitVec 8 → Nat → BitVec 8 :=
  (List.range 128).foldl (fun font i =>
    (List.range 128).foldl (fun font j => loadPixel headerData font i j) font) font

/-- `putpixel`, on a screen of `width` pixels a line with `bpp` bits for each. -/
def putpixel (width : BitVec 16) (bpp : BitVec 8) (x y : Nat) (screen : ByteMem) : ByteMem :=
  if bpp = 8 then screen.write (y * width.toNat + x) 1 0xFF
  else if bpp = 16 then screen.write (2 * (y * width.toNat + x)) 2 0xFFFF
  else if bpp = 32 then screen.write (4 * (y * width.toNat + x)) 4 0xFFFFFFFF
  else screen

/-- The loops of `test` behind `put_s`. -/
def showFramebuf (width : BitVec 16) (bpp : BitVec 8) (framebuf screen : ByteMem) : ByteMem :=
  (List.range 8).foldl (fun screen y =>
    (List.range 400).foldl (fun screen x =>
      if framebuf (fbIndex vesaScreen (BitVec.ofNat 32 x) (BitVec.ofNat 32 y)) = 0x20 then screen
      else putpixel width bpp x y screen) screen) screen

/-- `framebuf` before `test`: a blank, and zeros. -/
def framebufInit : ByteMem := fun a => if a = 0 then 0x20 else 0

/-! ## The font -/

section Font

variable {headerData : Nat → BitVec 8} {font : BitVec 8 → Nat → BitVec 8} {c : BitVec 8} {r q : Nat}

/-- The byte of the bitmap that bit `7-q` of row `r` of character `c` comes from. -/
def bitmapIndex (c : BitVec 8) (r q : Nat) : Nat :=
  (c.toNat / 16 * 8 + r) * 128 + (c.toNat % 16 * 8 + q)

/-- The round of `(i, j)` sets this bit, if at all. -/
def setsBit (headerData : Nat → BitVec 8) (c : BitVec 8) (r q i j : Nat) : Bool :=
  decide (headerData (i * 128 + j) ≠ 0 ∧ c.toNat = (i >>> 3) * 16 + (j >>> 3) ∧ r = i % 8 ∧
    q = j % 8)

theorem loadPixel_bit {i j : Nat} (hi : i < 128) (hj : j < 128) (hq : q < 8) :
    (loadPixel headerData font i j c r).getLsbD (7 - q) =
      if setsBit headerData c r q i j then true else (font c r).getLsbD (7 - q) := by
  have hshift : (i >>> 3) * 16 + (j >>> 3) < 2 ^ 8 := by
    rw [Nat.shiftRight_eq_div_pow, Nat.shiftRight_eq_div_pow]
    omega
  have hchar : c = BitVec.ofNat 8 ((i >>> 3) * 16 + (j >>> 3)) ↔
      c.toNat = (i >>> 3) * 16 + (j >>> 3) := by
    rw [← BitVec.toNat_inj, BitVec.toNat_ofNat, Nat.mod_eq_of_lt hshift]
  unfold loadPixel setsBit
  by_cases hdata : headerData (i * 128 + j) = 0
  · rw [if_pos hdata, if_neg fun h => (of_decide_eq_true h).1 hdata]
  · rw [if_neg hdata]
    by_cases hcell : c = BitVec.ofNat 8 ((i >>> 3) * 16 + (j >>> 3)) ∧ r = i % 8
    · rw [if_pos hcell, BitVec.getLsbD_or,
        show 1#8 <<< (7 - j % 8) = BitVec.twoPow 8 (7 - j % 8) from rfl, BitVec.getLsbD_twoPow]
      by_cases hcol : q = j % 8
      · rw [if_pos (decide_eq_true ⟨hdata, hchar.mp hcell.1, hcell.2, hcol⟩), ← hcol,
          decide_eq_true (show 7 - q < 8 by omega), decide_eq_true rfl, Bool.true_and, Bool.or_true]
      · rw [if_neg fun h => hcol (of_decide_eq_true h).2.2.2,
          decide_eq_false (show ¬ 7 - j % 8 = 7 - q by omega), Bool.and_false, Bool.or_false]
    · rw [if_neg hcell,
        if_neg fun h => hcell ⟨hchar.mpr (of_decide_eq_true h).2.1, (of_decide_eq_true h).2.2.1⟩]

/-- Bit `7-q` of row `r` of a character is set if its byte of the bitmap is not 0. -/
theorem loadFont_bit (hr : r < 8) (hq : q < 8) :
    (loadFont headerData (fun _ _ => 0) c r).getLsbD (7 - q) =
      decide (headerData (bitmapIndex c r q) ≠ 0) := by
  have hc := c.isLt
  have hrow (font : BitVec 8 → Nat → BitVec 8) (i : Nat) (hi : i ∈ List.range 128) :=
    @foldl_hit _ _ _ (fun font j => loadPixel headerData font i j)
      (fun font => (font c r).getLsbD (7 - q)) (setsBit headerData c r q i) true (List.range 128)
      (fun font j hj => loadPixel_bit (List.mem_range.mp hi) (List.mem_range.mp hj) hq) font
  have hall := @foldl_hit _ _ _ (fun font i =>
      (List.range 128).foldl (fun font j => loadPixel headerData font i j) font)
    (fun font => (font c r).getLsbD (7 - q))
    (fun i => (List.range 128).any (setsBit headerData c r q i)) true (List.range 128) hrow fun _ _ => 0
  refine hall.trans ?_
  have hzero : (0 : BitVec 8).getLsbD (7 - q) = false := BitVec.getLsbD_zero
  rw [hzero]
  by_cases hdata : headerData (bitmapIndex c r q) ≠ 0
  · rw [decide_eq_true hdata, if_pos]
    refine List.any_eq_true.mpr ⟨c.toNat / 16 * 8 + r, List.mem_range.mpr (by omega), ?_⟩
    refine List.any_eq_true.mpr ⟨c.toNat % 16 * 8 + q, List.mem_range.mpr (by omega), ?_⟩
    refine decide_eq_true ⟨hdata, ?_, by omega, by omega⟩
    rw [Nat.shiftRight_eq_div_pow, Nat.shiftRight_eq_div_pow]
    omega
  · rw [decide_eq_false hdata, if_neg]
    intro hany
    obtain ⟨i, -, hany⟩ := List.any_eq_true.mp hany
    obtain ⟨j, hj, hset⟩ := List.any_eq_true.mp hany
    obtain ⟨hne, hchar, hi8, hj8⟩ := of_decide_eq_true hset
    rw [Nat.shiftRight_eq_div_pow, Nat.shiftRight_eq_div_pow] at hchar
    have hj128 := List.mem_range.mp hj
    refine hdata ?_
    rw [show bitmapIndex c r q = i * 128 + j by unfold bitmapIndex; omega]
    exact hne

end Font

/-! ## The screen -/

section Screen

variable {width : BitVec 16} {bpp : BitVec 8} {framebuf screen : ByteMem} {n a : Nat}

/-- The bytes of a pixel, for the three depths that `putpixel` knows. -/
def pixelBytes (bpp : BitVec 8) : Option Nat :=
  if bpp = 8 then some 1 else if bpp = 16 then some 2 else if bpp = 32 then some 4 else none

/-- A store of nothing but ones. -/
theorem write_ones {k v i : Nat} (hk : 0 < k) (hv : ∀ j, j < k → v / 256 ^ j % 256 = 255) :
    screen.write (k * i) k v a = if decide (a / k = i) then 0xFF else screen a := by
  have hsplit := Nat.div_add_mod a k
  have hmod := Nat.mod_lt a hk
  by_cases hi : a / k = i
  · rw [if_pos (decide_eq_true hi), ByteMem.write, ← hi, if_pos (by omega)]
    apply BitVec.eq_of_toNat_eq
    rw [BitVec.toNat_ofNat, hv _ (by omega)]
    rfl
  · rw [if_neg fun h => hi (of_decide_eq_true h), ByteMem.write, if_neg]
    intro hin
    refine hi (Nat.div_eq_of_lt_le ?_ ?_)
    · rw [Nat.mul_comm]
      exact hin.1
    · rw [Nat.succ_mul, Nat.mul_comm]
      exact hin.2

theorem pixelBytes_pos (hn : pixelBytes bpp = some n) : 0 < n := by
  unfold pixelBytes at hn
  split at hn
  · cases hn
    decide
  · split at hn
    · cases hn
      decide
    · split at hn
      · cases hn
        decide
      · cases hn

/-- Each of the bytes of a pixel is stored to, and no other. -/
theorem putpixel_apply (hn : pixelBytes bpp = some n) (x y : Nat) :
    putpixel width bpp x y screen a =
      if decide (a / n = y * width.toNat + x) then 0xFF else screen a := by
  unfold pixelBytes at hn
  unfold putpixel
  by_cases h8 : bpp = 8
  · rw [if_pos h8] at hn ⊢
    cases hn
    have hstore := @write_ones screen a 1 0xFF (y * width.toNat + x) (by decide) (by decide)
    rw [Nat.one_mul] at hstore
    exact hstore
  rw [if_neg h8] at hn ⊢
  by_cases h16 : bpp = 16
  · rw [if_pos h16] at hn ⊢
    cases hn
    exact write_ones (by decide) (by decide)
  rw [if_neg h16] at hn ⊢
  by_cases h32 : bpp = 32
  · rw [if_pos h32] at hn ⊢
    cases hn
    exact write_ones (by decide) (by decide)
  · rw [if_neg h32] at hn
    cases hn

/-- Pixel `(x, y)` is stored, and byte `a` belongs to it. -/
def storesByte (framebuf : ByteMem) (width : BitVec 16) (n a y x : Nat) : Bool :=
  decide (framebuf (fbIndex vesaScreen (BitVec.ofNat 32 x) (BitVec.ofNat 32 y)) ≠ 0x20 ∧
    a / n = y * width.toNat + x)

/-- A byte of the screen is stored to if it belongs to a pixel that is no blank. -/
theorem showFramebuf_apply (hn : pixelBytes bpp = some n) :
    showFramebuf width bpp framebuf screen a =
      if (List.range 8).any (fun y => (List.range 400).any (storesByte framebuf width n a y)) then
        0xFF
      else screen a := by
  have hpixel (y : Nat) (screen : ByteMem) (x : Nat) (_ : x ∈ List.range 400) :
      (if framebuf (fbIndex vesaScreen (BitVec.ofNat 32 x) (BitVec.ofNat 32 y)) = 0x20 then screen
        else putpixel width bpp x y screen) a =
      if storesByte framebuf width n a y x then 0xFF else screen a := by
    unfold storesByte
    by_cases hblank : framebuf (fbIndex vesaScreen (BitVec.ofNat 32 x) (BitVec.ofNat 32 y)) = 0x20
    · rw [if_pos hblank, if_neg fun h => (of_decide_eq_true h).1 hblank]
    · rw [if_neg hblank, putpixel_apply hn]
      by_cases hin : a / n = y * width.toNat + x
      · rw [if_pos (decide_eq_true hin), if_pos (decide_eq_true ⟨hblank, hin⟩)]
      · rw [if_neg fun h => hin (of_decide_eq_true h),
          if_neg fun h => hin (of_decide_eq_true h).2]
  have hline (screen : ByteMem) (y : Nat) (_ : y ∈ List.range 8) :=
    @foldl_hit _ _ _ _ (fun screen : ByteMem => screen a) (storesByte framebuf width n a y) 0xFF
      (List.range 400) (hpixel y) screen
  exact @foldl_hit _ _ _ _ (fun screen : ByteMem => screen a)
    (fun y => (List.range 400).any (storesByte framebuf width n a y)) 0xFF (List.range 8) hline
    screen

/-- A pixel belongs to one place. -/
theorem pixel_inj {w x y x' y' : Nat} (hx : x < w) (hx' : x' < w) (h : y * w + x = y' * w + x') :
    y = y' ∧ x = x' := by
  have hline (y x : Nat) (hx : x < w) : (y * w + x) / w = y := by
    rw [Nat.mul_comm, Nat.mul_add_div (by omega), Nat.div_eq_of_lt hx, Nat.add_zero]
  have hy : y = y' := by
    rw [← hline y x hx, h, hline y' x' hx']
  rw [hy] at h
  exact ⟨hy, Nat.add_left_cancel h⟩

/-- A pixel inside the rectangle shows the byte of `framebuf` for it. -/
theorem showFramebuf_pixel (hn : pixelBytes bpp = some n) (hw : 400 ≤ width.toNat) {x y b : Nat}
    (hx : x < 400) (hy : y < 8) (hb : b < n) :
    showFramebuf width bpp framebuf screen (n * (y * width.toNat + x) + b) =
      if framebuf (x * 8 + y) ≠ 0x20 then 0xFF else screen (n * (y * width.toNat + x) + b) := by
  have hpos := pixelBytes_pos hn
  have hplace : (n * (y * width.toNat + x) + b) / n = y * width.toNat + x := by
    rw [Nat.mul_add_div hpos, Nat.div_eq_of_lt hb, Nat.add_zero]
  have hindex : fbIndex vesaScreen (BitVec.ofNat 32 x) (BitVec.ofNat 32 y) = x * 8 + y := by
    rw [fbIndex, BitVec.toNat_ofNat, BitVec.toNat_ofNat, Nat.mod_eq_of_lt (by omega),
      Nat.mod_eq_of_lt (by omega)]
    rfl
  rw [showFramebuf_apply hn]
  by_cases hlit : framebuf (x * 8 + y) ≠ 0x20
  · rw [if_pos hlit, if_pos]
    refine List.any_eq_true.mpr ⟨y, List.mem_range.mpr hy, ?_⟩
    refine List.any_eq_true.mpr ⟨x, List.mem_range.mpr hx, decide_eq_true ⟨?_, hplace⟩⟩
    rw [hindex]
    exact hlit
  · rw [if_neg hlit, if_neg]
    intro hany
    obtain ⟨y', -, hany⟩ := List.any_eq_true.mp hany
    obtain ⟨x', hx', hset⟩ := List.any_eq_true.mp hany
    obtain ⟨hne, hin⟩ := of_decide_eq_true hset
    have hx400 := List.mem_range.mp hx'
    obtain ⟨rfl, rfl⟩ := pixel_inj (by omega) (by omega) (hplace.symm.trans hin)
    rw [hindex] at hne
    exact hlit hne

/-- Nothing outside the rectangle is stored to. -/
theorem showFramebuf_out (hn : pixelBytes bpp = some n)
    (hout : ∀ x y, x < 400 → y < 8 → a / n ≠ y * width.toNat + x) :
    showFramebuf width bpp framebuf screen a = screen a := by
  rw [showFramebuf_apply hn, if_neg]
  intro hany
  obtain ⟨y, hy, hany⟩ := List.any_eq_true.mp hany
  obtain ⟨x, hx, hset⟩ := List.any_eq_true.mp hany
  exact hout x y (List.mem_range.mp hx) (List.mem_range.mp hy) (of_decide_eq_true hset).2

end Screen

/-! ## The whole way -/

section Way

variable {headerData : Nat → BitVec 8} {width : BitVec 16} {bpp : BitVec 8} {n : Nat}
  {src buf screen : ByteMem}

/-- The cells behind the text keep what they show. -/
theorem putChars_behind {scr : Screen} {font : BitVec 8 → Nat → BitVec 8} {k' : Nat} {p : Nat × Nat}
    (hk' : k' < scr.cols * scr.rows) (hp : p ∈ cellPixels) (t : List (BitVec 8)) :
    ∀ {s : Canvas} {k : Nat}, s.At scr k → k + t.length ≤ k' →
      (putChars scr font t s).framebuf (scr.place k' p) = s.framebuf (scr.place k' p) := by
  induction t with
  | nil => exact fun _ _ => rfl
  | cons c t ih =>
    intro s k hat hle
    rw [List.length_cons] at hle
    have hrest := ih (@putChar_at scr font s c k hat (by omega)) (by omega)
    exact hrest.trans (putChar_out hat (by omega) hk' (by omega) hp)

/-- Cell `k` of the screen of `vesa.c` has its pixels side by side with those of the others. -/
theorem vesa_place {k i j : Nat} (hk : k < 49) :
    vesaScreen.place k (i, j) = (8 * k + j) * 8 + i := by
  have hcols : vesaScreen.cols = 49 := rfl
  unfold Screen.place
  rw [hcols, Nat.mod_eq_of_lt hk, Nat.div_eq_of_lt hk, Nat.mul_zero, Nat.zero_add]
  rfl

/-- What becomes of a string of at most 49 characters on a screen of at least 400 pixels a line. -/
structure ShowsOn (headerData : Nat → BitVec 8) (width : BitVec 16) (n : Nat) (t : List (BitVec 8))
    (screen screen' : ByteMem) : Prop where
  /-- A pixel of a character is white where the bitmap is not 0. -/
  text : ∀ k i j b, ∀ hk : k < t.length, i < 8 → j < 8 → b < n →
    screen' (n * (i * width.toNat + (8 * k + j)) + b) =
      if headerData (bitmapIndex (t.get ⟨k, hk⟩) i j) ≠ 0 then 0xFF
      else screen (n * (i * width.toNat + (8 * k + j)) + b)
  /-- The cells behind the last character are white. -/
  behind : ∀ k i j b, t.length ≤ k → k < 49 → i < 8 → j < 8 → b < n →
    screen' (n * (i * width.toNat + (8 * k + j)) + b) = 0xFF
  /-- The rest of the screen is left alone. -/
  outside : ∀ a, (∀ x y, x < 400 → y < 8 → a / n ≠ y * width.toNat + x) → screen' a = screen a

/-- `put_s` and the loops behind it, for a string. -/
theorem string_shows {t : List (BitVec 8)} (h : IsString src t) (hne : t ≠ [])
    (hlen : t.length ≤ 49) (hw : 400 ≤ width.toNat) (hn : pixelBytes bpp = some n) :
    ∃ fuel s, putS vesaScreen (loadFont headerData fun _ _ => 0) src fuel 0 (start framebufInit) =
        some s ∧ ShowsOn headerData width n t screen (showFramebuf width bpp s.framebuf screen) := by
  have hroom : vesaScreen.cols * vesaScreen.rows = 49 := rfl
  have hpos := List.length_pos_iff.mpr hne
  refine ⟨t.length + 1, putChars vesaScreen (loadFont headerData fun _ _ => 0) t
    (start framebufInit), ?_, ?_, ?_, ?_⟩
  · rw [putS_eq h.stored h.nonzero, if_pos (Nat.lt_succ_self _)]
  · intro k i j b hk hi hj hb
    have hp : (i, j) ∈ cellPixels := mem_cellPixels.mpr ⟨hi, hj⟩
    have hdrawn := @putChars_in vesaScreen (loadFont headerData fun _ _ => 0) _ 0 t
      (start_at framebufInit) (by omega) k hk _ hp
    rw [Nat.zero_add, vesa_place (by omega), pixel_eq, loadFont_bit hi hj] at hdrawn
    rw [showFramebuf_pixel hn hw (by omega) hi hb, hdrawn]
    by_cases hdata : headerData (bitmapIndex (t.get ⟨k, hk⟩) i j) ≠ 0
    · rw [decide_eq_true hdata, if_pos hdata]
      exact if_pos (by decide)
    · rw [decide_eq_false hdata, if_neg hdata]
      exact if_neg (by decide)
  · intro k i j b hle hk hi hj hb
    have hp : (i, j) ∈ cellPixels := mem_cellPixels.mpr ⟨hi, hj⟩
    have hkept := @putChars_behind vesaScreen (loadFont headerData fun _ _ => 0) k (i, j)
      (by omega) hp t _ 0 (start_at framebufInit) (by omega)
    rw [vesa_place hk] at hkept
    rw [showFramebuf_pixel hn hw (by omega) hi hb, hkept, if_pos]
    show framebufInit ((8 * k + j) * 8 + i) ≠ 0x20
    rw [framebufInit, if_neg (by omega)]
    decide
  · exact fun a hout => showFramebuf_out hn hout

/-- What `test` shows of a text that there is room for, in ASCII and Russian letters without the
eight that `utf2win` mistakes, whatever the bitmap and for each depth that `putpixel` knows: all of
its characters, in order. -/
theorem vesa_test_shows {t : List Char} (ht : ∀ c ∈ t, IsText c) (hgood : ∀ c ∈ t, c ∉ mistaken)
    (hsrc : Stored src 0 (t.flatMap utf8 ++ [0])) (hne : t ≠ []) (hlen : t.length ≤ 49)
    (hw : 400 ≤ width.toNat) (hn : pixelBytes bpp = some n) :
    ∃ c l fuel s, (utf2win src buf (t.length + 1)).Returns c l ∧
      putS vesaScreen (loadFont headerData fun _ _ => 0) c fuel 0 (start framebufInit) = some s ∧
      ShowsOn headerData width n (t.map cp1251) screen
        (showFramebuf width bpp s.framebuf screen) := by
  obtain ⟨c, l, hrun, hc⟩ := @utf2win_isString src buf t ht hgood hsrc
  obtain ⟨fuel, s, hput, hshows⟩ := @string_shows headerData width bpp n c screen (t.map cp1251) hc
    (fun hnil => hne (List.map_eq_nil_iff.mp hnil)) (by rw [List.length_map]; exact hlen) hw hn
  exact ⟨c, l, fuel, s, hrun, hput, hshows⟩

end Way

/-- Two letters on a screen of 640 pixels a line and 32 bits a pixel. -/
theorem vesa_test_shows_zhe : ∃ c l fuel s,
    (utf2win (fun i => [0x7A, 0xd0, 0x96].getD i 0) (fun _ => 0) 3).Returns c l ∧
    putS vesaScreen (loadFont (fun i => BitVec.ofNat 8 (i % 2)) fun _ _ => 0) c fuel 0
      (start framebufInit) = some s ∧
    ShowsOn (fun i => BitVec.ofNat 8 (i % 2)) 640 4 (['z', 'Ж'].map cp1251) (fun _ => 0)
      (showFramebuf 640 32 s.framebuf fun _ => 0) :=
  @vesa_test_shows (fun i => BitVec.ofNat 8 (i % 2)) 640 32 4
    (fun i => [0x7A, 0xd0, 0x96].getD i 0) (fun _ => 0) (fun _ => 0) ['z', 'Ж'] (of_all rfl)
    (of_all (by decide)) ⟨rfl, rfl, rfl, rfl, trivial⟩ (by decide) (by decide) (by decide) rfl

end OS64.Vesa
