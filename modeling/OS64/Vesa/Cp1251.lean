import OS64.Vesa.Utf2win

/-!
# Russian text in CP1251

What `utf2win` makes of a text of ASCII and Russian letters. In UTF-8 each of its characters is one
piece (`pieceOf`), so the pieces of the text are its characters and the result is their bytes.

The mask that finds `Ё` behind `d0` and `ё` behind `d1` also lets through the odd bytes from `a1` to
`af` behind `d0`. They are eight capital letters, and these come out nine places too low
(`utf2win_cp1251_iff`). A text without them is a string again afterwards, for `put_s` to draw
(`utf2win_isString`).
-/

namespace OS64.Vesa

open OS64.Lib
open OS64.Lib.Logged

/-! ## Characters -/

/-- The 66 Russian letters. -/
def russian : List Char :=
  (List.range 64).map (fun k => Char.ofNat (0x410 + k)) ++ ['Ё', 'ё']

/-- ASCII and Russian letters. -/
def IsText (c : Char) : Prop := 0 < c.toNat ∧ c.toNat < 0x80 ∨ c ∈ russian

instance : DecidablePred IsText := fun c =>
  inferInstanceAs (Decidable (0 < c.toNat ∧ c.toNat < 0x80 ∨ c ∈ russian))

/-- A character in CP1251. -/
def cp1251 (c : Char) : BitVec 8 :=
  if c = 'Ё' then 0xA8
  else if c = 'ё' then 0xB8
  else if c.toNat < 0x80 then BitVec.ofNat 8 c.toNat
  else BitVec.ofNat 8 (0xC0 + (c.toNat - 0x410))

/-- No character of a text becomes a terminator. -/
theorem cp1251_ne_zero {c : Char} (h : IsText c) : cp1251 c ≠ 0 := by
  rcases h with ⟨hpos, hlt⟩ | hmem
  · have hofNat : BitVec.ofNat 8 c.toNat ≠ 0 := by
      intro hzero
      have hn := congrArg BitVec.toNat hzero
      rw [BitVec.toNat_ofNat, Nat.mod_eq_of_lt (by omega)] at hn
      exact absurd hn (Nat.ne_of_gt hpos)
    unfold cp1251
    split_ifs with hYo hyo
    · decide
    · decide
    · exact hofNat
  · have hall : ∀ c ∈ russian, cp1251 c ≠ 0 := of_all (by decide)
    exact hall c hmem

/-- A character in UTF-8. -/
def utf8 (c : Char) : List (BitVec 8) := (String.utf8EncodeChar c).map UInt8.toBitVec

/-- The letters that are taken for `Ё`. -/
def mistaken : List Char := ['С', 'У', 'Х', 'Ч', 'Щ', 'Ы', 'Э', 'Я']

/-- A character as a piece. -/
def charPiece (c : Char) : Piece (BitVec 8) :=
  match utf8 c with
  | [a, b] => .two a b
  | l => .one (l.headD 0)

/-! ## A character is a piece -/

/-- A character and its piece: the bytes are the same, none of them is zero, and the byte that is
made of the piece is the character's, but for the eight letters. -/
structure PieceOf (c : Char) : Prop where
  bytes : utf8 c = (charPiece c).elems
  proper : (charPiece c).Proper wide
  nonzero : 0 ∉ utf8 c
  byte : pieceByte (charPiece c) = cp1251 c ↔ c ∉ mistaken

theorem pieceOf_ascii {c : Char} (hpos : 0 < c.toNat) (hlt : c.toNat < 0x80) : PieceOf c := by
  have hutf8 : utf8 c = [BitVec.ofNat 8 c.toNat] := by
    have hsize : c.utf8Size = 1 := Char.utf8Size_eq_one_iff.mpr (by
      rw [UInt32.le_iff_toNat_le]
      exact Nat.le_of_lt_succ hlt)
    rw [utf8, String.utf8EncodeChar_eq_singleton hsize]
    rfl
  have hpiece : charPiece c = .one (BitVec.ofNat 8 c.toNat) := by rw [charPiece, hutf8]; rfl
  have htoNat : (BitVec.ofNat 8 c.toNat).toNat = c.toNat := by
    rw [BitVec.toNat_ofNat, Nat.mod_eq_of_lt (by omega)]
  have hletter : c ∉ mistaken := by
    have hall : ∀ c ∈ mistaken, ¬ c.toNat < 0x80 := of_all rfl
    exact fun hc => hall c hc hlt
  have hYo : c ≠ 'Ё' := by
    intro hc
    rw [hc] at hlt
    exact absurd hlt (by decide)
  have hyo : c ≠ 'ё' := by
    intro hc
    rw [hc] at hlt
    exact absurd hlt (by decide)
  refine ⟨hutf8.trans (by rw [hpiece]; rfl), ?_, ?_, ?_⟩
  · rw [hpiece]
    have hnarrow : BitVec.ofNat 8 c.toNat < 0x80 := by
      rw [BitVec.lt_def, htoNat]
      exact hlt
    rw [Piece.Proper, wide, decide_eq_true hnarrow]
    rfl
  · intro hzero
    rw [hutf8, List.mem_singleton] at hzero
    rw [← hzero] at htoNat
    exact absurd htoNat (Nat.ne_of_lt hpos)
  · rw [hpiece, cp1251, if_neg hYo, if_neg hyo, if_pos hlt]
    exact iff_of_true rfl hletter

theorem pieceOf_russian {c : Char} (h : c ∈ russian) : PieceOf c := by
  have hall : ∀ c ∈ russian, utf8 c = (charPiece c).elems ∧ wide (charPiece c).head = true ∧
      (utf8 c).length = 2 ∧ 0 ∉ utf8 c ∧
        (pieceByte (charPiece c) = cp1251 c ↔ c ∉ mistaken) := of_all (by decide)
  obtain ⟨hbytes, hwide, htwo, hnonzero, hbyte⟩ := hall c h
  refine ⟨hbytes, ?_, hnonzero, hbyte⟩
  rw [hbytes] at htwo
  cases hpiece : charPiece c with
  | one a =>
    rw [hpiece] at htwo
    cases htwo
  | two a b =>
    rw [hpiece] at hwide
    exact hwide

theorem pieceOf {c : Char} (h : IsText c) : PieceOf c :=
  h.elim (fun h => pieceOf_ascii h.1 h.2) pieceOf_russian

/-! ## A text -/

variable {src win : ByteMem}

/-- A text in UTF-8 is a string of the pieces of its characters. -/
theorem glue_charPiece {t : List Char} (ht : ∀ c ∈ t, IsText c) :
    t.flatMap utf8 = glue (t.map charPiece) := by
  induction t with
  | nil => rfl
  | cons c t ih =>
    have hc := List.forall_mem_cons.mp ht
    rw [List.flatMap_cons, ih hc.2, (pieceOf hc.1).bytes]
    rfl

/-- And none of its bytes is zero. -/
theorem text_nonzero {t : List Char} (ht : ∀ c ∈ t, IsText c) : ∀ b ∈ t.flatMap utf8, b ≠ 0 := by
  intro b hb hzero
  obtain ⟨c, hc, hb⟩ := List.mem_flatMap.mp hb
  exact (pieceOf (ht c hc)).nonzero (hzero ▸ hb)

/-- The call returns and has written, in their order, the bytes of the text in CP1251 and a zero
byte. -/
def Transliterates (src win : ByteMem) (t : List Char) : Prop :=
  ∃ fuel buf l, (utf2win src win fuel).Returns buf l ∧ Stored buf 0 (t.map cp1251 ++ [0]) ∧
    writes l = List.range (t.length + 1)

/-- What `utf2win` makes of a text. -/
theorem utf2win_text {t : List Char} (ht : ∀ c ∈ t, IsText c)
    (hsrc : Stored src 0 (t.flatMap utf8 ++ [0])) : ∃ buf l,
    (utf2win src win (t.length + 1)).Returns buf l ∧
      Stored buf 0 (t.map (fun c => pieceByte (charPiece c)) ++ [0]) ∧
      writes l = List.range (t.length + 1) := by
  have hglue := glue_charPiece ht
  have hstring : IsString src (glue (t.map charPiece)) := by
    rw [← hglue]
    exact ⟨hsrc, text_nonzero ht⟩
  have hproper : ∀ p ∈ t.map charPiece, p.Proper wide := by
    intro p hp
    obtain ⟨c, hc, rfl⟩ := List.mem_map.mp hp
    exact (pieceOf (ht c hc)).proper
  obtain ⟨buf, l, hrun, hbuf, hwrites, -⟩ := @utf2win_pieces src win _ hproper hstring
  rw [List.length_map] at hrun hwrites
  rw [winBytes, List.map_map] at hbuf
  exact ⟨buf, l, hrun, hbuf, hwrites⟩

/-- The text is in CP1251 if the bytes of its pieces are. -/
theorem transliterates_iff_bytes {t : List Char} (ht : ∀ c ∈ t, IsText c)
    (hsrc : Stored src 0 (t.flatMap utf8 ++ [0])) : Transliterates src win t ↔
      t.map (fun c => pieceByte (charPiece c)) = t.map cp1251 := by
  obtain ⟨buf, l, hrun, hbuf, hwrites⟩ := @utf2win_text src win t ht hsrc
  constructor
  · intro h
    obtain ⟨fuel, buf', l', hrun', hbuf', -⟩ := h
    obtain ⟨rfl, rfl⟩ := utf2win_unique hrun hrun'
    exact List.append_cancel_right (stored_unique hbuf hbuf' (by simp))
  · intro h
    rw [h] at hbuf
    exact ⟨t.length + 1, buf, l, hrun, hbuf, hwrites⟩

/-- What `utf2win` leaves of a text without the eight letters is a string again, the text in CP1251. -/
theorem utf2win_isString {t : List Char} (ht : ∀ c ∈ t, IsText c) (hgood : ∀ c ∈ t, c ∉ mistaken)
    (hsrc : Stored src 0 (t.flatMap utf8 ++ [0])) :
    ∃ buf l, (utf2win src win (t.length + 1)).Returns buf l ∧ IsString buf (t.map cp1251) := by
  obtain ⟨buf, l, hrun, hbuf, -⟩ := @utf2win_text src win t ht hsrc
  have hbytes : t.map (fun c => pieceByte (charPiece c)) = t.map cp1251 :=
    List.map_congr_left fun c hc => (pieceOf (ht c hc)).byte.mpr (hgood c hc)
  rw [hbytes] at hbuf
  refine ⟨buf, l, hrun, hbuf, fun b hb => ?_⟩
  obtain ⟨c, hc, rfl⟩ := List.mem_map.mp hb
  exact cp1251_ne_zero (ht c hc)

/-- `utf2win` turns a text of ASCII and Russian letters into CP1251 if none of the letters `С У Х Ч
Щ Ы Э Я` is in it. -/
theorem utf2win_cp1251_iff {t : List Char} (ht : ∀ c ∈ t, IsText c)
    (hsrc : Stored src 0 (t.flatMap utf8 ++ [0])) :
    Transliterates src win t ↔ ∀ c ∈ t, c ∉ mistaken := by
  rw [transliterates_iff_bytes ht hsrc, List.map_inj_left]
  exact forall₂_congr fun c hc => (pieceOf (ht c hc)).byte

/-- `utf2win_cp1251_iff` for two letters, one of ASCII and one of Russian. -/
theorem utf2win_cp1251_zhe : Transliterates (fun i => [0x7A, 0xd0, 0x96].getD i 0) (fun _ => 0)
    ['z', 'Ж'] :=
  (utf2win_cp1251_iff (t := ['z', 'Ж']) (of_all rfl) ⟨rfl, rfl, rfl, rfl, trivial⟩).mpr
    (of_all (by decide))

/-- The letter `С`, which comes out as `C8`, an `И`. -/
theorem utf2win_mistakes_es : Stored (fun i => [0xd0, 0xa1].getD i 0) 0 (['С'].flatMap utf8 ++ [0]) ∧
    ¬ Transliterates (fun i => [0xd0, 0xa1].getD i 0) (fun _ => 0) ['С'] := by
  have hsrc : Stored (fun i => [0xd0, 0xa1].getD i 0) 0 (['С'].flatMap utf8 ++ [0]) :=
    ⟨rfl, rfl, rfl, trivial⟩
  refine ⟨hsrc, fun h => ?_⟩
  rw [transliterates_iff_bytes (of_all rfl) hsrc] at h
  exact absurd h (by decide)

end OS64.Vesa
