import OS64.Lib.ByteMem
import OS64.Lib.Logged
import OS64.Lib.Pieces
import Mathlib.Data.BitVec
import Mathlib.Logic.Function.Basic

/-!
# From UTF-8 to CP1251

`utf2win` of `vesa.c`, and the same function of `fbtest.c`. The string and the result are two
objects, as both callers have them, each addressed from where its pointer starts; every access to
one of the two is logged.

The function judges by the first byte whether a character has one byte or two, so it takes its
string in pieces (`utf2winLoop_pieces`) and makes one byte of each (`pieceByte`). The second byte of
a piece is not looked at before it is taken: where a string ends in the middle of a piece, the
terminator is taken for it, and the loop goes on behind the terminator (`utf2win_inside_iff`).
-/

namespace OS64.Vesa

open OS64.Lib
open OS64.Lib.Logged

/-! ## The function -/

/-- One access, to a byte of the string or to a byte of the result. -/
inductive Access
  | read (i : Nat)
  | write (i : Nat)

/-- The two pointers, and the object that `win` points into. -/
structure Utf2win where
  utf : Nat
  win : Nat
  buf : ByteMem

/-- `*utf`. -/
def deref (src : ByteMem) (i : Nat) : Logged Unit Access (BitVec 8) := do
  log (.read i)
  pure (src i)

/-- `*win++ = v`. -/
def Utf2win.put (s : Utf2win) (v : BitVec 8) : Logged Unit Access Utf2win := do
  log (.write s.win)
  pure { s with win := s.win + 1, buf := Function.update s.buf s.win v }

/-- `utf += n`. -/
def Utf2win.skip (s : Utf2win) (n : Nat) : Utf2win := { s with utf := s.utf + n }

/-- The mask that shall tell `Ё` and `ё` from the other letters, for the second byte `d`. -/
def isYo (bit d : BitVec 8) : Bool := d &&& 0x91 == 0x81 ||| bit <<< 4

section Loop

variable (src : ByteMem)

/-- The branch of the lead bytes `d0` and `d1`. -/
def utf2winPair (s : Utf2win) : Logged Unit Access Utf2win := do
  let c ← deref src s.utf
  let bit := c &&& 1
  let d ← deref src (s.skip 1).utf
  if isYo bit d then
    let d ← deref src (s.skip 1).utf
    (s.skip 2).put (d + 0x27)
  else
    let d ← deref src (s.skip 1).utf
    (s.skip 2).put ((d ||| bit <<< 6) + 0x30)

/-- The body of the loop. -/
def utf2winBody (s : Utf2win) : Logged Unit Access Utf2win := do
  let c ← deref src s.utf
  if c < 0x80 then
    let c ← deref src s.utf
    (s.skip 1).put c
  else
    let c ← deref src s.utf
    if c &&& 0xFE = 0xd0 then utf2winPair src s
    else (s.skip 2).put 0x3F

/-- The loop, with fuel for as many rounds; it fails when there is none left. -/
def utf2winLoop : Nat → Utf2win → Logged Unit Access Utf2win
  | 0, _ => Except.error ()
  | fuel + 1, s => do
    let c ← deref src s.utf
    if c = 0 then pure s
    else
      let s ← utf2winBody src s
      utf2winLoop fuel s

/-- `utf2win`. -/
def utf2win (win : ByteMem) (fuel : Nat) : Logged Unit Access ByteMem := do
  let s ← utf2winLoop src fuel ⟨0, 0, win⟩
  let s ← s.put 0
  pure s.buf

end Loop

/-! ## One round -/

/-- A byte that takes the next one with it. -/
def wide (c : BitVec 8) : Bool := !decide (c < 0x80)

/-- What becomes of a piece. -/
def pieceByte : Piece (BitVec 8) → BitVec 8
  | .one c => c
  | .two c d =>
    if c &&& 0xFE = 0xd0 then
      if isYo (c &&& 1) d then d + 0x27 else (d ||| (c &&& 1) <<< 6) + 0x30
    else 0x3F

/-- Behind a piece. -/
def Utf2win.next (s : Utf2win) (p : Piece (BitVec 8)) : Utf2win where
  utf := s.utf + p.length
  win := s.win + 1
  buf := Function.update s.buf s.win (pieceByte p)

/-- Behind several. -/
def Utf2win.run (s : Utf2win) (ps : List (Piece (BitVec 8))) : Utf2win := ps.foldl Utf2win.next s

/-- The bytes of the result that a run writes, in its order. -/
def writes (l : List Access) : List Nat :=
  l.filterMap fun
    | .read _ => none
    | .write i => some i

/-- No byte of the string from `b` on is read. -/
def ReadsBelow (b : Nat) (l : List Access) : Prop := ∀ i, .read i ∈ l → i < b

theorem writes_append (l l' : List Access) : writes (l ++ l') = writes l ++ writes l' :=
  List.filterMap_append

theorem mem_writes {i : Nat} {l : List Access} : .write i ∈ l ↔ i ∈ writes l := by
  rw [writes, List.mem_filterMap]
  constructor
  · exact fun h => ⟨_, h, rfl⟩
  · intro h
    obtain ⟨d, hd, hi⟩ := h
    cases d with
    | read j => cases hi
    | write j =>
      cases hi
      exact hd

theorem readsBelow_append {b : Nat} {l l' : List Access} (h : ReadsBelow b l) (h' : ReadsBelow b l') :
    ReadsBelow b (l ++ l') := fun i hi => (List.mem_append.mp hi).elim (h i) (h' i)

theorem readsBelow_mono {b b' : Nat} {l : List Access} (hle : b ≤ b') (h : ReadsBelow b l) :
    ReadsBelow b' l := fun i hi => Nat.lt_of_lt_of_le (h i hi) hle

variable {src win : ByteMem} {s : Utf2win} {p : Piece (BitVec 8)} {ps : List (Piece (BitVec 8))}

theorem deref_returns (i : Nat) : (deref src i).Returns (src i) [.read i] := rfl

theorem put_returns (v : BitVec 8) : (s.put v).Returns
    { s with win := s.win + 1, buf := Function.update s.buf s.win v } [.write s.win] := rfl

theorem narrow_of {c : BitVec 8} (h : wide c = false) : c < 0x80 := by
  rw [wide, Bool.not_eq_false'] at h
  exact of_decide_eq_true h

theorem not_narrow_of {c : BitVec 8} (h : wide c = true) : ¬ c < 0x80 := by
  rw [wide, Bool.not_eq_true'] at h
  exact of_decide_eq_false h

/-- The branch of the lead bytes reads both bytes. -/
theorem utf2winPair_returns {c d : BitVec 8} (hc : src s.utf = c) (hd : src (s.utf + 1) = d)
    (hlead : c &&& 0xFE = 0xd0) : (utf2winPair src s).Returns (s.next (.two c d))
      ([.read s.utf] ++ ([.read (s.utf + 1)] ++ ([.read (s.utf + 1)] ++ [.write s.win]))) := by
  have hbyte : pieceByte (.two c d) =
      if isYo (c &&& 1) d then d + 0x27 else (d ||| (c &&& 1) <<< 6) + 0x30 := if_pos hlead
  rw [Utf2win.next, hbyte]
  refine bind_returns (deref_returns _) (bind_returns (deref_returns _) ?_)
  rw [hc, show src (s.skip 1).utf = d from hd]
  by_cases hyo : isYo (c &&& 1) d = true
  · rw [if_pos hyo, if_pos hyo]
    refine bind_returns (deref_returns _) ?_
    rw [show src (s.skip 1).utf = d from hd]
    exact put_returns _
  · rw [if_neg hyo, if_neg hyo]
    refine bind_returns (deref_returns _) ?_
    rw [show src (s.skip 1).utf = d from hd]
    exact put_returns _

/-- The first read of the body decides for the branch of the wide bytes. -/
theorem utf2winBody_wide {c : BitVec 8} (hc : src s.utf = c) (hwide : wide c = true) :
    utf2winBody src s = ((do
      let c ← deref src s.utf
      if c &&& 0xFE = 0xd0 then utf2winPair src s
      else (s.skip 2).put 0x3F : Logged Unit Access Utf2win).after [.read s.utf]) := by
  rw [utf2winBody, bind_of_returns (deref_returns _), hc, if_neg (not_narrow_of hwide)]

/-- A round takes a piece and writes its byte. -/
theorem utf2winBody_piece (hp : p.Proper wide) (hst : Stored src s.utf p.elems) :
    ∃ l, (utf2winBody src s).Returns (s.next p) l ∧ writes l = [s.win] ∧
      ReadsBelow (s.utf + p.length) l := by
  cases p with
  | one c =>
    have hc : src s.utf = c := hst.1
    refine ⟨[.read s.utf] ++ ([.read s.utf] ++ [.write s.win]), ?_, rfl, ?_⟩
    · rw [utf2winBody, bind_of_returns (deref_returns _), hc, if_pos (narrow_of hp),
        bind_of_returns (deref_returns _), hc]
      rfl
    · intro i hi
      simp [Piece.length, Piece.elems] at hi ⊢
      omega
  | two c d =>
    have hc : src s.utf = c := hst.1
    have hd : src (s.utf + 1) = d := hst.2.1
    rw [utf2winBody_wide hc hp, bind_of_returns (deref_returns _), hc, after_after]
    by_cases hlead : c &&& 0xFE = 0xd0
    · rw [if_pos hlead]
      refine ⟨_, returns_after.mpr ⟨_, utf2winPair_returns hc hd hlead, rfl⟩, rfl, ?_⟩
      intro i hi
      simp [Piece.length, Piece.elems] at hi ⊢
      omega
    · have hbyte : pieceByte (.two c d) = 0x3F := if_neg hlead
      rw [if_neg hlead, Utf2win.next, hbyte]
      refine ⟨_, returns_after.mpr ⟨_, put_returns _, rfl⟩, rfl, ?_⟩
      intro i hi
      simp [Piece.length, Piece.elems, Utf2win.skip] at hi ⊢
      omega

/-! ## Many rounds -/

/-- What more fuel does. -/
theorem utf2winLoop_more {fuel : Nat} {s' : Utf2win} {l : List Access} (k : Nat)
    (h : (utf2winLoop src fuel s).Returns s' l) : (utf2winLoop src (fuel + k) s).Returns s' l := by
  induction fuel generalizing s l with
  | zero => cases h
  | succ fuel ih =>
    rw [Nat.add_right_comm]
    obtain ⟨c, l₁, l₂, hread, hrest, rfl⟩ := returns_bind h
    refine bind_returns hread ?_
    by_cases hc : c = 0
    · rw [if_pos hc] at hrest ⊢
      exact hrest
    · rw [if_neg hc] at hrest ⊢
      obtain ⟨s₁, l₃, l₄, hbody, hloop, rfl⟩ := returns_bind hrest
      exact bind_returns hbody (ih hloop)

/-- A loop that returns has read the byte it starts at. -/
theorem utf2winLoop_reads {fuel : Nat} {s' : Utf2win} {l : List Access}
    (h : (utf2winLoop src fuel s).Returns s' l) : .read s.utf ∈ l := by
  cases fuel with
  | zero => cases h
  | succ fuel =>
    obtain ⟨c, l₁, l₂, hread, -, rfl⟩ := returns_bind h
    cases hread
    exact List.mem_append_left _ List.mem_cons_self

/-- The rounds over a list of pieces, and what comes behind them. -/
theorem utf2winLoop_pieces (hps : ∀ p ∈ ps, p.Proper wide) (hne : ∀ p ∈ ps, p.head ≠ 0)
    (hst : Stored src s.utf (glue ps)) : ∃ l,
      (∀ fuel, utf2winLoop src (fuel + ps.length) s = (utf2winLoop src fuel (s.run ps)).after l) ∧
      writes l = List.range' s.win ps.length ∧ ReadsBelow (s.utf + (glue ps).length) l := by
  induction ps generalizing s with
  | nil =>
    refine ⟨[], fun fuel => ?_, rfl, fun i hi => by cases hi⟩
    show _ = (utf2winLoop src fuel s).after []
    rcases utf2winLoop src fuel s with e | ⟨a, l⟩ <;> rfl
  | cons p ps ih =>
    rw [glue_cons, stored_append] at hst
    have hp := List.forall_mem_cons.mp hps
    have hn := List.forall_mem_cons.mp hne
    obtain ⟨l, hbody, hwrites, hreads⟩ := utf2winBody_piece hp.1 hst.1
    obtain ⟨l', hrest, hwrites', hreads'⟩ := ih hp.2 hn.2 (s := s.next p) hst.2
    refine ⟨[.read s.utf] ++ (l ++ l'), fun fuel => ?_, ?_, ?_⟩
    · have hhead : src s.utf ≠ 0 := by
        rw [Piece.stored_head hst.1]
        exact hn.1
      show utf2winLoop src (fuel + ps.length + 1) s = _
      rw [utf2winLoop, bind_of_returns (deref_returns _), if_neg hhead, bind_of_returns hbody, hrest,
        after_after, after_after]
      rfl
    · rw [writes_append, writes_append, hwrites, hwrites']
      rfl
    · have hpos : 0 < p.length := by cases p <;> exact Nat.succ_pos _
      have hlen : p.length = p.elems.length := rfl
      have hnext : (s.next p).utf = s.utf + p.length := rfl
      rw [glue_cons, List.length_append]
      refine readsBelow_append (fun i hi => ?_) (readsBelow_append ?_ ?_)
      · rw [Access.read.inj (List.mem_singleton.mp hi)]
        omega
      · exact readsBelow_mono (by omega) hreads
      · exact readsBelow_mono (by omega) hreads'

theorem run_utf : (s.run ps).utf = s.utf + (glue ps).length := by
  induction ps generalizing s with
  | nil => rfl
  | cons p ps ih =>
    show ((s.next p).run ps).utf = _
    rw [ih, glue_cons, List.length_append, ← Nat.add_assoc]
    rfl

theorem run_win : (s.run ps).win = s.win + ps.length := by
  induction ps generalizing s with
  | nil => rfl
  | cons p ps ih =>
    show ((s.next p).run ps).win = _
    rw [ih, List.length_cons, Nat.add_comm ps.length, ← Nat.add_assoc]
    rfl

/-- Below `win` nothing is written any more. -/
theorem run_buf_below {i : Nat} (hi : i < s.win) : (s.run ps).buf i = s.buf i := by
  induction ps generalizing s with
  | nil => rfl
  | cons p ps ih =>
    have hsame : ((s.next p).run ps).buf i = (s.next p).buf i := ih (Nat.lt_succ_of_lt hi)
    exact hsame.trans (Function.update_of_ne (Nat.ne_of_lt hi) _ _)

/-- The result has a byte for each piece. -/
theorem run_stored : Stored (s.run ps).buf s.win (ps.map pieceByte) := by
  induction ps generalizing s with
  | nil => trivial
  | cons p ps ih =>
    refine ⟨?_, ih (s := s.next p)⟩
    have hsame : ((s.next p).run ps).buf s.win = (s.next p).buf s.win :=
      run_buf_below (Nat.lt_succ_self _)
    exact hsame.trans (Function.update_self _ _ _)

/-! ## The whole string -/

/-- The bytes that a list of pieces makes, with the terminator. -/
def winBytes (ps : List (Piece (BitVec 8))) : List (BitVec 8) := ps.map pieceByte ++ [0]

/-- No piece of a string starts with a terminator. -/
theorem heads_nonzero (h : ∀ b ∈ glue ps, b ≠ 0) : ∀ p ∈ ps, p.head ≠ 0 := fun p hp =>
  h p.head (List.mem_flatMap.mpr ⟨p, hp, p.head_mem⟩)

/-- A string of pieces is taken piece by piece, and its terminator is seen. -/
theorem utf2win_pieces (hps : ∀ p ∈ ps, p.Proper wide) (h : IsString src (glue ps)) : ∃ buf l,
    (utf2win src win (ps.length + 1)).Returns buf l ∧ Stored buf 0 (winBytes ps) ∧
      writes l = List.range (ps.length + 1) ∧ ReadsBelow ((glue ps).length + 1) l := by
  have hst := stored_append.mp h.stored
  obtain ⟨l, hloop, hwrites, hreads⟩ :=
    @utf2winLoop_pieces src ⟨0, 0, win⟩ ps hps (heads_nonzero h.nonzero) hst.1
  have hend : src (Utf2win.run ⟨0, 0, win⟩ ps).utf = 0 := by
    rw [run_utf]
    exact hst.2.1
  have hlast : (utf2winLoop src 1 (Utf2win.run ⟨0, 0, win⟩ ps)).Returns
      (Utf2win.run ⟨0, 0, win⟩ ps) ([.read (glue ps).length] ++ []) := by
    have hutf := @run_utf ⟨0, 0, win⟩ ps
    refine bind_returns ?_ (by rw [if_pos rfl]; rfl)
    rw [← hend, hutf, Nat.zero_add]
    exact deref_returns _
  have hrun : (utf2winLoop src (ps.length + 1) ⟨0, 0, win⟩).Returns
      (Utf2win.run ⟨0, 0, win⟩ ps) (l ++ [.read (glue ps).length]) := by
    rw [Nat.add_comm, hloop]
    exact returns_after.mpr ⟨_, hlast, rfl⟩
  have hwin : (Utf2win.run ⟨0, 0, win⟩ ps).win = ps.length :=
    (@run_win ⟨0, 0, win⟩ ps).trans (Nat.zero_add _)
  have hbelow : ReadsBelow (0 + (glue ps).length) l := hreads
  refine ⟨_, _, bind_returns hrun (bind_returns (put_returns 0) rfl), ?_, ?_, ?_⟩
  · refine stored_append.mpr ⟨stored_congr (fun x _ hx => ?_) (run_stored (s := ⟨0, 0, win⟩)), ?_⟩
    · rw [List.length_map, Nat.zero_add] at hx
      exact (Function.update_of_ne (by omega) _ _).symm
    · rw [List.length_map, ← hwin, Nat.zero_add]
      exact ⟨Function.update_self _ _ _, trivial⟩
  · rw [writes_append, writes_append, hwrites, List.range_eq_range', List.range'_1_concat]
    show List.range' 0 ps.length ++ [] ++ [_] = _
    rw [hwin, List.append_nil, Nat.zero_add]
  · refine readsBelow_append (readsBelow_append (readsBelow_mono (by omega) hbelow) ?_) ?_
    · intro i hi
      rw [Access.read.inj (List.mem_singleton.mp hi)]
      exact Nat.lt_succ_self _
    · intro i hi
      cases List.mem_singleton.mp hi

/-- Two runs that return leave the same. -/
theorem utf2win_unique {f f' : Nat} {buf buf' : ByteMem} {l l' : List Access}
    (h : (utf2win src win f).Returns buf l) (h' : (utf2win src win f').Returns buf' l') :
    buf = buf' ∧ l = l' := by
  obtain ⟨s, l₁, l₂, hloop, hput, rfl⟩ := returns_bind h
  obtain ⟨s', l₁', l₂', hloop', hput', rfl⟩ := returns_bind h'
  have hmore := utf2winLoop_more f' hloop
  have hmore' := utf2winLoop_more f hloop'
  rw [Nat.add_comm f' f, hmore] at hmore'
  cases hmore'
  rw [hput] at hput'
  cases hput'
  exact ⟨rfl, rfl⟩

/-! ## The ends of the string and of the result -/

/-- The call returns, has not read behind the terminator of a string of `m` bytes and has written
to the first `m + 1` bytes of the result and not more than so many. -/
def StaysInside (src win : ByteMem) (m : Nat) : Prop :=
  ∃ fuel buf l, (utf2win src win fuel).Returns buf l ∧ (∀ i, .read i ∈ l → i ≤ m) ∧
    (∀ i, .write i ∈ l → i < m + 1) ∧ (writes l).length ≤ m + 1

/-- A string that ends in the middle of a piece is left behind its terminator. -/
theorem utf2win_overruns {c : BitVec 8} {fuel : Nat} {buf : ByteMem} {l : List Access}
    (hps : ∀ p ∈ ps, p.Proper wide) (hc : wide c = true) (h : IsString src (glue ps ++ [c]))
    (hrun : (utf2win src win fuel).Returns buf l) : .read ((glue ps ++ [c]).length + 1) ∈ l := by
  obtain ⟨s, l₁, l₂, hloop, -, rfl⟩ := returns_bind hrun
  -- the terminator is the second byte of the last piece
  have hglue : glue (ps ++ [Piece.two c 0]) = glue ps ++ [c] ++ [0] := by
    rw [glue_append, List.append_assoc]
    rfl
  have hproper : ∀ p ∈ ps ++ [.two c 0], p.Proper wide := by
    intro p hp
    rcases List.mem_append.mp hp with hp | hp
    · exact hps p hp
    · rw [List.mem_singleton.mp hp]
      exact hc
  have hheads : ∀ p ∈ ps ++ [.two c 0], p.head ≠ 0 := by
    intro p hp
    rcases List.mem_append.mp hp with hp | hp
    · exact heads_nonzero (fun b hb => h.nonzero b (List.mem_append_left _ hb)) p hp
    · rw [List.mem_singleton.mp hp]
      exact h.nonzero c (List.mem_append_right _ List.mem_cons_self)
  obtain ⟨l', hpieces, -, -⟩ :=
    @utf2winLoop_pieces src ⟨0, 0, win⟩ _ hproper hheads (hglue ▸ h.stored)
  have hmore := utf2winLoop_more (ps ++ [Piece.two c 0]).length hloop
  rw [hpieces, returns_after] at hmore
  obtain ⟨l'', hrest, rfl⟩ := hmore
  have hutf : (Utf2win.run ⟨0, 0, win⟩ (ps ++ [.two c 0])).utf = (glue ps ++ [c]).length + 1 := by
    have hlen := @run_utf ⟨0, 0, win⟩ (ps ++ [.two c 0])
    rw [hglue, Nat.zero_add, List.length_append] at hlen
    exact hlen
  refine List.mem_append_left _ (List.mem_append_right _ ?_)
  rw [← hutf]
  exact utf2winLoop_reads hrest

/-- `utf2win` stays inside its string and its result when, cut from the left into bytes below `80`
and pairs whose first byte is `80` or more, the string does not end in the middle of a pair. -/
theorem utf2win_inside_iff {t : List (BitVec 8)} (h : IsString src t) :
    StaysInside src win t.length ↔ (cut wide t).isSome = true := by
  cases hcut : cut wide t with
  | none =>
    obtain ⟨ps, c, rfl, hc, hps⟩ := cut_none hcut
    refine iff_of_false (fun hinside => ?_) Bool.false_ne_true
    obtain ⟨fuel, buf, l, hrun, hreads, -, -⟩ := hinside
    have hover := hreads _ (utf2win_overruns hps hc h hrun)
    omega
  | some ps =>
    obtain ⟨rfl, hps⟩ := cut_some hcut
    refine iff_of_true ?_ rfl
    obtain ⟨buf, l, hrun, -, hwrites, hreads⟩ := @utf2win_pieces src win ps hps h
    have hle : ps.length ≤ (glue ps).length := length_le_glue ps
    refine ⟨ps.length + 1, buf, l, hrun, fun i hi => Nat.le_of_lt_succ (hreads i hi), ?_, ?_⟩
    · intro i hi
      rw [mem_writes, hwrites, List.mem_range] at hi
      omega
    · rw [hwrites, List.length_range]
      omega

/-- `utf2win_inside_iff` for one Russian letter. -/
theorem utf2win_inside_zhe : StaysInside (fun i => [0xd0, 0x96].getD i 0) (fun _ => 0) 2 :=
  (@utf2win_inside_iff _ _ [0xd0, 0x96] ⟨⟨rfl, rfl, rfl, trivial⟩, by decide⟩).mpr rfl

/-- The euro sign. -/
def euro : List (BitVec 8) := [0xe2, 0x82, 0xac]

/-- Its third byte takes the terminator for a second one. -/
theorem utf2win_outside_euro : IsString (fun i => euro.getD i 0) euro ∧
    ¬ StaysInside (fun i => euro.getD i 0) (fun _ => 0) euro.length := by
  have hstring : IsString (fun i => euro.getD i 0) euro :=
    ⟨⟨rfl, rfl, rfl, rfl, trivial⟩, by decide⟩
  refine ⟨hstring, fun hinside => ?_⟩
  obtain ⟨fuel, buf, l, hrun, hreads, -, -⟩ := hinside
  have hover : 4 ≤ 3 := hreads _ (@utf2win_overruns _ _ [.two 0xe2 0x82] 0xac fuel buf l
    (List.forall_mem_singleton.mpr rfl) rfl hstring hrun)
  exact absurd hover (by decide)

end OS64.Vesa
