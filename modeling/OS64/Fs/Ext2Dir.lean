import OS64.Fs.Ext2Read
import OS64.Lib.CStr
import Mathlib.Data.BitVec

/-!
# The records of a directory

`ext2_readdir` and `ext2_finddir` step from record to record by a size that the volume
gives them, as long as the volume's file size is not reached and the length of the name is
not zero. Nothing relates these numbers to the buffer, which has the bytes of the twelve
direct blocks. `ext2_readdir` at least counts its steps; a record of size 0 holds
`ext2_finddir` forever, unless it has the name that is asked for.

`Reached` are the records that the steps lead to, and `walks_harmless_iff` says when none
of this goes wrong.
-/

namespace OS64.Fs

open OS64.Lib
open OS64.Lib.ByteMem

/-! ## Records in a buffer -/

section Fields

variable (m : ByteMem) (p : Nat)

/-- `ed->inode`. -/
def recInode : Nat := m.read p 4

/-- `ed->size`. -/
def recSize : Nat := m.read (p + 4) 2

/-- `ed->length`. -/
def recLength : Nat := m.read (p + 6) 1

/-- The `n` bytes at `p`. -/
def bytesAt : Nat → Nat → List (BitVec 8)
  | _, 0 => []
  | p, n + 1 => m p :: bytesAt (p + 1) n

/-- `ed->name`. -/
def recName : List (BitVec 8) := bytesAt m (p + 8) (recLength m p)

/-- The part of a record that is looked at: the numbers, and the name up to its end. -/
def recExtent : Nat := if recLength m p = 0 then 7 else 8 + examined (recName m p)

end Fields

theorem bytesAt_length (m : ByteMem) (n : Nat) : ∀ p, (bytesAt m p n).length = n := by
  induction n with
  | zero => exact fun _ => rfl
  | succ n ih => exact fun p => congrArg Nat.succ (ih (p + 1))

theorem recExtent_ge (m : ByteMem) (p : Nat) : 7 ≤ recExtent m p := by
  unfold recExtent
  split <;> omega

section Access

variable {d : DirBuffer}

theorem read_ok {p n : Nat} (h : p + n ≤ d.cap) : d.read p n = .ok (d.data.read p n) := if_pos h

theorem read_oob {p n : Nat} (h : ¬ p + n ≤ d.cap) : d.read p n = .error .outOfBounds := if_neg h

theorem byte_ok {p : Nat} (h : p < d.cap) : d.byte p = .ok (d.data p) := if_pos h

theorem strncpy_ok (n : Nat) : ∀ p, p + examined (bytesAt d.data p n) ≤ d.cap →
    strncpy d p n = .ok (strncpyList (bytesAt d.data p n)) := by
  induction n with
  | zero => exact fun _ _ => rfl
  | succ n ih =>
    intro p h
    rw [bytesAt, examined] at h
    rw [strncpy, bytesAt, strncpyList]
    by_cases hc : d.data p = 0
    · rw [if_pos hc] at h ⊢
      rw [byte_ok (by omega)]
      show (if d.data p = 0 then _ else _) = _
      rw [if_pos hc, bytesAt_length]
    · rw [if_neg hc] at h ⊢
      rw [byte_ok (by omega)]
      show (if d.data p = 0 then _ else _) = _
      rw [if_neg hc, ih (p + 1) (by omega)]
      rfl

/-- A copy that returns stayed in the buffer. -/
theorem strncpy_inside (n : Nat) : ∀ p l, strncpy d p n = .ok l → 0 < n →
    p + examined (bytesAt d.data p n) ≤ d.cap := by
  induction n with
  | zero => exact fun _ _ _ h => absurd h (Nat.lt_irrefl 0)
  | succ n ih =>
    intro p l h _
    rw [strncpy] at h
    by_cases hp : p < d.cap
    · rw [byte_ok hp] at h
      change (if d.data p = 0 then _ else _) = _ at h
      rw [bytesAt, examined]
      by_cases hc : d.data p = 0
      · rw [if_pos hc]
        omega
      · rw [if_neg hc] at h ⊢
        obtain ⟨rest, hrest, -⟩ := bind_ok h
        cases n with
        | zero =>
          rw [bytesAt, examined]
          omega
        | succ n =>
          have hin := ih (p + 1) rest hrest (Nat.succ_pos n)
          omega
    · have hoob : d.byte p = .error .outOfBounds := if_neg hp
      rw [hoob] at h
      cases h

theorem strncmpEq_ok (n : Nat) : ∀ s p, p + examined (bytesAt d.data p n) ≤ d.cap →
    strncmpEq d s p n = .ok (sameName s (bytesAt d.data p n)) := by
  induction n with
  | zero =>
    intro s p _
    cases s <;> rfl
  | succ n ih =>
    intro s p h
    rw [bytesAt, examined] at h
    rw [strncmpEq, bytesAt, sameName]
    have hp : p < d.cap := by
      split at h <;> omega
    rw [byte_ok hp]
    show (if s.headD 0 ≠ d.data p then _ else _) = _
    by_cases hne : s.headD 0 ≠ d.data p
    · rw [if_pos hne, if_pos hne]
    · rw [if_neg hne, if_neg hne]
      by_cases hc : d.data p = 0
      · rw [if_pos hc, if_pos hc]
      · rw [if_neg hc] at h ⊢
        rw [if_neg hc]
        exact ih s.tail (p + 1) (by omega)

end Access

/-! ## One step -/

section Step

variable {d : DirBuffer} {size p : Nat}

theorem recLength_ok (h : p + 7 ≤ d.cap) : d.read (p + 6) 1 = .ok (recLength d.data p) :=
  read_ok (by omega)

/-- One round of the loop of `ext2_readdir`. -/
theorem readdirLoop_step (index : BitVec 64) (fuel : Nat) (i : BitVec 32)
    (h : p < size → p + 7 ≤ d.cap) :
    readdirLoop d size index (fuel + 1) i p =
      if p < size ∧ recLength d.data p ≠ 0 ∧ i.signExtend 64 < index then
        readdirLoop d size index fuel (i + 1) (p + recSize d.data p)
      else .ok (i, p) := by
  rw [readdirLoop]
  by_cases hp : p < size
  · have hin := h hp
    rw [if_pos hp, recLength_ok hin]
    show (if recLength d.data p ≠ 0 ∧ i.signExtend 64 < index then _ else _) = _
    by_cases hgo : recLength d.data p ≠ 0 ∧ i.signExtend 64 < index
    · rw [if_pos hgo, if_pos ⟨hp, hgo⟩, read_ok (by omega)]
      rfl
    · rw [if_neg hgo, if_neg fun hall => hgo hall.2]
  · rw [if_neg hp, if_neg fun hall => hp hall.1]

/-- What `ext2_readdir` makes of a record in the buffer. -/
theorem readdirEntry_eq (index : BitVec 64) (i : BitVec 32)
    (h : p < size → p + recExtent d.data p ≤ d.cap) :
    readdirEntry d size index i p =
      .ok (if i.signExtend 64 = index ∧ p < size ∧ recLength d.data p ≠ 0 then
        .ok ⟨strncpyList (recName d.data p), BitVec.ofNat 64 (recInode d.data p)⟩
      else .error .einval) := by
  rw [readdirEntry]
  by_cases hp : i.signExtend 64 = index ∧ p < size
  · have hin := h hp.2
    have hge := recExtent_ge d.data p
    rw [if_pos hp, recLength_ok (by omega)]
    show (if recLength d.data p = 0 then _ else _) = _
    by_cases h0 : recLength d.data p = 0
    · rw [if_pos h0, if_neg fun hall => hall.2.2 h0]
    · rw [recExtent, if_neg h0] at hin
      rw [if_neg h0, if_pos ⟨hp.1, hp.2, h0⟩, strncpy_ok _ _ (by unfold recName at hin; omega),
        read_ok (by omega)]
      rfl
  · rw [if_neg hp, if_neg fun hall => hp ⟨hall.1, hall.2.1⟩]

/-- An entry that is returned is one of the buffer. -/
theorem readdirEntry_inside {index : BitVec 64} {i : BitVec 32} {r : Except Errno Dirent}
    (hi : i.signExtend 64 = index) (hp : p < size)
    (h : readdirEntry d size index i p = .ok r) : p + recExtent d.data p ≤ d.cap := by
  rw [readdirEntry, if_pos ⟨hi, hp⟩] at h
  by_cases hin : p + 7 ≤ d.cap
  · rw [recLength_ok hin] at h
    change (if recLength d.data p = 0 then _ else _) = _ at h
    unfold recExtent
    by_cases h0 : recLength d.data p = 0
    · rw [if_pos h0]
      exact hin
    · rw [if_neg h0] at h ⊢
      obtain ⟨name, hname, -⟩ := bind_ok h
      have hcopy := strncpy_inside _ _ _ hname (Nat.pos_of_ne_zero h0)
      unfold recName
      omega
  · rw [read_oob (by omega)] at h
    cases h

/-- One round of the loop of `ext2_finddir`. -/
theorem finddirLoop_step (name : CString) (fuel : Nat)
    (h : p < size → p + recExtent d.data p ≤ d.cap) :
    finddirLoop d size name (fuel + 1) p =
      if p < size ∧ recLength d.data p ≠ 0 then
        if sameName name.bytes (recName d.data p) then .ok (some p)
        else finddirLoop d size name fuel (p + recSize d.data p)
      else .ok none := by
  rw [finddirLoop]
  by_cases hp : p < size
  · have hin := h hp
    have hge := recExtent_ge d.data p
    rw [if_pos hp, recLength_ok (by omega)]
    show (if recLength d.data p = 0 then _ else _) = _
    by_cases h0 : recLength d.data p = 0
    · rw [if_pos h0, if_neg fun hall => hall.2 h0]
    · rw [recExtent, if_neg h0] at hin
      rw [if_neg h0, if_pos ⟨hp, h0⟩, strncmpEq_ok _ _ _ (by unfold recName at hin; omega)]
      show (if sameName name.bytes (recName d.data p) then _ else _) = _
      rw [read_ok (by omega)]
      rfl
  · rw [if_neg hp, if_neg fun hall => hp hall.1]

end Step

/-! ## Walks -/

/-- The records that the steps from the first one lead to, with how many steps it takes, over
records of which `skip` holds. A record of size 0 leads nowhere. -/
inductive Reached (m : ByteMem) (size : Nat) (skip : Nat → Prop) : Nat → Nat → Prop
  | start : Reached m size skip 0 0
  | next (k p : Nat) (h : Reached m size skip k p) (hin : p < size) (hlength : recLength m p ≠ 0)
      (hskip : skip p) (hsize : recSize m p ≠ 0) : Reached m size skip (k + 1) (p + recSize m p)

/-- What is looked at of the records lies in the buffer. -/
def RecordsInside (d : DirBuffer) (size : Nat) : Prop :=
  ∀ k p, Reached d.data size (fun _ => True) k p → p < size → p + recExtent d.data p ≤ d.cap

/-- No name leads to a record of size 0 that has another name. -/
def NoneStuck (d : DirBuffer) (size : Nat) : Prop :=
  ∀ (name : CString) k p,
    Reached d.data size (fun q => sameName name.bytes (recName d.data q) = false) k p →
    p < size → recLength d.data p ≠ 0 → sameName name.bytes (recName d.data p) = false →
    recSize d.data p ≠ 0

section Walks

variable {d : DirBuffer} {size : Nat}

theorem reached_le {m : ByteMem} {skip : Nat → Prop} {k p : Nat} (h : Reached m size skip k p) :
    k ≤ p := by
  induction h with
  | start => exact Nat.le_refl 0
  | next k p _ _ _ _ hsize ih => omega

theorem reached_mono {m : ByteMem} {skip : Nat → Prop} {k p : Nat}
    (h : Reached m size skip k p) : Reached m size (fun _ => True) k p := by
  induction h with
  | start => exact .start
  | next k p _ hin hlength _ hsize ih => exact .next k p ih hin hlength trivial hsize

/-- The loop of `ext2_readdir` ends: after `2 ^ 32` rounds at the latest, when its counter is
-1, no index is larger. -/
theorem readdirLoop_ends (hinside : RecordsInside d size) (index : BitVec 64) (n : Nat) :
    ∀ (i : BitVec 32) (k p : Nat), 2 ^ 32 ≤ n + i.toNat →
      Reached d.data size (fun _ => True) k p →
      ∃ i' k' p', Reached d.data size (fun _ => True) k' p' ∧
        ∀ fuel, n ≤ fuel → readdirLoop d size index fuel i p = .ok (i', p') := by
  induction n with
  | zero =>
    intro i k p hn _
    have hi := i.isLt
    omega
  | succ n ih =>
    intro i k p hn hreach
    have hin : p < size → p + 7 ≤ d.cap := by
      intro hp
      have hext := hinside k p hreach hp
      have hge := recExtent_ge d.data p
      omega
    by_cases hgo : p < size ∧ recLength d.data p ≠ 0 ∧ i.signExtend 64 < index
    · have hnext : (i + 1).toNat = i.toNat + 1 := by
        rw [BitVec.toNat_add]
        refine Nat.mod_eq_of_lt (show i.toNat + 1 < 2 ^ 32 from ?_)
        by_contra hlast
        -- the counter would wrap at -1, which widened is the largest index
        have hmax : i = BitVec.allOnes 32 := by
          apply BitVec.eq_of_toNat_eq
          rw [BitVec.toNat_allOnes]
          have hi := i.isLt
          omega
        have hlt : (BitVec.allOnes 32).signExtend 64 < index := hmax ▸ hgo.2.2
        have hall : (BitVec.allOnes 32).signExtend 64 = BitVec.allOnes 64 := by decide
        rw [hall, BitVec.lt_def, BitVec.toNat_allOnes] at hlt
        have hindex := index.isLt
        omega
      have hreach' : ∃ k', Reached d.data size (fun _ => True) k' (p + recSize d.data p) := by
        by_cases h0 : recSize d.data p = 0
        · rw [h0]
          exact ⟨k, hreach⟩
        · exact ⟨k + 1, .next k p hreach hgo.1 hgo.2.1 trivial h0⟩
      obtain ⟨k', hreach'⟩ := hreach'
      obtain ⟨i', k'', p', hend, hloop⟩ := ih (i + 1) k' _ (by omega) hreach'
      refine ⟨i', k'', p', hend, fun fuel hfuel => ?_⟩
      obtain ⟨fuel, rfl⟩ := Nat.exists_eq_add_of_le' (Nat.le_trans (Nat.le_add_left 1 n) hfuel)
      rw [readdirLoop_step index fuel i hin, if_pos hgo]
      exact hloop fuel (by omega)
    · refine ⟨i, k, p, hreach, fun fuel hfuel => ?_⟩
      obtain ⟨fuel, rfl⟩ := Nat.exists_eq_add_of_le' (Nat.le_trans (Nat.le_add_left 1 n) hfuel)
      rw [readdirLoop_step index fuel i hin, if_neg hgo]

/-- The loop of `ext2_finddir` ends when no record holds it: each step leads further. -/
theorem finddirLoop_ends (hinside : RecordsInside d size) (hstuck : NoneStuck d size)
    (name : CString) (n : Nat) :
    ∀ k p, d.cap < n + p →
      Reached d.data size (fun q => sameName name.bytes (recName d.data q) = false) k p →
      ∃ found, (∀ q, found = some q → q < size ∧ recLength d.data q ≠ 0 ∧
          q + recExtent d.data q ≤ d.cap) ∧
        ∀ fuel, n < fuel → finddirLoop d size name fuel p = .ok found := by
  induction n with
  | zero =>
    intro k p hn hreach
    have hend : ¬ p < size := by
      intro hp
      have hext := hinside k p (reached_mono hreach) hp
      omega
    refine ⟨none, fun q hq => absurd hq.symm (Option.some_ne_none q), fun fuel hfuel => ?_⟩
    obtain ⟨fuel, rfl⟩ := Nat.exists_eq_add_of_le' hfuel
    rw [finddirLoop_step name fuel fun hp => absurd hp hend, if_neg fun hall => hend hall.1]
  | succ n ih =>
    intro k p hn hreach
    have hin := hinside k p (reached_mono hreach)
    by_cases hgo : p < size ∧ recLength d.data p ≠ 0
    · by_cases hsame : sameName name.bytes (recName d.data p) = true
      · refine ⟨some p, fun q hq => ?_, fun fuel hfuel => ?_⟩
        · cases hq
          exact ⟨hgo.1, hgo.2, hin hgo.1⟩
        · obtain ⟨fuel, rfl⟩ := Nat.exists_eq_add_of_le' (Nat.lt_of_le_of_lt (Nat.zero_le _) hfuel)
          rw [finddirLoop_step name fuel hin, if_pos hgo, if_pos hsame]
      · -- the record is skipped, and none is of size 0, so the position grows
        have hdiff : sameName name.bytes (recName d.data p) = false := eq_false_of_ne_true hsame
        have hsize := hstuck name k p hreach hgo.1 hgo.2 hdiff
        obtain ⟨found, hfound, hloop⟩ := ih (k + 1) _ (by omega)
          (.next k p hreach hgo.1 hgo.2 hdiff hsize)
        refine ⟨found, hfound, fun fuel hfuel => ?_⟩
        obtain ⟨fuel, rfl⟩ := Nat.exists_eq_add_of_le' (Nat.lt_of_le_of_lt (Nat.zero_le _) hfuel)
        rw [finddirLoop_step name fuel hin, if_pos hgo, if_neg hsame]
        exact hloop fuel (by omega)
    · refine ⟨none, fun q hq => absurd hq.symm (Option.some_ne_none q), fun fuel hfuel => ?_⟩
      obtain ⟨fuel, rfl⟩ := Nat.exists_eq_add_of_le' (Nat.lt_of_le_of_lt (Nat.zero_le _) hfuel)
      rw [finddirLoop_step name fuel hin, if_neg hgo]

end Walks

/-! ## What a walk that returns has looked at -/

section Inside

variable {d : DirBuffer} {size : Nat}

/-- The body of `ext2_readdir` behind the reading of the directory. -/
def readdirWalk (d : DirBuffer) (size : Nat) (index : BitVec 64) (fuel : Nat) (i : BitVec 32)
    (p : Nat) : Exec (Except Errno Dirent) := do
  let (i, p) ← readdirLoop d size index fuel i p
  readdirEntry d size index i p

theorem signExtend_ofNat {k : Nat} (h : k < 2 ^ 31) :
    (BitVec.ofNat 32 k).signExtend 64 = BitVec.ofNat 64 k := by
  have hk : (BitVec.ofNat 32 k).toNat = k := Nat.mod_eq_of_lt (by omega)
  apply BitVec.eq_of_toNat_eq
  rw [signExtend_toNat (by rw [hk]; exact h), hk, BitVec.toNat_ofNat]
  exact (Nat.mod_eq_of_lt (by omega)).symm

/-- A counter below an index. -/
theorem counter_lt_iff {k : Nat} (h : k < 2 ^ 31) (index : BitVec 64) :
    (BitVec.ofNat 32 k).signExtend 64 < index ↔ k < index.toNat := by
  rw [signExtend_ofNat h, BitVec.lt_def, BitVec.toNat_ofNat, Nat.mod_eq_of_lt (by omega)]

theorem readdirWalk_step {index : BitVec 64} {fuel k p : Nat} (hk : k < 2 ^ 31)
    (hindex : k < index.toNat) (hp : p < size) (hin : p + 7 ≤ d.cap)
    (hlength : recLength d.data p ≠ 0) :
    readdirWalk d size index (fuel + 1) (BitVec.ofNat 32 k) p =
      readdirWalk d size index fuel (BitVec.ofNat 32 (k + 1)) (p + recSize d.data p) := by
  have hnext : BitVec.ofNat 32 k + 1 = BitVec.ofNat 32 (k + 1) := by
    apply BitVec.eq_of_toNat_eq
    rw [BitVec.toNat_add, BitVec.toNat_ofNat, BitVec.toNat_ofNat]
    exact Nat.mod_add_mod _ _ _
  unfold readdirWalk
  rw [readdirLoop_step index fuel _ fun _ => hin,
    if_pos ⟨hp, hlength, (counter_lt_iff hk index).mpr hindex⟩, hnext]

/-- At its index the walk makes an entry of the record it is at, or stops. -/
theorem readdirWalk_entry {index : BitVec 64} {fuel k p : Nat} (hk : k < 2 ^ 31)
    (hindex : index = BitVec.ofNat 64 k) (hin : p < size → p + 7 ≤ d.cap) :
    readdirWalk d size index (fuel + 1) (BitVec.ofNat 32 k) p =
      readdirEntry d size index (BitVec.ofNat 32 k) p := by
  have hnot : ¬ (BitVec.ofNat 32 k).signExtend 64 < index := by
    rw [signExtend_ofNat hk, hindex]
    exact BitVec.lt_irrefl _
  unfold readdirWalk
  rw [readdirLoop_step index fuel _ hin, if_neg fun hall => hnot hall.2.2]
  rfl

theorem readdirWalk_oob {index : BitVec 64} {fuel p : Nat} {i : BitVec 32} (hp : p < size)
    (hout : ¬ p + 7 ≤ d.cap) :
    readdirWalk d size index (fuel + 1) i p = .error .outOfBounds := by
  unfold readdirWalk
  rw [readdirLoop, if_pos hp, read_oob (by omega)]
  rfl

/-- A walk that returns at a record has it in the buffer. -/
theorem readdirWalk_inside {index : BitVec 64} {fuel k p : Nat} {r : Except Errno Dirent}
    (hk : k < 2 ^ 31) (hindex : index = BitVec.ofNat 64 k) (hp : p < size)
    (h : readdirWalk d size index (fuel + 1) (BitVec.ofNat 32 k) p = .ok r) :
    p + recExtent d.data p ≤ d.cap := by
  by_cases hin : p + 7 ≤ d.cap
  · rw [readdirWalk_entry hk hindex fun _ => hin] at h
    exact readdirEntry_inside (by rw [signExtend_ofNat hk, hindex]) hp h
  · rw [readdirWalk_oob hp hin] at h
    cases h

/-- Calls that return for every index have looked at nothing outside the buffer. -/
theorem recordsInside_of_returns (hcap : d.cap < 2 ^ 31)
    (h : ∀ index, ∃ r, Returns (fun fuel => readdirWalk d size index fuel 0 0) r) :
    RecordsInside d size := by
  -- at index `k` the walk returns at the record that `k` steps lead to
  have hreturn : ∀ k p, k < 2 ^ 31 → (∀ index fuel, k ≤ BitVec.toNat index →
      readdirWalk d size index (fuel + k) 0 0 =
        readdirWalk d size index fuel (BitVec.ofNat 32 k) p) →
      p < size → p + recExtent d.data p ≤ d.cap := by
    intro k p hk hwalk hp
    obtain ⟨r, n, hret⟩ := h (BitVec.ofNat 64 k)
    have hindex : k ≤ (BitVec.ofNat 64 k).toNat := by
      rw [BitVec.toNat_ofNat, Nat.mod_eq_of_lt (by omega)]
    have hok := hret (n + 1 + k) (by omega)
    dsimp only at hok
    rw [hwalk _ _ hindex] at hok
    exact readdirWalk_inside hk rfl hp hok
  have hall : ∀ k p, Reached d.data size (fun _ => True) k p → k < 2 ^ 31 ∧
      ∀ index fuel, k ≤ BitVec.toNat index → readdirWalk d size index (fuel + k) 0 0 =
        readdirWalk d size index fuel (BitVec.ofNat 32 k) p := by
    intro k p hreach
    induction hreach with
    | start => exact ⟨by decide, fun _ _ _ => rfl⟩
    | next k p hreach hp hlength _ hsize ih =>
      have hin := hreturn k p ih.1 ih.2 hp
      have hge := recExtent_ge d.data p
      have hle := reached_le hreach
      refine ⟨by omega, fun index fuel hindex => ?_⟩
      have hwalk := ih.2 index (fuel + 1) (by omega)
      rw [show fuel + (k + 1) = fuel + 1 + k by omega, hwalk,
        readdirWalk_step ih.1 (by omega) hp (by omega) hlength]
  intro k p hreach hp
  exact hreturn k p (hall k p hreach).1 (hall k p hreach).2 hp

/-- A record of size 0 with another name holds the search for ever. -/
theorem finddirLoop_stuck {name : CString} {p : Nat} (hp : p < size)
    (hin : p + recExtent d.data p ≤ d.cap) (hlength : recLength d.data p ≠ 0)
    (hdiff : sameName name.bytes (recName d.data p) = false) (hzero : recSize d.data p = 0)
    (fuel : Nat) : finddirLoop d size name fuel p = .error .running := by
  induction fuel with
  | zero => rfl
  | succ fuel ih =>
    rw [finddirLoop_step name fuel fun _ => hin, if_pos ⟨hp, hlength⟩, hdiff, hzero]
    exact ih

/-- The search passes over what has another name. -/
theorem finddirLoop_reached (hinside : RecordsInside d size) {name : CString} {k p : Nat}
    (h : Reached d.data size (fun q => sameName name.bytes (recName d.data q) = false) k p) :
    ∀ fuel, finddirLoop d size name (fuel + k) 0 = finddirLoop d size name fuel p := by
  induction h with
  | start => exact fun _ => rfl
  | next k p hreach hp hlength hdiff _ ih =>
    intro fuel
    have hin := hinside k p (reached_mono hreach)
    rw [show fuel + (k + 1) = fuel + 1 + k by omega, ih (fuel + 1),
      finddirLoop_step name fuel hin, if_pos ⟨hp, hlength⟩, hdiff]
    rfl

theorem noneStuck_of_returns (hinside : RecordsInside d size)
    (h : ∀ name, ∃ n, ∀ fuel, n ≤ fuel → ∃ r, finddirLoop d size name fuel 0 = .ok r) :
    NoneStuck d size := by
  intro name k p hreach hp hlength hdiff hzero
  obtain ⟨n, hret⟩ := h name
  obtain ⟨r, hok⟩ := hret (n + k) (Nat.le_add_right n k)
  rw [finddirLoop_reached hinside hreach n,
    finddirLoop_stuck hp (hinside k p (reached_mono hreach) hp) hlength hdiff hzero] at hok
  cases hok

end Inside

/-! ## The calls -/

section Calls

variable {fresh : Fresh} {node : Ext2Node} {i : ByteMem}

/-- The buffer that a directory is read into. -/
def dirBuffer (fresh : Fresh) (node : Ext2Node) (i : ByteMem) : DirBuffer :=
  ⟨ext2ReadInodeData (fresh 2) node i, inodeDataSize node.reserved⟩

/-- Every call on a directory returns: its loop ends, and all it looks at is in the buffer. -/
def WalksHarmless (fresh : Fresh) (node : Ext2Node) : Prop :=
  (∀ index, ∃ r, Returns (fun fuel => ext2Readdir fuel fresh (some node) index) r) ∧
    ∀ name, ∃ r, Returns (fun fuel => ext2Finddir fuel fresh (some node) name) r

theorem inodeDataSize_eq {super : Ext2Superblock} (h : 12 * blockBytes super < 2 ^ 31) :
    inodeDataSize super = 12 * blockBytes super := by
  have hblk : (blksz super).toNat = blockBytes super := blksz_toNat (by omega)
  have hmul : ((12 : BitVec 32) * blksz super).toNat = 12 * blockBytes super := by
    rw [BitVec.toNat_mul, hblk]
    exact Nat.mod_eq_of_lt (show 12 * blockBytes super < 2 ^ 32 by omega)
  rw [inodeDataSize, signExtend_toNat (by omega), hmul]

theorem ext2Readdir_eq (hi : ext2ReadInode fresh node = .ok i) (fuel : Nat) (index : BitVec 64) :
    ext2Readdir fuel fresh (some node) index =
      readdirWalk (dirBuffer fresh node i) (ext2Size i).toNat index fuel 0 0 := by
  unfold ext2Readdir
  dsimp only
  rw [hi]
  rfl

/-- The end of `ext2_finddir`. -/
def finddirFound (d : DirBuffer) (fresh : Fresh) (node : Ext2Node) :
    Option Nat → Exec (Except Errno (Option Ext2Node))
  | none => .ok (.ok none)
  | some p => do
    let v ← finddirNode d (fun n => fresh (n + 3)) node p
    .ok (.ok (some v))

theorem ext2Finddir_eq (hi : ext2ReadInode fresh node = .ok i) (fuel : Nat) (name : CString) :
    ext2Finddir fuel fresh (some node) name =
      finddirLoop (dirBuffer fresh node i) (ext2Size i).toNat name fuel 0 >>=
        finddirFound (dirBuffer fresh node i) fresh node := by
  unfold ext2Finddir
  dsimp only
  rw [hi]
  refine congrArg (fun f => finddirLoop (dirBuffer fresh node i) (ext2Size i).toNat name fuel 0 >>=
    f) (funext fun found => ?_)
  cases found <;> rfl

/-- The node of a record in the buffer. -/
theorem finddirNode_ok {d : DirBuffer} {p : Nat} (fresh : Fresh) (hind : node.reserved.indInGrp ≠ 0)
    (hin : p + recExtent d.data p ≤ d.cap) (hlength : recLength d.data p ≠ 0) :
    ∃ v, finddirNode d fresh node p = .ok v ∧ v.name = strncpyList (recName d.data p) ∧
      v.inode = BitVec.ofNat 64 (recInode d.data p) := by
  rw [recExtent, if_neg hlength] at hin
  have hname : strncpy d (p + 8) (recLength d.data p) = .ok (strncpyList (recName d.data p)) :=
    strncpy_ok _ _ (by unfold recName at hin; omega)
  have hread : ext2ReadInode fresh (entryNode node (strncpyList (recName d.data p))
      (BitVec.ofNat 64 (recInode d.data p))) = .ok _ := ext2ReadInode_eq fresh hind
  unfold finddirNode
  rw [recLength_ok (by omega)]
  show ∃ v, (strncpy d (p + 8) (recLength d.data p) >>= _) = Except.ok v ∧ _
  rw [hname]
  show ∃ v, (d.read p 4 >>= _) = Except.ok v ∧ _
  rw [read_ok (by omega)]
  show ∃ v, (ext2ReadInode fresh (entryNode node (strncpyList (recName d.data p))
    (BitVec.ofNat 64 (recInode d.data p))) >>= _) = Except.ok v ∧ _
  rw [hread]
  exact ⟨_, rfl, rfl, rfl⟩

/-- Calls that return have stayed in the buffer, and met no record that holds them. -/
theorem meets_of_harmless (hi : ext2ReadInode fresh node = .ok i)
    (hcap : 12 * blockBytes node.reserved < 2 ^ 31) (h : WalksHarmless fresh node) :
    RecordsInside (dirBuffer fresh node i) (ext2Size i).toNat ∧
      NoneStuck (dirBuffer fresh node i) (ext2Size i).toNat := by
  have hsize : (dirBuffer fresh node i).cap < 2 ^ 31 := by
    show inodeDataSize node.reserved < 2 ^ 31
    rw [inodeDataSize_eq hcap]
    exact hcap
  have hinside : RecordsInside (dirBuffer fresh node i) (ext2Size i).toNat := by
    refine recordsInside_of_returns hsize fun index => ?_
    obtain ⟨r, n, hret⟩ := h.1 index
    exact ⟨r, n, fun fuel hfuel => (ext2Readdir_eq hi fuel index).symm.trans (hret fuel hfuel)⟩
  refine ⟨hinside, noneStuck_of_returns hinside fun name => ?_⟩
  obtain ⟨r, n, hret⟩ := h.2 name
  refine ⟨n, fun fuel hfuel => ?_⟩
  obtain ⟨found, hfound, -⟩ := bind_ok ((ext2Finddir_eq hi fuel name).symm.trans (hret fuel hfuel))
  exact ⟨found, hfound⟩

/-- The calls on a directory, with a buffer that the heap of 1 GiB has room for, return just when every
record that the steps lead to lies in the buffer, and no name leads to a record of size 0 that has
another name. -/
theorem walks_harmless_iff (hi : ext2ReadInode fresh node = .ok i)
    (hcap : 12 * blockBytes node.reserved ≤ 0x30000000) :
    WalksHarmless fresh node ↔
      RecordsInside (dirBuffer fresh node i) (ext2Size i).toNat ∧
        NoneStuck (dirBuffer fresh node i) (ext2Size i).toNat := by
  constructor
  · exact meets_of_harmless hi (Nat.lt_of_le_of_lt hcap (by decide))
  · intro h
    obtain ⟨hinside, hstuck⟩ := h
    refine ⟨fun index => ?_, fun name => ?_⟩
    · obtain ⟨i', k, p, hreach, hloop⟩ :=
        readdirLoop_ends hinside index (2 ^ 32) 0 0 0 (Nat.le_add_right _ _) .start
      refine ⟨_, 2 ^ 32, fun fuel hfuel => Eq.trans ?_
        (readdirEntry_eq index i' (hinside k p hreach))⟩
      dsimp only
      rw [ext2Readdir_eq hi, readdirWalk, hloop fuel hfuel]
      rfl
    · obtain ⟨found, hfound, hloop⟩ :=
        finddirLoop_ends hinside hstuck name _ 0 0 (Nat.lt_succ_self _) .start
      have hend : ∃ r, finddirFound (dirBuffer fresh node i) fresh node found = .ok r := by
        cases found with
        | none => exact ⟨_, rfl⟩
        | some p =>
          obtain ⟨-, hlength, hin⟩ := hfound p rfl
          obtain ⟨v, hv, -⟩ := finddirNode_ok (fun n => fresh (n + 3)) (indInGrp_of_read hi) hin
            hlength
          refine ⟨.ok (some v), ?_⟩
          rw [finddirFound, hv]
          rfl
      obtain ⟨r, hr⟩ := hend
      refine ⟨r, (dirBuffer fresh node i).cap + 2, fun fuel hfuel => ?_⟩
      dsimp only
      rw [ext2Finddir_eq hi, hloop fuel (Nat.lt_of_succ_le hfuel)]
      exact hr

end Calls

/-- An inode of 1 KiB with the block 20. -/
def oneBlockInode : ByteMem := fun a => if a = 5 then 4 else if a = 40 then 20 else 0

/-- A volume with blocks of 1 KiB. -/
def smallSuper : Ext2Superblock := ⟨16, 64, 1, 0, 16, 0xEF53, 1, 128⟩

/-- Its root directory, with what block 20 holds. -/
def oneBlockDir (block : ByteMem) : Ext2Node :=
  ext2Root smallSuper fun a =>
    if a = 0x808 then 3
    else if 0xC80 ≤ a ∧ a < 0xD00 then oneBlockInode (a - 0xC80)
    else if 0x5000 ≤ a then block (a - 0x5000) else 0

theorem oneBlockDir_inode (block : ByteMem) :
    ext2ReadInode (fun _ _ => 0) (oneBlockDir block) = .ok oneBlockInode := by
  have hind : (oneBlockDir block).reserved.indInGrp ≠ 0 := by
    show smallSuper.indInGrp ≠ 0
    decide
  have hdesc : dword (oneBlockDir block).ptr ((descRequest smallSuper 2).offset.toNat + 8) = 3 := by
    have hpos : (descRequest smallSuper 2).offset.toNat + 8 = 0x808 := by decide
    have h0 : (oneBlockDir block).ptr 0x808 = 3 := rfl
    have h1 : (oneBlockDir block).ptr (0x808 + 1) = 0 := rfl
    have h2 : (oneBlockDir block).ptr (0x808 + 1 + 1) = 0 := rfl
    have h3 : (oneBlockDir block).ptr (0x808 + 1 + 1 + 1) = 0 := rfl
    rw [hpos]
    simp only [dword, ByteMem.read, h0, h1, h2, h3]
    rfl
  have hoff : (inodeRequests (oneBlockDir block)).2.offset.toNat = 0xC80 := by
    show (inodeRequest smallSuper (dword (oneBlockDir block).ptr
      ((descRequest smallSuper 2).offset.toNat + 8)) 2).offset.toNat = _
    rw [hdesc]
    decide
  have hsize : (inodeRequests (oneBlockDir block)).2.size.toNat = 128 := by
    show (smallSuper.inodeSize.setWidth 64).toNat = 128
    decide
  rw [ext2ReadInode_eq _ hind]
  refine congrArg Except.ok (vfsRead_eq hoff hsize (fun a ha => ?_) fun a ha => ?_)
  · show (if 0xC80 + a = 0x808 then _ else if 0xC80 ≤ 0xC80 + a ∧ 0xC80 + a < 0xD00 then
      oneBlockInode (0xC80 + a - 0xC80) else _) = _
    rw [if_neg (by omega), if_pos (by omega), Nat.add_sub_cancel_left]
  · rw [oneBlockInode, if_neg (by omega), if_neg (by omega)]

/-- A record of the name `b` that has the whole block. -/
def wholeRecord : ByteMem := fun a =>
  if a = 5 then 4 else if a = 6 then 1 else if a = 8 then 0x62 else 0

/-- The steps lead to the end of the block. -/
theorem wholeRecord_reached {skip : Nat → Prop} {k p : Nat}
    (h : Reached (dirBuffer (fun _ _ => 0) (oneBlockDir wholeRecord) oneBlockInode).data 1024 skip k p) :
    p = 0 ∨ p = 1024 := by
  induction h with
  | start => exact Or.inl rfl
  | next k p h hin hlength hskip hsize ih =>
    have hzero : p = 0 := ih.resolve_right (Nat.ne_of_lt hin)
    rw [hzero]
    refine Or.inr ?_
    decide +kernel

/-- Its directory can be listed and looked into. -/
theorem walks_harmless_whole : WalksHarmless (fun _ _ => 0) (oneBlockDir wholeRecord) := by
  have hsize : (ext2Size oneBlockInode).toNat = 1024 := by decide
  refine (walks_harmless_iff (oneBlockDir_inode wholeRecord) (by decide)).mpr ?_
  rw [hsize]
  constructor
  · intro k p hreach hp
    have hzero : p = 0 := (wholeRecord_reached hreach).resolve_right (Nat.ne_of_lt hp)
    rw [hzero]
    decide +kernel
  · intro name k p hreach hp _ _
    have hzero : p = 0 := (wholeRecord_reached hreach).resolve_right (Nat.ne_of_lt hp)
    rw [hzero]
    decide +kernel

/-- A record without a size, of the name `b`. -/
def stuckRecord : ByteMem := fun a => if a = 6 then 1 else if a = 8 then 0x62 else 0

/-- The search for the name `a` does not get past it. -/
theorem stuck_record_holds : ¬ WalksHarmless (fun _ _ => 0) (oneBlockDir stuckRecord) := by
  intro h
  obtain ⟨-, hstuck⟩ := meets_of_harmless (oneBlockDir_inode stuckRecord) (by decide) h
  exact hstuck ⟨[0x61], by decide⟩ 0 0 .start (by decide +kernel) (by decide +kernel)
    (by decide +kernel) (by decide +kernel)

end OS64.Fs
