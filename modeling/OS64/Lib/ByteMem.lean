import Mathlib.Algebra.Group.Nat.Defs

/-!
# A byte-addressed memory

Headers, stack frames and C structures of different widths share one memory,
so the memory is a map from addresses to bytes and every wider access is a
little-endian number over a run of bytes:

* `ByteMem.read m a n`: the number held by the `n` bytes at `a`;
* `ByteMem.write m a n v`: the low `n` bytes of `v` stored at `a`;
* `ByteMem.copy m dst src n`: `n` bytes moved from `src` to `dst`;
* `ByteMem.fill m dst src off n`: `n` bytes of another memory, from `off` on, stored at `dst`;
* `ByteMem.patch m dst n f`: the bytes that `f` gives, where it gives one, stored from `dst` on.

Three facts carry all later reasoning: a read depends on its own bytes only
(`read_congr`), a read of what was just written gives the low bytes of the
value (`read_write_same`), and a write leaves every other byte alone
(`write_apply_out`, `read_write_disjoint`).

Addresses are plain `Nat`s; a machine that wraps its addresses reduces them
before it comes here.
-/

namespace OS64.Lib

/-- A memory: one byte for every address. -/
abbrev ByteMem := Nat → BitVec 8

namespace ByteMem

/-- The little-endian number in the `n` bytes at `a`. -/
def read (m : ByteMem) : Nat → Nat → Nat
  | _, 0 => 0
  | a, n + 1 => (m a).toNat + 256 * read m (a + 1) n

/-- Store the low `n` bytes of `v` at `a`. -/
def write (m : ByteMem) (a n v : Nat) : ByteMem := fun x =>
  if a ≤ x ∧ x < a + n then BitVec.ofNat 8 (v / 256 ^ (x - a)) else m x

/-- Copy `n` bytes from `src` to `dst`, all read before any is written. -/
def copy (m : ByteMem) (dst src n : Nat) : ByteMem := fun x =>
  if dst ≤ x ∧ x < dst + n then m (src + (x - dst)) else m x

/-- Store the `n` bytes of the memory `src` from `off` on. -/
def fill (m : ByteMem) (dst : Nat) (src : ByteMem) (off n : Nat) : ByteMem := fun x =>
  if dst ≤ x ∧ x < dst + n then src (off + (x - dst)) else m x

/-! ## Reads -/

theorem read_lt (m : ByteMem) : ∀ (n a : Nat), read m a n < 256 ^ n
  | 0, _ => by simp [read]
  | n + 1, a => by
    have ih := read_lt m n (a + 1)
    have hb : (m a).toNat < 256 := (m a).isLt
    rw [read, Nat.pow_succ]
    omega

/-- A read depends only on the bytes it covers. -/
theorem read_congr {m m' : ByteMem} : ∀ (n : Nat) {a : Nat},
    (∀ x, a ≤ x → x < a + n → m x = m' x) → read m a n = read m' a n
  | 0, _, _ => rfl
  | n + 1, a, h => by
    rw [read, read, h a (Nat.le_refl _) (by omega),
      read_congr n (fun x hx hx' => h x (by omega) (by omega))]

/-- The same bytes in another place are the same number. -/
theorem read_congr_at {m m' : ByteMem} : ∀ (n : Nat) {a a' : Nat},
    (∀ k, k < n → m (a + k) = m' (a' + k)) → read m a n = read m' a' n
  | 0, _, _, _ => rfl
  | n + 1, a, a', h => by
    have hhead : m a = m' a' := h 0 (by omega)
    have htail : read m (a + 1) n = read m' (a' + 1) n :=
      read_congr_at n fun k hk => by
        rw [Nat.add_assoc, Nat.add_assoc]
        exact h (1 + k) (by omega)
    rw [read, read, hhead, htail]

/-! ## Writes -/

theorem write_apply_out {m : ByteMem} {a n v x : Nat} (h : x < a ∨ a + n ≤ x) :
    write m a n v x = m x :=
  if_neg (by omega)

/-- The tail of a write, read back: the bytes from the `i`-th on hold `v / 256 ^ i`. -/
private theorem read_write_from (m : ByteMem) (a N v : Nat) : ∀ (n i : Nat), i + n ≤ N →
    read (write m a N v) (a + i) n = v / 256 ^ i % 256 ^ n
  | 0, _, _ => by simp [read, Nat.mod_one]
  | n + 1, i, h => by
    have hhead : (write m a N v (a + i)).toNat = v / 256 ^ i % 256 := by
      rw [write, if_pos (by omega), BitVec.toNat_ofNat, Nat.add_sub_cancel_left]
    have htail : read (write m a N v) (a + i + 1) n = v / 256 ^ i / 256 % 256 ^ n := by
      rw [Nat.add_assoc, read_write_from m a N v n (i + 1) (by omega), Nat.pow_succ,
        Nat.div_div_eq_div_mul]
    rw [read, hhead, htail, Nat.pow_succ, Nat.mul_comm (256 ^ n), Nat.mod_mul]

/-- Reading back a write gives the low `n` bytes of the value. -/
theorem read_write_same (m : ByteMem) (a n v : Nat) :
    read (write m a n v) a n = v % 256 ^ n := by
  have h := read_write_from m a n v n 0 (by omega)
  simpa using h

theorem read_write_disjoint {m : ByteMem} {a n v b k : Nat} (h : b + k ≤ a ∨ a + n ≤ b) :
    read (write m a n v) b k = read m b k :=
  read_congr k fun _ _ _ => write_apply_out (by omega)

/-! ## Copies -/

theorem copy_apply_out {m : ByteMem} {dst src n x : Nat} (h : x < dst ∨ dst + n ≤ x) :
    copy m dst src n x = m x :=
  if_neg (by omega)

/-- A read inside the destination sees the corresponding source bytes. -/
theorem read_copy_same {m : ByteMem} {dst src N : Nat} : ∀ (n i : Nat), i + n ≤ N →
    read (copy m dst src N) (dst + i) n = read m (src + i) n
  | 0, _, _ => rfl
  | n + 1, i, h => by
    have hhead : copy m dst src N (dst + i) = m (src + i) := by
      rw [copy, if_pos (by omega), Nat.add_sub_cancel_left]
    rw [read, read, hhead, Nat.add_assoc, Nat.add_assoc, read_copy_same n (i + 1) (by omega)]

/-! ## Bytes of another memory -/

theorem fill_apply_in {m src : ByteMem} {dst off n x : Nat} (h : dst ≤ x) (h' : x < dst + n) :
    fill m dst src off n x = src (off + (x - dst)) :=
  if_pos ⟨h, h'⟩

theorem fill_apply_out {m src : ByteMem} {dst off n x : Nat} (h : x < dst ∨ dst + n ≤ x) :
    fill m dst src off n x = m x :=
  if_neg (by omega)

/-- Bytes stored behind those that come before them. -/
theorem fill_fill (m src : ByteMem) (dst off n k : Nat) :
    (m.fill dst src off n).fill (dst + n) src (off + n) k = m.fill dst src off (n + k) := by
  funext x
  by_cases hlast : dst + n ≤ x ∧ x < dst + n + k
  · rw [fill_apply_in hlast.1 hlast.2, fill_apply_in (by omega) (by omega)]
    congr 1
    omega
  · rw [fill_apply_out (by omega)]
    by_cases hfirst : dst ≤ x ∧ x < dst + n
    · rw [fill_apply_in hfirst.1 hfirst.2, fill_apply_in (by omega) (by omega)]
    · rw [fill_apply_out (by omega), fill_apply_out (by omega)]

/-- A read inside what was stored sees the bytes of the other memory. -/
theorem read_fill (m src : ByteMem) (dst off : Nat) {N : Nat} : ∀ (n i : Nat), i + n ≤ N →
    read (fill m dst src off N) (dst + i) n = read src (off + i) n
  | 0, _, _ => rfl
  | n + 1, i, h => by
    have hhead : fill m dst src off N (dst + i) = src (off + i) := by
      rw [fill_apply_in (by omega) (by omega), Nat.add_sub_cancel_left]
    rw [read, read, hhead, Nat.add_assoc, Nat.add_assoc, read_fill m src dst off n (i + 1) (by omega)]

/-! ## Piecewise stores

A store whose bytes come from several places, some from nowhere: `patch` says for each
byte of a run what is stored there, if anything is. Stores that follow each other are one
store (`patch_append`). -/

/-- Store the bytes that `f` gives for the first `n` bytes from `dst` on. -/
def patch (m : ByteMem) (dst n : Nat) (f : Nat → Option (BitVec 8)) : ByteMem := fun x =>
  if dst ≤ x ∧ x < dst + n then (f (x - dst)).getD (m x) else m x

theorem patch_apply (m : ByteMem) {dst n k : Nat} (f : Nat → Option (BitVec 8)) (h : k < n) :
    patch m dst n f (dst + k) = (f k).getD (m (dst + k)) := by
  rw [patch, if_pos (by omega), Nat.add_sub_cancel_left]

theorem patch_apply_zero (m : ByteMem) {n k : Nat} (f : Nat → Option (BitVec 8)) (h : k < n) :
    patch m 0 n f k = (f k).getD (m k) := by
  have hpatch := @patch_apply m 0 n k f h
  rw [Nat.zero_add] at hpatch
  exact hpatch

theorem patch_apply_out {m : ByteMem} {dst n x : Nat} {f : Nat → Option (BitVec 8)}
    (h : x < dst ∨ dst + n ≤ x) : patch m dst n f x = m x :=
  if_neg (by omega)

theorem patch_zero (m : ByteMem) (dst : Nat) (f : Nat → Option (BitVec 8)) :
    patch m dst 0 f = m :=
  funext fun _ => if_neg (by omega)

/-- A store of nothing. -/
theorem patch_none {m : ByteMem} {dst n : Nat} {f : Nat → Option (BitVec 8)}
    (h : ∀ k, k < n → f k = none) : patch m dst n f = m := by
  funext x
  by_cases hx : dst ≤ x ∧ x < dst + n
  · rw [patch, if_pos hx, h _ (by omega)]
    rfl
  · exact if_neg hx

theorem patch_congr {m : ByteMem} {dst n : Nat} {f g : Nat → Option (BitVec 8)}
    (h : ∀ k, k < n → f k = g k) : patch m dst n f = patch m dst n g := by
  funext x
  unfold patch
  split
  · rw [h _ (by omega)]
  · rfl

/-- A store that ends where the next one starts. -/
theorem patch_append (m : ByteMem) (dst n n' : Nat) (f g : Nat → Option (BitVec 8)) :
    patch (patch m dst n f) (dst + n) n' g =
      patch m dst (n + n') fun k => if k < n then f k else g (k - n) := by
  funext x
  unfold patch
  dsimp only
  by_cases hfirst : dst ≤ x ∧ x < dst + n
  · rw [if_neg (by omega), if_pos hfirst, if_pos (by omega), if_pos (by omega)]
  · by_cases hsecond : dst + n ≤ x ∧ x < dst + n + n'
    · rw [if_pos hsecond, if_neg hfirst, if_pos (by omega), if_neg (by omega), Nat.sub_sub]
    · rw [if_neg hsecond, if_neg hfirst, if_neg (by omega)]

/-- The same from byte 0 on. -/
theorem patch_zero_append (m : ByteMem) (n n' : Nat) (f g : Nat → Option (BitVec 8)) :
    patch (patch m 0 n f) n n' g =
      patch m 0 (n + n') fun k => if k < n then f k else g (k - n) := by
  have happend := patch_append m 0 n n' f g
  rw [Nat.zero_add] at happend
  exact happend

theorem fill_eq_patch (m src : ByteMem) (dst off n : Nat) :
    fill m dst src off n = patch m dst n fun k => some (src (off + k)) := rfl

end ByteMem

end OS64.Lib
