import OS64.Fs.Vfs
import OS64.Lib.Narrow
import Mathlib.Algebra.Group.Nat.Defs
import Mathlib.Order.Interval.Set.Basic

/-!
# Partitions

A partition is a node whose `reserved` is its first byte on the device below and whose
`length` is its size. `mdpart_read` and `mdpart_write` check the offset, clip the size and
pass the request on. The clip adds offset and size in 64 bits, where the sum can wrap,
and keeps the result in an `int`, which is widened again for the call: sizes from `2 ^ 31`
on arrive with their upper half set.

`partition_isolated_iff` says for which requests the range passed on stays inside the
partition.
-/

namespace OS64.Fs

open OS64.Lib (int_widened)

/-- What a partition passes on to the device below it: the arguments of `vfs_read` and
`vfs_write`, but for the buffer. -/
structure Transfer (δ : Type) where
  device : δ
  offset : BitVec 64
  size : BitVec 64

section Driver

variable {δ ε : Type}

/-- The body of `mdpart_read` and `mdpart_write` up to the call they end with. -/
def mdpartTransfer (node : Option (VfsNode (BitVec 64) (Option δ))) (offset size : BitVec 64) :
    Except Errno (Transfer δ) :=
  match node with
  | none => .error .ebadf
  | some n =>
    match n.ptr with
    | none => .error .ebadf
    | some device =>
      if n.length < offset then .error .einval
      else
        let len : BitVec 32 :=
          (if n.length < offset + size then n.length - offset else size).setWidth 32
        .ok ⟨device, offset + n.reserved, len.signExtend 64⟩

/-- `mdpart_read`, on top of a `vfs_read`. -/
def mdpartRead (vfsRead : Transfer δ → Except Errno ε)
    (node : Option (VfsNode (BitVec 64) (Option δ))) (offset size : BitVec 64) : Except Errno ε :=
  mdpartTransfer node offset size >>= vfsRead

/-- `mdpart_write`, on top of a `vfs_write`. -/
def mdpartWrite (vfsWrite : Transfer δ → Except Errno ε)
    (node : Option (VfsNode (BitVec 64) (Option δ))) (offset size : BitVec 64) : Except Errno ε :=
  mdpartTransfer node offset size >>= vfsWrite

end Driver

/-- The bytes of a request lie in the partition. -/
def Transfer.inside {δ : Type} (t : Transfer δ) (start len : BitVec 64) : Prop :=
  Set.Ico t.offset.toNat (t.offset.toNat + t.size.toNat) ⊆
    Set.Ico start.toNat (start.toNat + len.toNat)

/-- The size behind the clip: what is left of the partition, unless the sum of offset and
size wraps. -/
def mdpartClip (len offset size : BitVec 64) : Nat :=
  if offset.toNat + size.toNat < 2 ^ 64 then min size.toNat (len.toNat - offset.toNat)
  else size.toNat

/-- Bit 31 of the clipped size is clear, and its low half does not lead out of the
partition. -/
def mdpartMeets (len offset size : BitVec 64) : Prop :=
  mdpartClip len offset size % 2 ^ 32 < 2 ^ 31 ∧
    offset.toNat + mdpartClip len offset size % 2 ^ 32 ≤ len.toNat

theorem mdpartClip_toNat {len offset : BitVec 64} (size : BitVec 64) (hoff : offset ≤ len) :
    (if len < offset + size then len - offset else size).toNat = mdpartClip len offset size := by
  have hlen := len.isLt
  have hsize := size.isLt
  rw [BitVec.le_def] at hoff
  have hsub : (len - offset).toNat = len.toNat - offset.toNat := BitVec.toNat_sub_of_le hoff
  have hadd : (offset + size).toNat = (offset.toNat + size.toNat) % 2 ^ 64 := BitVec.toNat_add _ _
  unfold mdpartClip
  by_cases hwrap : offset.toNat + size.toNat < 2 ^ 64
  · rw [if_pos hwrap]
    rw [Nat.mod_eq_of_lt hwrap] at hadd
    by_cases hclip : len < offset + size
    · rw [if_pos hclip, hsub]
      rw [BitVec.lt_def, hadd] at hclip
      omega
    · rw [if_neg hclip]
      rw [BitVec.lt_def, hadd] at hclip
      omega
  · -- a sum that wraps is below the offset
    rw [if_neg hwrap, if_neg]
    rw [BitVec.lt_def, hadd]
    omega

/-- The call returns an error whatever the device would do, or is the device's answer to a
request inside the partition. -/
def Isolated {δ : Type} (call : (ε : Type) → (Transfer δ → Except Errno ε) → Except Errno ε)
    (start len : BitVec 64) : Prop :=
  (∃ e, ∀ ε below, call ε below = .error e) ∨
    ∃ t, Transfer.inside t start len ∧ ∀ ε below, call ε below = below t

section Isolation

variable {δ : Type} {n : VfsNode (BitVec 64) (Option δ)} {device : δ} {offset size : BitVec 64}

/-- A call that goes through passes the clipped size on, from its offset on. -/
theorem mdpartTransfer_eq (hptr : n.ptr = some device) (hoff : offset ≤ n.length) :
    mdpartTransfer (some n) offset size = .ok ⟨device, offset + n.reserved,
      ((if n.length < offset + size then n.length - offset else size).setWidth 32).signExtend
        64⟩ := by
  rw [mdpartTransfer]
  simp only [hptr, if_neg (BitVec.not_lt.mpr hoff)]

theorem mdpartTransfer_refused (size : BitVec 64)
    (h : ∀ device, n.ptr = some device → ¬ offset ≤ n.length) :
    ∃ e, mdpartTransfer (some n) offset size = .error e := by
  cases hptr : n.ptr with
  | none =>
    refine ⟨.ebadf, ?_⟩
    rw [mdpartTransfer]
    simp only [hptr]
  | some device =>
    refine ⟨.einval, ?_⟩
    rw [mdpartTransfer]
    simp only [hptr, if_pos (BitVec.not_le.mp (h device hptr))]

/-- The request passed on is inside the partition just when the size survives the clip. -/
theorem clipped_inside_iff (hbound : n.reserved.toNat + n.length.toNat < 2 ^ 63)
    (hoff : offset ≤ n.length) :
    Transfer.inside ⟨device, offset + n.reserved,
      ((if n.length < offset + size then n.length - offset else size).setWidth 32).signExtend
        64⟩ n.reserved n.length ↔ mdpartMeets n.length offset size := by
  have hle : offset.toNat ≤ n.length.toNat := hoff
  have hstart : (offset + n.reserved).toNat = offset.toNat + n.reserved.toNat := by
    rw [BitVec.toNat_add, Nat.mod_eq_of_lt (by omega)]
  obtain ⟨hkept, hhuge⟩ :=
    int_widened (if n.length < offset + size then n.length - offset else size)
  rw [mdpartClip_toNat size hoff] at hkept hhuge
  unfold Transfer.inside
  dsimp only
  rw [hstart]
  by_cases hbit : mdpartClip n.length offset size % 2 ^ 32 < 2 ^ 31
  · rw [hkept hbit]
    constructor
    · intro hinside
      refine ⟨hbit, ?_⟩
      by_cases h0 : mdpartClip n.length offset size % 2 ^ 32 = 0
      · omega
      · -- the last byte of the request
        have hlast := hinside (a := offset.toNat + n.reserved.toNat +
          mdpartClip n.length offset size % 2 ^ 32 - 1) ⟨by omega, by omega⟩
        have := hlast.2
        omega
    · intro hmeets x hx
      obtain ⟨-, hroom⟩ := hmeets
      exact ⟨by have := hx.1; omega, by have := hx.2; omega⟩
  · have hbig := hhuge (by omega)
    refine iff_of_false (fun hinside => ?_) fun hmeets => hbit hmeets.1
    have hlast := hinside (a := offset.toNat + n.reserved.toNat + (2 ^ 64 - 2 ^ 31) - 1)
      ⟨by omega, by omega⟩
    have := hlast.2
    omega

/-- A call built on the transfer is isolated just when the transfer is refused or inside. -/
theorem isolated_bind_iff {r : Except Errno (Transfer δ)} {start len : BitVec 64} :
    Isolated (fun _ below => r >>= below) start len ↔
      ∀ t, r = .ok t → t.inside start len := by
  cases r with
  | error e =>
    refine iff_of_true (Or.inl ⟨e, fun _ _ => rfl⟩) ?_
    intro t ht
    cases ht
  | ok t =>
    constructor
    · intro h t' ht'
      cases ht'
      rcases h with ⟨e, he⟩ | ⟨t', hin, ht'⟩
      · have := he (Transfer δ) .ok
        cases this
      · have := ht' (Transfer δ) .ok
        cases this
        exact hin
    · intro h
      exact Or.inr ⟨t, h t rfl, fun _ _ => rfl⟩

/-- What a partition passes on stays inside it just when the size survives the clip, for
reads and writes alike; every other call returns an error and passes nothing on. -/
theorem partition_isolated_iff (n : VfsNode (BitVec 64) (Option δ))
    (hbound : n.reserved.toNat + n.length.toNat < 2 ^ 63) (offset size : BitVec 64) :
    (Isolated (fun _ vfsRead => mdpartRead vfsRead (some n) offset size) n.reserved n.length ∧
      Isolated (fun _ vfsWrite => mdpartWrite vfsWrite (some n) offset size) n.reserved n.length) ↔
    ∀ device, n.ptr = some device → offset ≤ n.length → mdpartMeets n.length offset size := by
  have hiff : (∀ t, mdpartTransfer (some n) offset size = .ok t → t.inside n.reserved n.length) ↔
      ∀ device, n.ptr = some device → offset ≤ n.length → mdpartMeets n.length offset size := by
    constructor
    · intro hin device hptr hoff
      exact (clipped_inside_iff hbound hoff).mp (hin _ (mdpartTransfer_eq hptr hoff))
    · intro hmeets t ht
      by_cases hgo : ∃ device, n.ptr = some device ∧ offset ≤ n.length
      · obtain ⟨device, hptr, hoff⟩ := hgo
        rw [mdpartTransfer_eq hptr hoff] at ht
        cases ht
        exact (clipped_inside_iff hbound hoff).mpr (hmeets device hptr hoff)
      · obtain ⟨e, he⟩ := mdpartTransfer_refused size fun device hptr hoff =>
          hgo ⟨device, hptr, hoff⟩
        rw [he] at ht
        cases ht
  rw [← hiff]
  constructor
  · intro h
    exact isolated_bind_iff.mp h.1
  · intro h
    exact ⟨isolated_bind_iff.mpr h, isolated_bind_iff.mpr h⟩

end Isolation

/-- A partition of 2 GiB from byte 512 on. -/
def diskPartition : VfsNode (BitVec 64) (Option Unit) :=
  ⟨[], 660, 0, 0, 0, 0, 0x80000000, 512, .mdpart, some ()⟩

/-- A request for 16 KiB at its byte 256. -/
theorem partition_isolated_inside :
    Isolated (fun _ vfsRead => mdpartRead vfsRead (some diskPartition) 256 0x4000)
        diskPartition.reserved diskPartition.length ∧
      Isolated (fun _ vfsWrite => mdpartWrite vfsWrite (some diskPartition) 256 0x4000)
        diskPartition.reserved diskPartition.length :=
  (partition_isolated_iff diskPartition (by decide) 256 0x4000).mpr
    fun _ _ _ => ⟨by decide, by decide⟩

/-- A write of as many bytes as it has: they come to a negative `int`, and what is passed on goes on
behind the partition. -/
theorem partition_overrun :
    ¬ Isolated (fun _ vfsWrite => mdpartWrite vfsWrite (some diskPartition) 0 0x80000000)
      diskPartition.reserved diskPartition.length := by
  intro h
  have hin := isolated_bind_iff.mp h _ rfl
  have hbyte := hin (a := 0x80000000 + 512) ⟨by decide, by decide⟩
  exact absurd hbyte.2 (by decide)

end OS64.Fs
