import OS64.Fs.Mdpart
import OS64.Lib.ByteMem

/-!
# The ram disk

The bytes of a ram disk lie at `reserved`, `length` of them. Like a partition, the driver
checks the offset and clips the size, with the sum of both in 64 bits and the result in an
`int`, and then it copies. The disk is the memory of these bytes; a copy that leaves it
stops, and so does one whose `int` is negative, since `memcpy` takes it for a huge size.

`ramPartition_faithful` is about a partition on such a disk: both drivers clip the same
request.
-/

namespace OS64.Fs

open OS64.Lib (ByteMem int_widened)

/-- A node of the ram disk. It points to no other node. -/
abbrev InitrdNode := VfsNode Addr (Option Nat)

/-- What a call returns, and the memory that it leaves behind. -/
abbrev Answer := Exec (Except Errno (BitVec 64) × ByteMem)

/-- `vfs_read` and `vfs_write`, with `call` the function that the driver has for them. -/
def vfsTransfer {ρ δ : Type} (call : Drv → Option (VfsNode ρ δ → Answer))
    (node : Option (VfsNode ρ δ)) (m : ByteMem) : Answer :=
  match node with
  | none => .ok (.error .ebadf, m)
  | some n =>
    match call n.drv with
    | none => .ok (.error .ebadf, m)
    | some f => f n

/-- `initrd_init`. -/
def initrdInit (p size : BitVec 64) : InitrdNode where
  name := [0x69, 0x6E, 0x69, 0x74, 0x72, 0x64]
  rights := 660
  flags := 0x104
  uid := 0
  gid := 0
  inode := 0
  length := size
  reserved := p
  drv := .initrd
  ptr := none

/-- `len`. -/
def initrdLen (node : InitrdNode) (offset size : BitVec 64) : BitVec 32 :=
  (if node.length < offset + size then node.length - offset else size).setWidth 32

/-- The body of `initrd_read` and `initrd_write`: `m` is what the call writes to, and
`memcpy` what it is after copying so many bytes. -/
def initrdTransfer (node : Option InitrdNode) (offset size : BitVec 64) (buffer : Option ByteMem)
    (m : ByteMem) (memcpy : ByteMem → Nat → ByteMem) : Answer :=
  match node with
  | none => .ok (.error .ebadf, m)
  | some n =>
    if n.reserved = 0 then .ok (.error .ebadf, m)
    else if n.length < offset then .ok (.error .einval, m)
    else
      match buffer with
      | none => .ok (.error .einval, m)
      | some b =>
        let len := (initrdLen n offset size).signExtend 64
        if offset.toNat + len.toNat ≤ n.length.toNat then .ok (.ok len, memcpy b len.toNat)
        else .error .outOfBounds

/-- `initrd_read`: the memory it leaves behind is the buffer. -/
def initrdRead (disk : ByteMem) (node : Option InitrdNode) (offset size : BitVec 64)
    (buffer : Option ByteMem) : Answer :=
  initrdTransfer node offset size buffer (buffer.getD fun _ => 0)
    fun b len => b.fill 0 disk offset.toNat len

/-- `initrd_write`: the memory it leaves behind is the disk. -/
def initrdWrite (disk : ByteMem) (node : Option InitrdNode) (offset size : BitVec 64)
    (buffer : Option ByteMem) : Answer :=
  initrdTransfer node offset size buffer disk fun b len => disk.fill offset.toNat b 0 len

/-- `vfs_read` on a device. -/
def vfsReadRam (disk : ByteMem) (node : Option InitrdNode) (offset size : BitVec 64)
    (buffer : Option ByteMem) : Answer :=
  vfsTransfer (fun drv => if drv = .initrd then
      some fun n => initrdRead disk (some n) offset size buffer
    else none) node (buffer.getD fun _ => 0)

/-- `vfs_write` on a device. -/
def vfsWriteRam (disk : ByteMem) (node : Option InitrdNode) (offset size : BitVec 64)
    (buffer : Option ByteMem) : Answer :=
  vfsTransfer (fun drv => if drv = .initrd then
      some fun n => initrdWrite disk (some n) offset size buffer
    else none) node disk

/-! ## A partition on a ram disk -/

/-- A partition on a ram disk. -/
abbrev RamPartition := VfsNode (BitVec 64) (Option InitrdNode)

/-- A call that is refused above the device leaves the memory as it is. -/
def answered (m : ByteMem) : Except Errno Answer → Answer
  | .error e => .ok (.error e, m)
  | .ok a => a

/-- `mdpart_read` on a ram disk. -/
def mdpartReadRam (disk : ByteMem) (node : Option RamPartition) (offset size : BitVec 64)
    (buffer : Option ByteMem) : Answer :=
  answered (buffer.getD fun _ => 0) <| mdpartRead
    (fun t => .ok (vfsReadRam disk (some t.device) t.offset t.size buffer)) node offset size

/-- `mdpart_write` on a ram disk. -/
def mdpartWriteRam (disk : ByteMem) (node : Option RamPartition) (offset size : BitVec 64)
    (buffer : Option ByteMem) : Answer :=
  answered disk <| mdpartWrite
    (fun t => .ok (vfsWriteRam disk (some t.device) t.offset t.size buffer)) node offset size

/-- How much a partition of `n` bytes from byte `s` on takes of a request, on a disk of `len`
bytes. -/
def partitionCount (len s n offset size : Nat) : Nat :=
  min size (min (n - offset) (len - (s + offset)))

section Clip

variable {len offset size : BitVec 64}

/-- The clip of a request whose size fits an `int`. -/
theorem clip_widened (hoff : offset ≤ len) (hsize : size.toNat < 2 ^ 31)
    (hsum : offset.toNat + size.toNat < 2 ^ 64) :
    (((if len < offset + size then len - offset else size).setWidth 32).signExtend 64).toNat =
      min size.toNat (len.toNat - offset.toNat) := by
  have hclip : mdpartClip len offset size = min size.toNat (len.toNat - offset.toNat) :=
    if_pos hsum
  have hsmall : mdpartClip len offset size < 2 ^ 31 := by
    rw [hclip]
    exact Nat.lt_of_le_of_lt (Nat.min_le_left _ _) hsize
  have hlow : mdpartClip len offset size % 2 ^ 32 = mdpartClip len offset size :=
    Nat.mod_eq_of_lt (Nat.lt_trans hsmall (Nat.pow_lt_pow_right Nat.one_lt_two (by omega)))
  obtain ⟨hkept, -⟩ := int_widened (if len < offset + size then len - offset else size)
  rw [mdpartClip_toNat size hoff, hlow] at hkept
  rw [hkept hsmall, hclip]

end Clip

section Partition

variable {p len : BitVec 64} {n : RamPartition} {offset size : BitVec 64}

/-- The copy that a request comes to. -/
theorem initrdTransfer_eq {node : InitrdNode} (hp : node.reserved ≠ 0)
    (hoff : offset ≤ node.length) (hsize : size.toNat < 2 ^ 31)
    (hsum : offset.toNat + size.toNat < 2 ^ 64) (b m : ByteMem)
    (memcpy : ByteMem → Nat → ByteMem) :
    ∃ c : BitVec 64, c.toNat = min size.toNat (node.length.toNat - offset.toNat) ∧
      initrdTransfer (some node) offset size (some b) m memcpy =
        .ok (.ok c, memcpy b c.toNat) := by
  have hclip := clip_widened hoff hsize hsum
  have hle : offset.toNat ≤ node.length.toNat := hoff
  refine ⟨_, hclip, ?_⟩
  unfold initrdTransfer initrdLen
  dsimp only
  rw [if_neg hp, if_neg (BitVec.not_lt.mpr hoff), hclip, if_pos (by omega)]

/-- The request lies in the partition and on the disk up to its first byte. -/
structure Reaches (p len : BitVec 64) (n : RamPartition) (offset : BitVec 64) : Prop where
  present : p ≠ 0
  inside : offset ≤ n.length
  onDisk : n.reserved.toNat + offset.toNat ≤ len.toNat

/-- Both clips together, for a read and for a write. -/
theorem ramPartition_copy (hstart : n.reserved.toNat < 2 ^ 32) (hlength : n.length.toNat < 2 ^ 32)
    (hsize : size.toNat < 2 ^ 31) (hptr : n.ptr = some (initrdInit p len))
    (h : Reaches p len n offset) :
    ∃ c : BitVec 64,
      c.toNat = partitionCount len.toNat n.reserved.toNat n.length.toNat offset.toNat size.toNat ∧
      (∀ disk b, mdpartReadRam disk (some n) offset size (some b) =
        .ok (.ok c, b.fill 0 disk (n.reserved.toNat + offset.toNat) c.toNat)) ∧
      ∀ disk d, mdpartWriteRam disk (some n) offset size (some d) =
        .ok (.ok c, disk.fill (n.reserved.toNat + offset.toNat) d 0 c.toNat) := by
  have hinside : offset.toNat ≤ n.length.toNat := h.inside
  have hupper := clip_widened h.inside hsize (by omega)
  generalize hc₁ : ((if n.length < offset + size then n.length - offset
    else size).setWidth 32).signExtend 64 = c₁ at hupper
  have hat : (offset + n.reserved).toNat = n.reserved.toNat + offset.toNat := by
    rw [BitVec.toNat_add, Nat.mod_eq_of_lt (by omega), Nat.add_comm]
  have hoff : offset + n.reserved ≤ (initrdInit p len).length := by
    show (offset + n.reserved).toNat ≤ len.toNat
    rw [hat]
    exact h.onDisk
  have htransfer : mdpartTransfer (some n) offset size =
      .ok ⟨initrdInit p len, offset + n.reserved, c₁⟩ := by
    rw [mdpartTransfer_eq hptr h.inside, hc₁]
  have hcopy := @initrdTransfer_eq (offset + n.reserved) c₁ (initrdInit p len) h.present hoff
    (by omega) (by omega)
  -- the count is the same for every copy
  obtain ⟨c, hc, -⟩ := hcopy (fun _ => 0) (fun _ => 0) fun b _ => b
  rw [hupper, hat] at hc
  have hsame : ∀ b m memcpy, initrdTransfer (some (initrdInit p len)) (offset + n.reserved) c₁
      (some b) m memcpy = .ok (.ok c, memcpy b c.toNat) := by
    intro b m memcpy
    obtain ⟨c', hc', hcall⟩ := hcopy b m memcpy
    rw [hupper, hat] at hc'
    rw [hcall, BitVec.eq_of_toNat_eq (hc'.trans hc.symm)]
  refine ⟨c, ?_, fun disk b => ?_, fun disk d => ?_⟩
  · rw [hc, partitionCount, Nat.min_assoc]
    rfl
  · have hread := hsame b b fun b len => b.fill 0 disk (offset + n.reserved).toNat len
    rw [mdpartReadRam, mdpartRead, htransfer, ← hat]
    exact hread
  · have hwrite := hsame d disk fun d len => disk.fill (offset + n.reserved).toNat d 0 len
    rw [mdpartWriteRam, mdpartWrite, htransfer, ← hat]
    exact hwrite

/-- Every other request is refused, and nothing is written. -/
theorem ramPartition_refused (hstart : n.reserved.toNat < 2 ^ 32)
    (hlength : n.length.toNat < 2 ^ 32) (hptr : n.ptr = some (initrdInit p len))
    {data : Option ByteMem} (h : Reaches p len n offset → data = none) (disk : ByteMem) :
    ∃ e, mdpartWriteRam disk (some n) offset size data = .ok (.error e, disk) := by
  rw [mdpartWriteRam, mdpartWrite]
  by_cases hinside : offset ≤ n.length
  · have hinside' : offset.toNat ≤ n.length.toNat := hinside
    have hat : (offset + n.reserved).toNat = n.reserved.toNat + offset.toNat := by
      rw [BitVec.toNat_add, Nat.mod_eq_of_lt (by omega), Nat.add_comm]
    rw [mdpartTransfer_eq hptr hinside]
    show ∃ e, initrdTransfer (some (initrdInit p len)) (offset + n.reserved) _ data disk _ = _
    unfold initrdTransfer
    dsimp only
    by_cases hp : p = 0
    · exact ⟨.ebadf, if_pos hp⟩
    · rw [if_neg (show (initrdInit p len).reserved ≠ 0 from hp)]
      by_cases hdisk : len < offset + n.reserved
      · exact ⟨.einval, if_pos hdisk⟩
      · have hon : (offset + n.reserved).toNat ≤ len.toNat := BitVec.not_lt.mp hdisk
        rw [if_neg (show ¬ (initrdInit p len).length < offset + n.reserved from hdisk),
          h ⟨hp, hinside, by omega⟩]
        exact ⟨.einval, rfl⟩
  · obtain ⟨e, he⟩ := mdpartTransfer_refused size fun _ _ => hinside
    rw [he]
    exact ⟨e, rfl⟩

/-- A partition is a part of its ram disk: a write that is no error stores as much of the data
as lies in the partition and on the disk, and only there; the same request reads it back; and
a write that is an error leaves the disk as it is. -/
theorem ramPartition_faithful (disk : ByteMem) {p len : BitVec 64} {n : RamPartition}
    (hptr : n.ptr = some (initrdInit p len)) (hstart : n.reserved.toNat < 2 ^ 32)
    (hlength : n.length.toNat < 2 ^ 32) (offset : BitVec 64) {size : BitVec 64}
    (hsize : size.toNat < 2 ^ 31) (data : Option ByteMem) :
    ∃ r disk', mdpartWriteRam disk (some n) offset size data = .ok (r, disk') ∧
      (∀ e, r = .error e → disk' = disk) ∧
      ∀ c, r = .ok c → ∃ d, data = some d ∧
        offset.toNat ≤ n.length.toNat ∧ n.reserved.toNat + offset.toNat ≤ len.toNat ∧
        c.toNat = partitionCount len.toNat n.reserved.toNat n.length.toNat offset.toNat
          size.toNat ∧
        (∀ k, k < c.toNat → disk' (n.reserved.toNat + offset.toNat + k) = d k) ∧
        (∀ x, x < n.reserved.toNat + offset.toNat ∨
          n.reserved.toNat + offset.toNat + c.toNat ≤ x → disk' x = disk x) ∧
        ∀ b, ∃ b', mdpartReadRam disk' (some n) offset size (some b) = .ok (.ok c, b') ∧
          (∀ k, k < c.toNat → b' k = d k) ∧ ∀ k, c.toNat ≤ k → b' k = b k := by
  by_cases hgo : Reaches p len n offset ∧ data ≠ none
  · obtain ⟨hreach, hdata⟩ := hgo
    obtain ⟨d, hd⟩ := Option.ne_none_iff_exists'.mp hdata
    obtain ⟨c, hc, hread, hwrite⟩ := ramPartition_copy hstart hlength hsize hptr hreach
    have hstored : ∀ k, k < c.toNat →
        disk.fill (n.reserved.toNat + offset.toNat) d 0 c.toNat
          (n.reserved.toNat + offset.toNat + k) = d k := by
      intro k hk
      rw [ByteMem.fill_apply_in (by omega) (by omega), Nat.add_sub_cancel_left, Nat.zero_add]
    refine ⟨_, _, hd ▸ hwrite disk d, ?_, ?_⟩
    · intro e he
      cases he
    intro c' hc'
    cases hc'
    refine ⟨d, hd, hreach.inside, hreach.onDisk, hc, hstored,
      fun x hx => ByteMem.fill_apply_out hx, fun b => ⟨_, hread _ b, fun k hk => ?_, fun k hk => ?_⟩⟩
    · rw [ByteMem.fill_apply_in (Nat.zero_le _) (by omega), Nat.sub_zero]
      exact hstored k hk
    · exact ByteMem.fill_apply_out (Or.inr (by omega))
  · have hnone : Reaches p len n offset → data = none := by
      intro hreach
      exact Classical.not_not.mp fun hdata => hgo ⟨hreach, hdata⟩
    obtain ⟨e, he⟩ := @ramPartition_refused p len n offset size hstart hlength hptr data hnone disk
    refine ⟨_, _, he, fun _ _ => rfl, fun c hc => ?_⟩
    cases hc

end Partition

/-- A partition of 1 KiB from byte 512 on, on a disk of 1 KiB. -/
def tailPartition : RamPartition :=
  ⟨[], 660, 0x104, 0, 0, 0, 1024, 512, .mdpart, some (initrdInit 0x1000 1024)⟩

/-- A request for 16 bytes, 8 bytes before the end of the disk. -/
theorem ramPartition_faithful_tail :
    ∃ r disk', mdpartWriteRam (fun _ => 0) (some tailPartition) 504 16
        (some fun k => BitVec.ofNat 8 k) = .ok (r, disk') ∧
      (∀ e, r = .error e → disk' = fun _ => 0) ∧
      ∀ c, r = .ok c → ∃ d, some (fun k => BitVec.ofNat 8 k) = some d ∧
        504 ≤ 1024 ∧ 512 + 504 ≤ 1024 ∧
        c.toNat = partitionCount 1024 512 1024 504 16 ∧
        (∀ k, k < c.toNat → disk' (512 + 504 + k) = d k) ∧
        (∀ x, x < 512 + 504 ∨ 512 + 504 + c.toNat ≤ x → disk' x = 0) ∧
        ∀ b, ∃ b', mdpartReadRam disk' (some tailPartition) 504 16 (some b) = .ok (.ok c, b') ∧
          (∀ k, k < c.toNat → b' k = d k) ∧ ∀ k, c.toNat ≤ k → b' k = b k :=
  @ramPartition_faithful (fun _ => 0) 0x1000 1024 tailPartition rfl (by decide) (by decide) 504 16
    (by decide) (some fun k => BitVec.ofNat 8 k)

end OS64.Fs
