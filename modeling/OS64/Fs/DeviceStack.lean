import OS64.Fs.Initrd

/-!
# Devices on devices

A partition is a node as good as the one it is on: `vfs_read` on it ends in `vfs_read` on the node
below, and that may be a partition as well. Each of them checks the offset, clips the size and adds
its own start.

What a stack of them comes to is a window of the ram disk at the bottom: it begins at the sum of the
starts, and from each offset on it reaches as far as the shortest of them does (`Device.room`).
In a run of writes through such devices each byte of the disk has what the last write that reaches
it has brought (`device_run_reads`), and the two sides of a partition table, with all that is
stacked on them, do not see each other (`partitions_apart`).

The start and the length of a partition are products of 32 bits that are widened.
-/

namespace OS64.Fs

open OS64.Lib (ByteMem)

/-- A node of the ram disk, or of a partition on another node. -/
inductive Device
  | ram (p len : BitVec 64)
  | part (start len : BitVec 32) (below : Device)

/-- The node that `mdpart_init` makes for a partition. -/
def partNode (start len : BitVec 32) (below : Device) : VfsNode (BitVec 64) (Option Device) :=
  ⟨[], 660, 0x104, 0, 0, 0, len.setWidth 64, start.setWidth 64, .mdpart, some below⟩

namespace Device

/-- `vfs_read` on a device. -/
def read (disk : ByteMem) : Device → BitVec 64 → BitVec 64 → Option ByteMem → Answer
  | .ram p len, offset, size, buffer => vfsReadRam disk (some (initrdInit p len)) offset size buffer
  | .part start len below, offset, size, buffer =>
    answered (buffer.getD fun _ => 0) <| mdpartRead
      (fun t => .ok (read disk below t.offset t.size buffer)) (some (partNode start len below))
      offset size

/-- `vfs_write` on a device. -/
def write (disk : ByteMem) : Device → BitVec 64 → BitVec 64 → Option ByteMem → Answer
  | .ram p len, offset, size, buffer =>
    vfsWriteRam disk (some (initrdInit p len)) offset size buffer
  | .part start len below, offset, size, buffer =>
    answered disk <| mdpartWrite
      (fun t => .ok (write disk below t.offset t.size buffer)) (some (partNode start len below))
      offset size

/-- Where the device begins on the ram disk. -/
def base : Device → Nat
  | .ram _ _ => 0
  | .part start _ below => start.toNat + below.base

/-- How many bytes the device has from an offset on, where it takes the offset. -/
def room : Device → Nat → Option Nat
  | .ram p len, o => if p ≠ 0 ∧ o ≤ len.toNat then some (len.toNat - o) else none
  | .part start len below, o =>
    if o ≤ len.toNat then (below.room (start.toNat + o)).map (min (len.toNat - o)) else none

/-- The byte `x` of the ram disk is one of the device. -/
def Holds (d : Device) (x : Nat) : Prop :=
  ∃ o r, d.room o = some r ∧ d.base + o ≤ x ∧ x < d.base + o + r

/-- A partition has no byte that is not one of the device below. -/
theorem holds_below {start len : BitVec 32} {below : Device} {x : Nat}
    (h : (Device.part start len below).Holds x) :
    below.Holds x ∧ start.toNat + below.base ≤ x ∧ x < start.toNat + below.base + len.toNat := by
  obtain ⟨o, r, hroom, hx, hx'⟩ := h
  have hbase : (Device.part start len below).base = start.toNat + below.base := rfl
  rw [hbase] at hx hx'
  rw [room] at hroom
  by_cases ho : o ≤ len.toNat
  · rw [if_pos ho] at hroom
    obtain ⟨r', hr', heq⟩ := Option.map_eq_some_iff.mp hroom
    refine ⟨⟨start.toNat + o, r', hr', ?_, ?_⟩, ?_, ?_⟩
    all_goals omega
  · rw [if_neg ho] at hroom
    cases hroom

/-! ## One request -/

section Request

variable {offset size : BitVec 64}

theorem widened_toNat (x : BitVec 32) : (x.setWidth 64).toNat = x.toNat := by
  have hlt := x.isLt
  rw [BitVec.toNat_setWidth, Nat.mod_eq_of_lt (by omega)]

/-- The request that a partition passes on. -/
theorem part_transfer {start len : BitVec 32} (below : Device) (hoff : offset.toNat ≤ len.toNat)
    (hsize : size.toNat < 2 ^ 31) :
    ∃ t, mdpartTransfer (some (partNode start len below)) offset size = .ok t ∧
      t.offset.toNat = start.toNat + offset.toNat ∧
      t.size.toNat = min size.toNat (len.toNat - offset.toNat) := by
  have hstart := start.isLt
  have hlen := len.isLt
  have hle : offset ≤ (partNode start len below).length := by
    show offset.toNat ≤ (len.setWidth 64).toNat
    rw [widened_toNat]
    exact hoff
  have hclip := clip_widened hle hsize (by omega)
  rw [show (partNode start len below).length.toNat = len.toNat from widened_toNat len] at hclip
  refine ⟨_, mdpartTransfer_eq rfl hle, ?_, hclip⟩
  show (offset + start.setWidth 64).toNat = _
  rw [BitVec.toNat_add, widened_toNat, Nat.mod_eq_of_lt (by omega), Nat.add_comm]

/-- A request that the device takes is one copy, of as much as there is room for. -/
theorem taken : ∀ (d : Device) {offset size : BitVec 64} {r : Nat}, size.toNat < 2 ^ 31 →
    offset.toNat + size.toNat < 2 ^ 64 → d.room offset.toNat = some r →
    ∃ c : BitVec 64, c.toNat = min size.toNat r ∧
      (∀ disk b, d.read disk offset size (some b) =
        .ok (.ok c, b.fill 0 disk (d.base + offset.toNat) c.toNat)) ∧
      ∀ disk w, d.write disk offset size (some w) =
        .ok (.ok c, disk.fill (d.base + offset.toNat) w 0 c.toNat) := by
  intro d
  induction d with
  | ram p len =>
    intro offset size r hsize hsum hroom
    rw [room] at hroom
    by_cases htake : p ≠ 0 ∧ offset.toNat ≤ len.toNat
    · rw [if_pos htake] at hroom
      have hcopy := @initrdTransfer_eq offset size (initrdInit p len) htake.1 htake.2 hsize hsum
      -- the count is the same for every copy
      obtain ⟨c, hc, -⟩ := hcopy (fun _ => 0) (fun _ => 0) fun b _ => b
      have hsame : ∀ b m memcpy, initrdTransfer (some (initrdInit p len)) offset size (some b) m
          memcpy = .ok (.ok c, memcpy b c.toNat) := by
        intro b m memcpy
        obtain ⟨c', hc', hcall⟩ := hcopy b m memcpy
        rw [hcall, BitVec.eq_of_toNat_eq (hc'.trans hc.symm)]
      have hbase : (Device.ram p len).base + offset.toNat = offset.toNat := Nat.zero_add _
      rw [hbase, ← Option.some.inj hroom]
      exact ⟨c, hc, fun disk b => hsame b b fun b len => b.fill 0 disk offset.toNat len,
        fun disk w => hsame w disk fun b len => disk.fill offset.toNat b 0 len⟩
    · rw [if_neg htake] at hroom
      cases hroom
  | part start len below ih =>
    intro offset size r hsize hsum hroom
    rw [room] at hroom
    by_cases hoff : offset.toNat ≤ len.toNat
    · rw [if_pos hoff] at hroom
      obtain ⟨r', hr', hr⟩ := Option.map_eq_some_iff.mp hroom
      obtain ⟨t, ht, htoff, htsize⟩ := @part_transfer offset size start len below hoff hsize
      have hstart := start.isLt
      have hlen := len.isLt
      obtain ⟨c, hc, hread, hwrite⟩ := @ih t.offset t.size r' (by omega) (by omega)
        (by rw [htoff]; exact hr')
      have hbase :
          (Device.part start len below).base + offset.toNat = below.base + t.offset.toNat := by
        rw [htoff, base]
        omega
      refine ⟨c, by omega, fun disk b => ?_, fun disk w => ?_⟩
      · rw [hbase, ← hread disk b, read, mdpartRead, ht]
        rfl
      · rw [hbase, ← hwrite disk w, write, mdpartWrite, ht]
        rfl
    · rw [if_neg hoff] at hroom
      cases hroom

/-- Any other request is refused, and so is one without a buffer. -/
theorem refused : ∀ (d : Device) {offset size : BitVec 64} {data : Option ByteMem},
    size.toNat < 2 ^ 31 → (d.room offset.toNat = none ∨ data = none) →
    ∃ e, ∀ disk, d.write disk offset size data = .ok (.error e, disk) ∧
      d.read disk offset size data = .ok (.error e, data.getD fun _ => 0) := by
  intro d
  induction d with
  | ram p len =>
    intro offset size data hsize h
    have hcases : ∃ e, ∀ m memcpy, initrdTransfer (some (initrdInit p len)) offset size data m
        memcpy = .ok (.error e, m) := by
      by_cases hp : p = 0
      · exact ⟨.ebadf, fun _ _ => if_pos hp⟩
      · have hpres : ¬ (initrdInit p len).reserved = 0 := hp
        by_cases hlen : len < offset
        · exact ⟨.einval, fun _ _ => (if_neg hpres).trans (if_pos hlen)⟩
        · have hdata : data = none := by
            rcases h with h | h
            · rw [room, if_pos ⟨hp, BitVec.not_lt.mp hlen⟩] at h
              cases h
            · exact h
          rw [hdata]
          exact ⟨.einval, fun _ _ => (if_neg hpres).trans (if_neg hlen)⟩
    obtain ⟨e, he⟩ := hcases
    exact ⟨e, fun disk => ⟨he disk _, he _ _⟩⟩
  | part start len below ih =>
    intro offset size data hsize h
    by_cases hoff : offset.toNat ≤ len.toNat
    · obtain ⟨t, ht, htoff, htsize⟩ := @part_transfer offset size start len below hoff hsize
      have hbelow : below.room t.offset.toNat = none ∨ data = none := by
        refine h.imp_left fun hnone => ?_
        rw [room, if_pos hoff] at hnone
        rw [htoff]
        exact Option.map_eq_none_iff.mp hnone
      obtain ⟨e, he⟩ := @ih t.offset t.size data (by omega) hbelow
      refine ⟨e, fun disk => ⟨?_, ?_⟩⟩
      · rw [← (he disk).1, write, mdpartWrite, ht]
        rfl
      · rw [← (he disk).2, read, mdpartRead, ht]
        rfl
    · have hlen : ¬ offset ≤ (partNode start len below).length := by
        intro hle
        have hnat : offset.toNat ≤ (len.setWidth 64).toNat := hle
        rw [widened_toNat] at hnat
        exact hoff hnat
      obtain ⟨e, he⟩ := @mdpartTransfer_refused Device (partNode start len below) offset size
        fun _ _ => hlen
      refine ⟨e, fun disk => ⟨?_, ?_⟩⟩
      · rw [write, mdpartWrite, he]
        rfl
      · rw [read, mdpartRead, he]
        rfl

end Request

/-- The device is `d`, or a partition on it, or on one of these. -/
inductive On (d : Device) : Device → Prop
  | here : On d d
  | part (start len : BitVec 32) {e : Device} (h : On d e) : On d (.part start len e)

theorem On.holds {d e : Device} (h : On d e) {x : Nat} (hx : e.Holds x) : d.Holds x := by
  induction h with
  | here => exact hx
  | part start len _ ih => exact ih (holds_below hx).1

end Device

/-! ## Runs -/

/-- A call of `vfs_write` on a device. -/
structure DeviceWrite where
  device : Device
  offset : BitVec 64
  size : BitVec 64
  data : Option ByteMem

namespace DeviceWrite

/-- The size fits an `int`, and its sum with the offset does not wrap. -/
def Sane (q : DeviceWrite) : Prop :=
  q.size.toNat < 2 ^ 31 ∧ q.offset.toNat + q.size.toNat < 2 ^ 64

/-- What the call brings to the byte `x` of the ram disk, if it reaches it. -/
def brings (q : DeviceWrite) (x : Nat) : Option (BitVec 8) :=
  match q.device.room q.offset.toNat, q.data with
  | some r, some w =>
    if q.device.base + q.offset.toNat ≤ x ∧
        x < q.device.base + q.offset.toNat + min q.size.toNat r then
      some (w (x - (q.device.base + q.offset.toNat)))
    else none
  | _, _ => none

/-- A byte that the call reaches is one of its device. -/
theorem holds_of_brings {q : DeviceWrite} {x : Nat} {b : BitVec 8} (h : q.brings x = some b) :
    q.device.Holds x := by
  unfold brings at h
  split at h
  · next r w hroom _ =>
    split at h
    · next hin => exact ⟨q.offset.toNat, r, hroom, hin.1, by omega⟩
    · cases h
  · cases h

end DeviceWrite

/-- Calls of `vfs_write` one after the other, with the disk they leave. -/
def writeDevices : ByteMem → List DeviceWrite → Exec ByteMem
  | disk, [] => .ok disk
  | disk, q :: qs => do
    let a ← q.device.write disk q.offset q.size q.data
    writeDevices a.2 qs

/-- What a byte is behind the calls. -/
def lastBrought (qs : List DeviceWrite) (x : Nat) (b : BitVec 8) : BitVec 8 :=
  qs.foldl (fun b q => (q.brings x).getD b) b

/-- One call: it returns, and the disk has what it brings. -/
theorem writeDevice_spec {q : DeviceWrite} (hq : q.Sane) (disk : ByteMem) :
    ∃ r, q.device.write disk q.offset q.size q.data =
      .ok (r, fun x => (q.brings x).getD (disk x)) := by
  obtain ⟨device, offset, size, data⟩ := q
  obtain ⟨hsize, hsum⟩ := hq
  cases hroom : device.room offset.toNat with
  | none =>
    obtain ⟨e, he⟩ := @Device.refused device offset size data hsize (Or.inl hroom)
    refine ⟨.error e, (he disk).1.trans ?_⟩
    simp only [DeviceWrite.brings, hroom, Option.getD_none]
  | some r =>
    cases data with
    | none =>
      obtain ⟨e, he⟩ := @Device.refused device offset size none hsize (Or.inr rfl)
      refine ⟨.error e, (he disk).1.trans ?_⟩
      simp only [DeviceWrite.brings, hroom, Option.getD_none]
    | some w =>
      obtain ⟨c, hc, -, hwrite⟩ := Device.taken device hsize hsum hroom
      refine ⟨.ok c, (hwrite disk w).trans ?_⟩
      have hfill : disk.fill (device.base + offset.toNat) w 0 c.toNat = fun x =>
          ((⟨device, offset, size, some w⟩ : DeviceWrite).brings x).getD (disk x) := by
        funext x
        simp only [DeviceWrite.brings, hroom]
        rw [ByteMem.fill, hc]
        by_cases hin : device.base + offset.toNat ≤ x ∧
            x < device.base + offset.toNat + min size.toNat r
        · rw [if_pos hin, if_pos hin, Nat.zero_add]
          rfl
        · rw [if_neg hin, if_neg hin]
          rfl
      rw [hfill]

theorem writeDevices_spec (qs : List DeviceWrite) : ∀ (disk : ByteMem), (∀ q ∈ qs, q.Sane) →
    writeDevices disk qs = .ok fun x => lastBrought qs x (disk x) := by
  induction qs with
  | nil => exact fun _ _ => rfl
  | cons q qs ih =>
    intro disk hqs
    obtain ⟨r, hr⟩ := writeDevice_spec (hqs q List.mem_cons_self) disk
    rw [writeDevices, hr]
    exact ih _ fun q' hq' => hqs q' (List.mem_cons_of_mem _ hq')

/-- In every run of writes through devices on one ram disk, however they are stacked: a read that is
taken delivers as many bytes as there is room for, and each is what the last write that reaches it,
through whatever device, has brought, or what the disk held at first. -/
theorem device_run_reads (disk : ByteMem) {qs : List DeviceWrite} (hqs : ∀ q ∈ qs, q.Sane)
    (d : Device) {offset size : BitVec 64} (hsize : size.toNat < 2 ^ 31)
    (hsum : offset.toNat + size.toNat < 2 ^ 64) {r : Nat} (hroom : d.room offset.toNat = some r)
    (b : ByteMem) :
    ∃ disk' c b', writeDevices disk qs = .ok disk' ∧
      d.read disk' offset size (some b) = .ok (.ok c, b') ∧ c.toNat = min size.toNat r ∧
      (∀ k, k < c.toNat → b' k = lastBrought qs (d.base + offset.toNat + k)
        (disk (d.base + offset.toNat + k))) ∧
      ∀ k, c.toNat ≤ k → b' k = b k := by
  obtain ⟨c, hc, hread, -⟩ := Device.taken d hsize hsum hroom
  refine ⟨_, c, _, writeDevices_spec qs disk hqs, hread _ b, hc, fun k hk => ?_, fun k hk => ?_⟩
  · rw [ByteMem.fill_apply_in (Nat.zero_le _) (by omega), Nat.sub_zero]
  · exact ByteMem.fill_apply_out (Or.inr (by omega))

/-- A ram disk of 4 KiB. -/
def smallDisk : Device := .ram 0x1000 4096

/-- A partition of 1 KiB from byte 512 on, and one in it. -/
def innerDevice : Device := .part 128 512 (.part 512 1024 smallDisk)

/-- 16 bytes at byte 8 of the partition in it. -/
def innerWrite : DeviceWrite := ⟨innerDevice, 8, 16, some fun k => BitVec.ofNat 8 (k + 1)⟩

/-- What was written through the partition is found on the disk. -/
theorem device_run_reads_inner : ∃ b',
    (∃ disk', writeDevices (fun _ => 0) [innerWrite] = .ok disk' ∧
    smallDisk.read disk' 648 4 (some fun _ => 0) = .ok (.ok 4, b')) ∧ b' 0 = 1 ∧ b' 3 = 4 := by
  have hsane : ∀ q ∈ [innerWrite], q.Sane := by
    intro q hq
    rw [List.mem_singleton.mp hq]
    exact ⟨by decide, by decide⟩
  obtain ⟨disk', c, b', hrun, hread, hc, hbytes, -⟩ := @device_run_reads (fun _ => 0) [innerWrite]
    hsane smallDisk 648 4 (by decide) (by decide) 3448 rfl fun _ => 0
  have hc4 : c = 4 := BitVec.eq_of_toNat_eq hc
  rw [hc4] at hread hbytes
  exact ⟨b', ⟨disk', hrun, hread⟩, (hbytes 0 (by decide)).trans (by decide),
    (hbytes 3 (by decide)).trans (by decide)⟩

/-- Two partitions of one device, of which one ends before the other begins, do not see each other:
in every run of writes through the first and whatever is stacked on it, every read of the second and
of whatever is stacked on that has the answer that it had before. -/
theorem partitions_apart (disk : ByteMem) {s₁ l₁ s₂ l₂ : BitVec 32} {below : Device}
    (hapart : s₁.toNat + l₁.toNat ≤ s₂.toNat ∨ s₂.toNat + l₂.toNat ≤ s₁.toNat)
    {qs : List DeviceWrite} (hqs : ∀ q ∈ qs, q.Sane)
    (hfirst : ∀ q ∈ qs, (Device.part s₁ l₁ below).On q.device) {d : Device}
    (hsecond : (Device.part s₂ l₂ below).On d) {offset size : BitVec 64}
    (hsize : size.toNat < 2 ^ 31) (hsum : offset.toNat + size.toNat < 2 ^ 64) (b : ByteMem) :
    ∃ disk', writeDevices disk qs = .ok disk' ∧
      d.read disk' offset size (some b) = d.read disk offset size (some b) := by
  refine ⟨_, writeDevices_spec qs disk hqs, ?_⟩
  have hkept : ∀ x, d.Holds x → lastBrought qs x (disk x) = disk x := by
    intro x hx
    have hin := (Device.holds_below (hsecond.holds hx)).2
    have hnone : ∀ q ∈ qs, q.brings x = none := by
      intro q hq
      cases hb : q.brings x with
      | none => rfl
      | some v =>
        have hout := (Device.holds_below ((hfirst q hq).holds (DeviceWrite.holds_of_brings hb))).2
        omega
    have hfold : ∀ (l : List DeviceWrite) (v : BitVec 8), (∀ q ∈ l, q.brings x = none) →
        lastBrought l x v = v := by
      intro l
      induction l with
      | nil => exact fun _ _ => rfl
      | cons q l ih =>
        intro v hl
        rw [lastBrought, List.foldl_cons, hl q List.mem_cons_self]
        exact ih v fun q' hq' => hl q' (List.mem_cons_of_mem _ hq')
    exact hfold qs _ hnone
  cases hroom : d.room offset.toNat with
  | none =>
    obtain ⟨e, he⟩ := @Device.refused d offset size (some b) hsize (Or.inl hroom)
    rw [(he _).2, (he _).2]
  | some r =>
    obtain ⟨c, hc, hread, -⟩ := Device.taken d hsize hsum hroom
    rw [hread, hread]
    have hsame : b.fill 0 (fun x => lastBrought qs x (disk x)) (d.base + offset.toNat) c.toNat =
        b.fill 0 disk (d.base + offset.toNat) c.toNat := by
      funext k
      by_cases hk : k < c.toNat
      · rw [ByteMem.fill_apply_in (Nat.zero_le _) (by omega),
          ByteMem.fill_apply_in (Nat.zero_le _) (by omega)]
        exact hkept _ ⟨offset.toNat, r, hroom, by omega, by omega⟩
      · rw [ByteMem.fill_apply_out (Or.inr (by omega)), ByteMem.fill_apply_out (Or.inr (by omega))]
    rw [hsame]

/-- The partition behind the one that was written. -/
theorem partitions_apart_next : ∃ disk', writeDevices (fun _ => 0) [innerWrite] = .ok disk' ∧
    (Device.part 1536 1024 smallDisk).read disk' 0 512 (some fun _ => 0) =
      (Device.part 1536 1024 smallDisk).read (fun _ => 0) 0 512 (some fun _ => 0) := by
  refine @partitions_apart (fun _ => 0) 512 1024 1536 1024 smallDisk (Or.inl (by decide))
    [innerWrite] ?_ ?_ _ .here 0 512 (by decide) (by decide) fun _ => 0
  · intro q hq
    rw [List.mem_singleton.mp hq]
    exact ⟨by decide, by decide⟩
  · intro q hq
    rw [List.mem_singleton.mp hq]
    exact .part _ _ .here

end OS64.Fs
