import OS64.Fs.Ata
import OS64.Fs.DevfsTable
import OS64.Lib.Preorder

/-!
# Devices on a disk

A partition is a range of the device it is on, and what is on it depends on the bytes there: a
device that contains itself has no end of partitions. A `Site` is a device as the disk below sees
it, `scanned` lists those that there is room for in the table, and `Site.Answers` says that the first
sector of one can be read.

On the disk of the kernel it can be read unless the disk is asked for nothing (`Site.Empty`).
-/

namespace OS64.Fs

open OS64.Lib (ByteMem int_widened preorder preorder_forall)

/-- The partitions before the first one of type 0. -/
def usedParts (buf : ByteMem) : List Nat :=
  [0, 1, 2, 3].takeWhile fun i => (partAt buf i).type ≠ 0

/-- A device: the name and the flags of its node, and the request that a request at it comes to, at
a device that is no partition. -/
structure Site where
  name : List (BitVec 8)
  flags : BitVec 32
  ask : BitVec 64 → BitVec 64 → Except Errno (Nat × BitVec 64 × BitVec 64)

/-- Partition `i` of a device. -/
def Site.part (x : Site) (i : Nat) (p : Partition) : Site where
  name := x.name ++ [digit i]
  flags := 0x104
  ask offset size :=
    if (p.numSectors * 512).setWidth 64 < offset then .error .einval
    else x.ask (offset + (p.firstSector * 512).setWidth 64)
      ((clipInt ((p.numSectors * 512).setWidth 64) offset size).signExtend 64)

/-- A read at the device, if it comes back. -/
def Site.read (read : DeviceRead) (x : Site) (offset size : BitVec 64) :
    Option (Except Errno (BitVec 64 × ByteMem)) :=
  match x.ask offset size with
  | .error e => some (.error e)
  | .ok t => read t.1 t.2.1 t.2.2

/-- The device stores nothing, or its first sector is read and the read comes back. -/
def Site.Answers (read : DeviceRead) (x : Site) : Prop :=
  x.flags &&& vfsStorage ≠ 0 → (x.read read 0 512).isSome

/-- The partitions that are made of a device with this first sector. -/
def Site.made (x : Site) (buf : ByteMem) (is : List Nat) : List Site :=
  if x.name.length < maxNamLen then
    (is.takeWhile fun i => (partAt buf i).type ≠ 0).map fun i => x.part i (partAt buf i)
  else []

/-- The partitions that are made, whatever the read of the first sector has answered. -/
def Site.listed (x : Site) : Except Errno (BitVec 64 × ByteMem) → List Site
  | .error _ => []
  | .ok (count, buf) => if mdpartAccepts count buf then x.made buf [0, 1, 2, 3] else []

/-- The partitions that are found on a device. -/
def Site.parts (read : DeviceRead) (x : Site) : List Site :=
  if x.flags &&& vfsStorage = 0 then []
  else
    match x.read read 0 512 with
    | none => []
    | some answer => x.listed answer

/-- The request that a request at the node `v` comes to. -/
def nodeAsk (heap : List DevNode) :
    Nat → Nat → BitVec 64 → BitVec 64 → Except Errno (Nat × BitVec 64 × BitVec 64)
  | 0, _, _, _ => .error .ebadf
  | fuel + 1, v, offset, size =>
    match heap[v]? with
    | none => .error .ebadf
    | some n =>
      match n.drv with
      | .null => .error .ebadf
      | .mdpart =>
        match mdpartTransfer (some n) offset size with
        | .error e => .error e
        | .ok t => nodeAsk heap fuel t.device t.offset t.size
      | _ => .ok (v, offset, size)

/-- The device behind a node. -/
def siteOf (heap : List DevNode) (v : Nat) (n : DevNode) : Site :=
  ⟨n.name, n.flags, nodeAsk heap (v + 1) v⟩

/-- The devices that there is room for behind `s`: the node `v`, and what is on it, each device before
what is on it. -/
def scanned (read : DeviceRead) (s : Devfs) (v : Nat) (n : DevNode) : List Site :=
  preorder (Site.parts read) (maxNodes - s.nodCnt) [siteOf s.heap v n]

section Reads

variable {heap heap' : List DevNode} {v : Nat} {offset size : BitVec 64}

/-- A transfer names the node that the partition is on. -/
theorem mdpartTransfer_device {n : DevNode} {t : Transfer Nat}
    (h : mdpartTransfer (some n) offset size = .ok t) : n.ptr = some t.device := by
  unfold mdpartTransfer at h
  dsimp only at h
  split at h
  · cases h
  · next device hdevice =>
    split at h
    · cases h
    · cases h
      exact hdevice

/-- A read goes from node to node to the front, and ends as the device there does. -/
theorem vfsReadNode_ask (read : DeviceRead) (hheap : HeapOk heap) :
    ∀ (fuel : Nat) {v : Nat} (offset size : BitVec 64), v < fuel → v < heap.length →
      vfsReadNode read heap fuel v offset size =
        match nodeAsk heap fuel v offset size with
        | .error e => .ok (.error e)
        | .ok t => comeBack (read t.1 t.2.1 t.2.2) := by
  intro fuel
  induction fuel with
  | zero => exact fun _ _ h => absurd h (Nat.not_lt_zero _)
  | succ fuel ih =>
    intro v offset size hfuel hv
    have hnode : heap[v]? = some heap[v] := List.getElem?_eq_getElem hv
    rw [vfsReadNode, nodeAsk]
    simp only [hnode]
    cases hdrv : heap[v].drv with
    | mdpart =>
      dsimp only
      cases ht : mdpartTransfer (some heap[v]) offset size with
      | error e => rfl
      | ok t =>
        have hbefore := hheap v heap[v] hnode t.device (mdpartTransfer_device ht)
        exact ih t.offset t.size (by omega) (by omega)
    | _ => rfl

/-- Nodes that are handed out later are not asked. -/
theorem nodeAsk_grown (hheap : HeapOk heap) (hgrown : heap <+: heap') :
    ∀ (fuel fuel' : Nat) {v : Nat} (offset size : BitVec 64), v < fuel → v < fuel' →
      v < heap.length → nodeAsk heap' fuel' v offset size = nodeAsk heap fuel v offset size := by
  intro fuel
  induction fuel with
  | zero => exact fun _ _ _ _ h => absurd h (Nat.not_lt_zero _)
  | succ fuel ih =>
    intro fuel' v offset size hfuel hfuel' hv
    obtain ⟨fuel', rfl⟩ := Nat.exists_eq_add_of_le' (Nat.lt_of_le_of_lt (Nat.zero_le v) hfuel')
    have hnode : heap[v]? = some heap[v] := List.getElem?_eq_getElem hv
    have hnode' : heap'[v]? = some heap[v] := by
      obtain ⟨tail, htail⟩ := hgrown
      rw [← htail, List.getElem?_append_left hv, hnode]
    rw [nodeAsk, nodeAsk]
    simp only [hnode, hnode']
    cases hdrv : heap[v].drv with
    | mdpart =>
      dsimp only
      cases ht : mdpartTransfer (some heap[v]) offset size with
      | error e => rfl
      | ok t =>
        have hbefore := hheap v heap[v] hnode t.device (mdpartTransfer_device ht)
        exact ih fuel' t.offset t.size (by omega) (by omega) (by omega)
    | _ => rfl

theorem siteOf_grown (hheap : HeapOk heap) (hgrown : heap <+: heap') (hv : v < heap.length)
    (n : DevNode) : siteOf heap' v n = siteOf heap v n := by
  unfold siteOf
  have hask : nodeAsk heap' (v + 1) v = nodeAsk heap (v + 1) v := by
    funext offset size
    exact nodeAsk_grown hheap hgrown (v + 1) (v + 1) offset size (Nat.lt_succ_self v)
      (Nat.lt_succ_self v) hv
  rw [hask]

/-- The node of a partition is the device that it is a partition of. -/
theorem siteOf_part (hheap : HeapOk heap) (hv : v < heap.length) (n : DevNode) (i : Nat)
    (p : Partition) : siteOf (heap ++ [mdpartNode n v i p]) heap.length (mdpartNode n v i p) =
      (siteOf heap v n).part i p := by
  have hask : nodeAsk (heap ++ [mdpartNode n v i p]) (heap.length + 1) heap.length =
      ((siteOf heap v n).part i p).ask := by
    funext offset size
    have hnode : (heap ++ [mdpartNode n v i p])[heap.length]? = some (mdpartNode n v i p) := by
      rw [List.getElem?_append_right (Nat.le_refl _), Nat.sub_self]
      rfl
    rw [nodeAsk]
    simp only [hnode]
    show (match mdpartTransfer (some (mdpartNode n v i p)) offset size with
      | .error e => (.error e : Except Errno (Nat × BitVec 64 × BitVec 64))
      | .ok t => nodeAsk (heap ++ [mdpartNode n v i p]) heap.length t.device t.offset t.size) = _
    by_cases hlt : (p.numSectors * 512).setWidth 64 < offset
    · have hrefused : mdpartTransfer (some (mdpartNode n v i p)) offset size = .error .einval :=
        if_pos hlt
      rw [hrefused]
      exact (if_pos hlt).symm
    · have hpass := @mdpartTransfer_eq Nat (mdpartNode n v i p) v offset size rfl
        (BitVec.not_lt.mp hlt)
      rw [hpass]
      refine Eq.trans ?_ (if_neg hlt).symm
      exact nodeAsk_grown hheap (List.prefix_append _ _) (v + 1) heap.length _ _ (Nat.lt_succ_self v)
        hv hv
  unfold siteOf
  rw [hask]
  rfl

/-- The read of the first sector of a node. -/
theorem vfsReadNode_site (read : DeviceRead) (hheap : HeapOk heap) {n : DevNode}
    (hn : heap[v]? = some n) (offset size : BitVec 64) :
    vfsReadNode read heap (v + 1) v offset size =
      comeBack ((siteOf heap v n).read read offset size) := by
  rw [vfsReadNode_ask read hheap (v + 1) offset size (Nat.lt_succ_self v)
    (List.getElem?_eq_some_iff.mp hn).1]
  show _ = comeBack (match nodeAsk heap (v + 1) v offset size with
    | .error e => some (.error e)
    | .ok t => read t.1 t.2.1 t.2.2)
  cases nodeAsk heap (v + 1) v offset size with
  | error e => rfl
  | ok t => rfl

end Reads

/-! ## Disks that are asked for nothing -/

/-- The device stores something, and the read of its first sector asks the disk for no byte: it has
none, or begins at the end of the device that it is on, or of the disk. -/
def Site.Empty (x : Site) : Prop :=
  x.flags &&& vfsStorage ≠ 0 ∧ ∃ t, x.ask 0 512 = .ok t ∧ t.2.1.toNat ≤ 0xFFFFFFFF ∧
    (t.2.2 = 0 ∨ t.2.1.toNat = 0xFFFFFFFF)

/-- No device asks for more than it is asked for. -/
def Site.Clips (x : Site) : Prop :=
  ∀ offset size t, size.toNat < 2 ^ 31 → x.ask offset size = .ok t → t.2.2.toNat ≤ size.toNat

section Clip

variable {read : DeviceRead} {length offset size : BitVec 64} {x : Site}

theorem clip_le (hoff : offset ≤ length) (hsize : size.toNat < 2 ^ 31) :
    ((clipInt length offset size).signExtend 64).toNat ≤ size.toNat := by
  have hclip := mdpartClip_toNat size hoff
  have hle : mdpartClip length offset size ≤ size.toNat := by
    unfold mdpartClip
    split
    · exact Nat.min_le_left _ _
    · exact Nat.le_refl _
  have hkept := (int_widened (if length < offset + size then length - offset else size)).1
  rw [hclip, Nat.mod_eq_of_lt (Nat.lt_of_le_of_lt hle (by omega))] at hkept
  exact Nat.le_trans (Nat.le_of_eq (hkept (by omega))) hle

/-- Nor does a node. -/
theorem nodeAsk_clips (heap : List DevNode) : ∀ (fuel v : Nat) (offset size : BitVec 64)
    (t : Nat × BitVec 64 × BitVec 64), size.toNat < 2 ^ 31 →
      nodeAsk heap fuel v offset size = .ok t → t.2.2.toNat ≤ size.toNat := by
  intro fuel
  induction fuel with
  | zero =>
    intro v offset size t _ h
    cases h
  | succ fuel ih =>
    intro v offset size t hsize h
    rw [nodeAsk] at h
    split at h
    · cases h
    · next n _ =>
      split at h
      · cases h
      · split at h
        · cases h
        · next u hu =>
          obtain ⟨device, uoffset, usize⟩ := u
          have hptr := mdpartTransfer_device hu
          have hoff : offset ≤ n.length := by
            by_contra hlt
            obtain ⟨e, he⟩ := mdpartTransfer_refused size fun _ _ => hlt
            rw [he] at hu
            cases hu
          rw [mdpartTransfer_eq hptr hoff] at hu
          cases hu
          have hle := clip_le hoff hsize
          exact Nat.le_trans (ih _ _ _ t (Nat.lt_of_le_of_lt hle hsize) h) hle
      · cases h
        exact Nat.le_refl _

theorem part_clips (hx : x.Clips) (i : Nat) (p : Partition) : (x.part i p).Clips := by
  intro offset size t hsize h
  change (if (p.numSectors * 512).setWidth 64 < offset then _ else _) = _ at h
  by_cases hlt : (p.numSectors * 512).setWidth 64 < offset
  · rw [if_pos hlt] at h
    cases h
  · rw [if_neg hlt] at h
    have hle := clip_le (BitVec.not_lt.mp hlt) hsize
    exact Nat.le_trans (hx _ _ t (Nat.lt_of_le_of_lt hle hsize) h) hle

/-- A partition is one of the table in the first sector. -/
theorem mem_parts {y : Site} (hy : y ∈ x.parts read) : ∃ count buf i,
    x.read read 0 512 = some (.ok (count, buf)) ∧ i ∈ usedParts buf ∧ y = x.part i (partAt buf i) := by
  unfold Site.parts at hy
  by_cases hflag : x.flags &&& vfsStorage = 0
  · rw [if_pos hflag] at hy
    exact absurd hy List.not_mem_nil
  · rw [if_neg hflag] at hy
    cases hread : x.read read 0 512 with
    | none =>
      rw [hread] at hy
      exact absurd hy List.not_mem_nil
    | some answer =>
      rw [hread] at hy
      cases answer with
      | error e => exact absurd hy List.not_mem_nil
      | ok t =>
        obtain ⟨count, buf⟩ := t
        change y ∈ if mdpartAccepts count buf then x.made buf [0, 1, 2, 3] else [] at hy
        by_cases haccept : mdpartAccepts count buf
        · rw [if_pos haccept, Site.made] at hy
          by_cases hlen : x.name.length < maxNamLen
          · rw [if_pos hlen] at hy
            obtain ⟨i, hi, heq⟩ := List.mem_map.mp hy
            exact ⟨count, buf, i, rfl, hi, heq.symm⟩
          · rw [if_neg hlen] at hy
            exact absurd hy List.not_mem_nil
        · rw [if_neg haccept] at hy
          exact absurd hy List.not_mem_nil

theorem scanned_clips (s : Devfs) (v : Nat) (n : DevNode) : ∀ x ∈ scanned read s v n, x.Clips := by
  refine preorder_forall (fun x hx y hy => ?_) _ _ fun x hx => ?_
  · obtain ⟨_, buf, i, -, -, rfl⟩ := mem_parts hy
    exact part_clips hx i (partAt buf i)
  · rw [List.mem_singleton.mp hx]
    exact nodeAsk_clips s.heap (v + 1) v

/-- On the disk of the kernel, a device answers if it does not ask for nothing. -/
theorem answers_iff_not_empty {pio : BitVec 64 → BitVec 8 → ByteMem → ByteMem} {fresh : ByteMem}
    (hx : x.Clips) : x.Answers (ataDevice pio fresh) ↔ ¬ x.Empty := by
  have hread : x.read (ataDevice pio fresh) 0 512 = none ↔
      ∃ t, x.ask 0 512 = .ok t ∧ t.2.1.toNat ≤ 0xFFFFFFFF ∧
        (t.2.2 = 0 ∨ t.2.1.toNat = 0xFFFFFFFF) := by
    unfold Site.read
    cases hask : x.ask 0 512 with
    | error e =>
      refine iff_of_false (Option.some_ne_none _) fun h => ?_
      obtain ⟨t, ht, -⟩ := h
      cases ht
    | ok t =>
      have hle := hx 0 512 t (by decide) hask
      refine (ataDevice_none hle t.1).trans ⟨fun h => ⟨t, rfl, h⟩, fun h => ?_⟩
      obtain ⟨t', ht, h⟩ := h
      cases ht
      exact h
  unfold Site.Answers Site.Empty
  rw [← hread, not_and]
  exact forall_congr' fun _ => Option.isSome_iff_ne_none

end Clip

end OS64.Fs
