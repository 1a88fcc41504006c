import OS64.Fs.Discovery
import Mathlib.Data.List.Forall2

/-!
# The geometry of partitions

A partition table has the first sector of a partition and its number of sectors, each an
`uint32_t`. `mdpart_init` multiplies them by the size of a sector before it stores them in the
64-bit fields of a node, so the products are those of 32-bit numbers. `geometry_stated_iff` says
for which tables the nodes are what the table states.

What tells a table from another sector with the same magic are the active bytes. Of each of them
`mdpart_init` tests one bit, and `table_accepted_iff` says for which sectors that is enough.
-/

namespace OS64.Fs

open OS64.Lib (ByteMem)

/-- The nodes for partitions of `v` that were made from `s` to `s'`. -/
def partsOf (s s' : Devfs) (v : Nat) : List DevNode :=
  (s'.heap.drop s.heap.length).filter fun n => n.ptr = some v

/-- Place, size and name of a partition are as the table says. -/
structure AsStated (buf : ByteMem) (n : DevNode) (i : Nat) (c : DevNode) : Prop where
  start : c.reserved.toNat = 512 * (partAt buf i).firstSector.toNat
  size : c.length.toNat = 512 * (partAt buf i).numSectors.toNat
  name : c.name = n.name ++ [digit i]

/-- There is room for one more character in the name, and no product leaves 32 bits. -/
def geometryMeets (buf : ByteMem) (n : DevNode) : Prop :=
  (usedParts buf ≠ [] → n.name.length < maxNamLen) ∧
    ∀ i ∈ usedParts buf, (partAt buf i).firstSector.toNat < 2 ^ 23 ∧
      (partAt buf i).numSectors.toNat < 2 ^ 23

section Parts

variable {s s₂ s' : Devfs} {v : Nat}

theorem partsOf_trans (h : Grown s s₂) (h' : Grown s₂ s') :
    partsOf s s' v = partsOf s s₂ v ++ partsOf s₂ s' v := by
  obtain ⟨t, ht⟩ := h.heap
  obtain ⟨t', ht'⟩ := h'.heap
  unfold partsOf
  rw [← ht', List.drop_left, ← ht, List.drop_left, List.append_assoc, List.drop_left,
    List.filter_append]

/-- What is found on a later node is not on `v`. -/
theorem partsOf_added {c : Nat} (h : Added s c s') (hc : v < c) (hv : v < s.heap.length) :
    partsOf s s' v = [] := by
  refine List.filter_eq_nil_iff.mpr fun n hn hptr => ?_
  obtain ⟨i, hi⟩ := List.mem_iff_getElem?.mp hn
  rw [List.getElem?_drop] at hi
  obtain ⟨p, hp, hwhere⟩ := h.fresh _ n (Nat.le_add_right _ i) hi
  have hpv : p = v := Option.some.inj (hp.symm.trans (of_decide_eq_true hptr))
  omega

theorem partsOf_alloc (n : DevNode) (hptr : n.ptr = some v) :
    partsOf s (s.alloc n).2 v = [n] := by
  show ((s.heap ++ [n]).drop s.heap.length).filter _ = _
  rw [List.drop_left, List.filter_cons, if_pos (decide_eq_true hptr)]
  rfl

/-- The loop, where it ends, has made a node for each partition before the first one of type 0. -/
theorem mdpartParts_nodes {read : DeviceRead} {add : Devfs → Nat → Exec (AddResult × Devfs)}
    (hadd : AddsOnly read add) (buf : ByteMem) {n : DevNode} :
    ∀ {is : List Nat} {s s' : Devfs}, s.heap[v]? = some n → HeapOk s.heap → s.nodCnt ≤ maxNodes →
      mdpartParts add buf v is s = .ok s' → Grown s s' ∧
        partsOf s s' v = if n.name.length < maxNamLen then
          (is.takeWhile fun i => (partAt buf i).type ≠ 0).map
            fun i => mdpartNode n v i (partAt buf i)
        else [] := by
  have hnone : ∀ s : Devfs, partsOf s s v = [] := by
    intro s
    unfold partsOf
    rw [List.drop_length]
    rfl
  intro is
  induction is with
  | nil =>
    intro s s' _ hheap hbound h
    cases h
    refine ⟨grown_refl hbound hheap, ?_⟩
    rw [hnone]
    split <;> rfl
  | cons i is ih =>
    intro s s' hn hheap hbound h
    have hv : v < s.heap.length := (List.getElem?_eq_some_iff.mp hn).1
    have hnode : s.node v = .ok n := Devfs.node_eq hn
    rw [mdpartParts] at h
    rw [List.takeWhile_cons]
    by_cases htype : (partAt buf i).type = 0
    · rw [if_pos htype] at h
      cases h
      refine ⟨grown_refl hbound hheap, ?_⟩
      rw [hnone, if_neg fun hd => (of_decide_eq_true hd : (partAt buf i).type ≠ 0) htype]
      split <;> rfl
    · rw [if_neg htype, hnode] at h
      rw [if_pos (decide_eq_true htype)]
      change (if n.name.length < maxNamLen then _ else _) = _ at h
      by_cases hlen : n.name.length < maxNamLen
      · rw [if_pos hlen] at h
        obtain ⟨⟨r, s₂⟩, hcall, hloop⟩ := bind_ok h
        obtain ⟨halloc, hadded, -⟩ := part_added hadd hn hheap hbound hcall
        have hlast := alloc_lt s (mdpartNode n v i (partAt buf i))
        have hgrown := halloc.trans hadded.toGrown
        obtain ⟨hrest, hparts⟩ := @ih s₂ s' (hgrown.node_kept hn) hgrown.parents hgrown.bound hloop
        refine ⟨hgrown.trans hrest, ?_⟩
        -- the node itself, nothing from what is on it, and the rest
        rw [if_pos hlen] at hparts ⊢
        rw [partsOf_trans hgrown hrest, partsOf_trans halloc hadded.toGrown, hparts,
          partsOf_alloc (mdpartNode n v i (partAt buf i)) rfl,
          partsOf_added hadded hv (Nat.lt_trans hv hlast)]
        rfl
      · -- the name has no room for a number, and the rest is looked at all the same
        rw [if_neg hlen] at h
        obtain ⟨hgrown, hparts⟩ := @ih s s' hn hheap hbound h
        refine ⟨hgrown, ?_⟩
        rw [hparts, if_neg hlen, if_neg hlen]

/-- A product of 32 bits that is widened is the product just when it stays below `2 ^ 32`. -/
theorem sectors_widened (x : BitVec 32) :
    ((x * 512).setWidth 64).toNat = 512 * x.toNat ↔ x.toNat < 2 ^ 23 := by
  have hx := x.isLt
  rw [BitVec.toNat_setWidth, BitVec.toNat_mul, show (512 : BitVec 32).toNat = 512 from rfl]
  omega

theorem asStated_iff {buf : ByteMem} {n : DevNode} {i : Nat} :
    AsStated buf n i (mdpartNode n v i (partAt buf i)) ↔
      (partAt buf i).firstSector.toNat < 2 ^ 23 ∧ (partAt buf i).numSectors.toNat < 2 ^ 23 := by
  constructor
  · intro h
    exact ⟨(sectors_widened _).mp h.start, (sectors_widened _).mp h.size⟩
  · intro h
    exact ⟨(sectors_widened _).mpr h.1, (sectors_widened _).mpr h.2, rfl⟩

/-- The nodes are as stated just when the table meets the condition. -/
theorem nodes_asStated_iff (buf : ByteMem) (n : DevNode) :
    List.Forall₂ (AsStated buf n) (usedParts buf)
      (if n.name.length < maxNamLen then
        (usedParts buf).map fun i => mdpartNode n v i (partAt buf i)
      else []) ↔ geometryMeets buf n := by
  unfold geometryMeets
  by_cases hlen : n.name.length < maxNamLen
  · rw [if_pos hlen, List.forall₂_map_right_iff, List.forall₂_same]
    constructor
    · intro h
      exact ⟨fun _ => hlen, fun i hi => asStated_iff.mp (h i hi)⟩
    · intro h i hi
      exact asStated_iff.mpr (h.2 i hi)
  · -- no node is made, whatever the table has
    rw [if_neg hlen, List.forall₂_nil_right_iff]
    constructor
    · intro h
      rw [h]
      exact ⟨fun hne => absurd rfl hne, fun i hi => absurd hi (List.not_mem_nil)⟩
    · intro h
      exact Classical.not_not.mp fun hne => hlen (h.1 hne)

/-- The call that finds this first sector looks at its table. -/
theorem mdpartInit_table {read : DeviceRead} {add : Devfs → Nat → Exec (AddResult × Devfs)}
    {answer : Except Errno (BitVec 64 × ByteMem)}
    (hread : vfsReadNode read s.heap (v + 1) v 0 512 = .ok answer) :
    mdpartInit read add s v = mdpartTable add s v answer := by
  unfold mdpartInit
  rw [hread]
  rfl

/-- `mdpart_init` on a device with an accepted table, if it comes back. -/
theorem mdpartInit_nodes {read : DeviceRead} (hs : DevfsReach read s) {n : DevNode}
    (hn : s.heap[v]? = some n) {count : BitVec 64} {buf : ByteMem} {r : Int}
    (hread : vfsReadNode read s.heap (v + 1) v 0 512 = .ok (.ok (count, buf)))
    (haccept : mdpartAccepts count buf)
    (hcall : Returns (fun fuel => mdpartInit read (devfsAdd read fuel) s v) (r, s')) :
    r = 0 ∧ partsOf s s' v = if n.name.length < maxNamLen then
      (usedParts buf).map fun i => mdpartNode n v i (partAt buf i)
    else [] := by
  obtain ⟨hheap, hbound⟩ := devfsReach_ok hs
  obtain ⟨fuel, hcall⟩ := hcall
  have hret := hcall fuel (Nat.le_refl _)
  dsimp only at hret
  rw [mdpartInit_table hread, mdpartTable_accepted haccept] at hret
  obtain ⟨s₁, hloop, hret⟩ := bind_ok hret
  cases hret
  exact ⟨rfl, (mdpartParts_nodes (devfsAdd_only read fuel) buf hn hheap hbound hloop).2⟩

/-- It comes back from a device on which all reads come back. -/
theorem mdpartInit_returns {read : DeviceRead} (htotal : ∀ v o n, (read v o n).isSome)
    (hs : DevfsReach read s) {n : DevNode} (hn : s.heap[v]? = some n)
    (hflag : n.flags &&& vfsStorage ≠ 0) :
    ∃ t, Returns (fun fuel => mdpartInit read (devfsAdd read fuel) s v) t := by
  have hanswers : ∀ x : Site, x.Answers read := by
    intro x _
    unfold Site.read
    split
    · rfl
    · exact htotal _ _ _
  obtain ⟨hheap, hbound⟩ := devfsReach_ok hs
  obtain ⟨t, ht⟩ := mdpartInit_ends (devfsAdd_only read (maxNodes + 1)) (devfsAdd_ends read maxNodes)
    hheap hbound (Nat.le_add_left _ _) hn hflag (hanswers _) fun x _ => hanswers x
  exact ⟨t, maxNodes + 1, fun fuel hfuel => mdpartInit_le read (devfsAdd_le_of_le read hfuel) ht⟩

end Parts

/-- On a device with an accepted table, where `mdpart_init` comes back it returns 0, and the nodes it
has made are those that the table states just when the name of the device has room for one more
character and no first sector and no number of sectors reaches `2 ^ 23`. -/
theorem geometry_stated_iff {read : DeviceRead} {s : Devfs} (hs : DevfsReach read s) {v : Nat}
    {n : DevNode} (hn : s.heap[v]? = some n) {count : BitVec 64} {buf : ByteMem}
    (hread : vfsReadNode read s.heap (v + 1) v 0 512 = .ok (.ok (count, buf)))
    (haccept : mdpartAccepts count buf) {r : Int} {s' : Devfs}
    (hcall : Returns (fun fuel => mdpartInit read (devfsAdd read fuel) s v) (r, s')) :
    r = 0 ∧
      (List.Forall₂ (AsStated buf n) (usedParts buf) (partsOf s s' v) ↔ geometryMeets buf n) := by
  obtain ⟨hr, hparts⟩ := mdpartInit_nodes hs hn hread haccept hcall
  refine ⟨hr, ?_⟩
  rw [hparts]
  exact nodes_asStated_iff buf n

/-- A device that has this sector everywhere. -/
def sectorDevice (buf : ByteMem) : DeviceRead := fun _ _ _ => some (.ok (512, buf))

/-- `mdpart_init` on it. -/
theorem sectorDevice_returns (buf : ByteMem) :
    ∃ r s', Returns (fun fuel => mdpartInit (sectorDevice buf) (devfsAdd (sectorDevice buf) fuel)
      ataDisk 0) (r, s') := by
  obtain ⟨⟨r, s'⟩, hcall⟩ := mdpartInit_returns (fun _ _ _ => rfl) (ataDisk_reach (sectorDevice buf))
    (show ataDisk.heap[0]? = some ataInit from rfl) (by decide)
  exact ⟨r, s', hcall⟩

/-- A table with one partition, of one sector, in the second sector. -/
def nearTable : ByteMem := fun a =>
  if a = 510 then 0x55 else if a = 511 then 0xAA else if a = 450 then 0x83
  else if a = 454 then 1 else if a = 458 then 1 else 0

/-- Its node is as the table states. -/
theorem geometry_stated_near :
    ∃ s', Returns (fun fuel => mdpartInit (sectorDevice nearTable)
        (devfsAdd (sectorDevice nearTable) fuel) ataDisk 0) (0, s') ∧
      List.Forall₂ (AsStated nearTable ataInit) (usedParts nearTable) (partsOf ataDisk s' 0) := by
  obtain ⟨r, s', hcall⟩ := sectorDevice_returns nearTable
  obtain ⟨rfl, hiff⟩ := geometry_stated_iff (ataDisk_reach (sectorDevice nearTable))
    (show ataDisk.heap[0]? = some ataInit from rfl) rfl (by decide) hcall
  refine ⟨s', hcall, hiff.mpr ⟨fun _ => by decide, fun i hi => ?_⟩⟩
  have hused : usedParts nearTable = [0] := by decide
  rw [hused] at hi
  rw [List.mem_singleton.mp hi]
  decide

/-- A table with one partition, of one sector, 4 GiB behind the start of the disk. -/
def farTable : ByteMem := fun a =>
  if a = 510 then 0x55 else if a = 511 then 0xAA else if a = 450 then 0x83
  else if a = 456 then 0x80 else if a = 458 then 1 else 0

theorem farTable_accepted : mdpartAccepts 512 farTable := by
  refine ⟨by decide, by decide, fun i hi => ?_⟩
  have hi' : i < 4 := by
    have hall : ∀ j ∈ ([0, 1, 2, 3] : List Nat), j < 4 := by decide
    exact hall i hi
  show farTable (446 + 16 * i) &&& 1 = 0
  rw [farTable, if_neg (by omega), if_neg (by omega), if_neg (by omega), if_neg (by omega),
    if_neg (by omega)]
  rfl

/-- The node starts at byte 0. -/
theorem far_partition_wraps :
    mdpartAccepts 512 farTable ∧
      ∃ s', Returns (fun fuel => mdpartInit (sectorDevice farTable)
          (devfsAdd (sectorDevice farTable) fuel) ataDisk 0) (0, s') ∧
        ¬ List.Forall₂ (AsStated farTable ataInit) (usedParts farTable)
          (partsOf ataDisk s' 0) := by
  obtain ⟨r, s', hcall⟩ := sectorDevice_returns farTable
  obtain ⟨rfl, hparts⟩ := mdpartInit_nodes (ataDisk_reach (sectorDevice farTable))
    (show ataDisk.heap[0]? = some ataInit from rfl) rfl farTable_accepted hcall
  refine ⟨farTable_accepted, s', hcall, fun h => ?_⟩
  rw [hparts] at h
  have hmeets := (nodes_asStated_iff farTable ataInit).mp h
  have hused : (0 : Nat) ∈ usedParts farTable := by decide
  exact absurd (hmeets.2 0 hused).1 (by decide)

/-! ## Which sectors are tables -/

/-- `MDPART_ACTIVE`. -/
def mdpartActive : BitVec 8 := 0x80

/-- The sector is a partition table: it has the magic, and no entry has a bit other than
`MDPART_ACTIVE` in its active byte. -/
def IsTable (buf : ByteMem) : Prop :=
  word buf 510 = 0xAA55 ∧ ∀ i ∈ [0, 1, 2, 3], (partAt buf i).active &&& ~~~mdpartActive = 0

/-- The magic is wrong, an active byte is odd, or no active byte has a bit that it must not
have. -/
def acceptMeets (buf : ByteMem) : Prop :=
  word buf 510 = 0xAA55 → (∀ i ∈ [0, 1, 2, 3], (partAt buf i).active &&& 1 = 0) →
    ∀ i ∈ [0, 1, 2, 3], (partAt buf i).active = 0 ∨ (partAt buf i).active = mdpartActive

/-- What a call of `mdpart_init` on a sector is to come to. -/
structure TableChecked (buf : ByteMem) (s : Devfs) (r : Int) (s' : Devfs) : Prop where
  accepted : IsTable buf → r = 0
  refused : ¬ IsTable buf → r ≠ 0 ∧ s' = s

/-- Just two bytes have no bit other than `MDPART_ACTIVE`. -/
theorem active_bits (b : BitVec 8) : b &&& ~~~mdpartActive = 0 ↔ b = 0 ∨ b = mdpartActive := by
  revert b
  decide

theorem isTable_iff (buf : ByteMem) :
    IsTable buf ↔ word buf 510 = 0xAA55 ∧
      ∀ i ∈ [0, 1, 2, 3], (partAt buf i).active = 0 ∨ (partAt buf i).active = mdpartActive := by
  simp only [IsTable, active_bits]

section Accept

variable {read : DeviceRead} {s : Devfs} {v : Nat} {count : BitVec 64} {buf : ByteMem}

/-- A table passes both tests. -/
theorem isTable_accepts (hcount : ¬ (count.setWidth 32).slt 512) (h : IsTable buf) :
    mdpartAccepts count buf := by
  obtain ⟨hmagic, hactive⟩ := (isTable_iff buf).mp h
  refine ⟨hcount, hmagic, fun i hi => ?_⟩
  rcases hactive i hi with h0 | h0
  · rw [h0]
    rfl
  · rw [h0]
    rfl

/-- The call, whatever the sector has in it, if it comes back. -/
theorem mdpartInit_checked (hs : DevfsReach read s) (hv : v < s.heap.length)
    (hread : vfsReadNode read s.heap (v + 1) v 0 512 = .ok (.ok (count, buf))) {r : Int} {s' : Devfs}
    (hcall : Returns (fun fuel => mdpartInit read (devfsAdd read fuel) s v) (r, s')) :
    (mdpartAccepts count buf → r = 0) ∧ (¬ mdpartAccepts count buf → r ≠ 0 ∧ s' = s) := by
  constructor
  · exact fun haccept => (mdpartInit_nodes hs (List.getElem?_eq_getElem hv) hread haccept hcall).1
  · intro hnot
    obtain ⟨r', hr, hret⟩ := @mdpartTable_refused v s count buf hnot
    obtain ⟨fuel, hcall⟩ := hcall
    have hsame := hcall fuel (Nat.le_refl _)
    dsimp only at hsame
    rw [mdpartInit_table hread, hret] at hsame
    cases hsame
    exact ⟨hr, rfl⟩

/-- Both tests together are the right one just when the sector meets the condition. -/
theorem accepts_iff_isTable (hcount : ¬ (count.setWidth 32).slt 512) :
    (mdpartAccepts count buf → IsTable buf) ↔ acceptMeets buf := by
  rw [isTable_iff]
  constructor
  · intro h hmagic hactive
    exact (h ⟨hcount, hmagic, hactive⟩).2
  · intro h haccept
    exact ⟨haccept.2.1, h haccept.2.1 haccept.2.2⟩

end Accept

/-- A sector was read. Where `mdpart_init` comes back, a table is accepted with 0, and a sector that is
no table is refused with another value and nothing added, just when the magic is wrong, an active
byte is odd, or no active byte has a bit that it must not have. -/
theorem table_accepted_iff {read : DeviceRead} {s : Devfs} (hs : DevfsReach read s) {v : Nat}
    (hv : v < s.heap.length) {count : BitVec 64} {buf : ByteMem}
    (hread : vfsReadNode read s.heap (v + 1) v 0 512 = .ok (.ok (count, buf)))
    (hcount : ¬ (count.setWidth 32).slt 512) {r : Int} {s' : Devfs}
    (hcall : Returns (fun fuel => mdpartInit read (devfsAdd read fuel) s v) (r, s')) :
    TableChecked buf s r s' ↔ acceptMeets buf := by
  obtain ⟨hyes, hno⟩ := mdpartInit_checked hs hv hread hcall
  rw [← accepts_iff_isTable hcount]
  constructor
  · intro h haccept
    by_contra hnot
    exact (h.refused hnot).1 (hyes haccept)
  · intro h
    exact ⟨fun ht => hyes (isTable_accepts hcount ht), fun ht => hno fun haccept => ht (h haccept)⟩

/-- A table is accepted. -/
theorem table_accepted_near :
    ∃ r s', Returns (fun fuel => mdpartInit (sectorDevice nearTable)
        (devfsAdd (sectorDevice nearTable) fuel) ataDisk 0) (r, s') ∧
      TableChecked nearTable ataDisk r s' := by
  obtain ⟨r, s', hcall⟩ := sectorDevice_returns nearTable
  refine ⟨r, s', hcall, (table_accepted_iff (ataDisk_reach (sectorDevice nearTable))
    (show 0 < ataDisk.heap.length by decide) rfl (by decide) hcall).mpr fun _ _ => ?_⟩
  decide

/-- A boot sector with the magic and a byte 2 where the first entry would have its active byte. -/
def bootSector : ByteMem := fun a =>
  if a = 510 then 0x55 else if a = 511 then 0xAA else if a = 446 then 2
  else if a = 450 then 0x83 else 0

/-- It is taken for a table. -/
theorem boot_sector_accepted :
    ∃ r s', Returns (fun fuel => mdpartInit (sectorDevice bootSector)
        (devfsAdd (sectorDevice bootSector) fuel) ataDisk 0) (r, s') ∧
      ¬ TableChecked bootSector ataDisk r s' := by
  obtain ⟨r, s', hcall⟩ := sectorDevice_returns bootSector
  have hread : vfsReadNode (sectorDevice bootSector) ataDisk.heap (0 + 1) 0 0 512 =
      .ok (.ok (512, bootSector)) := rfl
  obtain ⟨hyes, -⟩ := mdpartInit_checked (ataDisk_reach (sectorDevice bootSector)) (by decide) hread
    hcall
  refine ⟨r, s', hcall, fun h => ?_⟩
  have hnot : ¬ IsTable bootSector := fun ht => absurd (ht.2 0 (by decide)) (by decide)
  exact (h.refused hnot).1 (hyes (by decide))

end OS64.Fs
