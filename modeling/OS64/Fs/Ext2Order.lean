import OS64.Fs.Ext2File
import OS64.Lib.Logged

/-!
# The order of the blocks

Which blocks `ext2_read_inode_data_ex` asks for, and in which order. Its functions are
written here once more with a log of the pointers they use and of the data blocks they hand
to `ext2_read_block_data`; without the log they are the functions of the driver
(`readInodeDataExLog_forget`).

The three regions share one account. `Left` is what they hand on: how much of the request
lies behind a byte of the file, and where in the next region it goes on. A region logs the
blocks between two such bytes (`readRegionLog_spec`), and the logs join because every region
begins at a block and the request does too. The search for the first table behind the double
indirect pointer compares with `>`, so a request that begins with a table starts at the end
of the table before it, of which it reads nothing.
-/

namespace OS64.Fs

open OS64.Lib (ByteMem Logged)
open OS64.Lib.Logged

/-- What a read does on its way. -/
inductive ReadEvent
  /-- Entry `i` of a table with `count` entries is used. -/
  | pointer (i : BitVec 32) (count : Nat)
  /-- `ext2_read_block_data` is called for a data block. -/
  | block (b : BitVec 32)

/-- The data block that an event asks for. -/
def ReadEvent.request : ReadEvent → Option (BitVec 32)
  | .pointer _ _ => none
  | .block b => some b

/-- The pointer that an event uses is inside its table. -/
def ReadEvent.Inside : ReadEvent → Prop
  | .pointer i count => i.toNat < count
  | .block _ => True

/-- The data blocks that a run asks for. -/
def requests (l : List ReadEvent) : List (BitVec 32) := l.filterMap ReadEvent.request

@[simp] theorem requests_nil : requests [] = [] := rfl

@[simp] theorem requests_append (l l' : List ReadEvent) :
    requests (l ++ l') = requests l ++ requests l' := List.filterMap_append

/-- A call of the driver with its log. -/
abbrev ReadLog := Logged Stop ReadEvent

/-! ## The functions with their log -/

/-- `chain[i]`. -/
def Chain.lookup (chain : Chain) (i : BitVec 32) : ReadLog (BitVec 32) := do
  log (.pointer i chain.count)
  lift (chain.entry i)

/-- The `for` of `ext2_read_block_chain`. -/
def blockChainLoopLog (node : Ext2Node) (chain : Chain) :
    Nat → BitVec 32 → BitVec 64 → BitVec 64 → ByteMem → BitVec 64 → ReadLog ByteMem
  | 0, _, _, _, _, _ => lift (.error .running)
  | fuel + 1, i, offset, size, data, ptr =>
    if size = 0 then pure data
    else do
      let block ← chain.lookup i
      if block = 0 then pure data
      else
        let n : BitVec 32 :=
          if blkszLong node.reserved < size then blksz node.reserved else size.setWidth 32
        log (.block block)
        let data := vfsRead node.ptr (blockRequest node.reserved block offset (n.signExtend 64))
          data ptr.toNat
        blockChainLoopLog node chain fuel (i + 1) 0 (size - n.signExtend 64) data
          (ptr + n.signExtend 64)

/-- `ext2_read_block_chain`. -/
def readBlockChainLog (fuel : Nat) (node : Ext2Node) (chain : Chain) (offset size : BitVec 64)
    (data : ByteMem) (ptr : BitVec 64) : ReadLog ByteMem :=
  if blkszLong node.reserved = 0 then lift (.error .divideError)
  else
    blockChainLoopLog node chain fuel ((offset / blkszLong node.reserved).setWidth 32)
      (offset % blkszLong node.reserved) size data ptr

/-- The part of the request that lies in a region. -/
def readRegionLog (fuel : Nat) (node : Ext2Node) (chain : Chain) (bytes : BitVec 64)
    (s : ReadState) : ReadLog ReadState := do
  let sz := clipInt bytes s.offset s.size
  let data ← readBlockChainLog fuel node chain s.offset (sz.signExtend 64) s.data s.ptr
  pure ⟨0, s.size - sz.signExtend 64, data, s.ptr + sz.signExtend 64⟩

/-- The direct pointers. -/
def readDirectLog (fuel : Nat) (node : Ext2Node) (i : ByteMem) (s : ReadState) :
    ReadLog ReadState :=
  if s.offset < dbpLong node.reserved then
    readRegionLog fuel node ⟨i, 40, 12⟩ (dbpLong node.reserved) s
  else pure { s with offset := s.offset - dbpLong node.reserved }

/-- The single indirect pointer. -/
def readSingleLog (fuel : Nat) (fresh : Fresh) (node : Ext2Node) (i : ByteMem) (s : ReadState) :
    ReadLog ReadState :=
  if s.size ≠ 0 ∧ s.offset < sibpLong node.reserved then
    readRegionLog fuel node (readTable node (sIndirect i) (fresh 3)) (sibpLong node.reserved) s
  else pure { s with offset := s.offset - sibpLong node.reserved }

/-- The `while` over the tables behind the double indirect pointer. -/
def doubleLoopLog (chainFuel : Nat) (node : Ext2Node) (dibp : Chain) :
    Nat → BitVec 32 → BitVec 32 → ByteMem → ReadState → ReadLog ReadState
  | 0, _, _, _, _ => lift (.error .running)
  | fuel + 1, sz, i, sibp, s =>
    if (0 : BitVec 32).slt sz then do
      let sz2 := clipInt (sibpLong node.reserved) s.offset (sz.signExtend 64)
      let block ← dibp.lookup i
      let table := readTable node block sibp
      let data ← readBlockChainLog chainFuel node table s.offset (sz2.signExtend 64) s.data s.ptr
      doubleLoopLog chainFuel node dibp fuel (sz - sz2) (i + 1) table.mem
        ⟨0, s.size - sz2.signExtend 64, data, s.ptr + sz2.signExtend 64⟩
    else pure s

/-- The double indirect pointer. -/
def readDoubleLog (fuel : Nat) (fresh : Fresh) (node : Ext2Node) (i : ByteMem) (s : ReadState) :
    ReadLog ReadState :=
  if s.size ≠ 0 ∧ s.offset < dibpLong node.reserved then do
    let dibp := readTable node (dIndirect i) (fresh 5)
    let (k, offset) ← lift (seekSibp node.reserved fuel 0 s.offset)
    let left := bytesInDibp node.reserved - k * bytesInSibp node.reserved
    let sz := clipInt (left.signExtend 64) offset s.size
    doubleLoopLog fuel node dibp fuel sz k (fresh 4) { s with offset := offset }
  else pure { s with offset := s.offset - dibpLong node.reserved }

/-- `ext2_read_inode_data_ex`. -/
def readInodeDataExLog (fuel : Nat) (fresh : Fresh) (node : Ext2Node) (i : ByteMem)
    (offset size : BitVec 64) : ReadLog ByteMem := do
  let s ← readDirectLog fuel node i ⟨offset, size, fresh 2, 0⟩
  let s ← readSingleLog fuel fresh node i s
  let s ← readDoubleLog fuel fresh node i s
  pure s.data

/-! ## Without the log -/

section Forget

variable {node : Ext2Node}

@[simp] theorem lookup_forget (chain : Chain) (i : BitVec 32) :
    (chain.lookup i).forget = chain.entry i := by
  unfold Chain.lookup
  rw [forget_bind, forget_lift]
  rfl

theorem blockChainLoopLog_forget (chain : Chain) (fuel : Nat) :
    ∀ (i : BitVec 32) (offset size : BitVec 64) (data : ByteMem) (ptr : BitVec 64),
      (blockChainLoopLog node chain fuel i offset size data ptr).forget =
        blockChainLoop node chain fuel i offset size data ptr := by
  induction fuel with
  | zero =>
    intro i offset size data ptr
    rfl
  | succ fuel ih =>
    intro i offset size data ptr
    rw [blockChainLoopLog, blockChainLoop]
    by_cases h0 : size = 0
    · rw [if_pos h0, if_pos h0]
      rfl
    rw [if_neg h0, if_neg h0, forget_bind, lookup_forget]
    refine congrArg _ (funext fun block => ?_)
    by_cases hnull : block = 0
    · rw [if_pos hnull, if_pos hnull]
      rfl
    · rw [if_neg hnull, if_neg hnull, forget_bind]
      exact ih _ _ _ _ _

@[simp] theorem readBlockChainLog_forget (fuel : Nat) (chain : Chain) (offset size : BitVec 64)
    (data : ByteMem) (ptr : BitVec 64) :
    (readBlockChainLog fuel node chain offset size data ptr).forget =
      ext2ReadBlockChain fuel node chain offset size data ptr := by
  unfold readBlockChainLog ext2ReadBlockChain
  by_cases h0 : blkszLong node.reserved = 0
  · rw [if_pos h0, if_pos h0]
    rfl
  · rw [if_neg h0, if_neg h0]
    exact blockChainLoopLog_forget chain fuel _ _ _ _ _

theorem readRegionLog_forget (fuel : Nat) (chain : Chain) (bytes : BitVec 64) (s : ReadState) :
    (readRegionLog fuel node chain bytes s).forget = readRegion fuel node chain bytes s := by
  unfold readRegionLog readRegion
  dsimp only
  rw [forget_bind, readBlockChainLog_forget]
  rfl

theorem readDirectLog_forget (fuel : Nat) (i : ByteMem) (s : ReadState) :
    (readDirectLog fuel node i s).forget = readDirect fuel node i s := by
  unfold readDirectLog readDirect
  by_cases hin : s.offset < dbpLong node.reserved
  · rw [if_pos hin, if_pos hin, readRegionLog_forget]
  · rw [if_neg hin, if_neg hin]
    rfl

theorem readSingleLog_forget (fuel : Nat) (fresh : Fresh) (i : ByteMem) (s : ReadState) :
    (readSingleLog fuel fresh node i s).forget = readSingle fuel fresh node i s := by
  unfold readSingleLog readSingle
  by_cases hin : s.size ≠ 0 ∧ s.offset < sibpLong node.reserved
  · rw [if_pos hin, if_pos hin, readRegionLog_forget]
  · rw [if_neg hin, if_neg hin]
    rfl

theorem doubleLoopLog_forget (chainFuel : Nat) (dibp : Chain) (fuel : Nat) :
    ∀ (sz q : BitVec 32) (sibp : ByteMem) (s : ReadState),
      (doubleLoopLog chainFuel node dibp fuel sz q sibp s).forget =
        doubleLoop chainFuel node dibp fuel sz q sibp s := by
  induction fuel with
  | zero =>
    intro sz q sibp s
    rfl
  | succ fuel ih =>
    intro sz q sibp s
    rw [doubleLoopLog, doubleLoop]
    by_cases hmore : (0 : BitVec 32).slt sz = true
    · rw [if_pos hmore, if_pos hmore, forget_bind, lookup_forget]
      refine congrArg _ (funext fun block => ?_)
      rw [forget_bind, readBlockChainLog_forget]
      exact congrArg _ (funext fun data => ih _ _ _ _)
    · rw [if_neg hmore, if_neg hmore]
      rfl

theorem readDoubleLog_forget (fuel : Nat) (fresh : Fresh) (i : ByteMem) (s : ReadState) :
    (readDoubleLog fuel fresh node i s).forget = readDouble fuel fresh node i s := by
  unfold readDoubleLog readDouble
  by_cases hin : s.size ≠ 0 ∧ s.offset < dibpLong node.reserved
  · rw [if_pos hin, if_pos hin]
    dsimp only
    rw [forget_bind, forget_lift]
    exact congrArg _ (funext fun p => doubleLoopLog_forget fuel _ fuel _ _ _ _)
  · rw [if_neg hin, if_neg hin]
    rfl

/-- The log aside, this is what the driver computes. -/
theorem readInodeDataExLog_forget (fuel : Nat) (fresh : Fresh) (i : ByteMem)
    (offset size : BitVec 64) :
    (readInodeDataExLog fuel fresh node i offset size).forget =
      ext2ReadInodeDataEx fuel fresh node i offset size := by
  unfold readInodeDataExLog ext2ReadInodeDataEx
  rw [forget_bind, readDirectLog_forget]
  refine congrArg _ (funext fun s₁ => ?_)
  rw [forget_bind, readSingleLog_forget]
  refine congrArg _ (funext fun s₂ => ?_)
  rw [forget_bind, readDoubleLog_forget]
  rfl

end Forget

/-! ## Pointers -/

section Inside

variable {node : Ext2Node}

/-- A pointer that was read is one of the table. -/
theorem lookup_returns {chain : Chain} {i block : BitVec 32} {l : List ReadEvent}
    (h : (chain.lookup i).Returns block l) :
    i.toNat < chain.count ∧ block = chain.blocks i.toNat 0 ∧ l = [.pointer i chain.count] := by
  obtain ⟨u, l₁, l₂, h₁, h₂, rfl⟩ := returns_bind h
  obtain ⟨hentry, rfl⟩ := returns_lift h₂
  rw [returns_log h₁]
  by_cases hi : i.toNat < chain.count
  · rw [entry_eq hi] at hentry
    cases hentry
    exact ⟨hi, rfl, rfl⟩
  · rw [Chain.entry, if_neg hi] at hentry
    cases hentry

theorem lookup_inside (chain : Chain) (i : BitVec 32) :
    Every ReadEvent.Inside (chain.lookup i) := by
  intro block l h e he
  obtain ⟨hi, -, rfl⟩ := lookup_returns h
  rw [List.mem_singleton.mp he]
  exact hi

theorem blockChainLoopLog_inside (chain : Chain) (fuel : Nat) :
    ∀ (i : BitVec 32) (offset size : BitVec 64) (data : ByteMem) (ptr : BitVec 64),
      Every ReadEvent.Inside (blockChainLoopLog node chain fuel i offset size data ptr) := by
  induction fuel with
  | zero =>
    intro i offset size data ptr
    exact every_lift _
  | succ fuel ih =>
    intro i offset size data ptr
    rw [blockChainLoopLog]
    refine every_ite (every_pure _) (every_bind (lookup_inside chain i) fun block => ?_)
    refine every_ite (every_pure _) (every_bind (every_log ?_) fun _ => ih _ _ _ _ _)
    exact trivial

theorem readBlockChainLog_inside (fuel : Nat) (chain : Chain) (offset size : BitVec 64)
    (data : ByteMem) (ptr : BitVec 64) :
    Every ReadEvent.Inside (readBlockChainLog fuel node chain offset size data ptr) :=
  every_ite (every_lift _) (blockChainLoopLog_inside chain fuel _ _ _ _ _)

theorem readRegionLog_inside (fuel : Nat) (chain : Chain) (bytes : BitVec 64) (s : ReadState) :
    Every ReadEvent.Inside (readRegionLog fuel node chain bytes s) :=
  every_bind (readBlockChainLog_inside fuel chain _ _ _ _) fun _ => every_pure _

theorem doubleLoopLog_inside (chainFuel : Nat) (dibp : Chain) (fuel : Nat) :
    ∀ (sz q : BitVec 32) (sibp : ByteMem) (s : ReadState),
      Every ReadEvent.Inside (doubleLoopLog chainFuel node dibp fuel sz q sibp s) := by
  induction fuel with
  | zero =>
    intro sz q sibp s
    exact every_lift _
  | succ fuel ih =>
    intro sz q sibp s
    rw [doubleLoopLog]
    refine every_ite (every_bind (lookup_inside dibp q) fun block => ?_) (every_pure _)
    exact every_bind (readBlockChainLog_inside chainFuel _ _ _ _ _) fun data => ih _ _ _ _

theorem readInodeDataExLog_inside (fuel : Nat) (fresh : Fresh) (i : ByteMem)
    (offset size : BitVec 64) :
    Every ReadEvent.Inside (readInodeDataExLog fuel fresh node i offset size) := by
  refine every_bind (every_ite (readRegionLog_inside fuel _ _ _) (every_pure _)) fun s₁ => ?_
  refine every_bind (every_ite (readRegionLog_inside fuel _ _ _) (every_pure _)) fun s₂ => ?_
  refine every_bind (every_ite ?_ (every_pure _)) fun s₃ => every_pure _
  exact every_bind (every_lift _) fun p => doubleLoopLog_inside fuel _ fuel _ _ _ _

end Inside

/-! ## The blocks of a number of bytes -/

/-- How many blocks the next `m` bytes are in, from the beginning of one on. -/
def blockCount (super : Ext2Superblock) (m : Nat) : Nat :=
  (m + (blockBytes super - 1)) / blockBytes super

section Count

variable {super : Ext2Superblock} {m : Nat}

theorem blockCount_zero : blockCount super 0 = 0 := by
  have hpos := blockBytes_pos super
  rw [blockCount, Nat.zero_add]
  exact Nat.div_eq_of_lt (by omega)

/-- The first block, and those of what is left behind it. -/
theorem blockCount_pos (h : 0 < m) :
    blockCount super m = blockCount super (m - min m (blockBytes super)) + 1 := by
  have hpos := blockBytes_pos super
  unfold blockCount
  by_cases hle : m ≤ blockBytes super
  · have hone : (m + (blockBytes super - 1)) / blockBytes super = 1 :=
      Nat.div_eq_of_lt_le (by omega) (by omega)
    have hnone : (blockBytes super - 1) / blockBytes super = 0 := Nat.div_eq_of_lt (by omega)
    rw [Nat.min_eq_left hle, Nat.sub_self, Nat.zero_add, hone, hnone]
  · have hsplit : m + (blockBytes super - 1) =
        m - blockBytes super + (blockBytes super - 1) + blockBytes super := by omega
    rw [Nat.min_eq_right (by omega), hsplit, Nat.add_div_right _ hpos]

/-- Whole blocks before the bytes. -/
theorem blockCount_add {w : Nat} (hw : blockBytes super ∣ w) (m : Nat) :
    blockCount super (w + m) = w / blockBytes super + blockCount super m := by
  have hpos := blockBytes_pos super
  obtain ⟨k, rfl⟩ := hw
  unfold blockCount
  rw [Nat.add_assoc, Nat.mul_add_div hpos, Nat.mul_div_cancel_left _ hpos]

/-- Whole blocks. -/
theorem blockCount_mul (k : Nat) : blockCount super (blockBytes super * k) = k := by
  have hcount := blockCount_add (Nat.dvd_mul_right (blockBytes super) k) 0
  rw [blockCount_zero, Nat.add_zero, Nat.add_zero,
    Nat.mul_div_cancel_left _ (blockBytes_pos super)] at hcount
  exact hcount

theorem blockCount_mono {k : Nat} (h : m ≤ k) : blockCount super m ≤ blockCount super k :=
  Nat.div_le_div_right (Nat.add_le_add_right h _)

/-- The bytes from `o` on are in the blocks from that of the first to that of the last. -/
theorem blockCount_range {o : Nat} (ho : blockBytes super ∣ o) (h : 0 < m) :
    (o + m - 1) / blockBytes super + 1 - o / blockBytes super = blockCount super m := by
  have hpos := blockBytes_pos super
  obtain ⟨k, rfl⟩ := ho
  have hlast : m + (blockBytes super - 1) = m - 1 + blockBytes super := by omega
  rw [Nat.add_sub_assoc (show 1 ≤ m from h), Nat.mul_add_div hpos, Nat.mul_div_cancel_left _ hpos,
    blockCount, hlast, Nat.add_div_right _ hpos, Nat.add_assoc, Nat.add_sub_cancel_left]

end Count

/-! ## One table -/

section Chains

variable {node : Ext2Node} {chain : Chain}

/-- The loop asks for as many blocks of the table as the size needs. -/
theorem blockChainLoopLog_requests (hB : blockBytes node.reserved < 2 ^ 31)
    (hcount : chain.count ≤ 2 ^ 31) (fuel : Nat) :
    ∀ (i : BitVec 32) (offset size : BitVec 64) (data : ByteMem) (ptr : BitVec 64)
      {data' : ByteMem} {l : List ReadEvent},
      (blockChainLoopLog node chain fuel i offset size data ptr).Returns data' l →
      (∀ j, j < blockCount node.reserved size.toNat → chain.blocks i.toNat j ≠ 0) →
      requests l =
        (List.range (blockCount node.reserved size.toNat)).map (chain.blocks i.toNat) := by
  induction fuel with
  | zero =>
    intro i offset size data ptr data' l h
    cases h
  | succ fuel ih =>
    intro i offset size data ptr data' l h hne
    rw [blockChainLoopLog] at h
    by_cases h0 : size = 0
    · rw [if_pos h0] at h
      rw [(returns_pure h).2, h0, show (0 : BitVec 64).toNat = 0 from rfl, blockCount_zero]
      rfl
    rw [if_neg h0] at h
    have hsize : 0 < size.toNat :=
      Nat.pos_of_ne_zero fun hz => h0 (BitVec.eq_of_toNat_eq (by rw [hz]; rfl))
    have hround := roundSize_toNat hB size
    rw [blockCount_pos hsize] at hne ⊢
    -- one round: the pointer, its block, and the rest of the table
    obtain ⟨block, l₁, l', hlookup, hbody, rfl⟩ := returns_bind h
    obtain ⟨hi, rfl, rfl⟩ := lookup_returns hlookup
    rw [if_neg (hne 0 (Nat.succ_pos _))] at hbody
    obtain ⟨u, l₂, l₃, hlog, hloop, rfl⟩ := returns_bind hbody
    generalize hn : (if blkszLong node.reserved < size then blksz node.reserved
      else size.setWidth 32).signExtend 64 = n at hround hloop
    have hsub : (size - n).toNat = size.toNat - min size.toNat (blockBytes node.reserved) := by
      rw [BitVec.toNat_sub_of_le (BitVec.le_def.mpr (by omega)), hround]
    have hnext : (i + 1).toNat = i.toNat + 1 := by
      rw [BitVec.toNat_add]
      exact Nat.mod_eq_of_lt (show i.toNat + 1 < 2 ^ 32 by omega)
    have hstep : ∀ j, chain.blocks (i + 1).toNat j = chain.blocks i.toNat (j + 1) := by
      intro j
      unfold Chain.blocks
      rw [hnext, Nat.add_assoc, Nat.add_comm 1 j]
    rw [← hsub] at hne ⊢
    have hrest := ih (i + 1) 0 (size - n) _ (ptr + n) hloop fun j hj => by
      rw [hstep]
      exact hne (j + 1) (by omega)
    rw [requests_append, requests_append, returns_log hlog, hrest, List.range_succ_eq_map,
      List.map_cons, List.map_map]
    exact congrArg (List.cons _) (List.map_congr_left fun j _ => hstep j)

/-- The blocks that one call asks for. -/
theorem readBlockChainLog_requests (hB : blockBytes node.reserved < 2 ^ 31)
    (hcount : chain.count * blockBytes node.reserved < 2 ^ 31) {fuel : Nat}
    {offset size : BitVec 64} (hoff : offset.toNat < 2 ^ 31) {data data' : ByteMem}
    {ptr : BitVec 64} {l : List ReadEvent}
    (h : (readBlockChainLog fuel node chain offset size data ptr).Returns data' l)
    (hne : ∀ j, j < blockCount node.reserved size.toNat →
      chain.blocks (offset.toNat / blockBytes node.reserved) j ≠ 0) :
    requests l = (List.range (blockCount node.reserved size.toNat)).map
      (chain.blocks (offset.toNat / blockBytes node.reserved)) := by
  have hcount' : chain.count ≤ chain.count * blockBytes node.reserved :=
    Nat.le_mul_of_pos_right _ (blockBytes_pos _)
  have hdivle := Nat.div_le_self offset.toNat (blockBytes node.reserved)
  have hdiv : ((offset / blkszLong node.reserved).setWidth 32).toNat =
      offset.toNat / blockBytes node.reserved := by
    rw [BitVec.toNat_setWidth, BitVec.toNat_udiv, blkszLong_toNat hB]
    exact Nat.mod_eq_of_lt (by omega)
  unfold readBlockChainLog at h
  by_cases h0 : blkszLong node.reserved = 0
  · rw [if_pos h0] at h
    cases h
  · rw [if_neg h0] at h
    rw [← hdiv] at hne ⊢
    exact blockChainLoopLog_requests hB (by omega) fuel _ _ _ _ _ h hne

end Chains

/-! ## From region to region -/

/-- The blocks with the first `m` bytes of a request from byte `o` of a file on. -/
def firstBlocks (node : Ext2Node) (i : ByteMem) (o m : Nat) : List (BitVec 32) :=
  (List.range (blockCount node.reserved m)).map fun j =>
    fileBlock (blockPos node.reserved) node i (o / blockBytes node.reserved + j)

/-- None of the blocks with the `n` bytes of a request is a hole. -/
def NoHole (node : Ext2Node) (i : ByteMem) (o n : Nat) : Prop :=
  ∀ j, j < blockCount node.reserved n →
    fileBlock (blockPos node.reserved) node i (o / blockBytes node.reserved + j) ≠ 0

/-- A run that takes a request from byte `base` of the file to byte `next`, and asks for the
blocks between them. -/
def Advances (node : Ext2Node) (i : ByteMem) (o n base next : Nat) (x : ReadLog ReadState) : Prop :=
  ∀ s l, x.Returns s l → Left o n next s.offset s.size.toNat ∧
    firstBlocks node i o (min n (base - o)) ++ requests l =
      firstBlocks node i o (min n (next - o))

section Regions

variable {node : Ext2Node} {i : ByteMem} {chain : Chain} {base bytes o n : Nat}

/-- Entry `j` of a region's table, from where the request goes on in it. -/
theorem region_block (hr : Region node i chain base bytes) (ho : blockBytes node.reserved ∣ o)
    {sz j : Nat} (hreach : o - base + sz ≤ bytes) (hj : j < blockCount node.reserved sz) :
    chain.blocks ((o - base) / blockBytes node.reserved) j =
      fileBlock (blockPos node.reserved) node i (o / blockBytes node.reserved +
        (blockCount node.reserved (base - o) + j)) := by
  have hpos := blockBytes_pos node.reserved
  obtain ⟨a, rfl⟩ := ho
  obtain ⟨b, rfl⟩ := hr.whole
  rw [← Nat.mul_sub] at hreach
  rw [← Nat.mul_sub, ← Nat.mul_sub, Nat.mul_div_cancel_left _ hpos, Nat.mul_div_cancel_left _ hpos,
    blockCount_mul]
  have hcount : a - b + j < chain.count := by
    have hle := @blockCount_mono node.reserved _ _ (Nat.le_trans hreach hr.fits)
    rw [blockCount_add (Nat.dvd_mul_right _ _), Nat.mul_div_cancel_left _ hpos,
      Nat.mul_comm chain.count, blockCount_mul] at hle
    omega
  have hentry := hr.entries _ hcount
  rw [Nat.mul_div_cancel_left _ hpos] at hentry
  unfold Chain.blocks
  rw [hentry]
  exact congrArg _ (by omega)

/-- One call of `ext2_read_block_chain` asks for the blocks that come next. -/
theorem readBlockChainLog_blocks (hB : blockBytes node.reserved < 2 ^ 31)
    (hr : Region node i chain base bytes) (ho : blockBytes node.reserved ∣ o)
    (hne : NoHole node i o n) {fuel : Nat} {offset size : BitVec 64} {left : Nat}
    (hs : Left o n base offset left) (h0 : left ≠ 0) (hsize : size.toNat ≤ left)
    (hreach : o - base + size.toNat ≤ bytes)
    {data data' : ByteMem} {ptr : BitVec 64} {l : List ReadEvent}
    (h : (readBlockChainLog fuel node chain offset size data ptr).Returns data' l) :
    firstBlocks node i o (min n (base - o)) ++ requests l =
      firstBlocks node i o (min n (base - o) + size.toNat) := by
  have hrest := hs.rest
  have hoff := hs.start h0
  have hfits := hr.fits
  have hcount := hr.count
  have hdvd : blockBytes node.reserved ∣ base - o := (Nat.dvd_sub hr.whole ho)
  have hmin : min n (base - o) = base - o := by omega
  -- both ends of what was read before are at a block, so it was whole blocks
  have hwhole : blockCount node.reserved (base - o) = (base - o) / blockBytes node.reserved := by
    have hadd := blockCount_add hdvd 0
    rw [blockCount_zero] at hadd
    exact hadd
  have hjoin := blockCount_add hdvd size.toNat
  rw [← hwhole] at hjoin
  have hle := @blockCount_mono node.reserved _ n (show base - o + size.toNat ≤ n by omega)
  have hblock := fun j => @region_block node i chain base bytes o hr ho size.toNat j hreach
  have hreq := readBlockChainLog_requests hB hcount (by omega) h fun j hj => by
    rw [hoff, hblock j hj]
    exact hne _ (by omega)
  rw [hmin, hreq, hoff]
  unfold firstBlocks
  rw [hjoin, List.range_add, List.map_append, List.map_map]
  refine congrArg _ (List.map_congr_left fun j hj => ?_)
  exact hblock j (List.mem_range.mp hj)

/-- A region that is read. -/
theorem readRegionLog_advances (hB : blockBytes node.reserved < 2 ^ 31)
    (hr : Region node i chain base bytes) (ho : blockBytes node.reserved ∣ o) (hn : n < 2 ^ 31)
    (hne : NoHole node i o n) {fuel : Nat} {long : BitVec 64} (hlong : long.toNat = bytes)
    {s : ReadState} (hs : Left o n base s.offset s.size.toNat)
    (hin : s.size ≠ 0 ∧ s.offset < long) :
    Advances node i o n base (base + bytes) (readRegionLog fuel node chain long s) := by
  intro s' l h
  have hbytes := Nat.lt_of_le_of_lt hr.fits hr.count
  have h0 : s.size.toNat ≠ 0 := fun hz => hin.1 (BitVec.eq_of_toNat_eq hz)
  have hlt : s.offset.toNat < long.toNat := hin.2
  have hrest := hs.rest
  have hoff := hs.start h0
  have hclip := clipInt_long_toNat (show long.toNat < 2 ^ 31 by omega) (Nat.le_of_lt hlt)
    (show s.offset.toNat + s.size.toNat < 2 ^ 64 by omega)
  unfold readRegionLog at h
  dsimp only at h
  generalize (clipInt long s.offset s.size).signExtend 64 = sz at hclip h
  obtain ⟨data', l₁, l₂, hread, hpure, rfl⟩ := returns_bind h
  obtain ⟨rfl, rfl⟩ := returns_pure hpure
  have hsize : (s.size - sz).toNat = s.size.toNat - min s.size.toNat (bytes - s.offset.toNat) := by
    rw [BitVec.toNat_sub_of_le (BitVec.le_def.mpr (by omega)), hclip, hlong]
  have hreach : o - base ≤ bytes := by omega
  have hblocks := readBlockChainLog_blocks hB hr ho hne hs h0 (by omega) (by omega) hread
  refine ⟨?_, ?_⟩
  · dsimp only
    rw [hsize]
    exact left_next hs hoff hreach
  · rw [List.append_nil, hblocks, hclip, hlong, left_bytes hs hoff hreach]

/-- A region that is passed over. -/
theorem skip_advances {long : BitVec 64} (hlong : long.toNat = bytes) {s : ReadState}
    (hs : Left o n base s.offset s.size.toNat) (hskip : ¬ (s.size ≠ 0 ∧ s.offset < long)) :
    Advances node i o n base (base + bytes) (pure { s with offset := s.offset - long }) := by
  intro s' l h
  obtain ⟨rfl, rfl⟩ := returns_pure h
  have hnext : Left o n (base + bytes) (s.offset - long) s.size.toNat := by
    refine left_skip hlong hs ?_
    by_cases h0 : s.size = 0
    · rw [h0]
      exact Or.inl rfl
    · exact Or.inr (BitVec.not_lt.mp fun hlt => hskip ⟨h0, hlt⟩)
  have hrest := hs.rest
  have hrest' := hnext.rest
  refine ⟨hnext, ?_⟩
  rw [requests_nil, List.append_nil]
  exact congrArg _ (by omega)

/-- The loop over the tables, in what the double indirect pointer covers. -/
theorem doubleLoopLog_spec (hz : RegionSizes node.reserved) (hS : singleBytes node.reserved ≠ 0)
    (ho : blockBytes node.reserved ∣ o) (hn : n < 2 ^ 31) (hne : NoHole node i o n)
    {chainFuel : Nat} (buffer : ByteMem) (fuel : Nat) :
    ∀ (sz q : BitVec 32) (sibp : ByteMem) (s : ReadState) {s' : ReadState} {l : List ReadEvent},
      Left o n (12 * blockBytes node.reserved + (q.toNat + 1) * singleBytes node.reserved)
        s.offset sz.toNat →
      o - (12 * blockBytes node.reserved + (q.toNat + 1) * singleBytes node.reserved) ≤
        singleBytes node.reserved →
      (doubleLoopLog chainFuel node (readTable node (dIndirect i) buffer) fuel sz q sibp s).Returns
        s' l →
      firstBlocks node i o (min n (12 * blockBytes node.reserved +
        (q.toNat + 1) * singleBytes node.reserved - o)) ++ requests l = firstBlocks node i o n := by
  have hbytes := hz.bytes
  have hblock := hz.block
  have hlt := hz.single
  have hsibp := hz.sibpLong_toNat
  induction fuel with
  | zero =>
    intro sz q sibp s s' l _ _ h
    cases h
  | succ fuel ih =>
    intro sz q sibp s s' l hs hin h
    have hrest := hs.rest
    rw [doubleLoopLog] at h
    by_cases hmore : (0 : BitVec 32).slt sz = true
    · rw [if_pos hmore] at h
      have hpos : sz.toNat ≠ 0 := by
        intro hz0
        rw [slt_iff (by decide) (by omega), hz0] at hmore
        exact absurd hmore (Nat.lt_irrefl 0)
      have hoff := hs.start hpos
      have hwide : (sz.signExtend 64).toNat = sz.toNat := signExtend_toNat (by omega)
      have hclip := clipInt_toNat (show (sibpLong node.reserved).toNat < 2 ^ 31 by omega)
        (show s.offset.toNat ≤ _ by omega)
        (show s.offset.toNat + (sz.signExtend 64).toNat < 2 ^ 64 by omega)
      rw [hwide, hsibp] at hclip
      dsimp only at h
      generalize clipInt (sibpLong node.reserved) s.offset (sz.signExtend 64) = sz2 at hclip h
      have hwide2 : (sz2.signExtend 64).toNat = sz2.toNat := signExtend_toNat (by omega)
      obtain ⟨block, l₁, l₂, hlookup, hbody, rfl⟩ := returns_bind h
      obtain ⟨hq, rfl, rfl⟩ := lookup_returns hlookup
      obtain ⟨data', l₃, l₄, hread, hloop, rfl⟩ := returns_bind hbody
      rw [readTable_count hz] at hq
      have hentry : (readTable node (dIndirect i) buffer).blocks q.toNat 0 =
          tableEntry (blockPos node.reserved) node (dIndirect i) q.toNat :=
        readTable_entry hz (dIndirect i) buffer hq
      rw [hentry] at hread hloop
      -- the size may be 0 here: the search stops at the end of the table before the first
      have hblocks := readBlockChainLog_blocks (by omega) (double_region hz hS q.toNat sibp) ho hne
        hs hpos (by omega) (by omega) hread
      have hnext : (q + 1).toNat = q.toNat + 1 := by
        rw [BitVec.toNat_add]
        exact Nat.mod_eq_of_lt (show q.toNat + 1 < 2 ^ 32 by omega)
      have hsub : (sz - sz2).toNat =
          sz.toNat - min sz.toNat (singleBytes node.reserved - s.offset.toNat) := by
        rw [BitVec.toNat_sub_of_le (BitVec.le_def.mpr (by omega)), hclip]
      have hbase : 12 * blockBytes node.reserved + (q.toNat + 1) * singleBytes node.reserved +
          singleBytes node.reserved = 12 * blockBytes node.reserved +
            ((q + 1).toNat + 1) * singleBytes node.reserved := by
        rw [hnext, Nat.succ_mul (q.toNat + 1), Nat.add_assoc]
      have hs' := left_next hs hoff hin
      rw [← hsub, hbase] at hs'
      have hrun := ih (sz - sz2) (q + 1) _ _ hs' (by omega) hloop
      have hmin := left_bytes hs hoff hin
      rw [← hclip, ← hwide2, hbase] at hmin
      rw [requests_append, requests_append, ← hrun, ← hmin, ← hblocks, List.append_assoc]
      rfl
    · have hzero : sz.toNat = 0 := by
        by_contra hne0
        exact hmore ((slt_iff (by decide) (by omega)).mpr (Nat.pos_of_ne_zero hne0))
      rw [if_neg hmore] at h
      rw [(returns_pure h).2, requests_nil, List.append_nil]
      exact congrArg _ (by omega)

theorem readDirectLog_advances (hz : RegionSizes node.reserved)
    (ho : blockBytes node.reserved ∣ o) (hn : n < 2 ^ 31) (hne : NoHole node i o n)
    {fuel : Nat} {s : ReadState} (hs : Left o n 0 s.offset s.size.toNat) (h0 : s.size ≠ 0) :
    Advances node i o n 0 (12 * blockBytes node.reserved) (readDirectLog fuel node i s) := by
  have hbytes := hz.bytes
  have hbase := Nat.zero_add (12 * blockBytes node.reserved)
  unfold readDirectLog
  by_cases hin : s.offset < dbpLong node.reserved
  · have hread := @readRegionLog_advances node i _ 0 _ o n (by omega) (direct_region hz) ho hn hne
      fuel _ hz.dbp s hs ⟨h0, hin⟩
    rw [hbase] at hread
    rw [if_pos hin]
    exact hread
  · have hskip := @skip_advances node i 0 _ o n _ hz.dbp s hs fun h => hin h.2
    rw [hbase] at hskip
    rw [if_neg hin]
    exact hskip

theorem readSingleLog_advances (hz : RegionSizes node.reserved)
    (ho : blockBytes node.reserved ∣ o) (hn : n < 2 ^ 31) (hne : NoHole node i o n)
    {fuel : Nat} {fresh : Fresh} {s : ReadState}
    (hs : Left o n (12 * blockBytes node.reserved) s.offset s.size.toNat) :
    Advances node i o n (12 * blockBytes node.reserved)
      (12 * blockBytes node.reserved + singleBytes node.reserved)
      (readSingleLog fuel fresh node i s) := by
  have hbytes := hz.bytes
  have hlt := hz.single
  have hsibp := hz.sibpLong_toNat
  unfold readSingleLog
  by_cases hin : s.size ≠ 0 ∧ s.offset < sibpLong node.reserved
  · have hin' : s.offset.toNat < (sibpLong node.reserved).toNat := hin.2
    have hregion := single_region (i := i) hz (by omega) (fresh 3)
    rw [if_pos hin]
    exact readRegionLog_advances (by omega) hregion ho hn hne hsibp hs hin
  · rw [if_neg hin]
    exact skip_advances hsibp hs hin

/-- The double indirect pointer takes a request that ends where the regions do to its end. -/
theorem readDoubleLog_blocks (hz : RegionSizes node.reserved)
    (ho : blockBytes node.reserved ∣ o) (hn : n < 2 ^ 31) (hne : NoHole node i o n)
    (hlimit : n ≤ readLimit node.reserved - o) {fuel : Nat}
    (hfuel : blockPtrs node.reserved < fuel) {fresh : Fresh} {s s' : ReadState}
    {l : List ReadEvent} (hs : Left o n (12 * blockBytes node.reserved + singleBytes node.reserved)
      s.offset s.size.toNat) (h : (readDoubleLog fuel fresh node i s).Returns s' l) :
    firstBlocks node i o (min n (12 * blockBytes node.reserved + singleBytes node.reserved - o)) ++
      requests l = firstBlocks node i o n := by
  have hbytes := hz.bytes
  have hlt := hz.double
  have hltS := hz.single
  have hrest := hs.rest
  have hends : readLimit node.reserved = 12 * blockBytes node.reserved +
      singleBytes node.reserved + doubleBytes node.reserved := rfl
  have hdibp : (dibpLong node.reserved).toNat = doubleBytes node.reserved := by
    rw [← hz.dibp]
    exact signExtend_toNat (by rw [hz.dibp]; exact hlt)
  unfold readDoubleLog at h
  by_cases hin : s.size ≠ 0 ∧ s.offset < dibpLong node.reserved
  · rw [if_pos hin] at h
    have h0 : s.size.toNat ≠ 0 := fun hz0 => hin.1 (BitVec.eq_of_toNat_eq hz0)
    have hoff := hs.start h0
    have hin' : s.offset.toNat < (dibpLong node.reserved).toNat := hin.2
    obtain ⟨hS, q, offset, hseek, hq, hleS, hsum, hleft⟩ :=
      double_seek hz hfuel (show s.offset.toNat < doubleBytes node.reserved by omega)
    dsimp only at h
    rw [hseek] at h
    obtain ⟨p, l₁, l₂, hlift, hloop, rfl⟩ := returns_bind h
    obtain ⟨hp, rfl⟩ := returns_lift hlift
    cases hp
    have hbase := table_base node.reserved q.toNat
    dsimp only at hloop
    generalize (bytesInDibp node.reserved - q * bytesInSibp node.reserved).signExtend 64 = left
      at hleft hloop
    have hclip := clipInt_toNat (show left.toNat < 2 ^ 31 by omega)
      (show offset.toNat ≤ left.toNat by omega) (show offset.toNat + s.size.toNat < 2 ^ 64 by omega)
    generalize clipInt left offset s.size = sz at hclip hloop
    -- the request ends where the regions do, so nothing is clipped
    have hsz : sz.toNat = s.size.toNat := by omega
    obtain ⟨hto, hsame⟩ := left_further hs h0 hsum
    rw [hbase, ← hsz] at hto
    rw [hbase] at hsame
    have hrun := doubleLoopLog_spec hz hS ho hn hne (fresh 5) fuel sz q (fresh 4)
      { s with offset := offset } hto (by omega) hloop
    rw [hsame] at hrun
    exact hrun
  · -- nothing is left, or the request begins behind the regions and is empty
    rw [if_neg hin] at h
    rw [(returns_pure h).2, requests_nil, List.append_nil]
    refine congrArg _ ?_
    by_cases h0 : s.size = 0
    · rw [h0] at hrest
      change 0 = _ at hrest
      omega
    · have hle : (dibpLong node.reserved).toNat ≤ s.offset.toNat :=
        BitVec.not_lt.mp fun hlt => hin ⟨h0, hlt⟩
      have hoff := hs.start fun hz0 => h0 (BitVec.eq_of_toNat_eq hz0)
      omega

end Regions

/-- With a double indirect region that fits an `int`, the blocks are of 1 or 2 KiB. -/
theorem blockSize_le_one {super : Ext2Superblock}
    (h : blockBytes super * (blockBytes super / 4) * (blockBytes super / 4) < 2 ^ 31) :
    super.blockSize.toNat ≤ 1 := by
  by_contra hlarge
  have hpow : 2 ^ 2 ≤ 2 ^ super.blockSize.toNat := Nat.pow_le_pow_right (by decide) (by omega)
  have hbytes : 4096 ≤ blockBytes super := by
    unfold blockBytes
    omega
  have hptrs : 1024 ≤ blockBytes super / 4 := by omega
  have hmul : 4096 * 1024 * 1024 ≤
      blockBytes super * (blockBytes super / 4) * (blockBytes super / 4) :=
    Nat.mul_le_mul (Nat.mul_le_mul hbytes hptrs) hptrs
  omega

theorem readLimit_eq {super : Ext2Superblock} (h : super.blockSize.toNat ≤ 1) :
    readLimit super =
      (12 + blockBytes super / 4 + (blockBytes super / 4) ^ 2) * blockBytes super := by
  have hsingle : singleBytes super = blockPtrs super * blockBytes super :=
    if_pos (Nat.le_trans h (by decide))
  have hdouble : doubleBytes super = blockPtrs super * singleBytes super := if_pos h
  rw [readLimit, hdouble, hsingle, ← Nat.mul_assoc, ← Nat.add_mul, ← Nat.add_mul, Nat.pow_two]
  rfl

/-- A request from a block on asks for its blocks, each once and in order, and uses no
pointer outside its table. The region sizes are those that an `int` holds: 12 blocks and
the single indirect region are smaller than the double indirect one. -/
theorem readInodeData_in_order {node : Ext2Node} {i : ByteMem} {fuel : Nat}
    (hfuel : blockPtrs node.reserved + 12 < fuel) (fresh : Fresh) {offset size : BitVec 64}
    (hint : blockBytes node.reserved * (blockBytes node.reserved / 4) *
      (blockBytes node.reserved / 4) < 2 ^ 31)
    (hoff : blockBytes node.reserved ∣ offset.toNat) (hpos : 0 < size.toNat)
    (hsize : size.toNat < 2 ^ 31)
    (hend : offset.toNat + size.toNat ≤ (12 + blockBytes node.reserved / 4 +
      (blockBytes node.reserved / 4) ^ 2) * blockBytes node.reserved)
    (hnull : ∀ j, offset.toNat / blockBytes node.reserved ≤ j →
      j ≤ (offset.toNat + size.toNat - 1) / blockBytes node.reserved →
      fileBlock (blockPos node.reserved) node i j ≠ 0) :
    ∃ data l, (readInodeDataExLog fuel fresh node i offset size).Returns data l ∧
      ext2ReadInodeDataEx fuel fresh node i offset size = .ok data ∧
      requests l = (List.range' (offset.toNat / blockBytes node.reserved)
        ((offset.toNat + size.toNat - 1) / blockBytes node.reserved + 1 -
          offset.toNat / blockBytes node.reserved)).map
        (fileBlock (blockPos node.reserved) node i) ∧
      ∀ e ∈ l, e.Inside := by
  have hone := blockSize_le_one hint
  have hz : RegionSizes node.reserved := region_sizes (by omega)
  rw [← readLimit_eq hone] at hend
  have hrun := readInodeData_whole (i := i) hz hfuel fresh
    (show size.toNat ≤ readLimit node.reserved - offset.toNat by omega)
  have hcount := blockCount_range hoff hpos
  have hne : NoHole node i offset.toNat size.toNat :=
    fun j hj => hnull _ (Nat.le_add_right _ _) (by omega)
  rw [← readInodeDataExLog_forget] at hrun
  obtain ⟨l, hl⟩ := returns_of_forget hrun
  refine ⟨_, l, hl, ?_, ?_, fun e he => readInodeDataExLog_inside _ _ _ _ _ _ _ hl e he⟩
  · rw [← readInodeDataExLog_forget]
    exact hrun
  -- the log is that of the three regions, one behind the other
  obtain ⟨s₁, l₁, k₁, h₁, hrest₁, rfl⟩ := returns_bind hl
  obtain ⟨s₂, l₂, k₂, h₂, hrest₂, rfl⟩ := returns_bind hrest₁
  obtain ⟨s₃, l₃, k₃, h₃, hrest₃, rfl⟩ := returns_bind hrest₂
  obtain ⟨-, rfl⟩ := returns_pure hrest₃
  have hstart : Left offset.toNat size.toNat 0 offset size.toNat :=
    ⟨by omega, fun _ => (Nat.sub_zero _).symm⟩
  have hsize0 : size ≠ 0 := fun h0 => by
    rw [h0] at hpos
    exact Nat.lt_irrefl 0 hpos
  obtain ⟨hto₁, hblocks₁⟩ := readDirectLog_advances hz hoff hsize hne hstart hsize0 _ _ h₁
  obtain ⟨hto₂, hblocks₂⟩ := readSingleLog_advances hz hoff hsize hne hto₁ _ _ h₂
  have hblocks₃ := readDoubleLog_blocks hz hoff hsize hne (by omega) (by omega) hto₂ h₃
  have hnone : firstBlocks node i offset.toNat (min size.toNat (0 - offset.toNat)) = [] := by
    rw [Nat.zero_sub, Nat.min_zero, firstBlocks, blockCount_zero]
    rfl
  rw [hnone, List.nil_append] at hblocks₁
  rw [hcount, List.range'_eq_map_range, List.map_map, requests_append, requests_append,
    requests_append, requests_nil, List.append_nil, ← List.append_assoc, hblocks₁, hblocks₂,
    hblocks₃]
  rfl

/-- Both blocks of a file. -/
theorem readInodeData_in_order_two : ∃ data l,
    (readInodeDataExLog 300 (fun _ _ => 0) twoBlockFile twoBlockInode 0 2048).Returns data l ∧
      ext2ReadInodeDataEx 300 (fun _ _ => 0) twoBlockFile twoBlockInode 0 2048 = .ok data ∧
      requests l = (List.range' 0 2).map
        (fileBlock (blockPos twoBlockFile.reserved) twoBlockFile twoBlockInode) ∧
      ∀ e ∈ l, e.Inside := by
  refine readInodeData_in_order (by decide) _ (by decide) (by decide) (by decide) (by decide)
    (by decide) fun j _ hj => ?_
  have hj' : j ≤ 1 := hj
  interval_cases j <;> decide

end OS64.Fs
