import OS64.Fs.Ext2Lookup
import OS64.Mm.HeapLive

/-!
# The blocks of the ext2 driver

Every operation of the driver asks `kmalloc` for an inode, for the blocks of a file and for
what it returns, and gives back what it does not return. The functions here are those of
`Ext2.lean` with these calls in them, in the order of the source; without the calls they are
the same (`readHeap_run`, `readdirHeap_run`, `finddirHeap_run`).

`ext2_readdir` and `ext2_finddir` keep nothing but the block they return. `ext2_read` never
gives back the inode: `ext2_call_keeps_iff`.

Mirroring notes:
- A call of `kmalloc` that does not succeed is not followed. `kmalloc(0)` is a null pointer,
  which `kfree` takes.
- What the blocks hold is the business of the functions of `Ext2.lean`; an inode of 0 bytes is
  read from a null pointer, and what it holds is part of their input too.
-/

namespace OS64.Fs

open OS64.Lib (ByteMem)
open OS64.Mm (HeapState emptyHeap)
open OS64.Mm.HeapState (held Taken)

/-- `sizeof(ext2_group_desc)`. -/
def groupDescSize : Nat := 32

/-- `sizeof(struct dirent)`. -/
def direntSize : Nat := 264

/-- `sizeof(vfs_node_t)`. -/
def vfsNodeSize : Nat := 320

/-! ## The functions -/

/-- The calls in `ext2_read_inode`: where the inode lies. -/
def inodeHeap (super : Ext2Superblock) (h : HeapState) : Option (Nat × HeapState) := do
  let (desc, h) ← h.kmalloc groupDescSize
  let h := h.kfree desc
  h.kmalloc super.inodeSize.toNat

/-- `ext2_read_inode`. -/
def readInodeHeap (fresh : Fresh) (node : Ext2Node) (h : HeapState) :
    Option ((Nat × ByteMem) × HeapState) := do
  let i ← (ext2ReadInode fresh node).toOption
  let (p, h) ← inodeHeap node.reserved h
  some ((p, i), h)

/-- The single indirect pointer. -/
def readSingleHeap (fuel : Nat) (fresh : Fresh) (node : Ext2Node) (i : ByteMem) (s : ReadState)
    (h : HeapState) : Option (ReadState × HeapState) := do
  let s' ← (readSingle fuel fresh node i s).toOption
  if s.size ≠ 0 ∧ s.offset < sibpLong node.reserved then
    let (sibp, h) ← h.kmalloc (blkszLong node.reserved).toNat
    some (s', h.kfree sibp)
  else some (s', h)

/-- The double indirect pointer. -/
def readDoubleHeap (fuel : Nat) (fresh : Fresh) (node : Ext2Node) (i : ByteMem) (s : ReadState)
    (h : HeapState) : Option (ReadState × HeapState) := do
  let s' ← (readDouble fuel fresh node i s).toOption
  if s.size ≠ 0 ∧ s.offset < dibpLong node.reserved then
    let (sibp, h) ← h.kmalloc (blkszLong node.reserved).toNat
    let (dibp, h) ← h.kmalloc (blkszLong node.reserved).toNat
    some (s', (h.kfree dibp).kfree sibp)
  else some (s', h)

/-- `ext2_read_inode_data_ex`, and where the data lies. -/
def readInodeDataExHeap (fuel : Nat) (fresh : Fresh) (node : Ext2Node) (i : ByteMem)
    (offset size : BitVec 64) (h : HeapState) : Option ((Nat × ByteMem) × HeapState) := do
  let (p, h) ← h.kmalloc size.toNat
  let s ← (readDirect fuel node i ⟨offset, size, fresh 2, 0⟩).toOption
  let (s, h) ← readSingleHeap fuel fresh node i s h
  let (s, h) ← readDoubleHeap fuel fresh node i s h
  some ((p, s.data), h)

/-- `ext2_read`. -/
def ext2ReadHeap (fuel : Nat) (fresh : Fresh) (node : Option Ext2Node) (offset size : BitVec 64)
    (buffer : ByteMem) (h : HeapState) :
    Option (Except Errno (BitVec 64 × ByteMem) × HeapState) :=
  match node with
  | none => some (.error .einval, h)
  | some node => do
    let ((_, i), h) ← readInodeHeap fresh node h
    if ext2Size i < offset then some (.error .einval, h)
    else
      let size := if ext2Size i < offset + size then ext2Size i - offset else size
      let ((p, data), h) ← readInodeDataExHeap fuel fresh node i offset size h
      some (.ok (size, buffer.fill 0 data 0 size.toNat), h.kfree p)

/-- `ext2_readdir`, and where the entry lies. -/
def ext2ReaddirHeap (fuel : Nat) (fresh : Fresh) (node : Option Ext2Node) (index : BitVec 64)
    (h : HeapState) : Option (Except Errno (Nat × Dirent) × HeapState) :=
  match node with
  | none => some (.error .einval, h)
  | some node => do
    let ((pi, i), h) ← readInodeHeap fresh node h
    let (data, h) ← h.kmalloc (inodeDataSize node.reserved)
    let d : DirBuffer := ⟨ext2ReadInodeData (fresh 2) node i, inodeDataSize node.reserved⟩
    let (pd, h) ← h.kmalloc direntSize
    let (k, p) ← (readdirLoop d (ext2Size i).toNat index fuel 0 0).toOption
    let res ← (readdirEntry d (ext2Size i).toNat index k p).toOption
    match res with
    | .ok entry => some (.ok (pd, entry), (h.kfree pi).kfree data)
    | .error e => some (.error e, ((h.kfree pd).kfree pi).kfree data)

/-- The node that `ext2_finddir` makes of the record at `p`: `ext2_read_inode` is called for it. -/
def finddirNodeHeap (d : DirBuffer) (fresh : Fresh) (node : Ext2Node) (p : Nat) (h : HeapState) :
    Option (Ext2Node × HeapState) := do
  let v ← (finddirNode d fresh node p).toOption
  let (fi, h) ← inodeHeap v.reserved h
  some (v, h.kfree fi)

/-- `ext2_finddir`, and where the node lies. -/
def ext2FinddirHeap (fuel : Nat) (fresh : Fresh) (node : Option Ext2Node) (name : CString)
    (h : HeapState) : Option (Except Errno (Option (Nat × Ext2Node)) × HeapState) :=
  match node with
  | none => some (.error .einval, h)
  | some node => do
    let ((pi, i), h) ← readInodeHeap fresh node h
    let (data, h) ← h.kmalloc (inodeDataSize node.reserved)
    let d : DirBuffer := ⟨ext2ReadInodeData (fresh 2) node i, inodeDataSize node.reserved⟩
    let (pv, h) ← h.kmalloc vfsNodeSize
    let found ← (finddirLoop d (ext2Size i).toNat name fuel 0).toOption
    match found with
    | none => some (.ok none, ((h.kfree pv).kfree pi).kfree data)
    | some p =>
      let (v, h) ← finddirNodeHeap d (fun n => fresh (n + 3)) node p h
      some (.ok (some (pv, v)), (h.kfree pi).kfree data)

/-! ## What the parts keep -/

section Parts

variable {fresh : Fresh} {fuel n m p : Nat} {h h' h₁ : HeapState} {node : Ext2Node} {i : ByteMem}

theorem toOption_eq_some {α : Type} {r : Exec α} {a : α} : r.toOption = some a ↔ r = .ok a := by
  cases r with
  | error e => simp [Except.toOption]
  | ok b => simp [Except.toOption]

/-- A block taken and given back at once. -/
theorem kfree_taken (hk : h.kmalloc n = some (p, h₁)) : (h₁.kfree p).live = h.live :=
  HeapState.kfree_top (HeapState.kmalloc_taken hk).held

/-- `ext2_read_inode` keeps the inode. -/
theorem inodeHeap_taken {super : Ext2Superblock} (hrun : inodeHeap super h = some (p, h')) :
    Taken h super.inodeSize.toNat p h' := by
  unfold inodeHeap at hrun
  obtain ⟨⟨desc, h₁⟩, hdesc, hinode⟩ := Option.bind_eq_some_iff.mp hrun
  exact (HeapState.kmalloc_taken hinode).congr (kfree_taken hdesc)

/-- The two halves of `ext2_read_inode`. -/
theorem readInodeHeap_spec (hrun : readInodeHeap fresh node h = some ((p, i), h')) :
    ext2ReadInode fresh node = .ok i ∧ Taken h node.reserved.inodeSize.toNat p h' := by
  unfold readInodeHeap at hrun
  obtain ⟨j, hread, hrun⟩ := Option.bind_eq_some_iff.mp hrun
  obtain ⟨⟨q, h₁⟩, hinode, hret⟩ := Option.bind_eq_some_iff.mp hrun
  cases hret
  exact ⟨toOption_eq_some.mp hread, inodeHeap_taken hinode⟩

theorem readSingleHeap_spec {s s' : ReadState}
    (hrun : readSingleHeap fuel fresh node i s h = some (s', h')) :
    readSingle fuel fresh node i s = .ok s' ∧ h'.live = h.live := by
  unfold readSingleHeap at hrun
  obtain ⟨t, hread, hrun⟩ := Option.bind_eq_some_iff.mp hrun
  by_cases hin : s.size ≠ 0 ∧ s.offset < sibpLong node.reserved
  · rw [if_pos hin] at hrun
    obtain ⟨⟨sibp, h₁⟩, hsibp, hret⟩ := Option.bind_eq_some_iff.mp hrun
    cases hret
    exact ⟨toOption_eq_some.mp hread, kfree_taken hsibp⟩
  · rw [if_neg hin] at hrun
    cases hrun
    exact ⟨toOption_eq_some.mp hread, rfl⟩

theorem readDoubleHeap_spec {s s' : ReadState}
    (hrun : readDoubleHeap fuel fresh node i s h = some (s', h')) :
    readDouble fuel fresh node i s = .ok s' ∧ h'.live = h.live := by
  unfold readDoubleHeap at hrun
  obtain ⟨t, hread, hrun⟩ := Option.bind_eq_some_iff.mp hrun
  by_cases hin : s.size ≠ 0 ∧ s.offset < dibpLong node.reserved
  · rw [if_pos hin] at hrun
    obtain ⟨⟨sibp, h₁⟩, hsibp, hrun⟩ := Option.bind_eq_some_iff.mp hrun
    obtain ⟨⟨dibp, h₂⟩, hdibp, hret⟩ := Option.bind_eq_some_iff.mp hrun
    cases hret
    have hlive := (kfree_taken hdibp).trans (HeapState.kmalloc_taken hsibp).held
    exact ⟨toOption_eq_some.mp hread, HeapState.kfree_top hlive⟩
  · rw [if_neg hin] at hrun
    cases hrun
    exact ⟨toOption_eq_some.mp hread, rfl⟩

/-- `ext2_read_inode_data_ex` keeps the data alone. -/
theorem readInodeDataExHeap_spec {offset size : BitVec 64} {data : ByteMem}
    (hrun : readInodeDataExHeap fuel fresh node i offset size h = some ((p, data), h')) :
    ext2ReadInodeDataEx fuel fresh node i offset size = .ok data ∧ Taken h size.toNat p h' := by
  unfold readInodeDataExHeap at hrun
  obtain ⟨⟨q, h₁⟩, hk, hrun⟩ := Option.bind_eq_some_iff.mp hrun
  obtain ⟨s₁, hdirect, hrun⟩ := Option.bind_eq_some_iff.mp hrun
  obtain ⟨⟨s₂, h₂⟩, hsingle, hrun⟩ := Option.bind_eq_some_iff.mp hrun
  obtain ⟨⟨s₃, h₃⟩, hdouble, hret⟩ := Option.bind_eq_some_iff.mp hrun
  cases hret
  obtain ⟨hread₂, hlive₂⟩ := readSingleHeap_spec hsingle
  obtain ⟨hread₃, hlive₃⟩ := readDoubleHeap_spec hdouble
  obtain ⟨hlive, hfresh, hnull⟩ := HeapState.kmalloc_taken hk
  refine ⟨?_, (hlive₃.trans hlive₂).trans hlive, hfresh, hnull⟩
  unfold ext2ReadInodeDataEx
  rw [toOption_eq_some.mp hdirect]
  show (readSingle fuel fresh node i s₁ >>= _) = _
  rw [hread₂]
  show (readDouble fuel fresh node i s₂ >>= _) = _
  rw [hread₃]
  rfl

/-- Two blocks are given back in the order they were taken in, from below those taken since. -/
theorem two_freed {n₁ n₂ p₁ p₂ : Nat} {h₂ : HeapState} {above : List (Nat × Nat)}
    (ht₁ : Taken h n₁ p₁ h₁) (ht₂ : Taken h₁ n₂ p₂ h₂) (hlive : h'.live = above ++ h₂.live)
    (habove : ∀ q ∈ h₂.live.map Prod.fst, q ∉ above.map Prod.fst) :
    ((h'.kfree p₁).kfree p₂).live = above ++ h.live := by
  have hfirst : p₁ ≠ 0 → p₁ ∈ h₁.live.map Prod.fst := ht₁.mem
  have hmem : ∀ q ∈ h₁.live.map Prod.fst, q ∈ h₂.live.map Prod.fst := by
    intro q hq
    rw [ht₂.held, List.map_append]
    exact List.mem_append_right _ hq
  have hsecond : p₂ ≠ 0 → p₂ ∉ above.map Prod.fst := fun hp => habove p₂ (ht₂.mem hp)
  have hp₁ : ((h'.kfree p₁)).live = (above ++ held p₂ n₂) ++ h.live := by
    refine HeapState.kfree_held (n := n₁) ?_ fun hp hin => ?_
    · rw [hlive, ht₂.held, ht₁.held, List.append_assoc]
    · rw [List.map_append] at hin
      rcases List.mem_append.mp hin with hin | hin
      · exact habove p₁ (hmem p₁ (hfirst hp)) hin
      · rw [HeapState.mem_held hin] at hfirst
        exact ht₂.fresh (hfirst (HeapState.mem_held hin ▸ hp))
  rw [List.append_assoc] at hp₁
  exact HeapState.kfree_held hp₁ hsecond

end Parts

/-! ## The operations -/

section Operations

variable {fresh : Fresh} {fuel : Nat} {h h' : HeapState} {node : Ext2Node}

/-- `ext2_read` keeps the inode. -/
theorem readHeap_run {offset size : BitVec 64} {buffer : ByteMem}
    {r : Except Errno (BitVec 64 × ByteMem)}
    (hrun : ext2ReadHeap fuel fresh (some node) offset size buffer h = some (r, h')) :
    ext2Read fuel fresh (some node) offset size buffer = .ok r ∧
      ∃ p, Taken h node.reserved.inodeSize.toNat p h' := by
  unfold ext2ReadHeap at hrun
  dsimp only at hrun
  obtain ⟨⟨⟨pi, i⟩, h₁⟩, hinode, hrun⟩ := Option.bind_eq_some_iff.mp hrun
  dsimp only at hrun
  obtain ⟨hread, htaken⟩ := readInodeHeap_spec hinode
  unfold ext2Read
  dsimp only
  rw [hread]
  show (if _ then _ else _) = _ ∧ _
  by_cases hoff : ext2Size i < offset
  · rw [if_pos hoff] at hrun ⊢
    cases hrun
    exact ⟨rfl, pi, htaken⟩
  · rw [if_neg hoff] at hrun ⊢
    obtain ⟨⟨⟨p, data⟩, h₂⟩, hdata, hret⟩ := Option.bind_eq_some_iff.mp hrun
    obtain ⟨hreadData, htakenData⟩ := readInodeDataExHeap_spec hdata
    cases hret
    rw [hreadData]
    refine ⟨rfl, pi, ?_, htaken.fresh, htaken.null⟩
    rw [HeapState.kfree_top htakenData.held, htaken.live]

/-- The block that `ext2_readdir` returns. -/
def direntBlock : Except Errno (Nat × Dirent) → List (Nat × Nat)
  | .ok (d, _) => [(d, direntSize)]
  | .error _ => []

/-- `ext2_readdir` keeps the entry it returns. -/
theorem readdirHeap_run {index : BitVec 64} {r : Except Errno (Nat × Dirent)}
    (hrun : ext2ReaddirHeap fuel fresh (some node) index h = some (r, h')) :
    ext2Readdir fuel fresh (some node) index = .ok (r.map Prod.snd) ∧
      h'.live = direntBlock r ++ h.live := by
  unfold ext2ReaddirHeap at hrun
  dsimp only at hrun
  obtain ⟨⟨⟨pi, i⟩, h₁⟩, hinode, hrun⟩ := Option.bind_eq_some_iff.mp hrun
  obtain ⟨hread, ht₁⟩ := readInodeHeap_spec hinode
  obtain ⟨⟨data, h₂⟩, hdata, hrun⟩ := Option.bind_eq_some_iff.mp hrun
  have ht₂ := HeapState.kmalloc_taken hdata
  obtain ⟨⟨pd, h₃⟩, hd, hrun⟩ := Option.bind_eq_some_iff.mp hrun
  have ht₃ := HeapState.kmalloc_taken hd
  obtain ⟨⟨k, p⟩, hloop, hrun⟩ := Option.bind_eq_some_iff.mp hrun
  obtain ⟨res, hentry, hrun⟩ := Option.bind_eq_some_iff.mp hrun
  rw [toOption_eq_some] at hloop hentry
  have hres : ext2Readdir fuel fresh (some node) index = .ok res := by
    unfold ext2Readdir
    dsimp only
    rw [hread]
    show (readdirLoop _ _ index fuel 0 0 >>= _) = _
    rw [hloop]
    exact hentry
  rw [hres]
  cases res with
  | ok entry =>
    cases hrun
    refine ⟨rfl, ?_⟩
    rw [direntBlock, ← ht₃.block (show direntSize ≠ 0 by decide)]
    refine two_freed ht₁ ht₂ ht₃.held fun q hq hin => ?_
    rw [HeapState.mem_held hin] at hq
    exact ht₃.fresh hq
  | error e =>
    cases hrun
    exact ⟨rfl, two_freed ht₁ ht₂ (HeapState.kfree_top ht₃.held) fun _ _ => List.not_mem_nil⟩

/-- The block that `ext2_finddir` returns. -/
def nodeBlock : Except Errno (Option (Nat × Ext2Node)) → List (Nat × Nat)
  | .ok (some (v, _)) => [(v, vfsNodeSize)]
  | .ok none => []
  | .error _ => []

theorem finddirNodeHeap_spec {d : DirBuffer} {p : Nat} {v : Ext2Node}
    (hrun : finddirNodeHeap d fresh node p h = some (v, h')) :
    finddirNode d fresh node p = .ok v ∧ h'.live = h.live := by
  unfold finddirNodeHeap at hrun
  obtain ⟨w, hnode, hrun⟩ := Option.bind_eq_some_iff.mp hrun
  obtain ⟨⟨fi, h₁⟩, hinode, hret⟩ := Option.bind_eq_some_iff.mp hrun
  cases hret
  exact ⟨toOption_eq_some.mp hnode, HeapState.kfree_top (inodeHeap_taken hinode).held⟩

/-- `ext2_finddir` keeps the node it returns. -/
theorem finddirHeap_run {name : CString} {r : Except Errno (Option (Nat × Ext2Node))}
    (hrun : ext2FinddirHeap fuel fresh (some node) name h = some (r, h')) :
    ext2Finddir fuel fresh (some node) name = .ok (r.map (Option.map Prod.snd)) ∧
      h'.live = nodeBlock r ++ h.live := by
  unfold ext2FinddirHeap at hrun
  dsimp only at hrun
  obtain ⟨⟨⟨pi, i⟩, h₁⟩, hinode, hrun⟩ := Option.bind_eq_some_iff.mp hrun
  obtain ⟨hread, ht₁⟩ := readInodeHeap_spec hinode
  obtain ⟨⟨data, h₂⟩, hdata, hrun⟩ := Option.bind_eq_some_iff.mp hrun
  have ht₂ := HeapState.kmalloc_taken hdata
  obtain ⟨⟨pv, h₃⟩, hv, hrun⟩ := Option.bind_eq_some_iff.mp hrun
  have ht₃ := HeapState.kmalloc_taken hv
  obtain ⟨found, hloop, hrun⟩ := Option.bind_eq_some_iff.mp hrun
  rw [toOption_eq_some] at hloop
  unfold ext2Finddir
  dsimp only
  rw [hread]
  show (finddirLoop _ _ name fuel 0 >>= _) = _ ∧ _
  rw [hloop]
  cases found with
  | none =>
    cases hrun
    exact ⟨rfl, two_freed ht₁ ht₂ (HeapState.kfree_top ht₃.held) fun _ _ => List.not_mem_nil⟩
  | some p =>
    obtain ⟨⟨v, h₄⟩, hnode, hret⟩ := Option.bind_eq_some_iff.mp hrun
    obtain ⟨hfound, hlive⟩ := finddirNodeHeap_spec hnode
    cases hret
    show (finddirNode _ _ node p >>= _) = _ ∧ _
    rw [hfound]
    refine ⟨rfl, ?_⟩
    rw [nodeBlock, ← ht₃.block (show vfsNodeSize ≠ 0 by decide)]
    refine two_freed ht₁ ht₂ (hlive.trans ht₃.held) fun q hq hin => ?_
    rw [HeapState.mem_held hin] at hq
    exact ht₃.fresh hq

end Operations

/-! ## A call of the driver -/

/-- The calls. -/
inductive Ext2Call
  | read (offset size : BitVec 64) (buffer : ByteMem)
  | readdir (index : BitVec 64)
  | finddir (name : CString)

namespace Ext2Call

/-- A call on `node`: the block it returns and the heap after it. -/
def exec (fuel : Nat) (fresh : Fresh) (node : Option Ext2Node) (h : HeapState) :
    Ext2Call → Option (List (Nat × Nat) × HeapState)
  | read offset size buffer => do
    let (_, h) ← ext2ReadHeap fuel fresh node offset size buffer h
    some ([], h)
  | readdir index => do
    let (r, h) ← ext2ReaddirHeap fuel fresh node index h
    some (direntBlock r, h)
  | finddir name => do
    let (r, h) ← ext2FinddirHeap fuel fresh node name h
    some (nodeBlock r, h)

/-- The call is not `ext2_read` of a node, or `kmalloc` is asked for an inode of 0 bytes and does not
succeed. -/
def meets (node : Option Ext2Node) : Ext2Call → Prop
  | read _ _ _ => ∀ n ∈ node, n.reserved.inodeSize = 0
  | readdir _ => True
  | finddir _ => True

end Ext2Call

/-- Whatever the volume, the node and the arguments: where a call returns, all of its calls of
`kmalloc` for at least a byte having succeeded, the live allocations are those from before and the
block that it returns, exactly if the call is no `ext2_read` of a node. Inodes of 0 bytes are the
exception: `kmalloc(0)` is a null pointer, and nothing is allocated that could stay. -/
theorem ext2_call_keeps_iff {fuel : Nat} {fresh : Fresh} {node : Option Ext2Node} {c : Ext2Call}
    {h h' : HeapState} {out : List (Nat × Nat)} (hrun : c.exec fuel fresh node h = some (out, h')) :
    h'.live = out ++ h.live ↔ c.meets node := by
  cases c with
  | read offset size buffer =>
    obtain ⟨⟨r, h₁⟩, hread, hret⟩ := Option.bind_eq_some_iff.mp hrun
    cases hret
    cases node with
    | none =>
      cases hread
      exact ⟨fun _ n hn => absurd hn (Option.not_mem_none n), fun _ => rfl⟩
    | some n =>
      -- the inode stays behind, if `kmalloc` was asked for any bytes at all
      obtain ⟨-, p, ht⟩ := readHeap_run hread
      rw [ht.held, List.nil_append]
      constructor
      · intro hlive m hm
        obtain rfl := Option.mem_some.mp hm
        by_contra hsize
        have hne : n.reserved.inodeSize.toNat ≠ 0 := fun h0 => hsize (BitVec.eq_of_toNat_eq h0)
        rw [ht.block hne] at hlive
        exact List.cons_ne_self _ _ hlive
      · intro hmeets
        rw [ht.no_block (congrArg BitVec.toNat (hmeets n rfl)), List.nil_append]
  | readdir index =>
    obtain ⟨⟨r, h₁⟩, hread, hret⟩ := Option.bind_eq_some_iff.mp hrun
    cases hret
    refine ⟨fun _ => trivial, fun _ => ?_⟩
    cases node with
    | none =>
      cases hread
      rfl
    | some n => exact (readdirHeap_run hread).2
  | finddir name =>
    obtain ⟨⟨r, h₁⟩, hread, hret⟩ := Option.bind_eq_some_iff.mp hrun
    cases hret
    refine ⟨fun _ => trivial, fun _ => ?_⟩
    cases node with
    | none =>
      cases hread
      rfl
    | some n => exact (finddirHeap_run hread).2

theorem ext2_call_keeps_iff_readdir :
    ∃ out h', (Ext2Call.readdir 1).exec 100 (fun _ _ => 0) (some (oneBlockDir prefixBlock)) emptyHeap =
        some (out, h') ∧
      h'.live = out ++ emptyHeap.live := by
  obtain ⟨⟨out, h'⟩, hrun⟩ := Option.isSome_iff_exists.mp
    (show ((Ext2Call.readdir 1).exec 100 (fun _ _ => 0) (some (oneBlockDir prefixBlock))
      emptyHeap).isSome by decide +kernel)
  exact ⟨out, h', hrun, (ext2_call_keeps_iff hrun).mpr trivial⟩

/-- A byte is read of the file, and 128 bytes with its inode stay allocated. -/
theorem ext2_read_keeps_inode :
    ((Ext2Call.read 0 1 fun _ => 0).exec 100 (fun _ _ => 0) (some twoBlockFile) emptyHeap).map
        (fun x => (x.1, x.2.live)) = some ([], [(0xFFFFFFFFC0200010, 128)]) ∧
      emptyHeap.live = [] := by
  exact ⟨by decide +kernel, rfl⟩

end OS64.Fs
