import OS64.Fs.Vfs
import OS64.Kernel.Ktty
import OS64.Lib.Logged
import OS64.Lib.Narrow

/-!
# Writing through a descriptor

`sys_write` takes the number of an open file as an `int`, the length as an `int`, and passes both
on: the number is an index into the table of the task, the length is widened for `vfs_write`, whose
result, a count or an error code, comes back through an `int` and is added to the offset.

The drivers are a parameter, and so are the numbers of `errno.h`. A call leaves a log of the calls
of drivers in it. What a task has open is a table of pointers to descriptors; what they point to,
the nodes and what the drivers work on come along.

`write_honest_iff` says for which calls the descriptor is kept as it should be.
-/

namespace OS64.Sys

open OS64.Fs OS64.Lib
open OS64.Kernel (Ktty kttyPuts)

/-- `MAX_OPEN_FILES`. -/
def maxOpenFiles : Nat := 16

/-- `VFS_PIPE`. -/
def vfsPipe : BitVec 32 := 0x10

/-- `VFS_TTY`. -/
def vfsTty : BitVec 32 := 0x80

/-- `fs_open_desc`. -/
structure OpenDesc where
  node : Addr
  offset : BitVec 64
  flags : BitVec 64

/-- The arguments of a driver's `write`. -/
structure WriteCall where
  node : Addr
  offset : BitVec 64
  size : BitVec 64
  buffer : Addr
  deriving DecidableEq

/-- `write_type_t`: a count or an error, and what is then in the heap and in the rest of what the
drivers work on. -/
abbrev WriteFn (σ : Type) := WriteCall → Heap → σ → Exec (Except Errno (BitVec 64) × Heap × σ)

/-- `files` of a task, and what the pointers lead to. -/
structure OpenFiles (σ : Type) where
  files : List Addr
  files_length : files.length = maxOpenFiles
  descs : Addr → OpenDesc
  heap : Heap
  rest : σ

/-- An in-band result: the count, or the number of the error. -/
def inBand (code : Errno → BitVec 64) : Except Errno (BitVec 64) → BitVec 64
  | .error e => code e
  | .ok c => c

section Code

variable {σ : Type} (code : Errno → BitVec 64) (write : Drv → Option (WriteFn σ))

/-- `node->drv->write`, where there is one. -/
def driverWrite (n : VfsNode Addr Addr) : Option (WriteFn σ) :=
  if n.drv = .null then none else write n.drv

/-- `vfs_write`. -/
def vfsWrite (h : Heap) (rest : σ) (c : WriteCall) :
    Logged Stop WriteCall (Except Errno (BitVec 64) × Heap × σ) :=
  if c.node = 0 then pure (.error .ebadf, h, rest)
  else do
    let n ← Logged.lift (h.node c.node)
    match driverWrite write n with
    | none => pure (.error .ebadf, h, rest)
    | some f => do
      Logged.log c
      Logged.lift (f c h rest)

/-- `files[i]`. -/
def OpenFiles.file (t : OpenFiles σ) (i : Nat) : Exec Addr :=
  match t.files[i]? with
  | none => .error .outOfBounds
  | some f => .ok f

/-- The call that `sys_write` makes for the descriptor at `f`. -/
def OpenFiles.request (t : OpenFiles σ) (f ptr : Addr) (len : BitVec 32) : WriteCall :=
  ⟨(t.descs f).node, (t.descs f).offset, len.signExtend 64, ptr⟩

/-- `f->offset += res`. -/
def OpenFiles.advance (t : OpenFiles σ) (f : Addr) (res : BitVec 32) : OpenFiles σ :=
  { t with descs := fun g =>
      if g = f then { t.descs f with offset := (t.descs f).offset + res.signExtend 64 }
      else t.descs g }

/-- `node->flags&VFS_TTY` or `node->flags&VFS_PIPE`. -/
def unseekable (n : VfsNode Addr Addr) : Prop := n.flags &&& vfsTty ≠ 0 ∨ n.flags &&& vfsPipe ≠ 0

instance (n : VfsNode Addr Addr) : Decidable (unseekable n) := inferInstanceAs (Decidable (_ ∨ _))

/-- `sys_write` behind the call of `vfs_write`. -/
def sysWriteEnd (t : OpenFiles σ) (f : Addr) (a : Except Errno (BitVec 64) × Heap × σ) :
    Logged Stop WriteCall (BitVec 32 × OpenFiles σ) := do
  let res := (inBand code a.1).setWidth 32
  let n ← Logged.lift (a.2.1.node (t.descs f).node)
  let t' := { t with heap := a.2.1, rest := a.2.2 }
  if unseekable n then pure (res, t') else pure (res, t'.advance f res)

/-- `sys_write`. -/
def sysWrite (t : OpenFiles σ) (file : BitVec 32) (ptr : Addr) (len : BitVec 32) :
    Logged Stop WriteCall (BitVec 32 × OpenFiles σ) :=
  if (BitVec.ofNat 32 maxOpenFiles).slt file ∨ file.slt 0 then pure ((code .ebadf).setWidth 32, t)
  else do
    let f ← Logged.lift (t.file file.toNat)
    if f = 0 then pure ((code .ebadf).setWidth 32, t)
    else do
      let a ← vfsWrite write t.heap t.rest (t.request f ptr len)
      sysWriteEnd code t f a

end Code

/-- `tty_write`. The counter is an `int`: with `2 ^ 31` bytes and more it overflows, and the loop
is taken not to end. -/
def ttyWrite (base : Nat) (mem : Addr → BitVec 8) : WriteFn Ktty := fun c h k =>
  if c.node = 0 then .ok (.error .einval, h, k)
  else if c.offset ≠ 0 then .ok (.error .einval, h, k)
  else if c.size = 0 then .ok (.ok 0, h, k)
  else if c.size.toNat < 2 ^ 31 then
    .ok (.ok c.size, h, kttyPuts base k
      ((List.range c.size.toNat).map fun i => mem (c.buffer + BitVec.ofNat 64 i)))
  else .error .running

/-! ## What a call is to keep -/

section Honest

variable {σ : Type} (code : Errno → BitVec 64) (write : Drv → Option (WriteFn σ)) (t : OpenFiles σ)
  (file : BitVec 32) (ptr : Addr) (len : BitVec 32)

/-- `0 <= file < MAX_OPEN_FILES`. -/
def inTable : Prop := 0 ≤ file.toInt ∧ file.toInt < maxOpenFiles

instance : Decidable (inTable file) := inferInstanceAs (Decidable (_ ∧ _))

/-- `files[file]` is the descriptor at `f`. -/
def OpenFiles.opens (f : Addr) : Prop := inTable file ∧ t.file file.toNat = .ok f ∧ f ≠ 0

/-- No driver is there to take the bytes. -/
def noDriver (a : Addr) : Prop :=
  a = 0 ∨ ∃ n, t.heap.node a = .ok n ∧ driverWrite write n = none

/-- A number outside the table is refused; a negative length is, with no call of a driver; an error
leaves the offset, and a count moves it on, but on a tty or a pipe. -/
structure WriteHonest : Prop where
  outside : ¬ inTable file →
    (sysWrite code write t file ptr len).Returns ((code .ebadf).setWidth 32, t) []
  negative : len.slt 0 →
    ∃ e t', (sysWrite code write t file ptr len).Returns ((code e).setWidth 32, t') []
  failed : ∀ f, t.opens file f → ∀ e h rest l,
    (vfsWrite write t.heap t.rest (t.request f ptr len)).Returns (.error e, h, rest) l →
    ∃ r t', (sysWrite code write t file ptr len).Returns (r, t') l ∧
      (t'.descs f).offset = (t.descs f).offset
  wrote : ∀ f, t.opens file f → ∀ c h rest l,
    (vfsWrite write t.heap t.rest (t.request f ptr len)).Returns (.ok c, h, rest) l →
    ∃ n r t', h.node (t.descs f).node = .ok n ∧
      (sysWrite code write t file ptr len).Returns (r, t') l ∧
      (t'.descs f).offset = if unseekable n then (t.descs f).offset else (t.descs f).offset + c

/-- How far an answer is to move the offset. -/
def progress : Except Errno (BitVec 64) → BitVec 64
  | .error _ => 0
  | .ok c => c

/-- A count that an `int` keeps. -/
def fitsInt : Except Errno (BitVec 64) → Prop
  | .error _ => False
  | .ok c => c.toNat < 2 ^ 31 ∨ 2 ^ 64 - 2 ^ 31 ≤ c.toNat

/-- What `vfs_write` has to pass back, and the heap then: `EBADF` when there is no driver, else
the answer of the driver. -/
def answers (f : Addr) (a : Except Errno (BitVec 64)) (h : Heap) : Prop :=
  (noDriver write t (t.descs f).node ∧ a = .error .ebadf ∧ h = t.heap) ∨
    ∃ n g rest, (t.descs f).node ≠ 0 ∧ t.heap.node (t.descs f).node = .ok n ∧
      driverWrite write n = some g ∧ g (t.request f ptr len) t.heap t.rest = .ok (a, h, rest)

/-- The number is not that of the entry behind the table. With an open file, a negative length
finds no driver, the node can be read behind the call, and is a tty or a pipe unless the answer is
a count that an `int` keeps. -/
def writeMeets : Prop :=
  file ≠ BitVec.ofNat 32 maxOpenFiles ∧ ∀ f, t.opens file f →
    (len.slt 0 → noDriver write t (t.descs f).node) ∧
    ∀ a h, answers write t ptr len f a h →
      ∃ n, h.node (t.descs f).node = .ok n ∧ (unseekable n ∨ fitsInt a)

end Honest

/-! ## What a call does -/

section Spec

variable {σ : Type} {code : Errno → BitVec 64} {write : Drv → Option (WriteFn σ)} {t : OpenFiles σ}
  {file : BitVec 32} {ptr : Addr} {len : BitVec 32} {f : Addr}

/-- `files[file]` is read for the numbers that the comparisons let through. -/
theorem inTable_iff (hfile : file ≠ BitVec.ofNat 32 maxOpenFiles) :
    inTable file ↔ ¬ ((BitVec.ofNat 32 maxOpenFiles).slt file ∨ file.slt 0) := by
  have h16 : (BitVec.ofNat 32 maxOpenFiles).toInt = 16 := by decide
  have h0 : (0 : BitVec 32).toInt = 0 := by decide
  have hne : file.toInt ≠ 16 := fun h => hfile (BitVec.eq_of_toInt_eq (h.trans h16.symm))
  unfold inTable maxOpenFiles
  rw [BitVec.slt_iff_toInt_lt, BitVec.slt_iff_toInt_lt, h0]
  rw [show (BitVec.ofNat 32 16).toInt = 16 from h16]
  omega

/-- The number behind the table is one of them, and the read leaves the table. -/
theorem sysWrite_behind (hfile : file = BitVec.ofNat 32 maxOpenFiles) :
    sysWrite code write t file ptr len = Except.error .outOfBounds := by
  have hnone : t.files[(BitVec.ofNat 32 maxOpenFiles).toNat]? = none :=
    List.getElem?_eq_none (by rw [t.files_length]; decide)
  have hread : t.file (BitVec.ofNat 32 maxOpenFiles).toNat = .error .outOfBounds := by
    unfold OpenFiles.file
    simp only [hnone]
  rw [hfile, sysWrite, if_neg (by decide), hread]
  rfl

/-- Every number in the table leads to a descriptor or to nothing. -/
theorem file_read (h : inTable file) : ∃ f, t.file file.toNat = .ok f := by
  obtain ⟨h0, h16⟩ := h
  have hlen := t.files_length
  have hlt : file.toNat < t.files.length := by
    unfold maxOpenFiles at h16 hlen
    rw [BitVec.toInt_eq_toNat_cond] at h0 h16
    split at h0 <;> omega
  refine ⟨t.files[file.toNat], ?_⟩
  unfold OpenFiles.file
  simp only [List.getElem?_eq_getElem hlt]

theorem sysWrite_unopened (hfile : file ≠ BitVec.ofNat 32 maxOpenFiles)
    (h : ∀ f, ¬ t.opens file f) :
    (sysWrite code write t file ptr len).Returns ((code .ebadf).setWidth 32, t) [] := by
  by_cases hin : inTable file
  · obtain ⟨f, hf⟩ := @file_read _ t _ hin
    have h0 : f = 0 := by
      by_contra hne
      exact h f ⟨hin, hf, hne⟩
    rw [sysWrite, if_neg ((inTable_iff hfile).mp hin), hf, h0]
    rfl
  · rw [sysWrite, if_pos (not_not.mp fun hn => hin ((inTable_iff hfile).mpr hn))]
    rfl

theorem sysWrite_opens (h : t.opens file f) :
    sysWrite code write t file ptr len =
      vfsWrite write t.heap t.rest (t.request f ptr len) >>= sysWriteEnd code t f := by
  obtain ⟨hin, hf, hne⟩ := h
  have hfile : file ≠ BitVec.ofNat 32 maxOpenFiles := by
    rintro rfl
    exact absurd hin (by decide)
  rw [sysWrite, if_neg ((inTable_iff hfile).mp hin), hf, Logged.lift_bind, if_neg hne]

/-- What comes back from `vfs_write` is taken up. -/
theorem sysWriteEnd_returns {a : Except Errno (BitVec 64)} {h : Heap} {rest : σ}
    {n : VfsNode Addr Addr} (hn : h.node (t.descs f).node = .ok n) :
    ∃ t', (sysWriteEnd code t f (a, h, rest)).Returns ((inBand code a).setWidth 32, t') [] ∧
      (t'.descs f).offset = if unseekable n then (t.descs f).offset else
        (t.descs f).offset + ((inBand code a).setWidth 32).signExtend 64 := by
  unfold sysWriteEnd
  simp only [hn, Logged.lift_bind]
  by_cases hseek : unseekable n
  · rw [if_pos hseek, if_pos hseek]
    exact ⟨_, rfl, rfl⟩
  · rw [if_neg hseek, if_neg hseek]
    refine ⟨_, rfl, ?_⟩
    show (if f = f then _ else _ : OpenDesc).offset = _
    rw [if_pos rfl]

/-- Where it does not come back, the node is not there. -/
theorem sysWriteEnd_node {a : Except Errno (BitVec 64)} {h : Heap} {rest : σ}
    {b : BitVec 32 × OpenFiles σ} {l : List WriteCall}
    (hend : (sysWriteEnd code t f (a, h, rest)).Returns b l) :
    ∃ n, h.node (t.descs f).node = .ok n := by
  obtain ⟨n, _, _, hn, -⟩ := Logged.returns_bind hend
  exact ⟨n, (Logged.returns_lift hn).1⟩

/-- A call of `sys_write` that gets as far as `vfs_write`, and back. -/
theorem sysWrite_returns (hf : t.opens file f) {a : Except Errno (BitVec 64)} {h : Heap} {rest : σ}
    {l : List WriteCall} {n : VfsNode Addr Addr}
    (hcall : (vfsWrite write t.heap t.rest (t.request f ptr len)).Returns (a, h, rest) l)
    (hn : h.node (t.descs f).node = .ok n) :
    ∃ t', (sysWrite code write t file ptr len).Returns ((inBand code a).setWidth 32, t') l ∧
      (t'.descs f).offset = if unseekable n then (t.descs f).offset else
        (t.descs f).offset + ((inBand code a).setWidth 32).signExtend 64 := by
  obtain ⟨t', hend, hoff⟩ := @sysWriteEnd_returns σ code t f a h rest n hn
  refine ⟨t', ?_, hoff⟩
  rw [sysWrite_opens hf, ← List.append_nil l]
  exact Logged.bind_returns hcall hend

/-- Without a driver nothing is called. -/
theorem vfsWrite_noDriver (h : noDriver write t (t.descs f).node) :
    (vfsWrite write t.heap t.rest (t.request f ptr len)).Returns
      (.error .ebadf, t.heap, t.rest) [] := by
  unfold vfsWrite
  rcases h with h0 | ⟨n, hn, hnone⟩
  · rw [if_pos (show (t.request f ptr len).node = 0 from h0)]
    rfl
  · by_cases h0 : (t.request f ptr len).node = 0
    · rw [if_pos h0]
      rfl
    · rw [if_neg h0, show t.heap.node (t.request f ptr len).node = .ok n from hn, Logged.lift_bind]
      simp only [hnone]
      rfl

/-- Where nothing was called, there was no driver. -/
theorem noDriver_of_returns {a : Except Errno (BitVec 64) × Heap × σ}
    (h : (vfsWrite write t.heap t.rest (t.request f ptr len)).Returns a []) :
    noDriver write t (t.descs f).node := by
  unfold vfsWrite at h
  by_cases h0 : (t.request f ptr len).node = 0
  · exact Or.inl h0
  · rw [if_neg h0] at h
    obtain ⟨n, l₁, l₂, hn, hcall, hl⟩ := Logged.returns_bind h
    refine Or.inr ⟨n, (Logged.returns_lift hn).1, ?_⟩
    cases hd : driverWrite write n with
    | none => rfl
    | some g =>
      -- a driver that is called is in the log
      simp only [hd] at hcall
      obtain ⟨u, k₁, k₂, hlog, -, hk⟩ := Logged.returns_bind hcall
      rw [hk, Logged.returns_log hlog] at hl
      exact absurd hl.symm (by simp)

/-- What `vfs_write` passes back. -/
theorem vfsWrite_answers {a : Except Errno (BitVec 64)} {h : Heap} :
    answers write t ptr len f a h ↔ ∃ rest l,
      (vfsWrite write t.heap t.rest (t.request f ptr len)).Returns (a, h, rest) l := by
  constructor
  · rintro (⟨hnone, rfl, rfl⟩ | ⟨n, g, rest, h0, hn, hg, hcall⟩)
    · exact ⟨_, _, vfsWrite_noDriver hnone⟩
    · refine ⟨rest, [t.request f ptr len], ?_⟩
      unfold vfsWrite
      rw [if_neg (show ¬ (t.request f ptr len).node = 0 from h0),
        show t.heap.node (t.request f ptr len).node = .ok n from hn, Logged.lift_bind]
      simp only [hg, hcall]
      rfl
  · rintro ⟨rest, l, hret⟩
    by_cases hnone : noDriver write t (t.descs f).node
    · cases hret.symm.trans (vfsWrite_noDriver hnone)
      exact Or.inl ⟨hnone, rfl, rfl⟩
    · have h0 : (t.descs f).node ≠ 0 := fun h0 => hnone (Or.inl h0)
      unfold vfsWrite at hret
      rw [if_neg (show ¬ (t.request f ptr len).node = 0 from h0)] at hret
      obtain ⟨n, _, _, hn, hrest, -⟩ := Logged.returns_bind hret
      have hnode : t.heap.node (t.descs f).node = .ok n := (Logged.returns_lift hn).1
      cases hg : driverWrite write n with
      | none => exact absurd (Or.inr ⟨n, hnode, hg⟩) hnone
      | some g =>
        simp only [hg] at hrest
        obtain ⟨_, _, _, -, hcall, -⟩ := Logged.returns_bind hrest
        exact Or.inr ⟨n, g, rest, h0, hnode, hg, (Logged.returns_lift hcall).1⟩

/-- An error code that is no 0 moves the offset, and a count moves it by itself just when an `int`
keeps it. -/
theorem advance_right_iff (hcode : ∀ e, (code e).setWidth 32 ≠ 0) (o : BitVec 64) :
    ∀ a, o + ((inBand code a).setWidth 32).signExtend 64 = o + progress a ↔ fitsInt a
  | .error e => by
    refine iff_of_false (fun h => ?_) id
    exact int_ne_zero (hcode e) ((BitVec.add_right_inj _).mp h)
  | .ok c => by
    rw [BitVec.add_right_inj]
    exact int_kept_iff c

end Spec

section Main

variable {σ : Type} {code : Errno → BitVec 64} {write : Drv → Option (WriteFn σ)} {t : OpenFiles σ}
  {file : BitVec 32} {ptr : Addr} {len : BitVec 32}

/-- What is kept when `vfs_write` came back with the answer `a`. -/
def Keeps (code : Errno → BitVec 64) (write : Drv → Option (WriteFn σ)) (t : OpenFiles σ)
    (file : BitVec 32) (ptr : Addr) (len : BitVec 32) (f : Addr) (a : Except Errno (BitVec 64))
    (h : Heap) (l : List WriteCall) : Prop :=
  ∃ n r t', h.node (t.descs f).node = .ok n ∧
    (sysWrite code write t file ptr len).Returns (r, t') l ∧
    (t'.descs f).offset = if unseekable n then (t.descs f).offset
      else (t.descs f).offset + progress a

theorem keeps_iff (hcode : ∀ e, (code e).setWidth 32 ≠ 0) {f : Addr} (hf : t.opens file f)
    {a : Except Errno (BitVec 64)} {h : Heap} {rest : σ} {l : List WriteCall}
    (hcall : (vfsWrite write t.heap t.rest (t.request f ptr len)).Returns (a, h, rest) l) :
    Keeps code write t file ptr len f a h l ↔
      ∃ n, h.node (t.descs f).node = .ok n ∧ (unseekable n ∨ fitsInt a) := by
  constructor
  · rintro ⟨n, r, t', hn, hret, hoff⟩
    obtain ⟨t₂, hret₂, hoff₂⟩ := sysWrite_returns hf hcall hn
    cases hret.symm.trans hret₂
    refine ⟨n, hn, ?_⟩
    by_cases hseek : unseekable n
    · exact Or.inl hseek
    · rw [if_neg hseek] at hoff hoff₂
      exact Or.inr ((advance_right_iff hcode _ a).mp (hoff₂.symm.trans hoff))
  · rintro ⟨n, hn, hor⟩
    obtain ⟨t', hret, hoff⟩ := @sysWrite_returns σ code write t file ptr len f hf a h rest l n hcall hn
    refine ⟨n, _, t', hn, hret, ?_⟩
    by_cases hseek : unseekable n
    · rw [hoff, if_pos hseek, if_pos hseek]
    · rw [hoff, if_neg hseek, if_neg hseek]
      exact (advance_right_iff hcode _ a).mpr (hor.resolve_left hseek)

/-- After an error, that the offset is as it was. -/
theorem keeps_error {f : Addr} (hf : t.opens file f) {e : Errno} {h : Heap} {rest : σ}
    {l : List WriteCall}
    (hcall : (vfsWrite write t.heap t.rest (t.request f ptr len)).Returns (.error e, h, rest) l) :
    Keeps code write t file ptr len f (.error e) h l ↔
      ∃ r t', (sysWrite code write t file ptr len).Returns (r, t') l ∧
        (t'.descs f).offset = (t.descs f).offset := by
  have hsame : ∀ n : VfsNode Addr Addr, (if unseekable n then (t.descs f).offset
      else (t.descs f).offset + progress (.error e)) = (t.descs f).offset := by
    intro n
    split
    · rfl
    · exact BitVec.add_zero _
  constructor
  · rintro ⟨n, r, t', -, hret, hoff⟩
    exact ⟨r, t', hret, hoff.trans (hsame n)⟩
  · rintro ⟨r, t', hret, hoff⟩
    have hrun := hret
    rw [sysWrite_opens hf] at hrun
    obtain ⟨a, _, _, hcall₂, hend, -⟩ := Logged.returns_bind hrun
    cases hcall.symm.trans hcall₂
    obtain ⟨n, hn⟩ := sysWriteEnd_node hend
    exact ⟨n, r, t', hn, hret, hoff.trans (hsame n).symm⟩

/-- A call that turns a negative length away has found no driver. -/
theorem noDriver_of_silent {f : Addr} (hf : t.opens file f) {b : BitVec 32 × OpenFiles σ}
    (h : (sysWrite code write t file ptr len).Returns b []) :
    noDriver write t (t.descs f).node := by
  rw [sysWrite_opens hf] at h
  obtain ⟨a, l₁, l₂, hcall, -, hl⟩ := Logged.returns_bind h
  rw [(List.append_eq_nil_iff.mp hl.symm).1] at hcall
  exact noDriver_of_returns hcall

/-- For every task, number, length and driver: the call keeps the descriptor as it should be just
when the number is not that of the entry behind the table, and, with an open file, a negative
length finds no driver, the node can be read behind the call, and is a tty or a pipe unless the
driver has answered with a count that an `int` keeps. -/
theorem write_honest_iff (code : Errno → BitVec 64) (hcode : ∀ e, (code e).setWidth 32 ≠ 0)
    (write : Drv → Option (WriteFn σ)) (t : OpenFiles σ) (file : BitVec 32) (ptr : Addr)
    (len : BitVec 32) :
    WriteHonest code write t file ptr len ↔ writeMeets write t file ptr len := by
  constructor
  · intro h
    refine ⟨fun hfile => ?_, fun f hf => ⟨fun hneg => ?_, fun a g hanswer => ?_⟩⟩
    · have hout := h.outside (by rw [hfile]; decide)
      rw [sysWrite_behind hfile] at hout
      cases hout
    · obtain ⟨e, t', hret⟩ := h.negative hneg
      exact noDriver_of_silent hf hret
    · obtain ⟨rest, l, hcall⟩ := vfsWrite_answers.mp hanswer
      rw [← keeps_iff hcode hf hcall]
      cases a with
      | error e => exact (keeps_error hf hcall).mpr (h.failed f hf e g rest l hcall)
      | ok c => exact h.wrote f hf c g rest l hcall
  · rintro ⟨hfile, hopen⟩
    refine ⟨fun hin => ?_, fun hneg => ?_, fun f hf e g rest l hcall => ?_,
      fun f hf c g rest l hcall => ?_⟩
    · exact sysWrite_unopened hfile fun f hf => hin hf.1
    · by_cases hf : ∃ f, t.opens file f
      · obtain ⟨f, hf⟩ := hf
        obtain ⟨hnone, hanswer⟩ := hopen f hf
        have hcall := @vfsWrite_noDriver σ write t ptr len f (hnone hneg)
        obtain ⟨n, hn, -⟩ := hanswer _ _ (vfsWrite_answers.mpr ⟨_, _, hcall⟩)
        obtain ⟨t', hret, -⟩ := @sysWrite_returns σ code write t file ptr len f hf _ _ _ _ n hcall hn
        exact ⟨.ebadf, t', hret⟩
      · exact ⟨.ebadf, t, sysWrite_unopened hfile (not_exists.mp hf)⟩
    · have hanswer := (hopen f hf).2 _ g (vfsWrite_answers.mpr ⟨rest, l, hcall⟩)
      exact (keeps_error hf hcall).mp ((keeps_iff hcode hf hcall).mpr hanswer)
    · have hanswer := (hopen f hf).2 _ g (vfsWrite_answers.mpr ⟨rest, l, hcall⟩)
      exact (keeps_iff hcode hf hcall).mpr hanswer

end Main

/-! ## Standard output -/

/-- The bytes that `tty_write` passes to `ktty_putc`. -/
def ttyBytes (mem : Addr → BitVec 8) (buffer : Addr) (n : Nat) : List (BitVec 8) :=
  (List.range n).map fun i => mem (buffer + BitVec.ofNat 64 i)

theorem ttyWrite_ok (base : Nat) (mem : Addr → BitVec 8) {c : WriteCall} (h0 : c.node ≠ 0)
    (hoff : c.offset = 0) (hsize : c.size.toNat < 2 ^ 31) (h : Heap) (k : Ktty) :
    ttyWrite base mem c h k =
      .ok (.ok c.size, h, kttyPuts base k (ttyBytes mem c.buffer c.size.toNat)) := by
  unfold ttyWrite
  rw [if_neg h0, if_neg (not_not.mpr hoff)]
  by_cases hz : c.size = 0
  · rw [if_pos hz, hz]
    rfl
  · rw [if_neg hz, if_pos hsize]
    rfl

/-- Bytes written to a tty at offset 0 come to the screen, and the descriptor stays as it is. -/
theorem sysWrite_tty {code : Errno → BitVec 64} {write : Drv → Option (WriteFn Ktty)} {base : Nat}
    {mem : Addr → BitVec 8} (hwrite : write .tty = some (ttyWrite base mem)) {t : OpenFiles Ktty}
    {file : BitVec 32} {f : Addr} (hf : t.opens file f) {n : VfsNode Addr Addr}
    (h0 : (t.descs f).node ≠ 0) (hn : t.heap.node (t.descs f).node = .ok n) (hdrv : n.drv = .tty)
    (htty : n.flags &&& vfsTty ≠ 0) (hoff : (t.descs f).offset = 0) (ptr : Addr) {len : BitVec 32}
    (hlen : len.toNat < 2 ^ 31) :
    (sysWrite code write t file ptr len).Returns
      (len, { t with rest := kttyPuts base t.rest (ttyBytes mem ptr len.toNat) })
      [t.request f ptr len] := by
  have hsize : (len.signExtend 64).toNat = len.toNat := by
    rw [BitVec.signExtend_eq_setWidth_of_msb_false, BitVec.toNat_setWidth, Nat.mod_eq_of_lt (by omega)]
    rw [BitVec.msb_eq_decide, decide_eq_false (by omega)]
  have hback : (len.signExtend 64).setWidth 32 = len := by
    apply BitVec.eq_of_toNat_eq
    rw [BitVec.toNat_setWidth, hsize, Nat.mod_eq_of_lt len.isLt]
  have hdriver : driverWrite write n = some (ttyWrite base mem) := by
    rw [driverWrite, hdrv, if_neg (by decide), hwrite]
  have hput := ttyWrite_ok base mem (show (t.request f ptr len).node ≠ 0 from h0) hoff
    (show (len.signExtend 64).toNat < 2 ^ 31 by omega) t.heap t.rest
  have hcall : (vfsWrite write t.heap t.rest (t.request f ptr len)).Returns
      (.ok (len.signExtend 64), t.heap, kttyPuts base t.rest (ttyBytes mem ptr len.toNat))
      [t.request f ptr len] := by
    unfold vfsWrite
    rw [if_neg (show ¬ (t.request f ptr len).node = 0 from h0),
      show t.heap.node (t.request f ptr len).node = .ok n from hn, Logged.lift_bind]
    simp only [hdriver, hput]
    rw [← hsize]
    rfl
  rw [sysWrite_opens hf, ← List.append_nil [t.request f ptr len]]
  refine Logged.bind_returns hcall ?_
  unfold sysWriteEnd
  simp only [hn, Logged.lift_bind, if_pos (show unseekable n from Or.inl htty)]
  show Except.ok (((len.signExtend 64).setWidth 32, _), []) = _
  rw [hback]

/-- `errno.h`. -/
def errnoCode : Errno → BitVec 64
  | .enoent => 2
  | .ebadf => 9
  | .ebusy => 16
  | .exdev => 18
  | .enotdir => 20
  | .einval => 22

/-- A task with its standard files on the node `n`. -/
def stdioTask (n : VfsNode Addr Addr) : OpenFiles Ktty where
  files := [0x1000, 0x1000, 0x1000, 0, 0, 0, 0, 0, 0, 0, 0, 0, 0, 0, 0, 0]
  files_length := rfl
  descs := fun _ => ⟨0x2000, 0, 0⟩
  heap := fun a => if a = 0x2000 then some (.node n) else none
  rest := ⟨fun _ => 0, 0, 7⟩

/-- `tty_init`. -/
def ttyNode : VfsNode Addr Addr := ⟨[0x74, 0x74, 0x79], 660, 0x84, 0, 0, 0, 0, 0, .tty, 0⟩

/-- A file, on a disk that takes nothing. -/
def fileNode : VfsNode Addr Addr := ⟨[], 0, 1, 0, 0, 11, 0, 0, .ext2, 0⟩

/-- `tty_write`, and an `ext2_write` that takes nothing. -/
def screenDrivers : Drv → Option (WriteFn Ktty)
  | .tty => some (ttyWrite 0xB8000 fun _ => 0x41)
  | .ext2 => some fun _ h k => .ok (.error .einval, h, k)
  | _ => none

theorem stdio_opens (n : VfsNode Addr Addr) : (stdioTask n).opens 1 0x1000 :=
  ⟨by decide, rfl, by decide⟩

/-- Five bytes to standard output. -/
theorem write_honest_stdout :
    WriteHonest errnoCode screenDrivers (stdioTask ttyNode) 1 0x400000 5 ↔
      writeMeets screenDrivers (stdioTask ttyNode) 1 0x400000 5 :=
  write_honest_iff errnoCode (by intro e; cases e <;> decide) screenDrivers (stdioTask ttyNode) 1
    0x400000 5

/-- The entry behind the table, a negative length for standard output, and an error. -/
theorem write_not_honest :
    ¬ WriteHonest errnoCode screenDrivers (stdioTask ttyNode) 16 0x400000 5 ∧
      ¬ WriteHonest errnoCode screenDrivers (stdioTask ttyNode) 1 0x400000 (-1) ∧
      ¬ WriteHonest errnoCode screenDrivers (stdioTask fileNode) 1 0x400000 5 := by
  refine ⟨fun h => ?_, fun h => ?_, fun h => ?_⟩
  · have hbehind : sysWrite errnoCode screenDrivers (stdioTask ttyNode) 16 0x400000 5 =
        Except.error .outOfBounds := sysWrite_behind rfl
    cases hbehind.symm.trans (h.outside (by decide))
  · obtain ⟨e, t', hret⟩ := h.negative (by decide)
    rcases noDriver_of_silent (stdio_opens ttyNode) hret with h0 | ⟨n, hn, hnone⟩
    · exact absurd h0 (by decide)
    · cases hn
      cases hnone
  · have hcall : (vfsWrite screenDrivers (stdioTask fileNode).heap (stdioTask fileNode).rest
        ((stdioTask fileNode).request 0x1000 0x400000 5)).Returns
          (.error .einval, (stdioTask fileNode).heap, (stdioTask fileNode).rest)
          [(stdioTask fileNode).request 0x1000 0x400000 5] := rfl
    obtain ⟨r, t', hret, hoff⟩ := h.failed _ (stdio_opens fileNode) _ _ _ _ hcall
    have hreal : (sysWrite errnoCode screenDrivers (stdioTask fileNode) 1 0x400000 5).Returns
        (22, { stdioTask fileNode with descs := fun g =>
          if g = 0x1000 then ⟨0x2000, 22, 0⟩ else ⟨0x2000, 0, 0⟩ })
        [(stdioTask fileNode).request 0x1000 0x400000 5] := rfl
    cases hret.symm.trans hreal
    exact absurd hoff (by decide)

end OS64.Sys
