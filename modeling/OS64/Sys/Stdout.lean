import OS64.Sys.SysWrite
import OS64.X86.Start

/-!
# The output of a program

The table of a program that `start_process` has started holds one descriptor three times, that of
the console. `sys_write` is all that a program can do with it: the calls that would open another
file, or close or move this one, only return.

`stdout_shows` says what becomes of the calls of `sys_write` of such a program, whatever their
numbers and lengths are, and what the screen shows then.
-/

namespace OS64.Sys

open OS64.Fs OS64.Lib
open OS64.Kernel (Ktty Tasks maxCpuNr kttyPuts kttyClear terminalPutc screenHeight screenWidth
  screenSize cellAt Shows)

/-- A call of `sys_write`, and the memory of the program at that time. -/
structure Call where
  file : BitVec 32
  ptr : Addr
  len : BitVec 32
  mem : Addr → BitVec 8

namespace Call

/-- 0, 1 or 2. -/
def stdio (q : Call) : Prop := q.file.toNat < 3

instance (q : Call) : Decidable q.stdio := inferInstanceAs (Decidable (_ < _))

/-- The call is not for the entry behind the table, and one that gets to the console has no
negative length. -/
def comesBack (q : Call) : Prop :=
  q.file ≠ BitVec.ofNat 32 maxOpenFiles ∧ (q.stdio → q.len.toNat < 2 ^ 31)

instance (q : Call) : Decidable q.comesBack := inferInstanceAs (Decidable (_ ∧ _))

/-- What it returns. -/
def answer (code : Errno → BitVec 64) (q : Call) : BitVec 32 :=
  if q.stdio then q.len else (code .ebadf).setWidth 32

/-- What it brings to the console. -/
def text (q : Call) : List (BitVec 8) :=
  if q.stdio then ttyBytes q.mem q.ptr q.len.toNat else []

end Call

section Code

variable (code : Errno → BitVec 64) (write : (Addr → BitVec 8) → Drv → Option (WriteFn Ktty))

/-- Calls one after the other, with what they return. -/
def writeAll : OpenFiles Ktty → List Call →
    Logged Stop WriteCall (List (BitVec 32) × OpenFiles Ktty)
  | t, [] => pure ([], t)
  | t, q :: qs => do
    let a ← sysWrite code (write q.mem) t q.file q.ptr q.len
    let b ← writeAll a.2 qs
    pure (a.1 :: b.1, b.2)

end Code

/-- The table as `start_process` leaves it, with the console at `f`: the only descriptor, and never
moved. -/
structure StdioOnly (t : OpenFiles Ktty) (f : Addr) (n : VfsNode Addr Addr) : Prop where
  stdio : ∀ i, i < 3 → t.file i = .ok f
  others : ∀ i, 3 ≤ i → i < maxOpenFiles → t.file i = .ok 0
  desc : f ≠ 0
  nonnull : (t.descs f).node ≠ 0
  node : t.heap.node (t.descs f).node = .ok n
  drv : n.drv = .tty
  tty : n.flags &&& vfsTty ≠ 0
  offset : (t.descs f).offset = 0

/-! ## One call -/

section Step

variable (code : Errno → BitVec 64) {write : (Addr → BitVec 8) → Drv → Option (WriteFn Ktty)}
  {base : Nat} {t : OpenFiles Ktty} {f : Addr} {n : VfsNode Addr Addr} {q : Call}

/-- The table does not depend on what the console shows. -/
theorem StdioOnly.rest (h : StdioOnly t f n) (k : Ktty) : StdioOnly { t with rest := k } f n :=
  ⟨h.stdio, h.others, h.desc, h.nonnull, h.node, h.drv, h.tty, h.offset⟩

theorem stdio_opens_iff (h : StdioOnly t f n) (file : BitVec 32) (g : Addr) :
    t.opens file g ↔ file.toNat < 3 ∧ g = f := by
  have hinTable : inTable file → file.toNat < maxOpenFiles := by
    intro hin
    obtain ⟨h0, h16⟩ := hin
    rw [BitVec.toInt_eq_toNat_cond] at h0 h16
    unfold maxOpenFiles at *
    split at h0 <;> omega
  constructor
  · intro hopen
    obtain ⟨hin, hg, hne⟩ := hopen
    by_cases h3 : file.toNat < 3
    · rw [h.stdio _ h3] at hg
      exact ⟨h3, (Except.ok.inj hg).symm⟩
    · rw [h.others _ (by omega) (hinTable hin)] at hg
      exact absurd (Except.ok.inj hg).symm hne
  · intro hstdio
    obtain ⟨h3, hg⟩ := hstdio
    refine ⟨?_, ?_, ?_⟩
    · unfold inTable maxOpenFiles
      rw [BitVec.toInt_eq_toNat_cond, if_pos (by omega)]
      omega
    · rw [hg]
      exact h.stdio _ h3
    · rw [hg]
      exact h.desc

/-- A call that comes back: it has the answer, and the console the text. -/
theorem call_returns (hwrite : ∀ mem, write mem .tty = some (ttyWrite base mem))
    (h : StdioOnly t f n) (hq : q.comesBack) :
    ∃ l, (sysWrite code (write q.mem) t q.file q.ptr q.len).Returns
      (q.answer code, { t with rest := kttyPuts base t.rest q.text }) l := by
  obtain ⟨hfile, hlen⟩ := hq
  unfold Call.answer Call.text
  by_cases hstdio : q.stdio
  · rw [if_pos hstdio, if_pos hstdio]
    have hopen := (stdio_opens_iff h q.file f).mpr ⟨hstdio, rfl⟩
    exact ⟨_, sysWrite_tty (hwrite q.mem) hopen h.nonnull h.node h.drv h.tty h.offset q.ptr
      (hlen hstdio)⟩
  · rw [if_neg hstdio, if_neg hstdio]
    exact ⟨[], sysWrite_unopened hfile fun g hg => hstdio ((stdio_opens_iff h q.file g).mp hg).1⟩

/-- Every other call does not come back: it reads behind the table, or the loop of `tty_write` does
not end. -/
theorem call_stays (hwrite : ∀ mem, write mem .tty = some (ttyWrite base mem))
    (h : StdioOnly t f n) (hq : ¬ q.comesBack) :
    ∃ e, sysWrite code (write q.mem) t q.file q.ptr q.len = Except.error e := by
  by_cases hfile : q.file = BitVec.ofNat 32 maxOpenFiles
  · exact ⟨_, sysWrite_behind hfile⟩
  · obtain ⟨hstdio, hlen⟩ : q.stdio ∧ 2 ^ 31 ≤ q.len.toNat := by
      by_contra hno
      exact hq ⟨hfile, fun hs => Nat.lt_of_not_le fun hl => hno ⟨hs, hl⟩⟩
    have hopen := (stdio_opens_iff h q.file f).mpr ⟨hstdio, rfl⟩
    have hsize : 2 ^ 31 ≤ (q.len.signExtend 64).toNat := by
      have hwidth := q.len.isLt
      rw [BitVec.toNat_signExtend, BitVec.toNat_setWidth]
      omega
    have hput : ttyWrite base q.mem (t.request f q.ptr q.len) t.heap t.rest = .error .running := by
      have hsize0 : (t.request f q.ptr q.len).size ≠ 0 := by
        intro h0
        rw [show q.len.signExtend 64 = 0 from h0] at hsize
        exact absurd hsize (by decide)
      unfold ttyWrite
      rw [if_neg (show ¬ (t.request f q.ptr q.len).node = 0 from h.nonnull),
        if_neg (not_not.mpr (show (t.request f q.ptr q.len).offset = 0 from h.offset)),
        if_neg hsize0, if_neg (show ¬ (t.request f q.ptr q.len).size.toNat < 2 ^ 31 from
          Nat.not_lt.mpr hsize)]
    have hdriver : driverWrite (write q.mem) n = some (ttyWrite base q.mem) := by
      rw [driverWrite, h.drv, if_neg (by decide), hwrite]
    refine ⟨.running, ?_⟩
    rw [sysWrite_opens hopen]
    unfold vfsWrite
    rw [if_neg (show ¬ (t.request f q.ptr q.len).node = 0 from h.nonnull),
      show t.heap.node (t.request f q.ptr q.len).node = .ok n from h.node, Logged.lift_bind]
    simp only [hdriver, hput]
    rfl

end Step

/-! ## All calls -/

section Run

variable (code : Errno → BitVec 64) {write : (Addr → BitVec 8) → Drv → Option (WriteFn Ktty)}
  {base : Nat} {f : Addr} {n : VfsNode Addr Addr}

theorem writeAll_returns (hwrite : ∀ mem, write mem .tty = some (ttyWrite base mem)) :
    ∀ (qs : List Call) {t : OpenFiles Ktty}, StdioOnly t f n → (∀ q ∈ qs, q.comesBack) →
      ∃ l, (writeAll code write t qs).Returns
        (qs.map (·.answer code),
          { t with rest := kttyPuts base t.rest (qs.flatMap (·.text)) }) l := by
  intro qs
  induction qs with
  | nil => exact fun _ _ => ⟨[], rfl⟩
  | cons q qs ih =>
    intro t h hqs
    obtain ⟨l, hcall⟩ := call_returns code hwrite h (hqs q List.mem_cons_self)
    obtain ⟨l', hrest⟩ := ih (h.rest (kttyPuts base t.rest q.text))
      fun q' hq' => hqs q' (List.mem_cons_of_mem _ hq')
    refine ⟨l ++ (l' ++ []), ?_⟩
    unfold writeAll
    refine Logged.bind_returns hcall (Logged.bind_returns hrest ?_)
    have hputs : kttyPuts base (kttyPuts base t.rest q.text) (qs.flatMap (·.text)) =
        kttyPuts base t.rest ((q :: qs).flatMap (·.text)) := by
      rw [List.flatMap_cons]
      exact (List.foldl_append ..).symm
    rw [hputs]
    rfl

theorem writeAll_stays (hwrite : ∀ mem, write mem .tty = some (ttyWrite base mem)) :
    ∀ (qs : List Call) {t : OpenFiles Ktty}, StdioOnly t f n →
      ∀ r l, (writeAll code write t qs).Returns r l → ∀ q ∈ qs, q.comesBack := by
  intro qs
  induction qs with
  | nil => exact fun _ _ _ _ q hq => absurd hq List.not_mem_nil
  | cons q qs ih =>
    intro t h r l hrun
    unfold writeAll at hrun
    obtain ⟨a, _, _, hcall, hrest, -⟩ := Logged.returns_bind hrun
    by_cases hq : q.comesBack
    · obtain ⟨_, hcall'⟩ := call_returns code hwrite h hq
      cases hcall.symm.trans hcall'
      obtain ⟨b, _, _, htail, -, -⟩ := Logged.returns_bind hrest
      have hqs := ih (h.rest _) b _ htail
      intro q' hq'
      rcases List.mem_cons.mp hq' with heq | hmem
      · rw [heq]
        exact hq
      · exact hqs q' hmem
    · obtain ⟨e, he⟩ := call_stays code hwrite h hq
      rw [he] at hcall
      cases hcall

end Run

/-! ## The screen -/

/-- The open files of the program that `start_process` makes of the task on the processor `id`,
`tty` being the node of the console, in the state `k`. -/
def startedFiles (s : Tasks) (id : Fin maxCpuNr) (entry stdio tty : Addr) (descs : Addr → OpenDesc)
    (heap : Heap) (k : Ktty) : OpenFiles Ktty where
  files := List.ofFn ((X86.startProcess s id entry stdio).heap (s.curr id)).files
  files_length := List.length_ofFn
  descs := fun a => if a = stdio then ⟨tty, 0, 0⟩ else descs a
  heap := heap
  rest := k

section Main

variable (s : Tasks) (id : Fin maxCpuNr) (entry stdio tty : Addr) (descs : Addr → OpenDesc)
  (heap : Heap) (k : Ktty) {n : VfsNode Addr Addr}

theorem startedFiles_stdio (hfree : ∀ i, 3 ≤ i.val → (s.heap (s.curr id)).files i = 0)
    (hstdio : stdio ≠ 0) (htty : tty ≠ 0) (hnode : heap.node tty = .ok n) (hdrv : n.drv = .tty)
    (hflag : n.flags &&& vfsTty ≠ 0) :
    StdioOnly (startedFiles s id entry stdio tty descs heap k) stdio n := by
  have hfile : ∀ i (hi : i < Kernel.maxOpenFiles),
      (startedFiles s id entry stdio tty descs heap k).file i =
        .ok (if i < 3 then stdio else (s.heap (s.curr id)).files ⟨i, hi⟩) := by
    intro i hi
    have hget : (startedFiles s id entry stdio tty descs heap k).files[i]? =
        some (if i < 3 then stdio else (s.heap (s.curr id)).files ⟨i, hi⟩) := by
      unfold startedFiles
      rw [List.getElem?_ofFn, dif_pos hi, X86.startProcess_heap, if_pos rfl]
    unfold OpenFiles.file
    rw [hget]
  have hdesc : (startedFiles s id entry stdio tty descs heap k).descs stdio = ⟨tty, 0, 0⟩ :=
    if_pos rfl
  refine ⟨?_, ?_, hstdio, ?_, ?_, hdrv, hflag, ?_⟩
  · intro i hi
    rw [hfile i (by unfold Kernel.maxOpenFiles; omega), if_pos hi]
  · intro i hi hi'
    rw [hfile i hi', if_neg (by omega), hfree _ hi]
  · rw [hdesc]
    exact htty
  · rw [hdesc]
    exact hnode
  · rw [hdesc]

/-- The calls of `sys_write` of a started program all come back just when none of them is for the
entry behind the table, and none for the console has a negative length. Each has then returned the
length it was called with, or `EBADF` for a number that is not open; the table is what it was; and
the screen shows the last 25 rows of what it showed before with the texts behind it, in their
order. -/
theorem stdout_shows {base : Nat} (code : Errno → BitVec 64)
    {write : (Addr → BitVec 8) → Drv → Option (WriteFn Ktty)}
    (hwrite : ∀ mem, write mem .tty = some (ttyWrite base mem))
    (hfree : ∀ i, 3 ≤ i.val → (s.heap (s.curr id)).files i = 0)
    (hstdio : stdio ≠ 0) (htty : tty ≠ 0) (hnode : heap.node tty = .ok n) (hdrv : n.drv = .tty)
    (hflag : n.flags &&& vfsTty ≠ 0) {u : Terminal (BitVec 8 × BitVec 8)} (hk : Shows base k u)
    (qs : List Call) :
    ((∃ r l,
        (writeAll code write (startedFiles s id entry stdio tty descs heap k) qs).Returns r l) ↔
      ∀ q ∈ qs, q.comesBack) ∧
    ∀ rs t l, (writeAll code write (startedFiles s id entry stdio tty descs heap k) qs).Returns
        (rs, t) l →
      rs = qs.map (·.answer code) ∧ t = startedFiles s id entry stdio tty descs heap t.rest ∧
      ∃ T, IsLeast {T | T ≤ ((qs.flatMap (·.text)).foldl (terminalPutc k.kttyAttribute) u).row ∧
          ((qs.flatMap (·.text)).foldl (terminalPutc k.kttyAttribute) u).row < T + screenHeight} T ∧
        t.rest.pos < screenSize ∧
        (∀ x, x < base ∨ base + screenSize * 2 ≤ x → t.rest.mem x = k.mem x) ∧
        ∀ r c, r < screenHeight → c < screenWidth → cellAt base t.rest.mem r c =
          ((qs.flatMap (·.text)).foldl (terminalPutc k.kttyAttribute) u).cells (T + r) c := by
  have hopen := startedFiles_stdio s id entry stdio tty descs heap k hfree hstdio htty hnode hdrv
    hflag
  refine ⟨⟨fun hret => ?_, fun hqs => ?_⟩, fun rs t l hret => ?_⟩
  · obtain ⟨r, l, hret⟩ := hret
    exact writeAll_stays code hwrite qs hopen r l hret
  · obtain ⟨l, hret⟩ := writeAll_returns code hwrite qs hopen hqs
    exact ⟨_, l, hret⟩
  · have hqs := writeAll_stays code hwrite qs hopen _ l hret
    obtain ⟨l', hret'⟩ := writeAll_returns code hwrite qs hopen hqs
    cases hret.symm.trans hret'
    obtain ⟨hshows, hframe⟩ := Kernel.puts_shows (qs.flatMap (·.text)) hk
    exact ⟨rfl, rfl, _, Terminal.top_isLeast (Nat.succ_pos _) _, Kernel.shows_pos hshows, hframe,
      hshows.shown⟩

end Main

/-- A program writes `hi` and a new line to standard output, and to a file it has not opened. -/
theorem stdout_shows_hi :
    ∃ t : OpenFiles Ktty, t.descs 0x50000 = ⟨0x2000, 0, 0⟩ ∧
      cellAt 0xB8000 t.rest.mem 0 0 = (0x68, 7) ∧ cellAt 0xB8000 t.rest.mem 0 1 = (0x69, 7) := by
  let hi : Addr → BitVec 8 := fun a =>
    if a = 0x400000 then 0x68 else if a = 0x400001 then 0x69 else 10
  let k : Ktty := kttyClear 0xB8000 ⟨fun _ => 0, 0, 7⟩
  let s : Tasks := ⟨fun _ => ⟨1, .zero, 0, 1, 0, fun _ => 0⟩, fun _ => 0x10000, 2⟩
  let heap : Heap := fun a => if a = 0x2000 then some (.node ttyNode) else none
  let write : (Addr → BitVec 8) → Drv → Option (WriteFn Ktty) := fun mem d =>
    if d = .tty then some (ttyWrite 0xB8000 mem) else none
  obtain ⟨hiff, hall⟩ := stdout_shows s 0 0x400000 0x50000 0x2000 (fun _ => ⟨0, 0, 0⟩) heap k
    errnoCode (show ∀ mem, write mem .tty = some (ttyWrite 0xB8000 mem) from fun _ => rfl)
    (fun _ _ => rfl) (by decide) (by decide) (show heap.node 0x2000 = .ok ttyNode from rfl) rfl
    (by decide) (Kernel.clear_shows _) [⟨1, 0x400000, 3, hi⟩, ⟨5, 0x400000, 3, hi⟩]
  obtain ⟨⟨rs, t⟩, l, hret⟩ := hiff.mpr (by decide)
  obtain ⟨-, ht, T, hT, -, -, hcells⟩ := hall rs t l hret
  have hT0 : T = 0 := Nat.le_zero.mp (hT.2 (by decide))
  refine ⟨t, ?_, ?_, ?_⟩
  · rw [ht]
    rfl
  · rw [hcells 0 0 (by decide) (by decide), hT0]
    decide
  · rw [hcells 0 1 (by decide) (by decide), hT0]
    decide

end OS64.Sys
