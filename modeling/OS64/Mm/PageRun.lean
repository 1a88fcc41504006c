import OS64.Mm.Page

/-!
# What the functions of `mm/page.c` do alone on the processor

The walk of the processor through the four levels is `follow Pte.next`; an entry
leads on while its present bit is set. A page is named by its path, the four
indices of its address.

Each function gets one lemma here that says what it does to the state; the
modules above use these and do not look into the programs again. `closed` is what
every use of the window leaves behind: an empty slot, and interrupts on where the
counter of `intr_disable` is zero.
-/

namespace OS64.Mm

open OS64.Lib

/-! ## Descriptors -/

/-- Where the processor goes from an entry. -/
def Pte.next (e : Pte) : Option Frame := if e.present then some e.address else none

/-- The path of a virtual address. -/
def pagePath (v : BitVec 64) : List (BitVec 9) :=
  [linearIndex 3 v, linearIndex 2 v, linearIndex 1 v, linearIndex 0 v]

/-- The path of the kernel's page table. -/
def kernelPath : List (BitVec 9) := [511, 511, 0]

/-- The path of `TMP_MOUNT_ADDR`. -/
def windowPath : List (BitVec 9) := kernelPath ++ [0]

example : pagePath 0xFFFFFFFFC0000000#64 = windowPath := by decide

theorem Pte.next_eq_some {e : Pte} {f : Frame} :
    e.next = some f ↔ e.present = true ∧ e.address = f := by
  unfold Pte.next
  by_cases h : e.present <;> simp [h]

theorem Pte.next_eq_none {e : Pte} : e.next = none ↔ e.present = false := by
  unfold Pte.next
  by_cases h : e.present <;> simp [h]

theorem Pte.present_ne_zero {e : Pte} (h : e.present = true) : e ≠ 0 := by
  rintro rfl
  exact absurd h (by decide)

@[simp] theorem Pte.next_zero : Pte.next (0 : Pte) = none := by decide

theorem address_getLsbD (e : Pte) {i : Nat} (hi : i < 40) :
    e.address.getLsbD i = BitVec.getLsbD e (12 + i) := by
  simp [Pte.address, hi]

theorem frameAddr_getLsbD (f : Frame) {i : Nat} (hi : i < 64) :
    (frameAddr f).getLsbD i = (decide (12 ≤ i) && f.getLsbD (i - 12)) := by
  by_cases h : i < 12
  · simp [frameAddr, h]
  · simp [frameAddr, h, hi, show 12 ≤ i by omega]

@[simp] theorem frameOf_frameAddr (f : Frame) : frameOf (frameAddr f) = f := by
  apply BitVec.eq_of_getLsbD_eq
  intro i hi
  rw [frameOf, BitVec.getLsbD_extractLsb', frameAddr_getLsbD f (by omega)]
  simp [hi]

/-- The bits of a descriptor: flags, then the address. -/
theorem pteOf_getLsbD (phys : BitVec 64) (flags : BitVec 12) {i : Nat} (hi : i < 64) :
    (pteOf phys flags).getLsbD i =
      if i < 12 then flags.getLsbD i else (frameOf phys).getLsbD (i - 12) := by
  rw [pteOf, BitVec.getLsbD_or, frameAddr_getLsbD _ hi, BitVec.getLsbD_setWidth]
  by_cases h : i < 12
  · simp [h, hi]
  · simp [h, show 12 ≤ i by omega]

@[simp] theorem Pte.address_pteOf (phys : BitVec 64) (flags : BitVec 12) :
    (pteOf phys flags).address = frameOf phys := by
  apply BitVec.eq_of_getLsbD_eq
  intro i hi
  rw [address_getLsbD _ hi, pteOf_getLsbD _ _ (by omega)]
  simp

theorem Pte.setR3_getLsbD (e : Pte) (b : Bool) {i : Nat} (hi : i < 64) :
    BitVec.getLsbD (e.setR3 b) i = if i = 2 then b else BitVec.getLsbD e i := by
  have h4 : ∀ k, (4#64).getLsbD k = decide (k = 2) := by
    intro k
    rw [show (4#64) = 1#64 <<< 2 from rfl, BitVec.getLsbD_shiftLeft, BitVec.getLsbD_one]
    rcases Nat.lt_trichotomy k 2 with h | rfl | h
    · simp [h, show k ≠ 2 by omega]
    · simp
    · simp [show ¬ k < 2 by omega, show k ≠ 2 by omega, show k - 2 ≠ 0 by omega]
  have hb : (if b then 4#64 else 0#64).getLsbD i = (b && decide (i = 2)) := by
    cases b <;> simp [h4]
  rw [Pte.setR3, BitVec.getLsbD_or, BitVec.getLsbD_and, BitVec.getLsbD_not, h4, hb]
  by_cases h2 : i = 2
  · simp [h2]
  · simp [h2, hi]

@[simp] theorem Pte.address_setR3 (e : Pte) (b : Bool) : (e.setR3 b).address = e.address := by
  apply BitVec.eq_of_getLsbD_eq
  intro i hi
  rw [address_getLsbD _ hi, address_getLsbD _ hi, Pte.setR3_getLsbD _ _ (by omega),
    if_neg (by omega)]

@[simp] theorem Pte.present_setR3 (e : Pte) (b : Bool) : (e.setR3 b).present = e.present := by
  rw [Pte.present, Pte.setR3_getLsbD _ _ (by omega), if_neg (by omega), Pte.present]

@[simp] theorem frameOf_base (e : Pte) : frameOf e.base = e.address := by
  apply BitVec.eq_of_getLsbD_eq
  intro i hi
  have hmask : (0xFFFFFFFFFFFFF000#64).getLsbD (12 + i) = true := by
    revert i
    decide +kernel
  rw [frameOf, BitVec.getLsbD_extractLsb', Pte.base, BitVec.getLsbD_and, hmask,
    address_getLsbD _ hi]
  simp [hi]

/-- A descriptor made for a frame leads to that frame. -/
theorem Pte.next_pteOf (phys : BitVec 64) {flags : BitVec 12} (h : flags.getLsbD 0 = true) :
    (pteOf phys flags).next = some (frameOf phys) := by
  rw [Pte.next_eq_some]
  exact ⟨by rw [Pte.present, pteOf_getLsbD _ _ (by omega)]; exact h, Pte.address_pteOf _ _⟩

@[simp] theorem Pte.next_setR3 (e : Pte) (b : Bool) : (e.setR3 b).next = e.next := by
  simp [Pte.next]

/-! ## The window -/

/-- `mem[f][i] = e`. -/
def PageState.put (s : PageState) (f : Frame) (i : BitVec 9) (e : Pte) : PageState :=
  { s with mem := setEntry s.mem f i e }

/-- The window on the frame of `phys`. -/
def PageState.mounted (s : PageState) (phys : BitVec 64) : PageState :=
  { s.setSlot (calcPage phys) with intf := decide (s.sema = 0) }

/-- The window closed again. -/
def PageState.closed (s : PageState) : PageState :=
  { s.setSlot 0 with intf := decide (s.sema = 0) }

@[simp] theorem slot_setSlot (s : PageState) (e : Pte) : (s.setSlot e).slot = e :=
  setEntry_same s.mem s.kptFrame 0 e

@[simp] theorem window_mounted (s : PageState) (phys : BitVec 64) :
    (s.mounted phys).window = frameOf phys := by
  show (s.setSlot (calcPage phys)).slot.address = _
  rw [slot_setSlot]
  exact Pte.address_pteOf phys _

/-- A halt that returns changes nothing. -/
theorem run_onZero_hlt (n : BitVec 8) (s : PageState) :
    (onZero n (perform .hlt)).run pageExec s = ((), s) := by
  unfold onZero
  split <;> rfl

theorem run_onZero_sti (n : BitVec 8) (s : PageState) :
    (onZero n (perform .sti)).run pageExec s = ((), { s with intf := s.intf || decide (n = 0) }) := by
  unfold onZero
  by_cases h : n = 0
  · rw [if_pos h, decide_eq_true h, Bool.or_true]
    rfl
  · rw [if_neg h, decide_eq_false h, Bool.or_false]
    rfl

theorem run_intrDisable (s : PageState) :
    intrDisable.run pageExec s = ((), { s with sema := s.sema + 1, intf := false }) := rfl

theorem run_intrEnable (s : PageState) : intrEnable.run pageExec s =
    ((), { s with sema := s.sema - 1, intf := s.intf || decide (s.sema - 1 = 0) }) := by
  show (onZero s.sema (perform .hlt) >>= fun _ => _).run pageExec s = _
  rw [Prog.run_bind, run_onZero_hlt]
  exact run_onZero_sti _ _

@[simp] theorem run_mountPageT (phys : BitVec 64) (s : PageState) :
    (mountPageT phys).run pageExec s = ((), s.mounted phys) := by
  have hsub : s.sema + 1 - 1 = s.sema := by bv_omega
  unfold mountPageT
  rw [Prog.run_bind, run_intrDisable]
  refine (run_intrEnable _).trans ?_
  show _ = ((), { s.setSlot (calcPage phys) with intf := decide (s.sema = 0) })
  simp only [pageExec, PageState.setSlot, hsub, Bool.false_or]
  rfl

@[simp] theorem run_umountPageT (s : PageState) :
    umountPageT.run pageExec s = ((), s.setSlot 0) := rfl

/-- The closing of the window forgets what stood in the slot. -/
theorem setEntry_slot (m : Frame → Page) (k f : Frame) (i : BitVec 9) (a b : Pte) :
    setEntry (setEntry (setEntry m k 0 a) f i b) k 0 0 = setEntry (setEntry m f i b) k 0 0 := by
  funext g j
  unfold setEntry
  by_cases hk : g = k ∧ j = 0
  · rw [if_pos hk, if_pos hk]
  · rw [if_neg hk, if_neg hk, if_neg hk]

@[simp] theorem setSlot_mounted (s : PageState) (phys : BitVec 64) :
    (s.mounted phys).setSlot 0 = s.closed := by
  show ({ s with mem := setEntry (setEntry s.mem s.kptFrame 0 _) s.kptFrame 0 0,
                 intf := decide (s.sema = 0) } : PageState) = s.closed
  rw [setEntry_setEntry]
  rfl

/-- A write while the window is open, and the closing. -/
theorem mounted_put_setSlot (s : PageState) (phys : BitVec 64) (f : Frame) (i : BitVec 9) (e : Pte) :
    ((s.mounted phys).put f i e).setSlot 0 = (s.put f i e).closed := by
  show ({ s with mem := setEntry (setEntry (setEntry s.mem s.kptFrame 0 _) f i e) s.kptFrame 0 0,
                 intf := decide (s.sema = 0) } : PageState) = _
  rw [setEntry_slot]
  rfl

/-- What the window shows, the slot itself aside. -/
theorem mounted_mem {s : PageState} {phys : BitVec 64} {f : Frame} {i : BitVec 9}
    (h : f ≠ s.kptFrame ∨ i ≠ 0) : (s.mounted phys).mem f i = s.mem f i := by
  apply setEntry_other
  rintro ⟨hf, hi⟩
  exact h.elim (fun hh => hh hf) fun hh => hh hi

@[simp] theorem closed_phys (s : PageState) : s.closed.phys = s.phys := rfl

@[simp] theorem closed_pml4 (s : PageState) : s.closed.pml4 = s.pml4 := rfl

@[simp] theorem closed_kptFrame (s : PageState) : s.closed.kptFrame = s.kptFrame := rfl

theorem closed_mem_other {s : PageState} {f : Frame} {i : BitVec 9} (h : f ≠ s.kptFrame ∨ i ≠ 0) :
    s.closed.mem f i = s.mem f i := by
  apply setEntry_other
  rintro ⟨hf, hi⟩
  exact h.elim (fun hh => hh hf) fun hh => hh hi

/-! ## Taking a frame -/

/-- The frames `alloc_phys_page` may return. -/
def PageState.free (s : PageState) (f : Frame) : Prop := allocatable s.phys f.toNat

/-- What `alloc_phys_page` returns. -/
def PageState.allocAddr (s : PageState) : BitVec 64 := BitVec.ofNat 64 (allocPhysPage s.phys).1

/-- The state after `alloc_phys_page`. -/
def PageState.alloc (s : PageState) : PageState := { s with phys := (allocPhysPage s.phys).2 }

@[simp] theorem alloc_mem (s : PageState) : s.alloc.mem = s.mem := rfl

@[simp] theorem alloc_pml4 (s : PageState) : s.alloc.pml4 = s.pml4 := rfl

@[simp] theorem alloc_kptFrame (s : PageState) : s.alloc.kptFrame = s.kptFrame := rfl

/-- An allocation that succeeds takes a free frame, and no other. -/
theorem alloc_spec {s : PageState} (h : s.allocAddr ≠ 0) :
    ∃ f, s.free f ∧ s.allocAddr = frameAddr f ∧ f ≠ 0 ∧ ∀ g, s.alloc.free g ↔ s.free g ∧ g ≠ f := by
  rcases allocPhysPage_cases s.phys with ⟨-, heq⟩ | ⟨p, phys', hp, -, heq, hsize, hused⟩
  · refine absurd ?_ h
    rw [PageState.allocAddr, heq]
    rfl
  · have hlt : p < 2 ^ 40 := by
      have h1 := hp.2.1
      have h2 := s.phys.size_le
      omega
    have hpnat : (BitVec.ofNat 40 p).toNat = p := by
      rw [BitVec.toNat_ofNat]
      omega
    have hge := hp.1
    refine ⟨BitVec.ofNat 40 p, ?_, ?_, ?_, ?_⟩
    · rw [PageState.free, hpnat]
      exact hp
    · rw [PageState.allocAddr, heq]
      apply BitVec.eq_of_toNat_eq
      rw [frameAddr, BitVec.toNat_shiftLeft, BitVec.toNat_setWidth, hpnat, BitVec.toNat_ofNat,
        Nat.shiftLeft_eq]
      omega
    · intro h0
      have h00 : (BitVec.ofNat 40 p).toNat = 0 := by rw [h0]; rfl
      omega
    · intro g
      have hne : g ≠ BitVec.ofNat 40 p ↔ g.toNat ≠ p := by
        rw [not_iff_not, ← BitVec.toNat_inj, hpnat]
      rw [PageState.free, PageState.free, PageState.alloc, heq, hne]
      unfold allocatable
      rw [hsize, hused, Bool.or_eq_false_iff, decide_eq_false_iff_not]
      tauto

/-- The descriptor of a frame just taken for a table. -/
def PageState.newTable (s : PageState) (ph : Pte) : Pte :=
  (pteOf s.allocAddr 3#12).setR3 ph.r3Access

/-- The state after entry `i` of `f` was found empty and a table hung there. -/
def PageState.linked (s : PageState) (f : Frame) (i : BitVec 9) (ph : Pte) : PageState :=
  (s.alloc.put f i (s.newTable ph)).closed

/-! ## The levels of a walk -/

theorem run_mountLevel {s : PageState} {table : BitVec 64} {i : BitVec 9} {ph : Pte}
    (h : frameOf table ≠ s.kptFrame ∨ i ≠ 0) :
    (mountLevel table i ph).run pageExec s =
      if s.mem (frameOf table) i = 0 then (s.newTable ph, s.linked (frameOf table) i ph)
      else (s.mem (frameOf table) i, s.closed) := by
  have hread : (s.mounted table).mem (s.mounted table).window i = s.mem (frameOf table) i := by
    rw [window_mounted, mounted_mem h]
  unfold mountLevel
  rw [Prog.run_bind, run_mountPageT]
  show (if (s.mounted table).mem (s.mounted table).window i = 0 then _ else _ :
    PageProg Pte).run pageExec (s.mounted table) = _
  rw [hread]
  by_cases h0 : s.mem (frameOf table) i = 0
  · rw [if_pos h0, if_pos h0]
    refine Prod.ext rfl ?_
    show PageState.setSlot ((s.mounted table).alloc.put (s.mounted table).window i _) 0 = _
    rw [window_mounted]
    exact mounted_put_setSlot s.alloc table (frameOf table) i (s.newTable ph)
  · rw [if_neg h0, if_neg h0]
    exact Prod.ext hread (setSlot_mounted s table)

/-- The end of `mount_page_do`: an entry written through the window. -/
theorem run_mountLast (table : BitVec 64) (i : BitVec 9) (ph : Pte) (s : PageState) :
    (do mountPageT table
        perform (.writeEntry i ph)
        umountPageT : PageProg Unit).run pageExec s =
      ((), (s.put (frameOf table) i ph).closed) := by
  rw [Prog.run_bind, run_mountPageT]
  show ((), PageState.setSlot ((s.mounted table).put (s.mounted table).window i ph) 0) = _
  rw [window_mounted, mounted_put_setSlot]

/-! ## Allocations that succeed -/

/-- No call of `alloc_phys_page` returns 0. -/
def allocOk : (o : PageOp) → o.Res → Prop
  | .allocPhysPage, p => p ≠ 0
  | _, _ => True

instance : ∀ o r, Decidable (allocOk o r)
  | .allocPhysPage, p => inferInstanceAs (Decidable (¬ (p : BitVec 64) = 0))
  | .getSema, _ | .setSema _, _ | .cli, _ | .sti, _ | .hlt, _ | .mountSlot _, _ | .clearSlot, _
  | .invlpg, _ | .readEntry _, _ | .writeEntry _ _, _ | .readWindow, _ | .writeWindow _, _
  | .getPml4, _ | .getKernelPt, _ | .getCr3, _ | .setCr3 _, _ => .isTrue trivial

/-- Every allocation of the run succeeds. -/
abbrev AllocsOk {α : Type} (p : PageProg α) (s : PageState) : Prop := p.Always pageExec allocOk s

theorem allocsOk_onZero {o : PageProg Unit} (ho : ∀ s, AllocsOk o s) (n : BitVec 8)
    (s : PageState) : AllocsOk (onZero n o) s := by
  unfold onZero
  split
  · exact ho s
  · trivial

theorem allocsOk_intrEnable (s : PageState) : AllocsOk intrEnable s := by
  have hhlt : ∀ s, AllocsOk (perform .hlt) s := fun _ => ⟨trivial, trivial⟩
  have hsti : ∀ s, AllocsOk (perform .sti) s := fun _ => ⟨trivial, trivial⟩
  refine ⟨trivial, ?_⟩
  show AllocsOk (onZero s.sema (perform .hlt) >>= fun _ => _) s
  rw [AllocsOk, Prog.always_bind]
  exact ⟨allocsOk_onZero hhlt _ _, trivial, trivial, allocsOk_onZero hsti _ _⟩

@[simp] theorem allocsOk_mountPageT (phys : BitVec 64) (s : PageState) :
    AllocsOk (mountPageT phys) s :=
  (Prog.always_bind _ _ _).mpr ⟨⟨trivial, trivial, trivial, trivial⟩, trivial, trivial,
    allocsOk_intrEnable _⟩

theorem allocsOk_mountLevel {s : PageState} {table : BitVec 64} {i : BitVec 9} {ph : Pte}
    (h : frameOf table ≠ s.kptFrame ∨ i ≠ 0) :
    AllocsOk (mountLevel table i ph) s ↔ (s.mem (frameOf table) i = 0 → s.allocAddr ≠ 0) := by
  have hread : (s.mounted table).mem (s.mounted table).window i = s.mem (frameOf table) i := by
    rw [window_mounted, mounted_mem h]
  unfold mountLevel
  rw [AllocsOk, Prog.always_bind, run_mountPageT]
  show AllocsOk (mountPageT table) s ∧ True ∧ Prog.Always pageExec allocOk
    (if (s.mounted table).mem (s.mounted table).window i = 0 then _ else _) (s.mounted table) ↔ _
  rw [hread]
  by_cases h0 : s.mem (frameOf table) i = 0
  · rw [if_pos h0]
    constructor
    · intro hh _
      exact hh.2.2.1
    · intro hh
      exact ⟨allocsOk_mountPageT _ _, trivial, hh h0, trivial, trivial, trivial, trivial⟩
  · rw [if_neg h0]
    constructor
    · intro _ hh
      exact absurd hh h0
    · intro _
      exact ⟨allocsOk_mountPageT _ _, trivial, trivial, trivial, trivial⟩

end OS64.Mm
