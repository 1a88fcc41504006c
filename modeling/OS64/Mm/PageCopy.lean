import OS64.Mm.PageInit

/-!
# Copying an address space

`copy_page` copies a table by copying what its 512 entries lead to and keeping
their low five flag bits; at depth 0 it copies the bytes of a page. It knows the
kernel's page table by its entry 0, which shows the table's own address exactly
while the table is in the window, and leaves that table shared.

`Copied k f f'` says that `f'` is such a copy of `f` of depth `k`. The proof goes
down the depth and along the loop at once: what was copied stays as it is, since
later steps write new frames and the slot alone (`CopyKeeps`).

The address of an entry is shifted in the 40 bits of its field. The frame that is
copied is therefore not the one the entry leads to, but the one whose number is the
lower 28 bits of it (`cutFrame`), and an entry with 0 there is taken for an empty one.
-/

namespace OS64.Mm

open OS64.Lib

/-! ## Shifted addresses -/

/-- The frame that a frame number shifted in 40 bits names. -/
def cutFrame (f : Frame) : Frame := (f.setWidth 28).setWidth 40

theorem cutFrame_getLsbD (f : Frame) {i : Nat} (hi : i < 40) :
    (cutFrame f).getLsbD i = (decide (i < 28) && f.getLsbD i) := by
  rw [cutFrame, BitVec.getLsbD_setWidth, BitVec.getLsbD_setWidth, decide_eq_true hi, Bool.true_and]

theorem Pte.addr_eq (e : Pte) : e.addr = frameAddr (cutFrame e.address) := by
  apply BitVec.eq_of_getLsbD_eq
  intro i hi
  rw [Pte.addr, BitVec.getLsbD_setWidth, BitVec.getLsbD_shiftLeft, frameAddr_getLsbD _ hi]
  by_cases hlow : i < 12
  · simp [hlow, show ¬ 12 ≤ i by omega]
  by_cases hin : i < 40
  · rw [cutFrame_getLsbD _ (by omega)]
    simp [hi, hin, hlow, show 12 ≤ i by omega, show i - 12 < 28 by omega]
  · have hout : (cutFrame e.address).getLsbD (i - 12) = false := by
      by_cases h52 : i < 52
      · rw [cutFrame_getLsbD _ (by omega)]
        simp [show ¬ i - 12 < 28 by omega]
      · exact BitVec.getLsbD_of_ge _ _ (by omega)
    simp [hin, hout]

theorem frameAddr_injective {f g : Frame} (h : frameAddr f = frameAddr g) : f = g := by
  rw [← frameOf_frameAddr f, h, frameOf_frameAddr]

theorem frameAddr_eq_zero {f : Frame} : frameAddr f = 0 ↔ f = 0 :=
  ⟨fun h => frameAddr_injective (h.trans rfl), fun h => by rw [h]; rfl⟩

theorem Pte.addr_eq_zero {e : Pte} : e.addr = 0 ↔ cutFrame e.address = 0 := by
  rw [Pte.addr_eq, frameAddr_eq_zero]

theorem frameOf_addr (e : Pte) : frameOf e.addr = cutFrame e.address := by
  rw [Pte.addr_eq, frameOf_frameAddr]

theorem cutFrame_eq {f : Frame} (h : f.toNat < 2 ^ 28) : cutFrame f = f := by
  apply BitVec.eq_of_toNat_eq
  rw [cutFrame, BitVec.toNat_setWidth, BitVec.toNat_setWidth, Nat.mod_eq_of_lt h,
    Nat.mod_eq_of_lt f.isLt]

/-- `kernel_pt & 0x0FFFFFFF` is a low address. -/
theorem cutFrame_kptFrame (s : PageState) : cutFrame s.kptFrame = s.kptFrame := by
  have hlow : (s.kernelPt &&& 0x0FFFFFFF#64).toNat < 2 ^ 28 := by
    rw [BitVec.toNat_and]
    exact Nat.lt_of_le_of_lt Nat.and_le_right (by decide)
  apply cutFrame_eq
  rw [PageState.kptFrame, frameOf, BitVec.extractLsb'_toNat, Nat.shiftRight_eq_div_pow]
  omega

/-! ## Pages through the window -/

/-- What `read_page` puts into the buffer: the frame, with the slot on it if it is `kernel_pt`. -/
theorem run_readPage (phys : BitVec 64) (s : PageState) :
    (readPage phys).run pageExec s = ((s.mounted phys).mem (frameOf phys), s.closed) := by
  unfold readPage
  rw [Prog.run_bind, run_mountPageT]
  show ((s.mounted phys).mem (s.mounted phys).window, (s.mounted phys).setSlot 0) = _
  rw [window_mounted, setSlot_mounted]

/-- A frame overwritten as a whole. -/
def PageState.putPage (s : PageState) (f : Frame) (p : Page) : PageState :=
  { s with mem := setPage s.mem f p }

/-- The closing of the window forgets what stood in the slot. -/
theorem setPage_slot (m : Frame → Page) (k f : Frame) (a : Pte) (p : Page) :
    setEntry (setPage (setEntry m k 0 a) f p) k 0 0 = setEntry (setPage m f p) k 0 0 := by
  funext g j
  by_cases hslot : g = k ∧ j = 0
  · rw [hslot.1, hslot.2, setEntry_same, setEntry_same]
  · rw [setEntry_other hslot, setEntry_other hslot]
    by_cases hg : g = f
    · rw [hg, setPage_same, setPage_same]
    · rw [setPage_other hg, setPage_other hg, setEntry_other hslot]

theorem run_writePage (phys : BitVec 64) (buf : Page) (s : PageState) :
    (writePage phys buf).run pageExec s = ((), (s.putPage (frameOf phys) buf).closed) := by
  unfold writePage
  rw [Prog.run_bind, run_mountPageT]
  show ((), ((s.mounted phys).putPage (s.mounted phys).window buf).setSlot 0) = _
  rw [window_mounted]
  refine Prod.ext rfl ?_
  show ({ s with mem := setEntry (setPage (setEntry s.mem s.kptFrame 0 _) (frameOf phys) buf)
                   s.kptFrame 0 0,
                 intf := decide (s.sema = 0) } : PageState) = _
  rw [setPage_slot]
  rfl

theorem run_copyOut (buf : Page) (s : PageState) :
    (copyOut buf).run pageExec s =
      (s.allocAddr, (s.alloc.putPage (frameOf s.allocAddr) buf).closed) := by
  show ((writePage s.allocAddr buf >>= fun _ => pure s.allocAddr).run pageExec s.alloc) = _
  rw [Prog.run_bind, run_writePage]
  rfl

/-! ## What copying leaves alone -/

/-- From `s` to `s'` frames were taken and written, and the slot was used; nothing else. -/
structure CopyKeeps (s s' : PageState) : Prop where
  pml4 : s'.pml4 = s.pml4
  kernelPt : s'.kernelPt = s.kernelPt
  free : ∀ g, s'.free g → s.free g
  mem : ∀ f i, ¬ s.free f → f ≠ s.kptFrame ∨ i ≠ 0 → s'.mem f i = s.mem f i

namespace CopyKeeps

variable {s s' s'' : PageState}

theorem kptFrame (h : CopyKeeps s s') : s'.kptFrame = s.kptFrame := by
  unfold PageState.kptFrame
  rw [h.kernelPt]

theorem refl (s : PageState) : CopyKeeps s s where
  pml4 := rfl
  kernelPt := rfl
  free _ h := h
  mem _ _ _ _ := rfl

theorem trans (h : CopyKeeps s s') (h' : CopyKeeps s' s'') : CopyKeeps s s'' where
  pml4 := h'.pml4.trans h.pml4
  kernelPt := h'.kernelPt.trans h.kernelPt
  free g hg := h.free g (h'.free g hg)
  mem f i hf hi := by
    rw [h'.mem f i (fun hh => hf (h.free f hh)) (by rw [h.kptFrame]; exact hi), h.mem f i hf hi]

/-- A taken frame other than `kernel_pt` holds what it held. -/
theorem page (h : CopyKeeps s s') {f : Frame} (hf : ¬ s.free f) (hk : f ≠ s.kptFrame) :
    s'.mem f = s.mem f := by
  funext i
  exact h.mem f i hf (Or.inl hk)

end CopyKeeps

theorem copyKeeps_closed (s : PageState) : CopyKeeps s s.closed where
  pml4 := rfl
  kernelPt := rfl
  free _ h := h
  mem _ _ _ hi := closed_mem_other hi

/-- A buffer written to a new frame. -/
theorem copyKeeps_copyOut (buf : Page) {s : PageState} (hok : s.allocAddr ≠ 0) :
    CopyKeeps s ((copyOut buf).run pageExec s).2 ∧
    ∃ g, s.free g ∧ ¬ ((copyOut buf).run pageExec s).2.free g ∧
      ((copyOut buf).run pageExec s).1 = frameAddr g ∧
      (g ≠ s.kptFrame → ((copyOut buf).run pageExec s).2.mem g = buf) := by
  rw [run_copyOut]
  obtain ⟨g, hfree, haddr, -, hafter⟩ := alloc_spec hok
  have hg : frameOf s.allocAddr = g := by rw [haddr, frameOf_frameAddr]
  rw [hg]
  refine ⟨⟨rfl, rfl, fun u hu => ((hafter u).mp hu).1, ?_⟩, g, hfree,
    fun hh => ((hafter g).mp hh).2 rfl, haddr, ?_⟩
  · intro f i hf hi
    refine (closed_mem_other (s := s.alloc.putPage g buf) hi).trans ?_
    have hne : f ≠ g := fun hh => hf (hh ▸ hfree)
    exact congrFun (setPage_other hne) i
  · intro hk
    exact (setEntry_frame hk).trans (setPage_same _ _ _)

/-! ## Copied entries -/

theorem low5_getLsbD (e : Pte) {i : Nat} (hi : i < 64) :
    BitVec.getLsbD (e &&& 0x1F#64) i = (decide (i < 5) && BitVec.getLsbD e i) := by
  have hmask : (0x1F#64).getLsbD i = decide (i < 5) := by
    revert i
    decide +kernel
  rw [BitVec.getLsbD_and, hmask, Bool.and_comm]

/-- The new entry: low five flag bits of the old one, and the address of the copy. -/
theorem copyEntry_address (e : Pte) (g : Frame) :
    Pte.address ((e &&& 0x1F#64) ||| frameAddr g) = g := by
  apply BitVec.eq_of_getLsbD_eq
  intro i hi
  rw [address_getLsbD _ hi, BitVec.getLsbD_or, low5_getLsbD e (by omega),
    frameAddr_getLsbD g (by omega)]
  simp [show ¬ 12 + i < 5 by omega]

theorem copyEntry_flags (e : Pte) (g : Frame) :
    ((e &&& 0x1F#64) ||| frameAddr g) &&& 0x1F#64 = e &&& 0x1F#64 := by
  apply BitVec.eq_of_getLsbD_eq
  intro i hi
  rw [low5_getLsbD _ hi, BitVec.getLsbD_or, low5_getLsbD e hi, frameAddr_getLsbD g hi]
  by_cases h5 : i < 5
  · simp [h5, show ¬ 12 ≤ i by omega]
  · simp [h5]

/-- The present bit is one of the five. -/
theorem present_of_low5 {e e' : Pte} (h : e' &&& 0x1F#64 = e &&& 0x1F#64) :
    e'.present = e.present := by
  have hbit : BitVec.getLsbD (e' &&& 0x1F#64) 0 = BitVec.getLsbD (e &&& 0x1F#64) 0 := by rw [h]
  rw [low5_getLsbD e' (by omega), low5_getLsbD e (by omega)] at hbit
  exact hbit

/-- Entry `e'` is a copy of `e`: an empty one as it stands, any other with its low five flag
bits and, if it is present, an address in relation `C` to the one that is read. -/
def EntryCopied (C : Frame → Frame → Prop) (e e' : Pte) : Prop :=
  (e.addr = 0 → e' = e) ∧
  (e.addr ≠ 0 → e' &&& 0x1F#64 = e &&& 0x1F#64 ∧
    (e.present = true → C (cutFrame e.address) e'.address))

theorem EntryCopied.mono {C C' : Frame → Frame → Prop} {e e' : Pte} (h : EntryCopied C e e')
    (hC : ∀ f f', C f f' → C' f f') : EntryCopied C' e e' :=
  ⟨h.1, fun hne => ⟨(h.2 hne).1, fun hp => hC _ _ ((h.2 hne).2 hp)⟩⟩

/-- Taken between `s` and `s'`. -/
def PageState.newFrame (s s' : PageState) (f : Frame) : Prop := s.free f ∧ ¬ s'.free f

/-- A frame as `read_page` shows it. -/
def PageState.shown (s : PageState) (f : Frame) : Page := (s.mounted (frameAddr f)).mem f

/-- In `s'`, `f'` is a copy of depth `k` of what `f` was in `s`: a new frame with copies of the
entries, of the bytes shown at depth 0, or `kernel_pt` itself. -/
def Copied (s s' : PageState) : Nat → Frame → Frame → Prop
  | 0, f, f' => s.newFrame s' f' ∧ (¬ s.free f → s'.mem f' = s.shown f)
  | k + 1, f, f' =>
    (k = 0 ∧ f = s.kptFrame ∧ f' = f) ∨
    (f ≠ s.kptFrame ∧ s.newFrame s' f' ∧
      ∀ i, EntryCopied (Copied s s' k) (s.mem f i) (s'.mem f' i))

/-- A tree of depth `k` that `copy_page` copies as it should: its tables are taken, none but
the lowest is `kernel_pt`, and no other of these has the frame of `kernel_pt` in entry 0. -/
def CopyGood (s : PageState) : Nat → Frame → Prop
  | 0, _ => True
  | k + 1, f =>
    (k = 0 ∧ f = s.kptFrame ∧ f ≠ 0) ∨
    (¬ s.free f ∧ f ≠ s.kptFrame ∧
      (k = 0 → (s.mem f 0).addr ≠ 0 → cutFrame (s.mem f 0).address ≠ s.kptFrame) ∧
      ∀ i, (s.mem f i).present = true → (s.mem f i).addr ≠ 0 →
        CopyGood s k (cutFrame (s.mem f i).address))

/-- What holds of `kernel_pt` throughout. -/
structure KernelPt (s : PageState) : Prop where
  taken : ¬ s.free s.kptFrame
  aligned : s.kernelPt &&& 0x0FFFFFFF#64 = frameAddr s.kptFrame

/-- A copy is left alone by what follows. -/
theorem Copied.keeps {s s₁ s₂ : PageState} (hk : KernelPt s) (h₁ : CopyKeeps s s₁)
    (h₂ : CopyKeeps s₁ s₂) {k : Nat} {f f' : Frame} (h : Copied s s₁ k f f') : Copied s s₂ k f f' := by
  have hnew : ∀ g, s.newFrame s₁ g → s.newFrame s₂ g ∧ s₂.mem g = s₁.mem g := by
    intro g hg
    have hgk : g ≠ s₁.kptFrame := by
      rw [h₁.kptFrame]
      rintro rfl
      exact hk.taken hg.1
    exact ⟨⟨hg.1, fun hh => hg.2 (h₂.free g hh)⟩, h₂.page hg.2 hgk⟩
  induction k generalizing f f' with
  | zero =>
    obtain ⟨hnew₂, hmem⟩ := hnew f' h.1
    exact ⟨hnew₂, fun hf => hmem.trans (h.2 hf)⟩
  | succ k ih =>
    rcases h with hkpt | ⟨hne, hf', hentry⟩
    · exact Or.inl hkpt
    · obtain ⟨hnew₂, hmem⟩ := hnew f' hf'
      refine Or.inr ⟨hne, hnew₂, fun i => ?_⟩
      rw [hmem]
      exact (hentry i).mono fun u u' hu => ih hu

/-- A walk and its copy: the copy breaks off where the walk does, or they go along together and
end in a table and its copy, or the walk gets to a table that was taken for an empty entry, from
where on both are one. -/
theorem copied_walk {s s' : PageState} {p : List (BitVec 9)} {m : Nat} (hm : 1 ≤ m) {f f' : Frame}
    (h : Copied s s' (p.length + m) f f')
    (hplain : ∀ q u, q ≠ [] → q <+: p → s.walk f q = some u → cutFrame u = u ∨ cutFrame u = 0)
    (hkept : ∀ q u i, q.length < p.length → s.walk f q = some u → s'.mem u i = s.mem u i) :
    (s.walk f p = none ∧ s'.walk f' p = none) ∨
      (∃ u u', s.walk f p = some u ∧ s'.walk f' p = some u' ∧ Copied s s' m u u' ∧
        ∀ q t, q ≠ [] → q <+: p → s.walk f q = some t → cutFrame t ≠ 0) ∨
      (s'.walk f' p = s.walk f p ∧
        ∃ q t, q ≠ [] ∧ q <+: p ∧ s.walk f q = some t ∧ cutFrame t = 0) := by
  induction p generalizing f f' with
  | nil =>
    rw [List.length_nil, Nat.zero_add] at h
    refine Or.inr (Or.inl ⟨f, f', rfl, rfl, h, fun q t hne hq _ => ?_⟩)
    exact absurd (List.prefix_nil.mp hq) hne
  | cons i p ih =>
    have hlen : (i :: p).length + m = (p.length + m) + 1 := by
      rw [List.length_cons]
      omega
    rw [hlen] at h
    have hwalk (t : PageState) (g : Frame) (q : List (BitVec 9)) :
        t.walk g (i :: q) = (t.mem g i).next.bind fun u => t.walk u q := follow_cons g i q
    rcases h with ⟨hk, -, -⟩ | ⟨-, -, hentry⟩
    · omega
    have hstep := hentry i
    cases hnext : (s.mem f i).next with
    | none =>
      -- The present bit is copied in either case.
      have hnone : (s'.mem f' i).next = none := by
        rw [Pte.next_eq_none] at hnext ⊢
        by_cases haddr : (s.mem f i).addr = 0
        · rw [hstep.1 haddr, hnext]
        · rw [present_of_low5 (hstep.2 haddr).1, hnext]
      rw [hwalk, hwalk, hnext, hnone]
      exact Or.inl ⟨rfl, rfl⟩
    | some g =>
      obtain ⟨hpresent, hg⟩ := Pte.next_eq_some.mp hnext
      have hthrough (q : List (BitVec 9)) : s.walk f (i :: q) = s.walk g q := by
        rw [hwalk, hnext]
        rfl
      have hfirst : s.walk f [i] = some g := hthrough []
      have hbegin : [i] <+: i :: p := ⟨p, rfl⟩
      have hlater (q : List (BitVec 9)) (u : Frame) (j : BitVec 9) (hq : q.length < p.length)
          (hu : s.walk g q = some u) : s'.mem u j = s.mem u j := by
        refine hkept (i :: q) u j ?_ ((hthrough q).trans hu)
        rw [List.length_cons, List.length_cons]
        omega
      by_cases hg0 : cutFrame g = 0
      · -- An entry that is taken for an empty one stays, and so does what it leads to.
        have hsame := hstep.1 (Pte.addr_eq_zero.mpr (by rw [hg]; exact hg0))
        refine Or.inr (Or.inr ⟨?_, [i], g, List.cons_ne_nil _ _, hbegin, hfirst, hg0⟩)
        rw [hwalk, hsame, hnext, hthrough]
        refine follow_congr g p fun q j r u hq hu => ?_
        rw [hlater q u j (by simp [hq]) hu]
      have hcut := (hplain [i] g (List.cons_ne_nil _ _) hbegin hfirst).resolve_right hg0
      obtain ⟨hflags, hcopy⟩ := hstep.2 fun hh => hg0 (hg ▸ Pte.addr_eq_zero.mp hh)
      have hnext' : (s'.mem f' i).next = some (s'.mem f' i).address :=
        Pte.next_eq_some.mpr ⟨(present_of_low5 hflags).trans hpresent, rfl⟩
      have hthrough' : s'.walk f' (i :: p) = s'.walk (s'.mem f' i).address p := by
        rw [hwalk, hnext']
        rfl
      have hsub := hcopy hpresent
      rw [hg, hcut] at hsub
      rw [hthrough, hthrough']
      rcases ih hsub (fun q u hne hq hu => hplain (i :: q) u (List.cons_ne_nil _ _)
        (List.cons_prefix_cons.mpr ⟨rfl, hq⟩) ((hthrough q).trans hu)) hlater with
        hnone | ⟨u, u', hu, hu', hc, hnonzero⟩ | ⟨hsame, q, u, hne, hq, hu, hzero⟩
      · exact Or.inl hnone
      · refine Or.inr (Or.inl ⟨u, u', hu, hu', hc, fun q t hne hq ht => ?_⟩)
        obtain ⟨j, r, rfl⟩ := List.exists_cons_of_ne_nil hne
        obtain ⟨rfl, hr⟩ := List.cons_prefix_cons.mp hq
        by_cases hnil : r = []
        · rw [hnil] at ht
          cases hfirst.symm.trans ht
          exact hg0
        · exact hnonzero r t hnil hr ((hthrough r).symm.trans ht)
      · exact Or.inr (Or.inr ⟨hsame, i :: q, u, List.cons_ne_nil _ _,
          List.cons_prefix_cons.mpr ⟨rfl, hq⟩, (hthrough q).trans hu, hzero⟩)

/-! ## The loop -/

/-- A copy of what `copy_page` was asked for, where that can be copied. -/
def CopyDone (s s' : PageState) (k : Nat) (f f' : Frame) : Prop :=
  CopyGood s k f → Copied s s' k f f'

/-- What the call for the next depth does. -/
def CopySpec (s : PageState) (copy : BitVec 64 → PageProg (BitVec 64)) (k : Nat) : Prop :=
  ∀ phys s₁, CopyKeeps s s₁ → AllocsOk (copy phys) s₁ →
    CopyKeeps s₁ ((copy phys).run pageExec s₁).2 ∧
    (((copy phys).run pageExec s₁).1 = phys ∨ ∃ g, ((copy phys).run pageExec s₁).1 = frameAddr g) ∧
    CopyDone s ((copy phys).run pageExec s₁).2 k (frameOf phys)
      (frameOf ((copy phys).run pageExec s₁).1)

/-- A copy stays one. -/
theorem CopyDone.keeps {s s₁ s₂ : PageState} (hk : KernelPt s) (h₁ : CopyKeeps s s₁)
    (h₂ : CopyKeeps s₁ s₂) {k : Nat} {f f' : Frame} (h : CopyDone s s₁ k f f') :
    CopyDone s s₂ k f f' :=
  fun hgood => (h hgood).keeps hk h₁ h₂

/-- The outcome of the loop from index `i` on: `kernel_pt` was met, which entry 0 alone can
tell, or the entries from `i` on are copied and those below are as they were. -/
def LoopDone (s s' : PageState) (k i : Nat) (buf : Page) : Option Page → Prop
  | none => k = 0 ∧ i = 0 ∧ (buf 0).addr ≠ 0 ∧ cutFrame (buf 0).address = s.kptFrame
  | some buf' =>
    (∀ j, j.toNat < i → buf' j = buf j) ∧
    (∀ j, i ≤ j.toNat → EntryCopied (CopyDone s s' k) (buf j) (buf' j)) ∧
    (k = 0 → i = 0 → (buf 0).addr ≠ 0 → cutFrame (buf 0).address ≠ s.kptFrame)

theorem ofNat_toNat_index {i : Nat} {j : BitVec 9} (h : j.toNat = i) : j = BitVec.ofNat 9 i := by
  rw [← h, BitVec.ofNat_toNat, BitVec.setWidth_eq]

/-- An entry that is empty is passed over. -/
theorem LoopDone.skip {s s' : PageState} {k i : Nat} {buf : Page}
    (h0 : (buf (BitVec.ofNat 9 i)).addr = 0) {res : Option Page} (h : LoopDone s s' k (i + 1) buf res) :
    LoopDone s s' k i buf res := by
  cases res with
  | none =>
    obtain ⟨-, hi, -⟩ := h
    exact absurd hi (Nat.succ_ne_zero i)
  | some buf' =>
    obtain ⟨hbelow, habove, -⟩ := h
    refine ⟨fun j hj => hbelow j (by omega), ?_, ?_⟩
    · intro j hj
      by_cases hji : j.toNat = i
      · rw [hbelow j (by omega), ofNat_toNat_index hji]
        exact ⟨fun _ => rfl, fun hne => absurd h0 hne⟩
      · exact habove j (by omega)
    · rintro - rfl hne
      exact absurd h0 hne

/-- The buffer with entry `i` made to lead to `p`, its low five flag bits kept. -/
def redirect (buf : Page) (i : Nat) (p : BitVec 64) : Page :=
  fun j => if j = BitVec.ofNat 9 i then (buf (BitVec.ofNat 9 i) &&& 0x1F#64) ||| p else buf j

/-- An entry that leads somewhere is made to lead to a copy of that. -/
theorem LoopDone.entry {s s₁ s₂ : PageState} (hk : KernelPt s) (h₁ : CopyKeeps s s₁)
    (h₂ : CopyKeeps s₁ s₂) {k i : Nat} (hi : i < 512) {buf : Page} {g : Frame}
    (hne : (buf (BitVec.ofNat 9 i)).addr ≠ 0)
    (hcopy : CopyDone s s₁ k (cutFrame (buf (BitVec.ofNat 9 i)).address) g)
    (hfirst : k = 0 → i = 0 → (buf 0).addr ≠ 0 → cutFrame (buf 0).address ≠ s.kptFrame) {res : Option Page}
    (h : LoopDone s s₂ k (i + 1) (redirect buf i (frameAddr g)) res) : LoopDone s s₂ k i buf res := by
  have hidx : (BitVec.ofNat 9 i).toNat = i := by
    rw [BitVec.toNat_ofNat]
    omega
  have hsame : ∀ j : BitVec 9, j.toNat ≠ i → redirect buf i (frameAddr g) j = buf j := by
    intro j hj
    refine if_neg ?_
    rintro rfl
    exact hj hidx
  cases res with
  | none =>
    obtain ⟨-, hi, -⟩ := h
    exact absurd hi (Nat.succ_ne_zero i)
  | some buf' =>
    obtain ⟨hbelow, habove, -⟩ := h
    refine ⟨?_, ?_, hfirst⟩
    · intro j hj
      rw [hbelow j (by omega), hsame j (by omega)]
    · intro j hj
      by_cases hji : j.toNat = i
      · rw [hbelow j (by omega), ofNat_toNat_index hji]
        have hentry : redirect buf i (frameAddr g) (BitVec.ofNat 9 i) =
            (buf (BitVec.ofNat 9 i) &&& 0x1F#64) ||| frameAddr g := if_pos rfl
        rw [hentry]
        refine ⟨fun h0 => absurd h0 hne, fun _ => ⟨copyEntry_flags _ _, fun _ => ?_⟩⟩
        rw [copyEntry_address]
        exact hcopy.keeps hk h₁ h₂
      · have hlater := habove j (by omega)
        rwa [hsame j hji] at hlater

section

variable (copy : BitVec 64 → PageProg (BitVec 64)) {k i : Nat} (n : Nat) {buf : Page} {s : PageState}

/-- An empty entry. -/
theorem copyLoop_skip (h : (buf (BitVec.ofNat 9 i)).addr = 0) :
    copyLoop copy (k + 1) (n + 1) i buf = copyLoop copy (k + 1) n (i + 1) buf := by
  rw [copyLoop]
  exact if_neg (not_not.mpr h)

theorem run_getKernelPt (s : PageState) :
    (perform .getKernelPt).run pageExec s = (s.kernelPt, s) := rfl

/-- The table is found to be `kernel_pt`. -/
theorem run_copyLoop_met (h0 : (buf (BitVec.ofNat 9 i)).addr ≠ 0)
    (h : k + 1 = 1 ∧ i = 0 ∧ (buf (BitVec.ofNat 9 i)).addr = s.kernelPt &&& 0x0FFFFFFF#64) :
    (copyLoop copy (k + 1) (n + 1) i buf).run pageExec s = (none, s) := by
  rw [copyLoop]
  rw [if_pos h0, Prog.run_bind, run_getKernelPt]
  dsimp only
  rw [if_pos h]
  rfl

/-- Any other entry that leads somewhere. -/
theorem run_copyLoop_entry (h0 : (buf (BitVec.ofNat 9 i)).addr ≠ 0)
    (h : ¬ (k + 1 = 1 ∧ i = 0 ∧ (buf (BitVec.ofNat 9 i)).addr = s.kernelPt &&& 0x0FFFFFFF#64)) :
    (copyLoop copy (k + 1) (n + 1) i buf).run pageExec s =
        (copyLoop copy (k + 1) n (i + 1)
            (redirect buf i ((copy (buf (BitVec.ofNat 9 i)).addr).run pageExec s).1)).run pageExec
          ((copy (buf (BitVec.ofNat 9 i)).addr).run pageExec s).2 ∧
      (AllocsOk (copyLoop copy (k + 1) (n + 1) i buf) s ↔
        AllocsOk (copy (buf (BitVec.ofNat 9 i)).addr) s ∧
        AllocsOk (copyLoop copy (k + 1) n (i + 1)
            (redirect buf i ((copy (buf (BitVec.ofNat 9 i)).addr).run pageExec s).1))
          ((copy (buf (BitVec.ofNat 9 i)).addr).run pageExec s).2) := by
  rw [copyLoop]
  rw [if_pos h0, Prog.run_bind, AllocsOk, Prog.always_bind, run_getKernelPt]
  dsimp only
  rw [if_neg h, Prog.run_bind, Prog.always_bind]
  exact ⟨rfl, and_iff_right ⟨trivial, trivial⟩⟩

end

/-- The loop of `copy_page`, given what the calls in it do. -/
theorem copyLoop_spec {s : PageState} (hk : KernelPt s) {copy : BitVec 64 → PageProg (BitVec 64)}
    {k : Nat} (hcopy : CopySpec s copy k) (n : Nat) {i : Nat} (hn : i + n = 512) (buf : Page)
    {s₁ : PageState} (h₁ : CopyKeeps s s₁) (hok : AllocsOk (copyLoop copy (k + 1) n i buf) s₁) :
    CopyKeeps s₁ ((copyLoop copy (k + 1) n i buf).run pageExec s₁).2 ∧
      LoopDone s ((copyLoop copy (k + 1) n i buf).run pageExec s₁).2 k i buf
        ((copyLoop copy (k + 1) n i buf).run pageExec s₁).1 := by
  induction n generalizing i buf s₁ with
  | zero =>
    refine ⟨CopyKeeps.refl s₁, fun _ _ => rfl, ?_, ?_⟩
    · intro j hj
      omega
    · intro _ hi
      omega
  | succ n ih =>
    by_cases h0 : (buf (BitVec.ofNat 9 i)).addr = 0
    · rw [copyLoop_skip copy n h0] at hok ⊢
      obtain ⟨hkeeps, hdone⟩ := ih (i := i + 1) (by omega) buf h₁ hok
      exact ⟨hkeeps, hdone.skip h0⟩
    have hmask : s₁.kernelPt &&& 0x0FFFFFFF#64 = frameAddr s.kptFrame := by
      rw [h₁.kernelPt, hk.aligned]
    by_cases hmet : k + 1 = 1 ∧ i = 0 ∧
        (buf (BitVec.ofNat 9 i)).addr = s₁.kernelPt &&& 0x0FFFFFFF#64
    · rw [run_copyLoop_met copy n h0 hmet]
      obtain ⟨hk1, rfl, haddr⟩ := hmet
      rw [Pte.addr_eq] at haddr
      exact ⟨CopyKeeps.refl s₁, by omega, rfl, h0, frameAddr_injective (haddr.trans hmask)⟩
    · obtain ⟨hrun, hallocs⟩ := run_copyLoop_entry copy n h0 hmet
      rw [hallocs] at hok
      obtain ⟨hcall, hrest⟩ := hok
      obtain ⟨hkeeps, hres, hdone⟩ := hcopy _ s₁ h₁ hcall
      rw [hrun]
      -- Either way the call returns the address of a frame.
      obtain ⟨g, hg⟩ : ∃ g, ((copy (buf (BitVec.ofNat 9 i)).addr).run pageExec s₁).1 = frameAddr g :=
        hres.elim (fun hh => ⟨_, hh.trans (Pte.addr_eq _)⟩) id
      rw [hg] at hrest ⊢
      rw [hg, frameOf_frameAddr] at hdone
      obtain ⟨hkeeps', hdone'⟩ := ih (i := i + 1) (by omega) _ (h₁.trans hkeeps) hrest
      refine ⟨hkeeps.trans hkeeps', hdone'.entry hk (h₁.trans hkeeps) hkeeps' (by omega) h0 ?_ ?_⟩
      · rwa [frameOf_addr] at hdone
      · intro hk0 hi0 _ haddr
        refine hmet ⟨by omega, hi0, ?_⟩
        rw [hmask, Pte.addr_eq, hi0]
        exact congrArg frameAddr haddr

/-! ## `copy_page` -/

/-- What `copy_page` makes of the outcome of its loop. -/
def copyEnd (phys : BitVec 64) : Option Page → PageProg (BitVec 64)
  | none => pure phys
  | some buf => copyOut buf

/-- `copy_page` at a depth above 0, with its loop left open. -/
def copyTable (loop : Page → PageProg (Option Page)) (phys : BitVec 64) : PageProg (BitVec 64) := do
  let buf ← readPage phys
  let res ← loop buf
  copyEnd phys res

theorem copyPage_succ (k : Nat) (phys : BitVec 64) :
    copyPage (k + 1) phys = copyTable (copyLoop (copyPage k) (k + 1) 512 0) phys := by
  rw [copyPage, copyTable]
  congr 1

theorem run_copyPage_zero (phys : BitVec 64) (s : PageState) :
    (copyPage 0 phys).run pageExec s =
      (copyOut ((s.mounted phys).mem (frameOf phys))).run pageExec s.closed := by
  rw [copyPage, Prog.run_bind, run_readPage]

theorem allocsOk_copyPage_zero {phys : BitVec 64} {s : PageState} (h : AllocsOk (copyPage 0 phys) s) :
    s.closed.allocAddr ≠ 0 := by
  rw [copyPage, AllocsOk, Prog.always_bind, run_readPage] at h
  exact h.2.1

section

variable {loop : Page → PageProg (Option Page)} {phys : BitVec 64} {s s₁ : PageState}
  {res : Option Page}

theorem run_copyTable
    (h : (loop ((s.mounted phys).mem (frameOf phys))).run pageExec s.closed = (res, s₁)) :
    (copyTable loop phys).run pageExec s = (copyEnd phys res).run pageExec s₁ := by
  rw [copyTable, Prog.run_bind, run_readPage, Prog.run_bind, h]

theorem allocsOk_copyTable
    (h : (loop ((s.mounted phys).mem (frameOf phys))).run pageExec s.closed = (res, s₁))
    (hok : AllocsOk (copyTable loop phys) s) :
    AllocsOk (loop ((s.mounted phys).mem (frameOf phys))) s.closed ∧
      (res ≠ none → s₁.allocAddr ≠ 0) := by
  rw [copyTable, AllocsOk, Prog.always_bind, run_readPage, Prog.always_bind, h] at hok
  refine ⟨hok.2.1, ?_⟩
  cases res with
  | none => exact fun hne => absurd rfl hne
  | some buf => exact fun _ => hok.2.2.1

end

/-- The buffer shows a taken frame as it was, the slot aside. -/
theorem mounted_keeps {s s₁ : PageState} (h₁ : CopyKeeps s s₁) (phys : BitVec 64) {f : Frame}
    (hf : ¬ s.free f) {i : BitVec 9} (hi : f ≠ s.kptFrame ∨ i ≠ 0) :
    (s₁.mounted phys).mem f i = s.mem f i := by
  rw [mounted_mem (by rw [h₁.kptFrame]; exact hi), h₁.mem f i hf hi]

/-- What is mounted is the frame. -/
theorem mounted_frame (s : PageState) (phys : BitVec 64) :
    s.mounted phys = s.mounted (frameAddr (frameOf phys)) := by
  have hcalc : calcPage (frameAddr (frameOf phys)) = calcPage phys := by
    unfold calcPage pteOf
    rw [frameOf_frameAddr]
  unfold PageState.mounted
  rw [hcalc]

theorem shown_other {s : PageState} {f : Frame} {i : BitVec 9} (h : f ≠ s.kptFrame ∨ i ≠ 0) :
    s.shown f i = s.mem f i := mounted_mem h

theorem shown_slot (s : PageState) : s.shown s.kptFrame 0 = calcPage (frameAddr s.kptFrame) :=
  setEntry_same _ _ _ _

theorem shown_keeps {s s₁ : PageState} (h₁ : CopyKeeps s s₁) {f : Frame} (hf : ¬ s.free f) :
    s₁.shown f = s.shown f := by
  funext i
  by_cases hi : f ≠ s.kptFrame ∨ i ≠ 0
  · rw [shown_other hi, ← h₁.mem f i hf hi]
    exact shown_other (by rw [h₁.kptFrame]; exact hi)
  · -- the slot, which shows the frame itself
    push Not at hi
    obtain ⟨rfl, rfl⟩ := hi
    have hslot := shown_slot s₁
    rw [h₁.kptFrame] at hslot
    rw [shown_slot, hslot]

/-- A page. -/
theorem copyPage_zero_spec {s : PageState} (hk : KernelPt s) : CopySpec s (copyPage 0) 0 := by
  intro phys s₁ h₁ hok
  have hclosed := copyKeeps_closed s₁
  rw [run_copyPage_zero]
  obtain ⟨hkeeps, g, hfree, htaken, hres, hbuf⟩ := copyKeeps_copyOut
    ((s₁.mounted phys).mem (frameOf phys)) (allocsOk_copyPage_zero hok)
  have hgfree : s.free g := (h₁.trans hclosed).free g hfree
  have hgk : g ≠ s₁.closed.kptFrame := by
    rw [(h₁.trans hclosed).kptFrame]
    exact fun hh => hk.taken (hh ▸ hgfree)
  refine ⟨hclosed.trans hkeeps, Or.inr ⟨g, hres⟩, fun _ => ?_⟩
  rw [hres, frameOf_frameAddr]
  refine ⟨⟨hgfree, htaken⟩, fun hf => ?_⟩
  rw [hbuf hgk, ← shown_keeps h₁ hf, mounted_frame]
  rfl

/-- A table, given what its loop does. -/
theorem copyTable_spec {s : PageState} (hk : KernelPt s) {k : Nat}
    (loop : Page → PageProg (Option Page))
    (hspec : ∀ buf s₁, CopyKeeps s s₁ → AllocsOk (loop buf) s₁ →
      CopyKeeps s₁ ((loop buf).run pageExec s₁).2 ∧
        LoopDone s ((loop buf).run pageExec s₁).2 k 0 buf ((loop buf).run pageExec s₁).1) :
    CopySpec s (copyTable loop) (k + 1) := by
  intro phys s₁ h₁ hok
  have hclosed := copyKeeps_closed s₁
  obtain ⟨⟨res, s₂⟩, hloop⟩ :
      ∃ x, (loop ((s₁.mounted phys).mem (frameOf phys))).run pageExec s₁.closed = x := ⟨_, rfl⟩
  obtain ⟨hallocs, hlast⟩ := allocsOk_copyTable hloop hok
  obtain ⟨hkeeps, hdone⟩ := hspec _ s₁.closed (h₁.trans hclosed) hallocs
  rw [hloop] at hkeeps hdone
  rw [run_copyTable hloop]
  have h₂ := (h₁.trans hclosed).trans hkeeps
  cases res with
  | none =>
    -- the loop gave up: the table is `kernel_pt`, which is shared
    obtain ⟨rfl, -, hne0, haddr⟩ := hdone
    refine ⟨hclosed.trans hkeeps, Or.inl rfl, ?_⟩
    rintro (⟨-, hkpt, -⟩ | ⟨hf, hne, hfirst, -⟩)
    · exact Or.inl ⟨rfl, hkpt, rfl⟩
    · rw [mounted_keeps h₁ phys hf (Or.inl hne)] at hne0 haddr
      exact absurd haddr (hfirst rfl hne0)
  | some buf =>
    obtain ⟨-, hentries, hfirst⟩ := hdone
    obtain ⟨hkeeps', g, hfree, htaken, hres, hbuf⟩ := copyKeeps_copyOut buf (hlast (by simp))
    have hgfree : s.free g := h₂.free g hfree
    have hgk : g ≠ s₂.kptFrame := by
      rw [h₂.kptFrame]
      exact fun hh => hk.taken (hh ▸ hgfree)
    have hend : (copyEnd phys (some buf)).run pageExec s₂ = (copyOut buf).run pageExec s₂ := rfl
    rw [hend]
    refine ⟨(hclosed.trans hkeeps).trans hkeeps', Or.inr ⟨g, hres⟩, ?_⟩
    rw [hres, frameOf_frameAddr]
    rintro (⟨rfl, hkpt, hkpt0⟩ | ⟨hf, hne, -, hsub⟩)
    · -- The window showed `kernel_pt` with its own address in the slot.
      have hslot : (s₁.mounted phys).mem s₁.kptFrame 0 = calcPage phys := setEntry_same _ _ _ _
      have hcut : cutFrame ((s₁.mounted phys).mem (frameOf phys) 0).address = s.kptFrame := by
        rw [hkpt, ← h₁.kptFrame, hslot, calcPage, Pte.address_pteOf, h₁.kptFrame, hkpt,
          cutFrame_kptFrame]
      refine absurd hcut (hfirst rfl rfl fun h0 => hkpt0 ?_)
      rw [hkpt, ← hcut]
      exact Pte.addr_eq_zero.mp h0
    · refine Or.inr ⟨hne, ⟨hgfree, htaken⟩, fun i => ?_⟩
      have hentry := hentries i (Nat.zero_le _)
      rw [mounted_keeps h₁ phys hf (Or.inl hne)] at hentry
      rw [hbuf hgk]
      refine ⟨hentry.1, fun haddr => ⟨(hentry.2 haddr).1, fun hpresent => ?_⟩⟩
      have hcopied := (hentry.2 haddr).2 hpresent
      exact (hcopied (hsub i hpresent haddr)).keeps hk h₂ hkeeps'

/-- `copy_page` copies what can be copied, and leaves alone what was there. -/
theorem copyPage_spec {s : PageState} (hk : KernelPt s) (k : Nat) : CopySpec s (copyPage k) k := by
  induction k with
  | zero => exact copyPage_zero_spec hk
  | succ k ih =>
    have hloop : ∀ n, 0 + n = 512 → CopySpec s (copyTable (copyLoop (copyPage k) (k + 1) n 0)) (k + 1) :=
      fun n hn => copyTable_spec hk _ fun buf s₁ h₁ hok => copyLoop_spec hk ih n hn buf h₁ hok
    intro phys
    rw [copyPage_succ]
    exact hloop 512 rfl phys

end OS64.Mm
