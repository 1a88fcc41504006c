import OS64.Mm.PageBytes

/-!
# Pages of a program

`alloc_pages_user` maps pages for a program while the kernel goes on using what it has
mapped itself. `Mapped` is what the loop does to the translation: the pages it is told
to map get new frames, and nothing else changes. `UserPages` is what holds in between:
the pages mapped so far have a frame each, the bytes of the kernel at `K` are where and
what they were, and no free frame has been written. A page that is mapped a second time
gets another frame: its bytes are then those that frame was left with (`LeftOver`).

One lemma each says what a page mapped (`UserPages.mount`) and a byte stored
(`UserPages.store`) do to the bytes of the program.
-/

namespace OS64.Mm

open OS64.Lib

/-! ## Pages of the kernel and others -/

/-- The page of `a` is one of `us`. -/
def InPages (us : List (BitVec 64)) (a : BitVec 64) : Prop := ∃ u ∈ us, pagePath u = pagePath a

/-- The page of `v` is none of the kernel's, but for its window. -/
def offKernel (v : BitVec 64) : Prop := kernelHalf v → pagePath v = windowPath

/-- Where the kernel keeps its data: above the window. -/
def aboveWindow (a : BitVec 64) : Prop := 0xFFFFFFFFC0001000 ≤ a.toNat

theorem kernelHalf_iff {v : BitVec 64} : kernelHalf v ↔ v.toNat / 2 ^ 39 % 512 = 511 := by
  rw [kernelHalf, ← BitVec.toNat_inj, linearIndex_toNat]
  exact Iff.rfl

theorem kernelHalf_path {v w : BitVec 64} (h : pagePath v = pagePath w) (hv : kernelHalf v) :
    kernelHalf w := by
  have hindex := (List.cons.inj h).1
  rw [kernelHalf, ← hindex]
  exact hv

theorem kernelHalf_window {v : BitVec 64} (h : pagePath v = windowPath) : kernelHalf v :=
  (List.cons.inj h).1

theorem low_not_kernel {a : BitVec 64} (h : a.toNat < 2 ^ 47) : ¬ kernelHalf a := by
  rw [kernelHalf_iff]
  omega

theorem low_not_window {a : BitVec 64} (h : a.toNat < 2 ^ 47) : pagePath a ≠ windowPath :=
  fun hwin => low_not_kernel h (kernelHalf_window hwin)

theorem aboveWindow_kernel {a : BitVec 64} (h : aboveWindow a) : kernelHalf a := by
  have hlt := a.isLt
  unfold aboveWindow at h
  rw [kernelHalf_iff]
  omega

theorem aboveWindow_not_window {a : BitVec 64} (h : aboveWindow a) : pagePath a ≠ windowPath := by
  have hwin : pagePath 0xFFFFFFFFC0000000#64 = windowPath := by decide
  rw [← hwin, Ne, pagePath_eq_iff]
  have hval : (0xFFFFFFFFC0000000#64).toNat = 0xFFFFFFFFC0000000 := rfl
  have hlt := a.isLt
  unfold aboveWindow at h
  rw [hval]
  omega

theorem offKernel.ne_above {v w : BitVec 64} (hv : offKernel v) (hw : aboveWindow w) :
    pagePath w ≠ pagePath v := by
  intro hpath
  have hkernel := kernelHalf_path hpath (aboveWindow_kernel hw)
  exact aboveWindow_not_window hw (hpath.trans (hv hkernel))

theorem inPages_append {us vs : List (BitVec 64)} {a : BitVec 64} :
    InPages (us ++ vs) a ↔ InPages us a ∨ InPages vs a := by
  unfold InPages
  simp only [List.mem_append, or_and_right, exists_or]

theorem inPages_singleton {v a : BitVec 64} : InPages [v] a ↔ pagePath v = pagePath a := by
  unfold InPages
  simp

theorem inPages_cons {v a : BitVec 64} {us : List (BitVec 64)} :
    InPages (v :: us) a ↔ pagePath v = pagePath a ∨ InPages us a := by
  rw [← List.singleton_append, inPages_append, inPages_singleton]

/-- The addresses of `[addr, addr + size)`. -/
def InRange (addr size x : BitVec 64) : Prop :=
  addr.toNat ≤ x.toNat ∧ x.toNat < addr.toNat + size.toNat

theorem mem_loopPages {addr u : BitVec 64} (n : Nat) (i : BitVec 64) :
    u ∈ loopPages addr n i ↔ ∃ j, j < n ∧ u = addr + i + BitVec.ofNat 64 (0x1000 * j) := by
  induction n generalizing i with
  | zero => simp [loopPages]
  | succ n ih =>
    rw [loopPages, List.mem_cons, ih]
    constructor
    · rintro (rfl | ⟨j, hj, rfl⟩)
      · exact ⟨0, by omega, (BitVec.add_zero _).symm⟩
      · refine ⟨j + 1, by omega, ?_⟩
        rw [Nat.mul_add, Nat.add_comm, BitVec.ofNat_add, BitVec.add_assoc, BitVec.add_assoc,
          BitVec.add_assoc]
    · rintro ⟨j, hj, rfl⟩
      cases j with
      | zero => exact Or.inl (BitVec.add_zero _)
      | succ j =>
        refine Or.inr ⟨j, by omega, ?_⟩
        rw [Nat.mul_add, Nat.add_comm, BitVec.ofNat_add, BitVec.add_assoc, BitVec.add_assoc,
          BitVec.add_assoc]

/-! ## Translation in the first address space -/

/-- A translation depends on the page. -/
theorem translate_path {s : PageState} {r : Frame} {v w : BitVec 64} (h : pagePath v = pagePath w) :
    s.translate r v = s.translate r w :=
  translate_eq s r (h.trans (pagePath_eq w))

theorem mapsTo_path {s : PageState} {v w : BitVec 64} (h : pagePath v = pagePath w) {f : Frame} :
    s.mapsTo v f ↔ s.mapsTo w f := by
  unfold PageState.mapsTo
  rw [translate_path h]

/-- With the tree of `PML4` loaded an access goes where that tree maps it. -/
theorem frameAt_eq_some {s : PageState} (hspace : frameOf s.cr3 = s.root) {a : BitVec 64}
    (hcan : canonical a = true) {f : Frame} : s.frameAt a = some f ↔ s.mapsTo a f := by
  rw [PageState.frameAt, if_pos hcan, hspace, Option.map_eq_some_iff]
  rfl

theorem frameAt_congr {s s' : PageState} {a : BitVec 64}
    (h : s'.translate (frameOf s'.cr3) a = s.translate (frameOf s.cr3) a) :
    s'.frameAt a = s.frameAt a := by
  unfold PageState.frameAt
  rw [h]

theorem byteAt_congr {s s' : PageState} {a : BitVec 64} {f : Frame} (hf : s.frameAt a = some f)
    (hframe : s'.frameAt a = s.frameAt a) (hmem : s'.mem f = s.mem f) :
    s'.byteAt a = s.byteAt a := by
  rw [byteAt_of_frame hf, byteAt_of_frame (hframe.trans hf), hmem]

/-- A level of the walk does not touch the registers. -/
theorem mountLevel_regs (table : BitVec 64) (i : BitVec 9) (ph : Pte) (s : PageState) :
    ((mountLevel table i ph).run pageExec s).2.pml4 = s.pml4 ∧
      ((mountLevel table i ph).run pageExec s).2.cr3 = s.cr3 := by
  unfold mountLevel
  rw [Prog.run_bind, run_mountPageT]
  show ((if _ = 0 then _ else _ : PageProg Pte).run pageExec (s.mounted table)).2.pml4 = s.pml4 ∧
    ((if _ = 0 then _ else _ : PageProg Pte).run pageExec (s.mounted table)).2.cr3 = s.cr3
  split <;> exact ⟨rfl, rfl⟩

theorem mountPageDo_regs (v : BitVec 64) (ph : Pte) (s : PageState) :
    ((mountPageDo v ph).run pageExec s).2.pml4 = s.pml4 ∧
      ((mountPageDo v ph).run pageExec s).2.cr3 = s.cr3 := by
  have hlast : ∀ (table : BitVec 64) (i : BitVec 9) (s : PageState),
      ((mountWalk ph table [i]).run pageExec s).2.pml4 = s.pml4 ∧
        ((mountWalk ph table [i]).run pageExec s).2.cr3 = s.cr3 := by
    intro table i s
    rw [mountWalk, run_mountLast]
    exact ⟨rfl, rfl⟩
  have hcons : ∀ (table : BitVec 64) (i j : BitVec 9) (is : List (BitVec 9)) (s : PageState),
      (∀ table s, ((mountWalk ph table (j :: is)).run pageExec s).2.pml4 = s.pml4 ∧
        ((mountWalk ph table (j :: is)).run pageExec s).2.cr3 = s.cr3) →
      ((mountWalk ph table (i :: j :: is)).run pageExec s).2.pml4 = s.pml4 ∧
        ((mountWalk ph table (i :: j :: is)).run pageExec s).2.cr3 = s.cr3 := by
    intro table i j is s hrest
    rw [mountWalk, Prog.run_bind]
    exact ⟨(hrest _ _).1.trans (mountLevel_regs table i _ s).1,
      (hrest _ _).2.trans (mountLevel_regs table i _ s).2⟩
  rw [run_mountPageDo]
  exact hcons _ _ _ _ s fun _ s => hcons _ _ _ _ s fun _ s => hcons _ _ _ _ s fun _ s => hlast _ _ s

/-- An access to an unmapped address that goes through has mapped it, in the heap. -/
theorem touch_unmapped {s s' : PageState} {kernelHeap reg1 v : BitVec 64}
    (hspace : frameOf s.cr3 = s.root) (hnone : s.frameAt v = none)
    (h : s.touch kernelHeap reg1 v = some s') :
    kernelHeap ≤ v ∧ s'.translate s'.root v ≠ s.translate s.root v := by
  have hmapped : ¬ (s.frameAt v).isSome := by
    rw [hnone]
    exact Bool.false_ne_true
  rw [PageState.touch, if_neg hmapped] at h
  by_cases hcan : canonical v = true
  · rw [if_pos hcan] at h
    by_cases hheap : kernelHeap ≤ v ∧ reg1.getLsbD 0 = false ∧ reg1.getLsbD 2 = false
    · refine ⟨hheap.1, fun hsame => ?_⟩
      have hregs := mountPageDo_regs (v &&& 0xFFFFFFFFFFFFF000#64) (calcPage s.allocAddr) s.alloc
      rw [← mountPage, ← run_pageFault hheap s] at hregs
      generalize (pageFault kernelHeap v reg1).run pageExec s = r at h hregs
      obtain ⟨hpml4, hcr3⟩ := hregs
      dsimp only at h
      split at h
      · next hok =>
        cases h
        have hspace' : frameOf r.2.cr3 = r.2.root := by
          rw [hcr3, PageState.root, hpml4]
          exact hspace
        rw [PageState.frameAt, if_pos hcan, hspace, Option.map_eq_none_iff] at hnone
        rw [PageState.frameAt, if_pos hcan, hspace', hsame, hnone, Bool.and_eq_true] at hok
        exact absurd hok.2 Bool.false_ne_true
      · cases h
    · -- The fault is reported and that is all.
      rw [pageFault, if_neg hheap] at h
      cases h
  · rw [if_neg hcan] at h
    cases h

/-! ## What mapping pages does to the translation -/

/-- From `s` to `s'` the pages `vs` were mapped to frames that were free. -/
structure Mapped (s s' : PageState) (vs : List (BitVec 64)) : Prop where
  tree : PageTree s'
  root : s'.root = s.root
  cr3 : s'.cr3 = s.cr3
  slot : s.slot = 0 → s'.slot = 0
  off : ∀ w, pagePath w ≠ windowPath → ¬ InPages vs w →
    s'.translate s'.root w = s.translate s.root w
  new : ∀ w, pagePath w ≠ windowPath → InPages vs w → ∃ f, s'.mapsTo w f ∧ s.free f
  free : ∀ f, s'.free f → s.free f

namespace Mapped

variable {s s₁ s' : PageState} {vs ws : List (BitVec 64)}

theorem none (h : PageTree s) : Mapped s s [] where
  tree := h
  root := rfl
  cr3 := rfl
  slot h0 := h0
  off _ _ _ := rfl
  new := by
    rintro w - ⟨u, hu, -⟩
    cases hu
  free _ hf := hf

theorem mapsTo (h : Mapped s s' vs) {w : BitVec 64} (hwin : pagePath w ≠ windowPath)
    (hnot : ¬ InPages vs w) {f : Frame} : s'.mapsTo w f ↔ s.mapsTo w f := by
  unfold PageState.mapsTo
  rw [h.off w hwin hnot]

theorem trans (h : Mapped s s₁ vs) (h' : Mapped s₁ s' ws) : Mapped s s' (vs ++ ws) where
  tree := h'.tree
  root := h'.root.trans h.root
  cr3 := h'.cr3.trans h.cr3
  slot h0 := h'.slot (h.slot h0)
  off w hwin hnot := by
    rw [inPages_append, not_or] at hnot
    exact (h'.off w hwin hnot.2).trans (h.off w hwin hnot.1)
  new w hwin hin := by
    by_cases hlater : InPages ws w
    · obtain ⟨f, hf, hfree⟩ := h'.new w hwin hlater
      exact ⟨f, hf, h.free f hfree⟩
    · obtain ⟨f, hf, hfree⟩ := h.new w hwin ((inPages_append.mp hin).resolve_right hlater)
      exact ⟨f, (h'.mapsTo hwin hlater).mpr hf, hfree⟩
  free f hf := h.free f (h'.free f hf)

/-- A page mapped: `mount_page_do` with a new frame. -/
theorem mount (h : PageTree s) {v : BitVec 64} {flags : BitVec 12} (hflags : flags.getLsbD 0 = true)
    (hm : pageMeets s v) {s' : PageState}
    (hs' : s' = ((mountPageDo v (pteOf s.allocAddr flags)).run pageExec s.alloc).2) :
    Mapped s s' [v] := by
  have hcr3 := (mountPageDo_regs v (pteOf s.allocAddr flags) s.alloc).2
  obtain ⟨hgrown, hslot, hat⟩ := mountPageDo_spec (fun _ _ hh => hh) (h.alloc hm.1) v
    (pteOf s.allocAddr flags) hm.2
  rw [← hs'] at hcr3 hgrown hslot hat
  obtain ⟨g, hgfree, haddr, -, -⟩ := alloc_spec hm.1
  have hroot : s'.root = s.root := hgrown.root
  have hph : (pteOf s.allocAddr flags).next = some g := by
    rw [Pte.next_pteOf _ hflags, haddr, frameOf_frameAddr]
  refine ⟨hgrown.tree, hroot, hcr3, fun _ => hslot, ?_, ?_, fun f hf => alloc_free hm.1 (hgrown.free f hf)⟩
  · intro w hwin hnot
    rw [hroot]
    exact hgrown.off (tablePath w) (linearIndex 0 w) rfl
      (fun hh => hnot (inPages_singleton.mpr hh.symm)) hwin
  · intro w hwin hin
    have hpath : pagePath w = pagePath v := (inPages_singleton.mp hin).symm
    obtain ⟨t, hwalk, hmem⟩ := hat (hpath ▸ hwin)
    have htr := translate_mounted hph hwalk hmem hpath
    rw [alloc_root, ← hroot] at htr
    exact ⟨g, ⟨_, htr, (Pte.next_eq_some.mp hph).2⟩, hgfree⟩

/-- The rounds of `alloc_pages_user`. -/
theorem run_allocLoop_succ (addr i : BitVec 64) (n : Nat) (s : PageState) :
    (Mm.allocLoop createPageUser addr (n + 1) i).run pageExec s =
      (Mm.allocLoop createPageUser addr n (i + 0x1000#64)).run pageExec
        ((mountPageDo (addr + i) (pteOf s.allocAddr 7#12)).run pageExec s.alloc).2 := by
  have hcreate : createPageUser.run pageExec s = (pteOf s.allocAddr 7#12, s.alloc) := rfl
  rw [Mm.allocLoop, Prog.run_bind, hcreate, Prog.run_bind]

theorem loopMeets_succ {addr i : BitVec 64} {n : Nat} (h : loopMeets createPageUser addr (n + 1) i s) :
    pageMeets s (addr + i) ∧ loopMeets createPageUser addr n (i + 0x1000#64)
      ((mountPageDo (addr + i) (pteOf s.allocAddr 7#12)).run pageExec s.alloc).2 := by
  have hcreate : createPageUser.run pageExec s = (pteOf s.allocAddr 7#12, s.alloc) := rfl
  obtain ⟨hpage, hrest⟩ := h
  rw [Prog.run_bind, hcreate] at hrest
  exact ⟨hpage, hrest⟩

theorem allocLoop {addr : BitVec 64} : ∀ (n : Nat) (i : BitVec 64) {s : PageState}, PageTree s →
    loopMeets createPageUser addr n i s →
    Mapped s ((Mm.allocLoop createPageUser addr n i).run pageExec s).2 (loopPages addr n i)
  | 0, _, s, h, _ => none h
  | n + 1, i, s, h, hm => by
    obtain ⟨hpage, hrest⟩ := loopMeets_succ hm
    have hfirst := @mount s h (addr + i) 7#12 (by decide) hpage _ rfl
    rw [run_allocLoop_succ, loopPages, ← List.singleton_append]
    exact hfirst.trans (allocLoop n (i + 0x1000#64) hfirst.tree hrest)

end Mapped

/-! ## What holds between the pages -/

/-- The page of `a` has a frame that was free in `s₀`, and the byte is what that was left with. -/
def LeftOver (s₀ s : PageState) (a : BitVec 64) : Prop :=
  ∃ f, s.frameAt a = some f ∧ s₀.free f ∧ s.byteAt a = some (pageByte (s₀.mem f) (pageOffset a))

theorem LeftOver.congr {s₀ s s' : PageState} {a : BitVec 64} (h : LeftOver s₀ s a)
    (hframe : s'.frameAt a = s.frameAt a) (hbyte : s'.byteAt a = s.byteAt a) : LeftOver s₀ s' a := by
  obtain ⟨f, hf, hfree, hb⟩ := h
  exact ⟨f, hframe.trans hf, hfree, hbyte.trans hb⟩

/-- From `s₀` on the pages of `us` were mapped for a program: its tree is loaded, the bytes at
`K` are what they were, in frames of their own, and so is what the free frames hold. -/
structure UserPages (s₀ s : PageState) (K : BitVec 64 → Prop) (us : List (BitVec 64)) : Prop where
  anon : AnonInv s us
  off : ∀ u ∈ us, offKernel u
  space : frameOf s.cr3 = s.root
  kept : ∀ a, K a → ∃ f, s₀.frameAt a = some f ∧ s.frameAt a = some f ∧ s.mem f = s₀.mem f ∧
    ¬ s.free f ∧ s.noTable s.root f ∧ ∀ u ∈ us, ¬ s.mapsTo u f
  free : ∀ g, s.free g → s₀.free g ∧ s.mem g = s₀.mem g

/-- It is about the pages that are mapped, whatever addresses name them. -/
theorem AnonInv.of_pages {s : PageState} {vs ws : List (BitVec 64)} (h : AnonInv s vs)
    (hsub : ∀ w ∈ ws, InPages vs w) : AnonInv s ws where
  tree := h.tree
  window hne := by
    obtain ⟨w, hw⟩ := List.exists_mem_of_ne_nil ws hne
    obtain ⟨v, hv, -⟩ := hsub w hw
    exact h.window (List.ne_nil_of_mem hv)
  mapped w hw hwin := by
    obtain ⟨v, hv, hpath⟩ := hsub w hw
    obtain ⟨f, hf⟩ := h.mapped v hv (by rw [hpath]; exact hwin)
    exact ⟨f, (mapsTo_path hpath).mp hf⟩
  taken w hw f hf := by
    obtain ⟨v, hv, hpath⟩ := hsub w hw
    exact h.taken v hv f ((mapsTo_path hpath).mpr hf)
  distinct w hw f hf := by
    obtain ⟨v, hv, hpath⟩ := hsub w hw
    obtain ⟨h0, htable, hother⟩ := h.distinct v hv f ((mapsTo_path hpath).mpr hf)
    refine ⟨h0, htable, fun u hu hne huf => ?_⟩
    obtain ⟨v', hv', hpath'⟩ := hsub u hu
    exact hother v' hv' (by rw [hpath', hpath]; exact hne) ((mapsTo_path hpath').mpr huf)

/-- Off the pages that were mapped an address leads where it did. -/
theorem Mapped.frameAt {s s' : PageState} {vs : List (BitVec 64)} (h : Mapped s s' vs)
    (hspace : frameOf s.cr3 = s.root) {w : BitVec 64} (hwin : pagePath w ≠ windowPath)
    (hnot : ¬ InPages vs w) : s'.frameAt w = s.frameAt w := by
  have hspace' : frameOf s'.cr3 = s'.root := by rw [h.cr3, h.root, hspace]
  apply frameAt_congr
  rw [hspace', hspace]
  exact h.off w hwin hnot

namespace UserPages

variable {s₀ s : PageState} {K : BitVec 64 → Prop} {us ws : List (BitVec 64)}

theorem start (hanon : AnonInv s us) (hoff : ∀ u ∈ us, offKernel u) (hspace : frameOf s.cr3 = s.root)
    (hK : ∀ a, K a → ∃ f, s.frameAt a = some f ∧ ¬ s.free f ∧ s.noTable s.root f ∧
      ∀ u ∈ us, ¬ s.mapsTo u f) : UserPages s s K us where
  anon := hanon
  off := hoff
  space := hspace
  kept a ha := by
    obtain ⟨f, hf, hfree, htable, hus⟩ := hK a ha
    exact ⟨f, hf, hf, rfl, hfree, htable, hus⟩
  free g hg := ⟨hg, rfl⟩

theorem congr (h : UserPages s₀ s K us) (hmem : ∀ u, u ∈ ws ↔ u ∈ us) : UserPages s₀ s K ws where
  anon := h.anon.congr hmem
  off u hu := h.off u ((hmem u).mp hu)
  space := h.space
  kept a ha := by
    obtain ⟨f, h₀, hf, hcont, hfree, htable, hus⟩ := h.kept a ha
    exact ⟨f, h₀, hf, hcont, hfree, htable, fun u hu => hus u ((hmem u).mp hu)⟩
  free := h.free

/-- The bytes at `K` are what they were. -/
theorem kept_byte (h : UserPages s₀ s K us) {a : BitVec 64} (ha : K a) : s.byteAt a = s₀.byteAt a := by
  obtain ⟨f, h₀, hf, hmem, -⟩ := h.kept a ha
  exact byteAt_congr h₀ (hf.trans h₀.symm) hmem

/-- A page of `us` has a frame that is taken and no table. -/
theorem frame (h : UserPages s₀ s K us) {a : BitVec 64} (hcan : canonical a = true)
    (hwin : pagePath a ≠ windowPath) (hin : InPages us a) :
    ∃ f, s.frameAt a = some f ∧ s.mapsTo a f ∧ ¬ s.free f ∧ s.noTable s.root f := by
  obtain ⟨u, hu, hpath⟩ := hin
  obtain ⟨f, hf⟩ := h.anon.mapped u hu (by rw [hpath]; exact hwin)
  have hfa := (mapsTo_path hpath).mp hf
  exact ⟨f, (frameAt_eq_some h.space hcan).mpr hfa, hfa, h.anon.taken u hu f hf,
    (h.anon.distinct u hu f hf).2.1⟩

/-- A page is mapped: it has a new frame with what was left in that, and the bytes in the other
pages stay. -/
theorem mount (h : UserPages s₀ s K us) (hK : ∀ a, K a → aboveWindow a) {v : BitVec 64}
    (hv : offKernel v) (hm : pageMeets s v) {s' : PageState}
    (hs' : s' = ((mountPageDo v (pteOf s.allocAddr 7#12)).run pageExec s.alloc).2) :
    UserPages s₀ s' K (v :: us) ∧
    (∀ a, canonical a = true → pagePath a ≠ windowPath → pagePath v = pagePath a → LeftOver s₀ s' a) ∧
    (∀ a, canonical a = true → pagePath a ≠ windowPath → pagePath v ≠ pagePath a → InPages us a →
      s'.byteAt a = s.byteAt a) := by
  have hkeep := fun g => @mountPageDo_free _ (fun _ _ hh => hh) _ (h.anon.tree.alloc hm.1) v
    (pteOf s.allocAddr 7#12) hm.2 g
  obtain ⟨hgrown, -, -⟩ := mountPageDo_spec (fun _ _ hh => hh) (h.anon.tree.alloc hm.1) v
    (pteOf s.allocAddr 7#12) hm.2
  have hmapped := @Mapped.mount s h.anon.tree v 7#12 (by decide) hm _ hs'
  -- What the page was mapped to before does not count.
  have hsub : AnonInv s (us.filter fun u => pagePath u ≠ pagePath v) :=
    h.anon.of_pages fun w hw => ⟨w, (List.mem_filter.mp hw).1, rfl⟩
  have hnew : pagePath v ∉ (us.filter fun u => pagePath u ≠ pagePath v).map pagePath := by
    intro hmem
    obtain ⟨u, hu, hpath⟩ := List.mem_map.mp hmem
    have hne := (List.mem_filter.mp hu).2
    exact (of_decide_eq_true hne) hpath
  have hanon := @anonInv_page s _ hsub v 7#12 (by decide) hnew hm
  rw [← hs'] at hkeep hgrown hanon
  have hroot : s'.root = s.root := hgrown.root
  have hspace : frameOf s'.cr3 = s'.root := by
    rw [hmapped.cr3, hroot]
    exact h.space
  have hframe : ∀ f, ¬ s.free f → s.noTable s.root f → s'.mem f = s.mem f := by
    intro f hf htable
    exact hgrown.frame f (fun hh => hf (alloc_free hm.1 hh)) htable
  refine ⟨⟨?_, ?_, hspace, ?_, ?_⟩, ?_, ?_⟩
  · refine hanon.of_pages fun w hw => ?_
    by_cases hpath : pagePath w = pagePath v
    · exact ⟨v, List.mem_cons_self, hpath.symm⟩
    · have hin : w ∈ us := (List.mem_cons.mp hw).resolve_left fun heq => hpath (by rw [heq])
      exact ⟨w, List.mem_cons_of_mem _ (List.mem_filter.mpr ⟨hin, decide_eq_true hpath⟩), rfl⟩
  · intro u hu
    rcases List.mem_cons.mp hu with rfl | hu
    · exact hv
    · exact h.off u hu
  · intro a ha
    obtain ⟨f, h₀, hf, hmem, hfree, htable, hus⟩ := h.kept a ha
    have hne : ¬ InPages [v] a := fun hh => hv.ne_above (hK a ha) (inPages_singleton.mp hh).symm
    refine ⟨f, h₀, (hmapped.frameAt h.space (aboveWindow_not_window (hK a ha)) hne).trans hf,
      (hframe f hfree htable).trans hmem, fun hh => hfree (hmapped.free f hh), ?_, ?_⟩
    · intro q hq hqf
      rw [hroot] at hqf
      rcases hgrown.tables q f hq hqf with hh | hh
      · exact htable q hq hh
      · exact hfree (alloc_free hm.1 hh)
    · intro u hu huf
      by_cases hwin : pagePath u = windowPath
      · exact mapsTo_window hanon.tree (hanon.window (List.cons_ne_nil _ _)) hwin f huf
      by_cases hpath : InPages [v] u
      · obtain ⟨g, hg, hgfree⟩ := hmapped.new u hwin hpath
        obtain ⟨e, he, hef⟩ := huf
        obtain ⟨e', he', heg⟩ := hg
        rw [he] at he'
        cases he'
        exact hfree (by rw [← hef, heg]; exact hgfree)
      · have hin : u ∈ us := (List.mem_cons.mp hu).resolve_left fun heq =>
          hpath (inPages_singleton.mpr (by rw [heq]))
        exact hus u hin ((hmapped.mapsTo hwin hpath).mp huf)
  · intro x hx
    obtain ⟨hx₀, hmem₀⟩ := h.free x (hmapped.free x hx)
    exact ⟨hx₀, (hkeep x hx).trans hmem₀⟩
  · intro a hcan hwin hpath
    obtain ⟨g, hg, hgfree⟩ := hmapped.new a hwin (inPages_singleton.mpr hpath)
    have hfa : s'.frameAt a = some g := (frameAt_eq_some hspace hcan).mpr hg
    obtain ⟨g', -, haddr, -, hafter⟩ := alloc_spec hm.1
    have hnotfree : ¬ s'.free g := hanon.taken v List.mem_cons_self g ((mapsTo_path hpath).mpr hg)
    have hgmem : s'.mem g = s.mem g := by
      have hgtaken : ¬ s.alloc.free g := by
        -- The new frame is the one that `alloc_phys_page` took.
        obtain ⟨-, -, hat⟩ := mountPageDo_spec (fun _ _ hh => hh) (h.anon.tree.alloc hm.1) v
          (pteOf s.allocAddr 7#12) hm.2
        rw [← hs'] at hat
        obtain ⟨t, hwalk, hmem⟩ := hat (hpath ▸ hwin)
        have hph : (pteOf s.allocAddr 7#12).next = some g' := by
          rw [Pte.next_pteOf _ (by decide), haddr, frameOf_frameAddr]
        have htr := translate_mounted hph hwalk hmem hpath.symm
        rw [alloc_root, ← hroot] at htr
        obtain ⟨e, he, hef⟩ := hg
        rw [htr] at he
        cases he
        rw [← hef, (Pte.next_eq_some.mp hph).2]
        exact fun hh => ((hafter g').mp hh).2 rfl
      exact hgrown.frame g hgtaken fun q hq hqg => h.anon.tree.taken q g hq hqg hgfree
    exact ⟨g, hfa, (h.free g hgfree).1,
      by rw [byteAt_of_frame hfa, hgmem, (h.free g hgfree).2]⟩
  · intro a hcan hwin hpath hin
    obtain ⟨f, hf, -, hfree, htable⟩ := h.frame hcan hwin hin
    exact byteAt_congr hf (hmapped.frameAt h.space hwin fun hh => hpath (inPages_singleton.mp hh))
      (hframe f hfree htable)

/-- A byte is stored in a page of the program: it is there, and no other byte has changed. -/
theorem store (h : UserPages s₀ s K us) {a : BitVec 64} (hcan : canonical a = true)
    (hwin : pagePath a ≠ windowPath) (hin : InPages us a) (b : BitVec 8) :
    ∃ f, s.frameAt a = some f ∧ s.noTable s.root f ∧ UserPages s₀ (s.storeAt f a b) K us ∧
      (s.storeAt f a b).byteAt a = some b ∧
      ∀ w, canonical w = true → pagePath w ≠ windowPath → InPages us w → w ≠ a →
        (s.storeAt f a b).byteAt w = s.byteAt w := by
  obtain ⟨f, hf, hfa, hfree, htable⟩ := h.frame hcan hwin hin
  have htable' : s.noTable (frameOf s.cr3) f := by rw [h.space]; exact htable
  have hframe := fun w => @frameAt_storeAt s a f b htable' w
  have htrans := fun w => @translate_storeAt s a f b s.root htable w
  have hmaps : ∀ w g, (s.storeAt f a b).mapsTo w g ↔ s.mapsTo w g := by
    intro w g
    unfold PageState.mapsTo
    rw [storeAt_root, htrans]
  have hwalk : ∀ g, s.noTable s.root g → (s.storeAt f a b).noTable s.root g := by
    intro g hg q hq hqg
    exact hg q hq ((walk_storeAt htable (by omega)).symm.trans hqg)
  refine ⟨f, hf, htable, ⟨⟨pageTree_storeAt h.anon.tree htable, ?_, ?_, ?_, ?_⟩, h.off, h.space, ?_,
    ?_⟩, ?_, ?_⟩
  · intro hne
    -- The slot lies in a table.
    have hkpt : s.kptFrame ≠ f := fun hh => htable kernelPath (by decide) (hh ▸ h.anon.tree.kernel)
    have hslot : (s.storeAt f a b).slot = s.slot :=
      congrFun (@storeAt_mem_other s a f b s.kptFrame hkpt) 0
    exact hslot.trans (h.anon.window hne)
  · intro u hu huwin
    obtain ⟨g, hg⟩ := h.anon.mapped u hu huwin
    exact ⟨g, (hmaps u g).mpr hg⟩
  · intro u hu g hg
    exact h.anon.taken u hu g ((hmaps u g).mp hg)
  · intro u hu g hg
    obtain ⟨h0, hgt, hother⟩ := h.anon.distinct u hu g ((hmaps u g).mp hg)
    exact ⟨h0, hwalk g hgt, fun w hw hne hwg => hother w hw hne ((hmaps w g).mp hwg)⟩
  · intro w hw
    obtain ⟨g, h₀, hg, hmem, hgfree, hgt, hus⟩ := h.kept w hw
    have hgf : g ≠ f := by
      rintro rfl
      obtain ⟨u, hu, hpath⟩ := hin
      exact hus u hu ((mapsTo_path hpath).mpr hfa)
    exact ⟨g, h₀, (hframe w).trans hg, (storeAt_mem_other hgf).trans hmem, hgfree, hwalk g hgt,
      fun u hu hug => hus u hu ((hmaps u g).mp hug)⟩
  · intro g hg
    have hgf : g ≠ f := fun hh => hfree (hh ▸ hg)
    exact ⟨(h.free g hg).1, (storeAt_mem_other hgf).trans (h.free g hg).2⟩
  · rw [byteAt_of_frame ((hframe a).trans hf), storeAt_mem_same, pageByte_setPageByte, if_pos rfl]
  · intro w hwcan hwwin hwin' hne
    obtain ⟨g, hg, hgw, -, -⟩ := h.frame hwcan hwwin hwin'
    rw [byteAt_of_frame ((hframe w).trans hg), byteAt_of_frame hg]
    by_cases hgf : g = f
    · subst hgf
      rw [storeAt_mem_same, pageByte_setPageByte, if_neg]
      intro hoff
      -- One frame, so one page.
      obtain ⟨u, hu, hpath⟩ := hin
      obtain ⟨x, hx, hxpath⟩ := hwin'
      refine hne (eq_of_page hwcan hcan ?_ hoff)
      by_contra hpw
      exact (h.anon.distinct u hu g ((mapsTo_path hpath).mpr hfa)).2.2 x hx
        (by rw [hxpath, hpath]; exact hpw) ((mapsTo_path hxpath).mpr hgw)
    · rw [storeAt_mem_other hgf]

/-- The loop of `alloc_pages_user`. -/
theorem allocLoop (hK : ∀ a, K a → aboveWindow a) {addr : BitVec 64} : ∀ (n : Nat) (i : BitVec 64)
    {s : PageState} {us : List (BitVec 64)}, UserPages s₀ s K us →
    (∀ v ∈ loopPages addr n i, offKernel v) → loopMeets createPageUser addr n i s →
    ∃ s', (Mm.allocLoop createPageUser addr n i).run pageExec s = ((), s') ∧
      UserPages s₀ s' K (loopPages addr n i ++ us) ∧
      (∀ a, canonical a = true → pagePath a ≠ windowPath → InPages (loopPages addr n i) a →
        LeftOver s₀ s' a) ∧
      (∀ a, canonical a = true → pagePath a ≠ windowPath → ¬ InPages (loopPages addr n i) a →
        InPages us a → s'.byteAt a = s.byteAt a)
  | 0, _, s, us, h, _, _ => by
    refine ⟨s, rfl, h, ?_, fun _ _ _ _ _ => rfl⟩
    rintro a - - ⟨u, hu, -⟩
    cases hu
  | n + 1, i, s, us, h, hoff, hm => by
    obtain ⟨hpage, hrest⟩ := Mapped.loopMeets_succ hm
    obtain ⟨hs₁, hnew, hold⟩ := h.mount hK (hoff _ List.mem_cons_self) hpage rfl
    rw [Mapped.run_allocLoop_succ]
    generalize ((mountPageDo (addr + i) (pteOf s.allocAddr 7#12)).run pageExec s.alloc).2 = s₁ at *
    have hmapped := @Mapped.allocLoop addr n (i + 0x1000#64) s₁ hs₁.anon.tree hrest
    obtain ⟨s', hrun', hs', hnew', hold'⟩ := allocLoop hK n (i + 0x1000#64) hs₁
      (fun v hv => hoff v (List.mem_cons_of_mem _ hv)) hrest
    rw [hrun'] at hmapped
    refine ⟨s', hrun', ?_, ?_, ?_⟩
    · refine hs'.congr fun u => ?_
      rw [loopPages, List.cons_append]
      exact List.perm_middle.symm.mem_iff
    · intro a hcan hwin hin
      by_cases hlater : InPages (loopPages addr n (i + 0x1000#64)) a
      · exact hnew' a hcan hwin hlater
      · -- Mapped in this round and left alone since.
        have hfirst : pagePath (addr + i) = pagePath a := (inPages_cons.mp hin).resolve_right hlater
        exact (hnew a hcan hwin hfirst).congr (hmapped.frameAt hs₁.space hwin hlater)
          (hold' a hcan hwin hlater (inPages_cons.mpr (Or.inl hfirst)))
    · intro a hcan hwin hnot hin
      rw [loopPages, inPages_cons, not_or] at hnot
      rw [hold' a hcan hwin hnot.2 (inPages_cons.mpr (Or.inr hin)), hold a hcan hwin hnot.1 hin]

end UserPages

end OS64.Mm
