import OS64.Mm.PageCopy

/-!
# The address space of another processor

`page_init_ap` takes three frames, clears them and links them into a tree of its own
that has one table a level, like that of `page_init`, and ends in the same
`kernel_pt`. Beside these frames it writes the slot alone, so what it does to the
other address spaces is what a copy does: `CopyKeeps`.
-/

namespace OS64.Mm

open OS64.Lib

/-! ## One table -/

/-- What a cleared frame with one entry written through the window comes to. -/
theorem setPage_clear (k f : Frame) (m : Frame → Page) (i : BitVec 9) (a e : Pte) :
    setEntry (setEntry (setPage (setEntry m k 0 a) f fun _ => 0) f i e) k 0 0 =
      setEntry (setPage m f (tableOf i e)) k 0 0 := by
  have hpage : setEntry (setPage (setEntry m k 0 a) f fun _ => 0) f i e =
      setPage (setEntry m k 0 a) f (tableOf i e) := by
    funext g
    by_cases hg : g = f
    · funext j
      rw [hg, setPage_same, setEntry, tableOf, setPage_same]
      exact if_congr (and_iff_right rfl) rfl rfl
    · rw [setEntry_frame hg, setPage_other hg, setPage_other hg]
  rw [hpage, setPage_slot]

theorem run_initTable {s : PageState} {table : BitVec 64} (h : frameOf table ≠ s.kptFrame)
    (i : BitVec 9) (next : BitVec 64) :
    (initTable table i next).run pageExec s =
      ((), (s.putPage (frameOf table) (tableOf i (calcPage next))).closed) := by
  have hwin : ((s.mounted table).putPage (frameOf table) fun _ => 0).window = frameOf table := by
    have hslot : ((s.mounted table).putPage (frameOf table) fun _ => 0).slot = (s.mounted table).slot :=
      congrFun (setPage_other h.symm) 0
    rw [PageState.window, hslot]
    exact window_mounted s table
  unfold initTable
  rw [Prog.run_bind, run_mountPageT]
  show ((), PageState.setSlot (((s.mounted table).putPage (s.mounted table).window fun _ => 0).put
    ((s.mounted table).putPage (s.mounted table).window fun _ => 0).window i (calcPage next)) 0) = _
  rw [window_mounted, hwin]
  refine Prod.ext rfl ?_
  show ({ s with mem := setEntry (setEntry (setPage (setEntry s.mem s.kptFrame 0 _) _ _) _ i _)
                   s.kptFrame 0 0,
                 intf := decide (s.sema = 0) } : PageState) = _
  rw [setPage_clear]
  rfl

/-- A table built in a frame just taken. -/
theorem copyKeeps_initTable {s₀ s : PageState} (hk : ¬ s₀.free s₀.kptFrame) (h : CopyKeeps s₀ s)
    {f : Frame} (hf : s₀.free f) (i : BitVec 9) (next : BitVec 64) :
    CopyKeeps s₀ ((initTable (frameAddr f) i next).run pageExec s).2 ∧
    ((initTable (frameAddr f) i next).run pageExec s).2.phys = s.phys ∧
    ((initTable (frameAddr f) i next).run pageExec s).2.mem f = tableOf i (calcPage next) ∧
    ∀ g, g ≠ f → g ≠ s₀.kptFrame →
      ((initTable (frameAddr f) i next).run pageExec s).2.mem g = s.mem g := by
  have hfk : f ≠ s.kptFrame := by
    rw [h.kptFrame]
    exact fun hh => hk (hh ▸ hf)
  rw [run_initTable (by rwa [frameOf_frameAddr]), frameOf_frameAddr]
  refine ⟨⟨h.pml4, h.kernelPt, h.free, ?_⟩, rfl, (setEntry_frame hfk).trans (setPage_same _ _ _), ?_⟩
  · intro g j hg hj
    have hgf : g ≠ f := fun hh => hg (hh ▸ hf)
    refine (closed_mem_other (s := s.putPage f _) (by rw [← h.kptFrame] at hj; exact hj)).trans ?_
    exact (congrFun (setPage_other hgf) j).trans (h.mem g j hg hj)
  · intro g hgf hgk
    rw [← h.kptFrame] at hgk
    exact (setEntry_frame hgk).trans (setPage_other hgf)

theorem copyKeeps_alloc {s : PageState} (hok : s.allocAddr ≠ 0) : CopyKeeps s s.alloc where
  pml4 := rfl
  kernelPt := rfl
  free _ hg := alloc_free hok hg
  mem _ _ _ _ := rfl

/-! ## `page_init_ap` -/

theorem frameOf_cr3Load (a : BitVec 64) : frameOf (a &&& 0x000FFFFFFFFFF000#64) = frameOf a := by
  apply BitVec.eq_of_getLsbD_eq
  intro i hi
  have hmask : (0x000FFFFFFFFFF000#64).getLsbD (12 + i) = true := by
    revert i
    decide +kernel
  rw [frameOf, frameOf, BitVec.getLsbD_extractLsb', BitVec.getLsbD_extractLsb', BitVec.getLsbD_and,
    hmask, Bool.and_true]

/-- `page_init_ap` up to its tables, and the rest of it. -/
def apFrames (rest : BitVec 64 → BitVec 64 → BitVec 64 → PageProg Unit) : PageProg Unit := do
  intrDisable
  let root : BitVec 64 ← perform .getPml4
  cr3Load root
  let pml4 : BitVec 64 ← perform .allocPhysPage
  let pdp : BitVec 64 ← perform .allocPhysPage
  let pd : BitVec 64 ← perform .allocPhysPage
  rest pml4 pdp pd

def apTables (pml4 pdp pd : BitVec 64) : PageProg Unit := do
  initTable pml4 511 pdp
  initTable pdp 511 pd
  let kernelPt : BitVec 64 ← perform .getKernelPt
  initTable pd 0 (kernelPt &&& 0x0FFFFFFF#64)
  cr3Load pml4
  intrEnable

theorem pageInitAp_eq : pageInitAp = apFrames apTables := rfl

/-- The state in which `page_init_ap` takes its frames. -/
def PageState.apStart (s : PageState) : PageState :=
  { s with sema := s.sema + 1, intf := false, cr3 := s.pml4 &&& 0x000FFFFFFFFFF000#64 }

section

variable (rest : BitVec 64 → BitVec 64 → BitVec 64 → PageProg Unit) (s : PageState)

theorem run_apFrames : (apFrames rest).run pageExec s =
    (rest s.apStart.allocAddr s.apStart.alloc.allocAddr s.apStart.alloc.alloc.allocAddr).run pageExec
      s.apStart.alloc.alloc.alloc := rfl

theorem allocsOk_apFrames (h : AllocsOk (apFrames rest) s) :
    s.apStart.allocAddr ≠ 0 ∧ s.apStart.alloc.allocAddr ≠ 0 ∧ s.apStart.alloc.alloc.allocAddr ≠ 0 := by
  unfold apFrames at h
  rw [AllocsOk, Prog.always_bind, run_intrDisable] at h
  exact ⟨h.2.2.2.1, h.2.2.2.2.1, h.2.2.2.2.2.1⟩

end

/-- The end of `page_init_ap` touches no table. -/
theorem copyKeeps_apEnd {s₀ s : PageState} (h : CopyKeeps s₀ s) (pml4 : BitVec 64) :
    CopyKeeps s₀ ((cr3Load pml4 >>= fun _ => intrEnable).run pageExec s).2 ∧
    ((cr3Load pml4 >>= fun _ => intrEnable).run pageExec s).2.mem = s.mem ∧
    ((cr3Load pml4 >>= fun _ => intrEnable).run pageExec s).2.phys = s.phys ∧
    frameOf ((cr3Load pml4 >>= fun _ => intrEnable).run pageExec s).2.cr3 = frameOf pml4 := by
  rw [Prog.run_bind, run_intrEnable]
  exact ⟨⟨h.pml4, h.kernelPt, h.free, h.mem⟩, rfl, rfl, frameOf_cr3Load pml4⟩

/-- The tables of `page_init_ap`, in three frames that were free. -/
theorem apTables_spec {s₀ s : PageState} (hk : ¬ s₀.free s₀.kptFrame) (h : CopyKeeps s₀ s)
    {a b c : Frame} (ha : s₀.free a) (hb : s₀.free b) (hc : s₀.free c) (hab : a ≠ b) (hac : a ≠ c)
    (hbc : b ≠ c) :
    ∃ s', ((apTables (frameAddr a) (frameAddr b) (frameAddr c)).run pageExec s).2 = s' ∧
      CopyKeeps s₀ s' ∧ s'.phys = s.phys ∧ frameOf s'.cr3 = a ∧
      TableChain s' a b c s₀.kptFrame := by
  obtain ⟨h₁, hphys₁, hmem₁, -⟩ := copyKeeps_initTable hk h ha 511 (frameAddr b)
  generalize hs₁ : ((initTable (frameAddr a) 511 (frameAddr b)).run pageExec s).2 = s₁ at *
  obtain ⟨h₂, hphys₂, hmem₂, hother₂⟩ := copyKeeps_initTable hk h₁ hb 511 (frameAddr c)
  generalize hs₂ : ((initTable (frameAddr b) 511 (frameAddr c)).run pageExec s₁).2 = s₂ at *
  obtain ⟨h₃, hphys₃, hmem₃, hother₃⟩ :=
    copyKeeps_initTable hk h₂ hc 0 (s₂.kernelPt &&& 0x0FFFFFFF#64)
  generalize hs₃ : ((initTable (frameAddr c) 0 (s₂.kernelPt &&& 0x0FFFFFFF#64)).run pageExec s₂).2 = s₃
    at *
  obtain ⟨h₄, hmem₄, hphys₄, hcr3⟩ := copyKeeps_apEnd h₃ (frameAddr a)
  have hrun : (apTables (frameAddr a) (frameAddr b) (frameAddr c)).run pageExec s =
      (cr3Load (frameAddr a) >>= fun _ => intrEnable).run pageExec s₃ := by
    rw [apTables, Prog.run_bind, hs₁, Prog.run_bind, hs₂, Prog.run_bind, run_getKernelPt, Prog.run_bind,
      hs₃]
  have hne : ∀ g, s₀.free g → g ≠ s₀.kptFrame := fun g hg hh => hk (hh ▸ hg)
  have hkpt : frameOf (s₂.kernelPt &&& 0x0FFFFFFF#64) = s₀.kptFrame := h₂.kptFrame
  refine ⟨_, rfl, ?_⟩
  rw [hrun]
  refine ⟨h₄, ?_, hcr3.trans (frameOf_frameAddr a), ?_, ?_, ?_⟩
  · rw [hphys₄, hphys₃, hphys₂, hphys₁]
  · intro i
    rw [hmem₄, hother₃ a hac (hne a ha), hother₂ a hab (hne a ha), hmem₁, tableOf_next,
      frameOf_frameAddr]
  · intro i
    rw [hmem₄, hother₃ b hbc (hne b hb), hmem₂, tableOf_next, frameOf_frameAddr]
  · intro i
    rw [hmem₄, hmem₃, tableOf_next, hkpt]

/-- `page_init_ap` builds a chain of three new tables that ends in `kernel_pt`. -/
theorem pageInitAp_spec {s : PageState} (hk : ¬ s.free s.kptFrame) (hok : AllocsOk pageInitAp s) :
    CopyKeeps s (pageInitAp.run pageExec s).2 ∧
    ∃ a b c, frameOf (pageInitAp.run pageExec s).2.cr3 = a ∧
      (∀ g ∈ [a, b, c], s.newFrame (pageInitAp.run pageExec s).2 g) ∧
      TableChain (pageInitAp.run pageExec s).2 a b c s.kptFrame := by
  rw [pageInitAp_eq] at hok ⊢
  obtain ⟨hok₁, hok₂, hok₃⟩ := allocsOk_apFrames apTables s hok
  rw [run_apFrames]
  have hstart : CopyKeeps s s.apStart := ⟨rfl, rfl, fun _ hg => hg, fun _ _ _ _ => rfl⟩
  have hkeeps := ((hstart.trans (copyKeeps_alloc hok₁)).trans (copyKeeps_alloc hok₂)).trans
    (copyKeeps_alloc hok₃)
  obtain ⟨a, ha, haddr₁, -, hfree₁⟩ := alloc_spec hok₁
  obtain ⟨b, hb, haddr₂, -, hfree₂⟩ := alloc_spec hok₂
  obtain ⟨c, hc, haddr₃, -, hfree₃⟩ := alloc_spec hok₃
  have hb' := (hfree₁ b).mp hb
  have hc' := (hfree₂ c).mp hc
  have hc'' := (hfree₁ c).mp hc'.1
  obtain ⟨s', hs', h', hphys, hcr3, hchain⟩ := apTables_spec hk hkeeps (a := a) (b := b) (c := c) ha
    hb'.1 hc''.1 (Ne.symm hb'.2) (Ne.symm hc''.2) (Ne.symm hc'.2)
  rw [haddr₁, haddr₂, haddr₃, hs']
  have htaken : ∀ g, s'.free g ↔ ((s.free g ∧ g ≠ a) ∧ g ≠ b) ∧ g ≠ c := by
    intro g
    rw [PageState.free, hphys]
    exact (hfree₃ g).trans (and_congr_left' ((hfree₂ g).trans (and_congr_left' (hfree₁ g))))
  refine ⟨h', a, b, c, hcr3, ?_, hchain⟩
  intro g hg
  simp only [List.mem_cons, List.not_mem_nil, or_false] at hg
  rcases hg with rfl | rfl | rfl
  · exact ⟨ha, fun hh => ((htaken _).mp hh).1.1.2 rfl⟩
  · exact ⟨hb'.1, fun hh => ((htaken _).mp hh).1.2 rfl⟩
  · exact ⟨hc''.1, fun hh => ((htaken _).mp hh).2 rfl⟩

end OS64.Mm
