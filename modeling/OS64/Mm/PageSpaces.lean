import OS64.Mm.PageAnon
import OS64.Mm.PageAp
import OS64.Mm.PageFork

/-!
# The address spaces of the machine

`page_init` builds the first address space, `page_init_ap` one for every further
processor and `copy_pages` one for every fork. `mount_page` and the recovery from a
heap fault go down from `PML4` whatever is loaded in `CR3`, so only the first one
grows. The others, `Side`, have tables of their own down to the lowest and share
`kernel_pt`; what is mounted there they see, and nothing else.

`Spaces` holds in every run of these functions on any number of processors, where
each call is taken with one of the live roots in `CR3`.
-/

namespace OS64.Mm

open OS64.Lib

/-! ## What the calls do to the trees -/

theorem free_ne_zero {s : PageState} {f : Frame} (h : s.free f) : f ≠ 0 := by
  rintro rfl
  exact absurd h.1 (by decide)

namespace CopyKeeps

variable {s s' : PageState}

/-- The tables under `PML4` are as they were, down to the lowest. -/
theorem walk_root (h : CopyKeeps s s') (htree : PageTree s) {q : List (BitVec 9)} (hq : q.length ≤ 3) :
    s'.walk s.root q = s.walk s.root q := by
  apply follow_congr
  intro p i r t hqeq ht
  have hlen : q.length = p.length + (r.length + 1) := by simp [hqeq]
  rw [h.mem t i (htree.taken p t (by omega) ht) (Or.inl (htree.upper_ne (by omega) ht))]

/-- To the tree under `PML4` it is as if the window had been opened and closed. -/
theorem grown (h : CopyKeeps s s') (htree : PageTree s) (path : List (BitVec 9)) : Grown path s s' := by
  have hroot : s'.root = s.root := congrArg frameOf h.pml4
  refine ⟨⟨?_, ?_, ?_⟩, h.pml4, h.kernelPt, ?_, h.free, ?_, ?_, ?_⟩
  · intro p q f hp hq hpf hqf
    rw [hroot] at hpf hqf
    exact htree.tree p q f hp hq ((h.walk_root htree hp).symm.trans hpf)
      ((h.walk_root htree hq).symm.trans hqf)
  · intro p f hp hf hfree
    rw [hroot, h.walk_root htree hp] at hf
    exact htree.taken p f hp hf (h.free f hfree)
  · rw [hroot, h.walk_root htree (by decide), h.kptFrame]
    exact htree.kernel
  · intro q j hq _ hwin
    have hwalk := h.walk_root htree (q := q) (by omega)
    cases ht : s.walk s.root q with
    | none => rw [look_none ht, look_none (hwalk.trans ht)]
    | some t =>
      have hslot : t ≠ s.kptFrame ∨ j ≠ 0 := by
        by_contra hcon
        rw [not_or, not_not, not_not] at hcon
        have hpath := htree.kernel_onlyAt q (by omega) (ht.trans (congrArg some hcon.1))
        exact hwin (by rw [hpath, hcon.2]; rfl)
      rw [look_of_walk ht, look_of_walk (hwalk.trans ht),
        h.mem t j (htree.taken q t (by omega) ht) hslot]
  · intro q f hq hf
    exact (h.walk_root htree hq).trans hf
  · intro q f hq hf
    exact Or.inl ((h.walk_root htree hq).symm.trans hf)
  · intro f hf hout
    exact h.page hf fun hh => hout kernelPath (by decide) (by rw [htree.kernel, hh])

end CopyKeeps

/-! ## Address spaces beside the first -/

/-- A tree beside that of `PML4`: it has `kernel_pt` in its place, and its other tables are
taken and not among those of `PML4`. -/
structure Side (s : PageState) (r : Frame) : Prop where
  kernel : s.walk r kernelPath = some s.kptFrame
  own : ∀ p f, p.length ≤ 3 → s.walk r p = some f → p = kernelPath ∨
    (¬ s.free f ∧ f ≠ 0 ∧ ∀ q, q.length ≤ 3 → s.walk s.root q ≠ some f)

namespace Side

variable {s s' : PageState} {r : Frame} {path : List (BitVec 9)}

/-- What makes the first tree grow leaves the tables of another as they are. -/
theorem frame (h : Side s r) (hg : Grown path s s') {p : List (BitVec 9)} {f : Frame}
    (hp : p.length ≤ 3) (hne : p ≠ kernelPath) (hf : s.walk r p = some f) : s'.mem f = s.mem f := by
  obtain ⟨htaken, -, hout⟩ := (h.own p f hp hf).resolve_left hne
  exact hg.frame f htaken hout

theorem walk (h : Side s r) (hg : Grown path s s') {q : List (BitVec 9)} (hq : q.length ≤ 3) :
    s'.walk r q = s.walk r q := by
  apply follow_congr
  intro p i rest t hqeq ht
  have hlen : q.length = p.length + (rest.length + 1) := by simp [hqeq]
  have hne : p ≠ kernelPath := by
    rintro rfl
    rw [show kernelPath.length = 3 from rfl] at hlen
    omega
  rw [h.frame hg (by omega) hne ht]

theorem grown (h : Side s r) (hg : Grown path s s') : Side s' r where
  kernel := by
    have hkpt : s'.kptFrame = s.kptFrame := by
      rw [PageState.kptFrame, PageState.kptFrame, hg.kernelPt]
    rw [h.walk hg (by decide), hkpt]
    exact h.kernel
  own := by
    intro p f hp hf
    rw [h.walk hg hp] at hf
    refine (h.own p f hp hf).imp_right ?_
    rintro ⟨htaken, hzero, hout⟩
    refine ⟨fun hh => htaken (hg.free f hh), hzero, ?_⟩
    intro q hq hqf
    rw [hg.root] at hqf
    exact (hg.tables q f hq hqf).elim (hout q hq) htaken

/-- A page that is not of `kernel_pt` is mapped as before. -/
theorem translate (h : Side s r) (hg : Grown path s s') {v : BitVec 64}
    (hv : tablePath v ≠ kernelPath) : s'.translate r v = s.translate r v := by
  have hlen : (tablePath v).length ≤ 3 := by simp [tablePath]
  have hwalk := h.walk hg hlen
  rw [PageState.translate, PageState.translate]
  cases ht : s.walk r (tablePath v) with
  | none => rw [look_none ht, look_none (hwalk.trans ht)]
  | some t => rw [look_of_walk ht, look_of_walk (hwalk.trans ht), h.frame hg hlen hv ht]

end Side

/-- A tree of frames just taken that ends in `kernel_pt`. -/
theorem side_new {s s' : PageState} (htree : PageTree s) (hkeeps : CopyKeeps s s') {r : Frame}
    (hkernel : s'.walk r kernelPath = some s.kptFrame)
    (hnew : ∀ p f, p.length ≤ 3 → s'.walk r p = some f → p = kernelPath ∨ s.newFrame s' f) :
    Side s' r where
  kernel := by
    rw [hkeeps.kptFrame]
    exact hkernel
  own := by
    intro p f hp hf
    refine (hnew p f hp hf).imp_right ?_
    rintro ⟨hfree, htaken⟩
    refine ⟨htaken, free_ne_zero hfree, ?_⟩
    intro q hq hqf
    rw [show s'.root = s.root from congrArg frameOf hkeeps.pml4, hkeeps.walk_root htree hq] at hqf
    exact htree.taken q f hq hqf hfree

/-! ## Calls and runs -/

/-- A call that makes an address space or maps a page. -/
inductive SpaceCall
  | initAp
  | fork
  | mount (phys v : BitVec 64)
  | fault (addr reg1 : BitVec 64)

/-- The call as the source makes it, and the roots it leaves in a `CR3` or returns. -/
def SpaceCall.run (kernelHeap : BitVec 64) (s : PageState) : SpaceCall → PageState × List Frame
  | initAp => ((pageInitAp.run pageExec s).2, [frameOf (pageInitAp.run pageExec s).2.cr3])
  | fork => ((copyPages.run pageExec s).2, [frameOf (copyPages.run pageExec s).1])
  | mount phys v => (((mountPage phys v).run pageExec s).2, [])
  | fault addr reg1 => (((pageFault kernelHeap addr reg1).run pageExec s).2, [])

/-- A fault is a kernel-mode one on a page of the heap that is not mapped in the tree loaded. -/
def SpaceCall.occurs (kernelHeap : BitVec 64) (s : PageState) : SpaceCall → Prop
  | fault addr reg1 =>
    (kernelHeap ≤ addr ∧ reg1.getLsbD 0 = false ∧ reg1.getLsbD 2 = false) ∧
      s.translate (frameOf s.cr3) addr = none
  | _ => True

/-- There are frames for the call, those that become tables do no harm, and a tree that is
copied has its tables in the first `2 ^ 28` frames and shows `kernel_pt` in entry 0 of no other. -/
def SpaceCall.meets (s : PageState) : SpaceCall → Prop
  | initAp => AllocsOk pageInitAp s
  | fork =>
    AllocsOk copyPages s ∧ TablesLow s (frameOf s.cr3) ∧ FirstEntries s (frameOf s.cr3)
  | mount _ v => mountMeets harmless s s.root (pagePath v)
  | fault addr _ => pageMeets s (addr &&& 0xFFFFFFFFFFFFF000#64)

/-- The machine as a processor with `cr3` in its `CR3` has it. -/
def PageState.loaded (s : PageState) (cr3 : BitVec 64) : PageState := { s with cr3 := cr3 }

/-- The address spaces with the roots `live`: that of `PML4`, and others beside it. -/
structure Spaces (s : PageState) (live : List Frame) : Prop where
  tree : PageTree s
  nonzero : TablesNonzero s s.root
  aligned : s.kernelPt &&& 0xFFF#64 = 0
  root : s.root ∈ live
  side : ∀ r ∈ live, r ≠ s.root → Side s r

namespace Spaces

variable {s : PageState} {live : List Frame}

/-- What is in `CR3` is no part of it. -/
theorem loaded (h : Spaces s live) (cr3 : BitVec 64) : Spaces (s.loaded cr3) live where
  tree := ⟨h.tree.tree, h.tree.taken, h.tree.kernel⟩
  nonzero := h.nonzero
  aligned := h.aligned
  root := h.root
  side r hr hne := ⟨(h.side r hr hne).kernel, (h.side r hr hne).own⟩

/-- Any of them can be copied. -/
theorem copyTree (h : Spaces s live) {r : Frame} (hr : r ∈ live) :
    CopyTree s r ∧ TablesNonzero s r := by
  have hkpt := h.tree.taken kernelPath _ (by decide) h.tree.kernel
  have hkpt0 := h.nonzero kernelPath _ (by decide) (by decide) h.tree.kernel
  by_cases hroot : r = s.root
  · subst hroot
    exact ⟨⟨h.tree.kernel_onlyAt, h.tree.kernel, h.aligned, h.tree.taken⟩, h.nonzero⟩
  · have hside := h.side r hr hroot
    refine ⟨⟨?_, hside.kernel, h.aligned, ?_⟩, ?_⟩
    · intro p hp hf
      exact (hside.own p _ hp hf).resolve_right fun hh => hh.2.2 kernelPath (by decide) h.tree.kernel
    · intro p f hp hf
      rcases hside.own p f hp hf with rfl | ⟨htaken, -⟩
      · cases hside.kernel.symm.trans hf
        exact hkpt
      · exact htaken
    · intro p f _ hp hf
      rcases hside.own p f hp hf with rfl | ⟨-, hzero, -⟩
      · cases hside.kernel.symm.trans hf
        exact hkpt0
      · exact hzero

/-- Growth of the first tree, and new trees beside it. -/
theorem grown (h : Spaces s live) {s' : PageState} {path : List (BitVec 9)} (hg : Grown path s s')
    {new : List Frame} (hnew : ∀ r ∈ new, Side s' r) : Spaces s' (new ++ live) where
  tree := hg.tree
  nonzero := by
    intro p f hne hp hf
    rw [hg.root] at hf
    exact (hg.tables p f hp hf).elim (h.nonzero p f hne hp) free_ne_zero
  aligned := by
    rw [hg.kernelPt]
    exact h.aligned
  root := by
    rw [hg.root]
    exact List.mem_append_right _ h.root
  side := by
    intro r hr hne
    rw [hg.root] at hne
    rcases List.mem_append.mp hr with hr | hr
    · exact hnew r hr
    · exact (h.side r hr hne).grown hg

/-- What a call that meets the condition does. -/
theorem call (h : Spaces s live) (hr : frameOf s.cr3 ∈ live) {kernelHeap : BitVec 64} {c : SpaceCall}
    (hocc : c.occurs kernelHeap s) (hmeets : c.meets s) :
    (∃ path, Grown path s (c.run kernelHeap s).1) ∧
      ∀ r ∈ (c.run kernelHeap s).2, Side (c.run kernelHeap s).1 r := by
  have hkpt := h.tree.taken kernelPath _ (by decide) h.tree.kernel
  cases c with
  | initAp =>
    obtain ⟨hkeeps, a, b, d, hcr3, hnew, hchain⟩ := pageInitAp_spec hkpt hmeets
    simp only [SpaceCall.run]
    refine ⟨⟨[], hkeeps.grown h.tree []⟩, ?_⟩
    intro r hr
    cases List.mem_singleton.mp hr
    rw [hcr3]
    refine side_new h.tree hkeeps (tableChain_kernel hchain) ?_
    intro p f hp hf
    rcases tableChain_walk hchain hp hf with ⟨-, rfl⟩ | ⟨-, rfl⟩ | ⟨-, rfl⟩ | ⟨hpath, -⟩
    · exact Or.inr (hnew _ (by simp))
    · exact Or.inr (hnew _ (by simp))
    · exact Or.inr (hnew _ (by simp))
    · exact Or.inl hpath
  | fork =>
    obtain ⟨hallocs, hlow, hfirst⟩ := hmeets
    obtain ⟨hcopy, hzero⟩ := h.copyTree hr
    have hread := hlow.read hfirst
    obtain ⟨hkeeps, hcopied⟩ := copyPages_copied hcopy hread hallocs
    simp only [SpaceCall.run]
    refine ⟨⟨[], hkeeps.grown h.tree []⟩, ?_⟩
    intro r hr
    cases List.mem_singleton.mp hr
    refine side_new h.tree hkeeps (copied_kernel hcopy hread hkeeps hcopied) ?_
    intro p f hp hf
    rcases copied_table hcopy hread hkeeps hcopied hp with
      ⟨-, hnone⟩ | ⟨t, t', ht, ht', hc, -⟩ | ⟨-, hover⟩
    · rw [hf] at hnone
      cases hnone
    · rw [hf] at ht'
      cases ht'
      by_cases hk : t = s.kptFrame
      · exact Or.inl (hcopy.only p hp (ht.trans (congrArg some hk)))
      · rw [show 4 - p.length = (3 - p.length) + 1 by omega] at hc
        exact Or.inr (hc.entries hk).1
    · exact absurd hover (hlow.not_passes hzero hp)
  | mount phys v =>
    obtain ⟨hgrown, -⟩ := mountPageDo_spec (fun _ _ hh => hh) h.tree v (calcPage phys) hmeets
    simp only [SpaceCall.run]
    exact ⟨⟨_, hgrown⟩, fun r hr => absurd hr List.not_mem_nil⟩
  | fault addr reg1 =>
    obtain ⟨hrec, -⟩ := hocc
    obtain ⟨hok, hm⟩ := hmeets
    obtain ⟨hgrown, -⟩ := mountPageDo_spec (fun _ _ hh => hh) (h.tree.alloc hok)
      (addr &&& 0xFFFFFFFFFFFFF000#64) (calcPage s.allocAddr) hm
    simp only [SpaceCall.run]
    rw [run_pageFault hrec]
    exact ⟨⟨_, ((copyKeeps_alloc hok).grown h.tree _).trans hgrown⟩,
      fun r hr => absurd hr List.not_mem_nil⟩

end Spaces

end OS64.Mm
