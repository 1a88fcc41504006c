import OS64.Mm.PageMount

/-!
# Anonymous pages

`alloc_pages`, `alloc_pages_user` and the recovery from a heap fault map a page to
a frame of `alloc_phys_page`, whose failure is the address 0; nobody asks for it.
While every allocation succeeds and the frames taken for tables do no harm, the
pages so mapped have a frame each, which is not frame 0 and no table. When the
memory runs out they all get frame 0.
-/

namespace OS64.Mm

open OS64.Lib

/-! ## Calls and runs -/

/-- A call that maps anonymous pages: `alloc_pages` or `alloc_pages_user`, or a page fault. -/
inductive AnonCall
  | pages (user : Bool) (addr size : BitVec 64)
  | fault (addr reg1 : BitVec 64)

/-- The addresses of a loop over `n` pages. -/
def loopPages (addr : BitVec 64) : Nat → BitVec 64 → List (BitVec 64)
  | 0, _ => []
  | n + 1, i => (addr + i) :: loopPages addr n (i + 0x1000#64)

/-- The pages a call maps. -/
def AnonCall.maps : AnonCall → List (BitVec 64)
  | pages _ addr size => loopPages addr ((size.toNat + 0xFFF) / 0x1000) 0
  | fault addr _ => [addr &&& 0xFFFFFFFFFFFFF000#64]

/-- The call as the source makes it. -/
def AnonCall.run (kernelHeap : BitVec 64) (s : PageState) : AnonCall → PageState
  | pages false addr size => ((allocPages addr size).run pageExec s).2
  | pages true addr size => ((allocPagesUser addr size).run pageExec s).2
  | fault addr reg1 => ((pageFault kernelHeap addr reg1).run pageExec s).2

/-- A fault is one `_page_fault` recovers from. -/
def AnonCall.recovers (kernelHeap : BitVec 64) : AnonCall → Prop
  | pages _ _ _ => True
  | fault addr reg1 => kernelHeap ≤ addr ∧ reg1.getLsbD 0 = false ∧ reg1.getLsbD 2 = false

/-- A page is mapped as it should: there is a frame for it, and the tables on its way are
there or taken from frames that do no harm. -/
def pageMeets (s : PageState) (v : BitVec 64) : Prop :=
  s.allocAddr ≠ 0 ∧ mountMeets harmless s.alloc s.root (pagePath v)

/-- `pageMeets` in each round of a loop. -/
def loopMeets (create : PageProg Pte) (addr : BitVec 64) : Nat → BitVec 64 → PageState → Prop
  | 0, _, _ => True
  | n + 1, i, s =>
    pageMeets s (addr + i) ∧
      loopMeets create addr n (i + 0x1000#64)
        ((do let ph ← create
             mountPageDo (addr + i) ph : PageProg Unit).run pageExec s).2

instance (s : PageState) (v : BitVec 64) : Decidable (pageMeets s v) :=
  inferInstanceAs (Decidable (_ ∧ _))

instance decideLoopMeets (create : PageProg Pte) (addr : BitVec 64) : (n : Nat) → (i : BitVec 64) →
    (s : PageState) → Decidable (loopMeets create addr n i s)
  | 0, _, _ => .isTrue trivial
  | n + 1, i, s =>
    have := decideLoopMeets create addr n (i + 0x1000#64)
      ((do let ph ← create
           mountPageDo (addr + i) ph : PageProg Unit).run pageExec s).2
    inferInstanceAs (Decidable (pageMeets s (addr + i) ∧ loopMeets create addr n (i + 0x1000#64) _))

/-- `pageMeets` for every page of a call. -/
def AnonCall.meets (s : PageState) : AnonCall → Prop
  | pages false addr size => loopMeets createPage addr ((size.toNat + 0xFFF) / 0x1000) 0 s
  | pages true addr size => loopMeets createPageUser addr ((size.toNat + 0xFFF) / 0x1000) 0 s
  | fault addr _ => pageMeets s (addr &&& 0xFFFFFFFFFFFFF000#64)

/-- The machine, and the pages mapped so far. Each call maps pages that are new. -/
inductive AnonStep (kernelHeap : BitVec 64) (meets : PageState → AnonCall → Prop) :
    PageState × List (BitVec 64) → PageState × List (BitVec 64) → Prop
  | call (s : PageState) (vs : List (BitVec 64)) (c : AnonCall) (hrec : c.recovers kernelHeap)
      (hnew : ((c.maps ++ vs).map pagePath).Nodup) (hmeets : meets s c) :
      AnonStep kernelHeap meets (s, vs) (c.run kernelHeap s, c.maps ++ vs)

/-- The page of `v` is mapped to frame `f`. -/
def PageState.mapsTo (s : PageState) (v : BitVec 64) (f : Frame) : Prop :=
  ∃ e, s.translate s.root v = some e ∧ e.address = f

/-- No two pages share a frame, and no page has frame 0 or that of a table. -/
def FramesDistinct (s : PageState) (vs : List (BitVec 64)) : Prop :=
  ∀ v ∈ vs, ∀ f, s.mapsTo v f →
    f ≠ 0 ∧ (∀ q, q.length ≤ 3 → s.walk s.root q ≠ some f) ∧
    ∀ w ∈ vs, pagePath w ≠ pagePath v → ¬ s.mapsTo w f

/-! ## One page -/

/-- What holds of the pages mapped so far. The window is unmapped by every use of it. -/
structure AnonInv (s : PageState) (vs : List (BitVec 64)) : Prop where
  tree : PageTree s
  window : vs ≠ [] → s.slot = 0
  mapped : ∀ v ∈ vs, pagePath v ≠ windowPath → ∃ f, s.mapsTo v f
  taken : ∀ v ∈ vs, ∀ f, s.mapsTo v f → ¬ s.free f
  distinct : FramesDistinct s vs

/-- It is about the set of these pages. -/
theorem AnonInv.congr {s : PageState} {vs ws : List (BitVec 64)} (h : AnonInv s vs)
    (hmem : ∀ v, v ∈ ws ↔ v ∈ vs) : AnonInv s ws where
  tree := h.tree
  window hne := by
    obtain ⟨v, hv⟩ := List.exists_mem_of_ne_nil ws hne
    exact h.window (List.ne_nil_of_mem ((hmem v).mp hv))
  mapped v hv := h.mapped v ((hmem v).mp hv)
  taken v hv := h.taken v ((hmem v).mp hv)
  distinct v hv f hf := by
    obtain ⟨h0, htable, hother⟩ := h.distinct v ((hmem v).mp hv) f hf
    exact ⟨h0, htable, fun w hw => hother w ((hmem w).mp hw)⟩

theorem anonInv_start {s : PageState} (h : PageTree s) : AnonInv s [] where
  tree := h
  window hne := absurd rfl hne
  mapped := by simp
  taken := by simp
  distinct := by
    intro v hv
    cases hv

/-- With an empty slot the window maps nothing. -/
theorem mapsTo_window {s : PageState} (h : PageTree s) (hslot : s.slot = 0) {v : BitVec 64}
    (hv : pagePath v = windowPath) (f : Frame) : ¬ s.mapsTo v f := by
  rintro ⟨e, he, -⟩
  rw [translate_window h hv, hslot] at he
  cases he

/-- A page other than the one mapped keeps its frame. -/
theorem mapsTo_grown {s s' : PageState} {path : List (BitVec 9)} (h : Grown path s s')
    {v : BitVec 64} (hv : pagePath v ≠ path) (hwin : pagePath v ≠ windowPath) (f : Frame) :
    s'.mapsTo v f ↔ s.mapsTo v f := by
  unfold PageState.mapsTo
  rw [h.root]
  have hsame := h.off (tablePath v) (linearIndex 0 v) rfl hv hwin
  rw [show s'.translate s.root v = s.translate s.root v from hsame]

/-- The page of a mount is mapped to the frame of its descriptor. -/
theorem translate_mounted {s s' : PageState} {v : BitVec 64} {ph : Pte} {g : Frame}
    (hph : ph.next = some g) {t : Frame} (hwalk : s'.walk s.root (tablePath v) = some t)
    (hmem : s'.mem t (linearIndex 0 v) = ph) {w : BitVec 64} (hw : pagePath w = pagePath v) :
    s'.translate s.root w = some ph := by
  rw [translate_eq s' s.root (hw.trans (pagePath_eq v))]
  exact lookup_eq_some.mpr ⟨t, hwalk, hmem, by rw [hph]; rfl⟩

/-- One page: a frame is taken, described by `flags`, and mapped. -/
theorem anonInv_page {s : PageState} {vs : List (BitVec 64)} (h : AnonInv s vs) {v : BitVec 64}
    {flags : BitVec 12} (hflags : flags.getLsbD 0 = true) (hnew : pagePath v ∉ vs.map pagePath)
    (hm : pageMeets s v) :
    AnonInv ((mountPageDo v (pteOf s.allocAddr flags)).run pageExec s.alloc).2 (v :: vs) := by
  obtain ⟨hgrown, hslot, hat⟩ := mountPageDo_spec (fun _ _ hh => hh) (h.tree.alloc hm.1) v
    (pteOf s.allocAddr flags) hm.2
  rw [alloc_root] at hat
  generalize ((mountPageDo v (pteOf s.allocAddr flags)).run pageExec s.alloc).2 = s' at *
  obtain ⟨g, hfree, haddr, hg0, hafter⟩ := alloc_spec hm.1
  have hph : (pteOf s.allocAddr flags).next = some g := by
    rw [Pte.next_pteOf _ hflags, haddr, frameOf_frameAddr]
  have hroot : s'.root = s.root := hgrown.root
  have hold : ∀ w ∈ vs, pagePath w ≠ pagePath v := by
    intro w hw heq
    exact hnew (heq ▸ List.mem_map_of_mem hw)
  -- A page is mapped to the new frame, or as it was.
  have hcases : ∀ w ∈ v :: vs, ∀ f, s'.mapsTo w f →
      (pagePath w = pagePath v ∧ f = g) ∨ (w ∈ vs ∧ s.mapsTo w f) := by
    intro w hw f hf
    by_cases hwin : pagePath w = windowPath
    · exact absurd hf (mapsTo_window hgrown.tree hslot hwin f)
    by_cases hwv : pagePath w = pagePath v
    · obtain ⟨t, hwalk, hmem⟩ := hat (hwv ▸ hwin)
      obtain ⟨e, he, hef⟩ := hf
      rw [hroot, translate_mounted hph hwalk hmem hwv] at he
      cases he
      exact Or.inl ⟨hwv, hef.symm.trans (Pte.next_eq_some.mp hph).2⟩
    · rcases List.mem_cons.mp hw with rfl | hw
      · exact absurd rfl hwv
      · exact Or.inr ⟨hw, (mapsTo_grown hgrown hwv hwin f).mp hf⟩
  have hnotfree : ∀ f, s'.free f → s.free f ∧ f ≠ g := fun f hf => (hafter f).mp (hgrown.free f hf)
  have htable : ∀ f, ¬ s.alloc.free f → (∀ q, q.length ≤ 3 → s.walk s.root q ≠ some f) →
      ∀ q, q.length ≤ 3 → s'.walk s.root q ≠ some f := by
    intro f hf hno q hq hqf
    rcases hgrown.tables q f hq hqf with hh | hh
    · exact hno q hq hh
    · exact hf hh
  refine ⟨hgrown.tree, fun _ => hslot, ?_, ?_, ?_⟩
  · intro w hw hwin
    rcases List.mem_cons.mp hw with rfl | hw
    · obtain ⟨t, hwalk, hmem⟩ := hat hwin
      refine ⟨g, _, ?_, (Pte.next_eq_some.mp hph).2⟩
      rw [hroot, translate_mounted hph hwalk hmem rfl]
    · obtain ⟨f, hf⟩ := h.mapped w hw hwin
      exact ⟨f, (mapsTo_grown hgrown (hold w hw) hwin f).mpr hf⟩
  · intro w hw f hf hff
    rcases hcases w hw f hf with ⟨-, rfl⟩ | ⟨hw, hf⟩
    · exact (hnotfree f hff).2 rfl
    · exact h.taken w hw f hf (hnotfree f hff).1
  · intro w hw f hf
    rw [hroot]
    rcases hcases w hw f hf with ⟨hwv, rfl⟩ | ⟨hw, hf⟩
    · refine ⟨hg0, htable f (fun hh => ((hafter f).mp hh).2 rfl) fun q hq hqf =>
        h.tree.taken q f hq hqf hfree, ?_⟩
      intro u hu huw huf
      rcases hcases u hu f huf with ⟨huv, -⟩ | ⟨hu, huf⟩
      · exact huw (huv.trans hwv.symm)
      · exact h.taken u hu f huf hfree
    · obtain ⟨hf0, hftable, hfother⟩ := h.distinct w hw f hf
      have hfno := h.taken w hw f hf
      refine ⟨hf0, htable f (fun hh => hfno ((hafter f).mp hh).1) hftable, ?_⟩
      intro u hu huw huf
      rcases hcases u hu f huf with ⟨-, rfl⟩ | ⟨hu, huf⟩
      · exact hfno hfree
      · exact hfother u hu huw huf

/-! ## Calls and runs -/

/-- A loop of `alloc_pages` or `alloc_pages_user`. -/
theorem anonInv_loop {create : PageProg Pte} {flags : BitVec 12} (hflags : flags.getLsbD 0 = true)
    (hcreate : ∀ s, create.run pageExec s = (pteOf s.allocAddr flags, s.alloc)) {addr : BitVec 64}
    (n : Nat) (i : BitVec 64) {s : PageState} {vs : List (BitVec 64)} (h : AnonInv s vs)
    (hnew : ((loopPages addr n i ++ vs).map pagePath).Nodup) (hm : loopMeets create addr n i s) :
    AnonInv ((allocLoop create addr n i).run pageExec s).2 (loopPages addr n i ++ vs) := by
  induction n generalizing i s vs with
  | zero => exact h
  | succ n ih =>
    have hrun : ((do let ph ← create
                     mountPageDo (addr + i) ph : PageProg Unit).run pageExec s) =
        (mountPageDo (addr + i) (pteOf s.allocAddr flags)).run pageExec s.alloc := by
      rw [Prog.run_bind, hcreate]
    obtain ⟨hpage, hrest⟩ := hm
    rw [hrun] at hrest
    rw [loopPages, List.cons_append, List.map_cons, List.nodup_cons] at hnew
    have hv : pagePath (addr + i) ∉ vs.map pagePath := by
      intro hh
      refine hnew.1 ?_
      rw [List.map_append]
      exact List.mem_append_right _ hh
    have hnext := ih (i + 0x1000#64) (anonInv_page h hflags hv hpage) (by
      rw [List.map_append, List.map_cons, List.perm_middle.nodup_iff, List.nodup_cons,
        ← List.map_append]
      exact hnew) hrest
    have hloop : (allocLoop create addr (n + 1) i).run pageExec s =
        (allocLoop create addr n (i + 0x1000#64)).run pageExec
          ((mountPageDo (addr + i) (pteOf s.allocAddr flags)).run pageExec s.alloc).2 := by
      rw [allocLoop, Prog.run_bind, hcreate, Prog.run_bind]
    rw [hloop]
    refine hnext.congr fun v => ?_
    rw [loopPages, List.cons_append]
    exact (List.perm_middle.mem_iff).symm

/-- A call that meets the condition. -/
theorem anonInv_call {kernelHeap : BitVec 64} {s : PageState} {vs : List (BitVec 64)}
    (h : AnonInv s vs) {c : AnonCall} (hrec : c.recovers kernelHeap)
    (hnew : ((c.maps ++ vs).map pagePath).Nodup) (hm : c.meets s) :
    AnonInv (c.run kernelHeap s) (c.maps ++ vs) := by
  cases c with
  | pages user addr size =>
    cases user with
    | false =>
      have hcreate : ∀ s, createPage.run pageExec s = (pteOf s.allocAddr 3#12, s.alloc) :=
        fun _ => rfl
      exact anonInv_loop (by decide) hcreate _ 0 h hnew hm
    | true =>
      have hcreate : ∀ s, createPageUser.run pageExec s = (pteOf s.allocAddr 7#12, s.alloc) :=
        fun _ => rfl
      exact anonInv_loop (by decide) hcreate _ 0 h hnew hm
  | fault addr reg1 =>
    have hrun : AnonCall.run kernelHeap s (.fault addr reg1) =
        ((mountPageDo (addr &&& 0xFFFFFFFFFFFFF000#64) (pteOf s.allocAddr 3#12)).run pageExec
          s.alloc).2 := run_pageFault hrec s
    rw [hrun]
    rw [AnonCall.maps, List.singleton_append, List.map_cons, List.nodup_cons] at hnew
    exact anonInv_page h (by decide) hnew.1 hm

/-- In every run of calls that meet the condition, from any tree, no two of the pages mapped
share a frame, none has frame 0 or that of a table, and all but the window are mapped. -/
theorem anon_frames_distinct {kernelHeap : BitVec 64} {s₀ s : PageState} {vs : List (BitVec 64)}
    (h : PageTree s₀)
    (hrun : Relation.ReflTransGen (AnonStep kernelHeap AnonCall.meets) (s₀, []) (s, vs)) :
    FramesDistinct s vs ∧ ∀ v ∈ vs, pagePath v ≠ windowPath → ∃ f, s.mapsTo v f := by
  have hinv : AnonInv s vs := by
    refine run_invariant (fun x : PageState × List (BitVec 64) => AnonInv x.1 x.2) ?_ hrun
      (anonInv_start h)
    rintro _ _ hx ⟨s, vs, c, hrec, hnew, hm⟩
    exact anonInv_call hx hrec hnew hm
  exact ⟨hinv.distinct, hinv.mapped⟩

/-- Two pages of the first 2 MiB, asked for on the small machine. -/
def anonCall : AnonCall := .pages false 0xFFFFFFFFC0170000#64 0x2000#64

/-- The way to a page of the first 2 MiB is there. -/
theorem mountMeets_kernel {s : PageState} {v : BitVec 64} {r pdp pd : Frame}
    (h₃ : (s.mem r (linearIndex 3 v)).present = true) (ha₃ : (s.mem r (linearIndex 3 v)).address = pdp)
    (h₂ : (s.mem pdp (linearIndex 2 v)).present = true)
    (ha₂ : (s.mem pdp (linearIndex 2 v)).address = pd)
    (h₁ : (s.mem pd (linearIndex 1 v)).present = true) : mountMeets harmless s r (pagePath v) := by
  rw [pagePath, mountMeets_present h₃, ha₃, mountMeets_present h₂, ha₂, mountMeets_present h₁]
  trivial

/-- `alloc_pages` of two pages, round by round. -/
theorem meets_two {s : PageState} {addr size : BitVec 64} (hsize : (size.toNat + 0xFFF) / 0x1000 = 2)
    (h₁ : pageMeets s (addr + 0))
    (h₂ : pageMeets ((do let ph ← createPage
                         mountPageDo (addr + 0) ph : PageProg Unit).run pageExec s).2
      (addr + (0 + 0x1000#64))) : (AnonCall.pages false addr size).meets s := by
  show loopMeets createPage addr ((size.toNat + 0xFFF) / 0x1000) 0 s
  rw [hsize]
  exact ⟨h₁, h₂, trivial⟩

theorem anonCall_meets : anonCall.meets (bootState fun _ => 0) := by
  apply meets_two (by decide)
  · refine ⟨by decide +kernel, ?_⟩
    exact mountMeets_kernel (by decide +kernel) rfl (by decide +kernel) rfl (by decide +kernel)
  · refine ⟨by decide +kernel, ?_⟩
    exact mountMeets_kernel (by decide +kernel) rfl (by decide +kernel) rfl (by decide +kernel)

/-- The two pages, after a run of that one call. -/
theorem anon_frames_distinct_boot :
    FramesDistinct (anonCall.run 0xFFFFFFFFC0160000#64 (bootState fun _ => 0))
        (anonCall.maps ++ []) ∧
      ∀ v ∈ anonCall.maps ++ [], pagePath v ≠ windowPath → ∃ f,
        (anonCall.run 0xFFFFFFFFC0160000#64 (bootState fun _ => 0)).mapsTo v f :=
  anon_frames_distinct (bootState_tree _)
    (.single (.call _ [] anonCall trivial (by decide +kernel) anonCall_meets))

/-- The small machine with its memory used up. -/
@[irreducible] def fullState : PageState :=
  pageInit 0x150000#64
    ⟨fun _ _ => 0, ⟨⟨fun _ => 0xFFFFFFFFFFFFFFFF#64, 8⟩, smallMap_ge, smallMap_le⟩, 0, 0, 0, 0, true⟩

theorem fullState_tree : PageTree fullState := by
  unfold fullState
  apply pageInit_tree bootLast
  rintro f - - ⟨-, -, hused⟩
  have hword : (0xFFFFFFFFFFFFFFFF#64).getLsbD (f.toNat % 64) = false := hused
  rw [show (0xFFFFFFFFFFFFFFFF#64) = BitVec.allOnes 64 from rfl, BitVec.getLsbD_allOnes,
    decide_eq_true (Nat.mod_lt _ (by omega))] at hword
  cases hword

/-- With no frame left both pages are mapped to frame 0. -/
theorem anon_pages_share_frame_zero :
    ∃ (kernelHeap : BitVec 64) (s₀ s : PageState) (vs : List (BitVec 64)), PageTree s₀ ∧ s₀.slot = 0 ∧
      Relation.ReflTransGen (AnonStep kernelHeap fun _ _ => True) (s₀, []) (s, vs) ∧
      ¬ FramesDistinct s vs := by
  refine ⟨0xFFFFFFFFC0160000#64, fullState, anonCall.run 0xFFFFFFFFC0160000#64 fullState,
    anonCall.maps ++ [], fullState_tree, by decide +kernel,
    .single (.call _ [] anonCall trivial (by decide +kernel) trivial), ?_⟩
  intro hd
  have hzero : (anonCall.run 0xFFFFFFFFC0160000#64 fullState).mapsTo 0xFFFFFFFFC0170000#64 0 :=
    ⟨pteOf 0 3#12, by decide +kernel, by decide +kernel⟩
  exact (hd 0xFFFFFFFFC0170000#64 (by decide +kernel) 0 hzero).1 rfl

end OS64.Mm
