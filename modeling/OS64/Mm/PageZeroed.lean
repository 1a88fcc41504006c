import OS64.Mm.PageUmount

/-!
# Mapping on cleared frames

Where the frames that `alloc_phys_page` hands out are cleared, what `mount_page_do` does
to the upper tables is simple: an entry that was there stays as it is, and one that was
not is empty still or leads to a new table, with the `r3_access` of the page that was
mapped. `Filled` says so for one call and for any number of them; a tree whose upper
entries are 0 or present stays one.
-/

namespace OS64.Mm

open OS64.Lib

/-! ## Cleared frames -/

/-- `alloc_phys_page` returns a frame, and nothing is in it. -/
def allocZeroed : PageOp → PageState → Prop
  | .allocPhysPage, s => s.allocAddr ≠ 0 ∧ ∀ i, s.mem (frameOf s.allocAddr) i = 0
  | _, _ => True

instance : ∀ o s, Decidable (allocZeroed o s)
  | .allocPhysPage, s =>
    inferInstanceAs (Decidable (s.allocAddr ≠ 0 ∧ ∀ i, s.mem (frameOf s.allocAddr) i = 0))
  | .getSema, _ | .setSema _, _ | .cli, _ | .sti, _ | .hlt, _ | .mountSlot _, _ | .clearSlot, _
  | .invlpg, _ | .readEntry _, _ | .writeEntry _ _, _ | .readWindow, _ | .writeWindow _, _
  | .getPml4, _ | .getKernelPt, _ | .getCr3, _ | .setCr3 _, _ => .isTrue trivial

/-- Every allocation of the run succeeds with a cleared frame. -/
abbrev AllocsZeroed {α : Type} (p : PageProg α) (s : PageState) : Prop :=
  p.Along (fun o s => some (pageExec o s)) allocZeroed s

/-- A frame that may become a table: nothing is in it. -/
def zeroed (p : Page) (_ : List (BitVec 9)) : Prop := ∀ i, p i = 0

theorem zeroed_harmless {p : Page} {is : List (BitVec 9)} (h : zeroed p is) : harmless p is := by
  cases is with
  | nil => trivial
  | cons j r =>
    refine ⟨fun k _ => ?_, fun _ => h j⟩
    rw [h k]
    rfl

theorem allocsZeroed_bind {α β : Type} (p : PageProg α) (f : α → PageProg β) (s : PageState) :
    AllocsZeroed (p >>= f) s ↔
      AllocsZeroed p s ∧ AllocsZeroed (f (p.run pageExec s).1) (p.run pageExec s).2 :=
  Prog.along_total_bind p f s

/-- A level of the walk takes a frame where it misses a table, with the window open. -/
theorem allocsZeroed_mountLevel {s : PageState} {table : BitVec 64} {i : BitVec 9} {ph : Pte}
    (h : frameOf table ≠ s.kptFrame ∨ i ≠ 0) (hz : AllocsZeroed (mountLevel table i ph) s)
    (h0 : s.mem (frameOf table) i = 0) :
    s.allocAddr ≠ 0 ∧ ∀ j, (s.mounted table).mem (frameOf s.allocAddr) j = 0 := by
  have hread : (s.mounted table).mem (s.mounted table).window i = s.mem (frameOf table) i := by
    rw [window_mounted, mounted_mem h]
  unfold mountLevel at hz
  rw [allocsZeroed_bind, run_mountPageT] at hz
  have hz' : True ∧ AllocsZeroed (if (s.mounted table).mem (s.mounted table).window i = 0 then _
    else _) (s.mounted table) := hz.2
  rw [hread, if_pos h0] at hz'
  exact hz'.2.1

/-! ## What a call does to the upper tables -/

/-- From `s` to `s'` the entries of the upper tables are kept where there was one; a new entry
is present, and its `r3_access` is `user`. -/
structure Filled (user : Bool) (s s' : PageState) : Prop where
  root : s'.root = s.root
  kept : ∀ q f i, q.length ≤ 2 → s.walk s.root q = some f → s.mem f i ≠ 0 →
    s'.walk s.root q = some f ∧ s'.mem f i = s.mem f i
  new : ∀ q f i, q.length ≤ 2 → s'.walk s.root q = some f →
    (s.walk s.root q = some f ∧ s'.mem f i = s.mem f i) ∨ s'.mem f i = 0 ∨
      ((s'.mem f i).present = true ∧ (s'.mem f i).r3Access = user)

namespace Filled

variable {user : Bool} {s s' s'' : PageState}

theorem trans (h : Filled user s s') (h' : Filled user s' s'') : Filled user s s'' where
  root := h'.root.trans h.root
  kept q f i hq hf h0 := by
    obtain ⟨hf', hmem⟩ := h.kept q f i hq hf h0
    rw [← h.root] at hf' ⊢
    obtain ⟨hf'', hmem'⟩ := h'.kept q f i hq hf' (by rw [hmem]; exact h0)
    exact ⟨hf'', hmem'.trans hmem⟩
  new q f i hq hf := by
    rw [← h.root] at hf
    rcases h'.new q f i hq hf with ⟨hf', hmem⟩ | hnew
    · rw [h.root] at hf'
      rw [hmem]
      exact h.new q f i hq hf'
    · exact Or.inr hnew

theorem upperPresent (h : Filled user s s') (hup : UpperPresent s) : UpperPresent s' := by
  intro q f i hq hf h0
  rw [h.root] at hf
  rcases h.new q f i hq hf with ⟨hf', hmem⟩ | hzero | ⟨hpresent, -⟩
  · rw [hmem] at h0 ⊢
    exact hup q f i hq hf' h0
  · exact absurd hzero h0
  · exact hpresent

/-- Where no upper table has changed. -/
theorem of_same (hroot : s'.root = s.root)
    (hwalk : ∀ q, q.length ≤ 2 → s'.walk s.root q = s.walk s.root q)
    (hmem : ∀ q f i, q.length ≤ 2 → s.walk s.root q = some f → s'.mem f i = s.mem f i) :
    Filled user s s' where
  root := hroot
  kept q f i hq hf _ := ⟨(hwalk q hq).trans hf, hmem q f i hq hf⟩
  new q f i hq hf := by
    rw [hwalk q hq] at hf
    exact Or.inl ⟨hf, hmem q f i hq hf⟩

theorem refl (user : Bool) (s : PageState) : Filled user s s :=
  of_same rfl (fun _ _ => rfl) fun _ _ _ _ _ => rfl

/-- A frame taken from the bitmap. -/
theorem alloc (user : Bool) (s : PageState) : Filled user s s.alloc :=
  of_same rfl (fun _ _ => rfl) fun _ _ _ _ _ => rfl

/-- The window closed. -/
theorem closed (user : Bool) (h : PageTree s) : Filled user s s.closed :=
  of_same rfl (fun _ hq => h.walk_closed (by omega))
    fun _ _ _ hq hf => closed_mem_other (Or.inl (h.upper_ne hq hf))

/-- An entry of a lowest table written. -/
theorem put (user : Bool) (h : PageTree s) {P : List (BitVec 9)} {t : Frame} (hP : P.length = 3)
    (ht : s.walk s.root P = some t) (i : BitVec 9) (e : Pte) : Filled user s (s.put t i e) := by
  have hother : ∀ q f, q.length ≤ 2 → s.walk s.root q = some f → f ≠ t := by
    rintro q f hq hf rfl
    have hqP := h.tree q P f (by omega) (by omega) hf ht
    rw [hqP] at hq
    omega
  refine of_same rfl (fun q hq => ?_) fun q f j hq hf => ?_
  · apply follow_setEntry_off (h.tree.onlyAt (by omega) ht) (by omega)
    intro hpre
    have hlen := hpre.length_le
    rw [List.length_append, List.length_singleton] at hlen
    omega
  · exact congrFun (setEntry_frame (hother q f hq hf)) j

/-- A new table hung where there was none. -/
theorem linked (h : PageTree s) {P rest : List (BitVec 9)} {f : Frame} {i : BitVec 9} (ph : Pte)
    (hok : s.allocAddr ≠ 0) (hlen : P.length + rest.length = 3) (hP : P.length ≤ 2)
    (hf : s.walk s.root P = some f) (h0 : s.mem f i = 0)
    (hz : ∀ j, s.mem (frameOf s.allocAddr) j = 0) :
    Filled ph.r3Access s (s.linked f i ph) := by
  obtain ⟨g, hfree, haddr, -, hafter⟩ := alloc_spec hok
  have hg : frameOf s.allocAddr = g := by rw [haddr, frameOf_frameAddr]
  have hnone : (s.mem f i).next = none := by rw [h0, Pte.next_zero]
  have he : (s.newTable ph).next = some g := by rw [newTable_next, hg]
  rw [hg] at hz
  have hbarren : Barren Pte.next s.mem g := fun j => by rw [hz j, Pte.next_zero]
  have hfresh : ∀ q, q.length ≤ 3 → s.walk s.root q ≠ some g :=
    fun q hq hh => h.taken q g hq hh hfree
  have hgf : g ≠ f := fun hh => hfresh P (by omega) (by rw [hf, hh])
  have hlink : PageTree (s.alloc.put f i (s.newTable ph)) :=
    (h.alloc hok).link hP hf hnone he hfresh (fun hh => ((hafter g).mp hh).2 rfl) fun _ => hbarren
  have hwalk : ∀ {q : List (BitVec 9)}, q.length ≤ 3 → (s.linked f i ph).walk s.root q =
      if q = P ++ [i] then some g else if (P ++ [i]) <+: q then none else s.walk s.root q :=
    fun hq => (hlink.walk_closed hq).trans (h.walk_link hP hf he hgf (fun _ => hbarren) hq)
  -- An upper table of the new tree is one of the old or the new one, and in it the entry of
  -- the new table is the only one that changed.
  have hopen : ∀ u j, u ≠ s.kptFrame →
      (s.linked f i ph).mem u j = setEntry s.mem f i (s.newTable ph) u j := by
    intro u j hu
    exact setEntry_other fun hh => hu hh.1
  have hmem : ∀ q u j, q.length ≤ 2 → s.walk s.root q = some u → ¬ (u = f ∧ j = i) →
      (s.linked f i ph).mem u j = s.mem u j := by
    intro q u j hq hu hne
    rw [hopen u j (h.upper_ne hq hu), setEntry_other hne]
  refine ⟨rfl, ?_, ?_⟩
  · intro q u j hq hu hu0
    have hne : ¬ (u = f ∧ j = i) := by
      rintro ⟨rfl, rfl⟩
      exact hu0 h0
    refine ⟨?_, hmem q u j hq hu hne⟩
    refine (hlink.walk_closed (q := q) (by omega)).trans ?_
    exact follow_setEntry_over hnone hu
  · intro q u j hq hu
    rw [hwalk (by omega)] at hu
    by_cases hat : q = P ++ [i]
    · rw [if_pos hat] at hu
      cases hu
      refine Or.inr (Or.inl ?_)
      rw [hopen g j (h.free_ne hfree), setEntry_frame hgf]
      exact hz j
    · rw [if_neg hat] at hu
      by_cases hpre : (P ++ [i]) <+: q
      · rw [if_pos hpre] at hu
        cases hu
      · rw [if_neg hpre] at hu
        by_cases hhere : u = f ∧ j = i
        · obtain ⟨rfl, rfl⟩ := hhere
          have hentry : (s.linked u j ph).mem u j = s.newTable ph := by
            rw [hopen u j (h.upper_ne hP hf), setEntry_same]
          refine Or.inr (Or.inr ?_)
          rw [hentry]
          refine ⟨(Pte.next_eq_some.mp he).1, ?_⟩
          rw [PageState.newTable, Pte.r3Access, Pte.setR3_getLsbD _ _ (by omega), if_pos rfl]
        · exact Or.inl ⟨hu, hmem q u j hq hu hhere⟩

end Filled

/-! ## The walk -/

/-- A walk whose allocations are of cleared frames meets what `mountMeets` asks for, and fills
the upper tables. -/
theorem mountWalk_filled (ph : Pte) {is : List (BitVec 9)} {i : BitVec 9} {s : PageState}
    {P : List (BitVec 9)} {table : BitVec 64} (h : PageTree s) (hup : UpperPresent s)
    (hlen : P.length + is.length = 3) (hf : s.walk s.root P = some (frameOf table))
    (hz : AllocsZeroed (mountWalk ph table (is ++ [i])) s) :
    mountMeets zeroed s (frameOf table) (is ++ [i]) ∧
      Filled ph.r3Access s ((mountWalk ph table (is ++ [i])).run pageExec s).2 := by
  induction is generalizing s P table with
  | nil =>
    have hP : P.length = 3 := by simpa using hlen
    have hrun : (mountWalk ph table ([] ++ [i])).run pageExec s =
        ((), (s.put (frameOf table) i ph).closed) := run_mountLast table i ph s
    rw [hrun]
    exact ⟨trivial, (Filled.put _ h hP hf i ph).trans (.closed _ (grown_put h hP hf i ph).tree)⟩
  | cons k is ih =>
    obtain ⟨j, r, hrest⟩ := List.exists_cons_of_ne_nil (List.concat_ne_nil i is)
    simp only [List.length_cons] at hlen
    have hne : frameOf table ≠ s.kptFrame := h.upper_ne (p := P) (by omega) hf
    have hz' : AllocsZeroed (mountLevel table k ph) s ∧
        AllocsZeroed (mountWalk ph ((mountLevel table k ph).run pageExec s).1.base (is ++ [i]))
          ((mountLevel table k ph).run pageExec s).2 := by
      rw [List.cons_append, hrest, mountWalk, allocsZeroed_bind] at hz
      rwa [hrest]
    rw [run_mountLevel (Or.inl hne)] at hz'
    by_cases h0 : s.mem (frameOf table) k = 0
    · rw [if_pos h0] at hz'
      obtain ⟨hlevel, hwalkz⟩ := hz'
      obtain ⟨halloc, hzero⟩ := allocsZeroed_mountLevel (Or.inl hne) hlevel h0
      obtain ⟨g, hgfree, hgaddr, -, -⟩ := alloc_spec halloc
      have hg : frameOf s.allocAddr = g := by rw [hgaddr, frameOf_frameAddr]
      have hclear : ∀ j, s.mem (frameOf s.allocAddr) j = 0 := by
        intro j
        rw [← hzero j]
        exact (mounted_mem (Or.inl (hg ▸ h.free_ne hgfree))).symm
      have hharm : harmless (s.mem (frameOf s.allocAddr)) (is ++ [i]) := zeroed_harmless hclear
      obtain ⟨hgrown, hwalk, hphys, hmem⟩ := @linked_spec s h P (is ++ [i]) (frameOf table)
        k ph halloc (by simp; omega) (by omega) hf h0 hharm
      have hfill := @Filled.linked s h P (is ++ [i]) (frameOf table) k ph halloc (by simp; omega)
        (by omega) hf h0 hclear
      have hframe : frameOf (s.newTable ph).base = frameOf s.allocAddr := by
        rw [frameOf_base]
        exact (Pte.next_eq_some.mp (newTable_next s ph)).2
      obtain ⟨hmeets, hrestfill⟩ := ih (P := P ++ [k]) hgrown.tree (hfill.upperPresent hup)
        (by simp; omega) (by rw [hgrown.root, hframe]; exact hwalk) hwalkz
      have hrun : (mountWalk ph table (k :: j :: r)).run pageExec s =
          (mountWalk ph (s.newTable ph).base (j :: r)).run pageExec (s.linked (frameOf table) k ph) :=
        run_mountWalk_new ph hne h0
      rw [List.cons_append, hrest, hrun, ← hrest]
      refine ⟨?_, hfill.trans hrestfill⟩
      rw [hrest, mountMeets, if_pos h0]
      refine ⟨halloc, hclear, ?_⟩
      -- the new table is empty, so the frames it asks for are the next ones
      rw [hrest, hframe] at hmeets
      cases r with
      | nil => trivial
      | cons j' r =>
        have hempty : (s.linked (frameOf table) k ph).mem (frameOf s.allocAddr) j = 0 := by
          rw [hg, hmem g hgfree, ← hg]
          exact hclear j
        rw [mountMeets, if_pos hempty] at hmeets
        exact newTables_congr hphys.symm (fun u hu => (hmem u (alloc_free halloc hu)).symm) hmeets
    · rw [if_neg h0] at hz'
      have hpresent := hup P (frameOf table) k (by omega) hf h0
      have hfill := Filled.closed ph.r3Access h
      have hwalk : s.closed.walk s.root (P ++ [k]) =
          some (frameOf (s.mem (frameOf table) k).base) := by
        rw [h.walk_closed (by simp; omega), walk_concat, hf, frameOf_base]
        exact Pte.next_eq_some.mpr ⟨hpresent, rfl⟩
      obtain ⟨hmeets, hrestfill⟩ := ih (P := P ++ [k]) h.closed (hfill.upperPresent hup)
        (by simp; omega) hwalk hz'.2
      have hrun : (mountWalk ph table (k :: j :: r)).run pageExec s =
          (mountWalk ph (s.mem (frameOf table) k).base (j :: r)).run pageExec s.closed :=
        run_mountWalk_cons ph hne h0
      rw [List.cons_append, hrest, hrun, ← hrest]
      refine ⟨?_, hfill.trans hrestfill⟩
      rw [hrest, mountMeets, if_neg h0, ← hrest]
      refine ⟨hpresent, ?_⟩
      rw [frameOf_base] at hmeets hwalk
      exact (mountMeets_closed h (P := P ++ [k]) (by simp; omega)
        ((h.walk_closed (by simp; omega)).symm.trans hwalk)).mp hmeets

/-- `mount_page_do` on cleared frames. -/
theorem mountPageDo_zeroed {s : PageState} (h : PageTree s) (hup : UpperPresent s) (v : BitVec 64)
    (ph : Pte) (hz : AllocsZeroed (mountPageDo v ph) s) :
    mountMeets zeroed s s.root (pagePath v) ∧
      Filled ph.r3Access s ((mountPageDo v ph).run pageExec s).2 := by
  have hwalk : AllocsZeroed (mountWalk ph s.pml4 (tablePath v ++ [linearIndex 0 v])) s := hz.2
  exact mountWalk_filled ph h hup (P := []) rfl rfl hwalk

/-! ## A small machine without a screen -/

/-- `page_init` at 0xA0000, below the screen, so that no page is mapped, on cleared memory. -/
@[irreducible] def bareState : PageState :=
  pageInit 0xA0000#64 ⟨fun _ _ => 0, bootPhys, 0, 0, 0, 0, true⟩

theorem bareLast : LastPage 0xA0000#64 := ⟨by decide, by decide, by decide⟩

theorem bareState_tree : PageTree bareState := by
  unfold bareState
  apply pageInit_tree bareLast
  intro f h₁ h₂
  have h0 : (frameOf 0xA0000#64).toNat = 160 := by decide
  rw [h0] at h₁ h₂
  exact bootPhys_taken (by omega)

theorem bareState_upperPresent : UpperPresent bareState := by
  unfold bareState
  exact pageInit_upperPresent bareLast _

/-- The machine after the kernel mapped a page at 4 MiB for itself. -/
def kernelMapped : PageState :=
  ((mountPage 0x7000#64 0x400000#64).run pageExec bareState).2

theorem kernelMapped_zeroed : AllocsZeroed (mountPageDo 0x400000#64 (calcPage 0x7000#64)) bareState := by
  decide +kernel

theorem kernelMapped_tree : PageTree kernelMapped ∧ UpperPresent kernelMapped := by
  obtain ⟨hm, hfill⟩ := mountPageDo_zeroed bareState_tree
    bareState_upperPresent 0x400000#64 (calcPage 0x7000#64) kernelMapped_zeroed
  obtain ⟨hgrown, -⟩ := mountPageDo_spec (fun _ _ => zeroed_harmless) bareState_tree
    0x400000#64 (calcPage 0x7000#64) hm
  exact ⟨hgrown.tree, hfill.upperPresent bareState_upperPresent⟩

end OS64.Mm
