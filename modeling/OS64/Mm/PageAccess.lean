import OS64.Mm.PageZeroed
import OS64.Mm.PageUser

/-!
# Whether user code gets to its pages

The processor lets user code in where all four entries of the walk have `r3_access`.
`alloc_pages_user` sets the bit in the entries it writes: the last one, and those of the
tables it adds. A table that is there it follows as it finds it, so a page next to one
that was mapped for the kernel stays closed. `alloc_pages_user_access_iff` says when
every page of the call is open afterwards.
-/

namespace OS64.Mm

open OS64.Lib

/-- User code gets to `v`: a present entry with `r3_access` maps it, and the entries on the way
to it have `r3_access` too. -/
structure UserAccess (s : PageState) (v : BitVec 64) : Prop where
  leaf : ∃ e, s.translate s.root v = some e ∧ e.present = true ∧ e.r3Access = true
  walk : ∀ p i f, (p ++ [i]) <+: pagePath v → s.walk s.root p = some f →
    (s.mem f i).r3Access = true

/-- The entries of upper tables that are there already on the way to `v` have `r3_access`. -/
def UserReady (s : PageState) (v : BitVec 64) : Prop :=
  ∀ p i f, (p ++ [i]) <+: tablePath v → s.walk s.root p = some f → s.mem f i ≠ 0 →
    (s.mem f i).r3Access = true

/-- The page of `v` is mapped for user code. -/
def UserLeaf (s : PageState) (v : BitVec 64) : Prop :=
  ∃ e, s.translate s.root v = some e ∧ e.present = true ∧ e.r3Access = true

/-! ## One page -/

theorem upper_length {p : List (BitVec 9)} {i : BitVec 9} {v : BitVec 64}
    (h : (p ++ [i]) <+: tablePath v) : p.length ≤ 2 := by
  have hlen := h.length_le
  rw [List.length_append, List.length_singleton] at hlen
  have h3 : (tablePath v).length = 3 := rfl
  omega

/-- Tables that are filled for user code change nothing about the way. -/
theorem Filled.userReady {s s' : PageState} (h : Filled true s s') (v : BitVec 64) :
    UserReady s' v ↔ UserReady s v := by
  constructor
  · intro hready p i f hpre hf h0
    obtain ⟨hf', hmem⟩ := h.kept p f i (upper_length hpre) hf h0
    rw [← hmem]
    rw [← h.root] at hf'
    exact hready p i f hpre hf' (by rw [hmem]; exact h0)
  · intro hready p i f hpre hf h0
    rw [h.root] at hf
    rcases h.new p f i (upper_length hpre) hf with ⟨hf', hmem⟩ | hzero | ⟨-, hr3⟩
    · rw [hmem] at h0 ⊢
      exact hready p i f hpre hf' h0
    · exact absurd hzero h0
    · exact hr3

/-- A page that is mapped for user code is open just when the way to it is. -/
theorem userAccess_iff {s : PageState} {v : BitVec 64} (hleaf : UserLeaf s v) :
    UserAccess s v ↔ UserReady s v := by
  constructor
  · intro h p i f hpre hf _
    exact h.walk p i f (hpre.trans (List.prefix_append _ _)) hf
  · intro hready
    refine ⟨hleaf, ?_⟩
    obtain ⟨e, he, -, hr3⟩ := hleaf
    obtain ⟨t, ht, rfl, -⟩ := lookup_eq_some.mp he
    intro p i f hpre hf
    rw [pagePath_eq] at hpre
    rcases List.prefix_concat_iff.mp hpre with heq | hup
    · -- the entry that maps the page
      obtain ⟨rfl, hi⟩ := List.append_inj' heq rfl
      cases hi
      have hsame : some f = some t := hf.symm.trans ht
      cases hsame
      exact hr3
    · -- one on the way: the walk passes it
      refine hready p i f hup hf ?_
      obtain ⟨r, hr⟩ := hup
      rw [← hr] at ht
      obtain ⟨u, hu, -⟩ := follow_append_some ht
      have hnext : s.walk s.root (p ++ [i]) = some u := hu
      rw [walk_concat, hf] at hnext
      exact Pte.present_ne_zero (Pte.next_eq_some.mp hnext).1

/-- A page mapped by `mount_page_do`, and those that were. -/
theorem mountPageDo_userLeaf {s : PageState} (h : PageTree s) {v : BitVec 64} {ph : Pte}
    (hph : ph.present = true ∧ ph.r3Access = true) (hm : mountMeets zeroed s s.root (pagePath v))
    {w : BitVec 64} (hwin : pagePath w ≠ windowPath)
    (hw : pagePath v = pagePath w ∨ UserLeaf s w) :
    UserLeaf ((mountPageDo v ph).run pageExec s).2 w := by
  obtain ⟨hgrown, -, hat⟩ := mountPageDo_spec (fun _ _ => zeroed_harmless) h v ph hm
  by_cases hpath : pagePath v = pagePath w
  · obtain ⟨t, hwalk, hmem⟩ := hat (by rw [hpath]; exact hwin)
    rw [← hgrown.root] at hwalk
    exact ⟨ph, translate_mounted (Pte.next_eq_some.mpr ⟨hph.1, rfl⟩) hwalk hmem hpath.symm, hph⟩
  · obtain ⟨e, he, hflags⟩ := hw.resolve_left hpath
    refine ⟨e, ?_, hflags⟩
    rw [hgrown.root]
    exact (hgrown.off (tablePath w) (linearIndex 0 w) rfl (fun hh => hpath hh.symm) hwin).trans he

/-! ## The loop -/

theorem pteOf_user (phys : BitVec 64) :
    (pteOf phys 7#12).present = true ∧ (pteOf phys 7#12).r3Access = true := by
  constructor
  · rw [Pte.present, pteOf_getLsbD _ _ (by omega)]
    rfl
  · rw [Pte.r3Access, pteOf_getLsbD _ _ (by omega)]
    rfl

theorem createPageUser_alloc {s : PageState} (hz : AllocsZeroed createPageUser s) :
    s.allocAddr ≠ 0 := hz.1.1

/-- The rounds of `alloc_pages_user`: its pages are mapped for user code, the tables filled. -/
theorem allocLoop_user {addr : BitVec 64} (n : Nat) (i : BitVec 64) {s : PageState}
    (h : PageTree s) (hup : UpperPresent s)
    (hz : AllocsZeroed (allocLoop createPageUser addr n i) s) :
    PageTree ((allocLoop createPageUser addr n i).run pageExec s).2 ∧
      Filled true s ((allocLoop createPageUser addr n i).run pageExec s).2 ∧
      (n ≠ 0 → ((allocLoop createPageUser addr n i).run pageExec s).2.slot = 0) ∧
      ∀ w, pagePath w ≠ windowPath → InPages (loopPages addr n i) w ∨ UserLeaf s w →
        UserLeaf ((allocLoop createPageUser addr n i).run pageExec s).2 w := by
  induction n generalizing i s with
  | zero =>
    refine ⟨h, .refl _ s, fun hne => absurd rfl hne, ?_⟩
    rintro w - (⟨u, hu, -⟩ | hw)
    · cases hu
    · exact hw
  | succ n ih =>
    have hround : s.allocAddr ≠ 0 ∧
        AllocsZeroed (mountPageDo (addr + i) (pteOf s.allocAddr 7#12)) s.alloc ∧
        AllocsZeroed (allocLoop createPageUser addr n (i + 0x1000#64))
          ((mountPageDo (addr + i) (pteOf s.allocAddr 7#12)).run pageExec s.alloc).2 := by
      have hcreate : createPageUser.run pageExec s = (pteOf s.allocAddr 7#12, s.alloc) := rfl
      rw [allocLoop, allocsZeroed_bind, allocsZeroed_bind, hcreate] at hz
      obtain ⟨hfresh, hmount, hrest⟩ := hz
      exact ⟨createPageUser_alloc hfresh, hmount, hrest⟩
    obtain ⟨hok, hmount, hrest⟩ := hround
    have halloc := h.alloc hok
    have hflags := pteOf_user s.allocAddr
    obtain ⟨hm, hfill⟩ := mountPageDo_zeroed halloc (fun p f j hp hf h0 => hup p f j hp hf h0)
      (addr + i) _ hmount
    obtain ⟨hgrown, hslot, -⟩ := mountPageDo_spec (fun _ _ => zeroed_harmless) halloc (addr + i)
      (pteOf s.allocAddr 7#12) hm
    rw [hflags.2] at hfill
    have hround := fun w => @mountPageDo_userLeaf s.alloc halloc (addr + i) _ hflags hm w
    have hfirst := (Filled.alloc true s).trans hfill
    obtain ⟨htree', hfill', hslot', hleaf'⟩ := ih (i + 0x1000#64) hgrown.tree
      (hfirst.upperPresent hup) hrest
    rw [Mapped.run_allocLoop_succ]
    generalize ((mountPageDo (addr + i) (pteOf s.allocAddr 7#12)).run pageExec s.alloc).2 = s₁ at *
    refine ⟨htree', hfirst.trans hfill', fun _ => ?_, ?_⟩
    · cases n with
      | zero => exact hslot
      | succ n => exact hslot' (Nat.succ_ne_zero n)
    · intro w hwin hw
      refine hleaf' w hwin ?_
      rw [loopPages, inPages_cons] at hw
      rcases hw with (hpath | hin) | hold
      · exact Or.inr (hround w hwin (Or.inl hpath))
      · exact Or.inl hin
      · exact Or.inr (hround w hwin (Or.inr hold))

/-- The pages of the loop are those of the range. -/
theorem inRange_page {addr size x : BitVec 64} (hal : addr.toNat % 0x1000 = 0)
    (hx : InRange addr size x) :
    InPages (loopPages addr ((size.toNat + 0xFFF) / 0x1000) 0) x := by
  obtain ⟨hlo, hhi⟩ := hx
  refine ⟨_, (mem_loopPages _ _).mpr ⟨(x.toNat - addr.toNat) / 0x1000, by omega, rfl⟩, ?_⟩
  have h0 : addr + 0 = addr := BitVec.add_zero addr
  rw [pagePath_eq_iff, h0, BitVec.toNat_add, BitVec.toNat_ofNat]
  omega

/-- After `alloc_pages_user` user code gets to every address of the range just when, for each,
the entries that were there on the way to it had `r3_access` and it is not in the window. -/
theorem alloc_pages_user_access_iff {s : PageState} (h : PageTree s) (hup : UpperPresent s)
    {addr size : BitVec 64} (hal : addr.toNat % 0x1000 = 0)
    (hz : AllocsZeroed (allocPagesUser addr size) s) :
    (∀ x, InRange addr size x → UserAccess ((allocPagesUser addr size).run pageExec s).2 x) ↔
      ∀ x, InRange addr size x → UserReady s x ∧ pagePath x ≠ windowPath := by
  obtain ⟨htree, hfill, hslot, hleaf⟩ := allocLoop_user _ 0 h hup hz
  refine forall₂_congr fun x hx => ?_
  have hin := inRange_page hal hx
  have hsome : (size.toNat + 0xFFF) / 0x1000 ≠ 0 := by
    obtain ⟨hlo, hhi⟩ := hx
    omega
  by_cases hwin : pagePath x = windowPath
  · -- every use of the window unmaps it
    refine iff_of_false (fun hacc => ?_) fun hh => hh.2 hwin
    obtain ⟨e, he, -⟩ := hacc.leaf
    have hunmapped := translate_window htree hwin
    rw [hslot hsome] at hunmapped
    have hcon : some e = none := he.symm.trans hunmapped
    cases hcon
  · rw [← hfill.userReady x, and_iff_left hwin]
    exact userAccess_iff (hleaf x hwin (Or.inl hin))

/-! ## On the small machine -/

/-- A page at 4 MiB, on cleared memory. -/
theorem alloc_pages_user_access_fresh :
    (∀ x, InRange 0x400000#64 0x1000#64 x →
        UserAccess ((allocPagesUser 0x400000#64 0x1000#64).run pageExec bareState).2 x) ↔
      ∀ x, InRange 0x400000#64 0x1000#64 x →
        UserReady bareState x ∧ pagePath x ≠ windowPath :=
  alloc_pages_user_access_iff bareState_tree bareState_upperPresent (by decide)
    (by decide +kernel)

/-- The next page, for user code: its tables are those of the kernel's page. -/
theorem alloc_pages_user_beside_kernel :
    ∃ (s : PageState) (addr size : BitVec 64), PageTree s ∧ UpperPresent s ∧
      addr.toNat % 0x1000 = 0 ∧ addr.toNat + size.toNat < 2 ^ 47 ∧
      AllocsZeroed (allocPagesUser addr size) s ∧
      ¬ ∀ x, InRange addr size x → UserAccess ((allocPagesUser addr size).run pageExec s).2 x := by
  refine ⟨kernelMapped, 0x401000#64, 0x1000#64, kernelMapped_tree.1, kernelMapped_tree.2, by decide,
    by decide, (by decide +kernel), fun hall => ?_⟩
  have hopen := (hall 0x401000#64 ⟨by decide, by decide⟩).walk [] 0
    ((allocPagesUser 0x401000#64 0x1000#64).run pageExec kernelMapped).2.root ⟨_, rfl⟩ rfl
  revert hopen
  decide +kernel

end OS64.Mm
