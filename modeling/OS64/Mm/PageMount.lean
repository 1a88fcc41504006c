import OS64.Mm.PageInit

/-!
# `mount_page` as an update of the translation

`mount_page` is meant to change what one page maps to. It does where the frames
that become tables on the way hold nothing: `create_page` hands them over as they
are, so every present entry left in one is a live translation from then on. The
condition is `mountMeets harmless`; where the path has its page directory, so that
at most the lowest table is missing, it is also necessary.
-/

namespace OS64.Mm

open OS64.Lib

/-- The entry that maps an address in the tree under `r`. -/
def PageState.translate (s : PageState) (r : Frame) (v : BitVec 64) : Option Pte :=
  s.look r (tablePath v) (linearIndex 0 v)

/-- From `s` to `s'` the page of `v` is mapped to the frame of `phys`, present and writable,
and every other page translates as before. -/
def PointUpdate (s s' : PageState) (phys v : BitVec 64) : Prop :=
  (∃ e, s'.translate s.root v = some e ∧ e.address = frameOf phys ∧ e.present = true ∧
    e.writable = true) ∧
  ∀ w, pagePath w ≠ pagePath v → s'.translate s.root w = s.translate s.root w

/-- The frames taken for tables do no harm, what the walk finds of tables is present, and
the window is closed. -/
def MountOk (s : PageState) (v : BitVec 64) : Prop :=
  mountMeets harmless s s.root (pagePath v) ∧ s.slot.present = false

/-- The address in the page of index `k` of the same lowest table. -/
def siblingPage (v : BitVec 64) (k : BitVec 9) : BitVec 64 :=
  (v &&& 0xFFFFFFFFFFE00FFF#64) ||| (k.setWidth 64 <<< 12)

theorem siblingPage_path (v : BitVec 64) (k : BitVec 9) :
    pagePath (siblingPage v k) = tablePath v ++ [k] := by
  have hbit : ∀ i, i < 64 → (siblingPage v k).getLsbD i =
      if 12 ≤ i ∧ i < 21 then k.getLsbD (i - 12) else v.getLsbD i := by
    intro i hi
    have hmask : (0xFFFFFFFFFFE00FFF#64).getLsbD i = !decide (12 ≤ i ∧ i < 21) := by
      revert i
      decide +kernel
    rw [siblingPage, BitVec.getLsbD_or, BitVec.getLsbD_and, hmask, BitVec.getLsbD_shiftLeft,
      BitVec.getLsbD_setWidth]
    by_cases h12 : i < 12
    · simp [h12, hi, show ¬ 12 ≤ i by omega]
    · by_cases h21 : i < 21
      · simp [h12, h21, hi, show 12 ≤ i by omega, show i - 12 < 64 by omega]
      · have hk : k.getLsbD (i - 12) = false := BitVec.getLsbD_of_ge _ _ (by omega)
        simp [h12, h21, hk]
  have hupper : ∀ m, 1 ≤ m → m ≤ 3 → linearIndex m (siblingPage v k) = linearIndex m v := by
    intro m hm hm3
    apply BitVec.eq_of_getLsbD_eq
    intro i hi
    rw [linearIndex, linearIndex, BitVec.getLsbD_extractLsb', BitVec.getLsbD_extractLsb',
      hbit _ (by omega), if_neg (by omega)]
  have hlow : linearIndex 0 (siblingPage v k) = k := by
    apply BitVec.eq_of_getLsbD_eq
    intro i hi
    rw [linearIndex, BitVec.getLsbD_extractLsb', hbit _ (by omega), if_pos (by omega)]
    simp [hi]
  rw [pagePath, hupper 3 (by omega) (by omega), hupper 2 (by omega) (by omega),
    hupper 1 (by omega) (by omega), hlow]
  rfl

theorem translate_eq (s : PageState) (r : Frame) {v : BitVec 64} {q : List (BitVec 9)} {j : BitVec 9}
    (hv : pagePath v = q ++ [j]) : s.translate r v = s.look r q j := by
  rw [pagePath_eq] at hv
  obtain ⟨hq, hj⟩ := List.append_inj' hv rfl
  rw [PageState.translate, hq, List.cons.inj hj |>.1]

/-- Whether the window is mapped is read off the slot. -/
theorem translate_slot {s : PageState} (hk : s.walk s.root kernelPath = some s.kptFrame)
    {v : BitVec 64} (hv : pagePath v = windowPath) :
    s.translate s.root v = if s.slot.present then some s.slot else none := by
  have hk' : follow Pte.next s.mem s.root kernelPath = some s.kptFrame := hk
  rw [translate_eq s s.root hv, PageState.look, lookup, hk', Option.bind_some]
  show (Pte.next s.slot).map _ = _
  unfold Pte.next
  by_cases hp : s.slot.present
  · rw [if_pos hp, if_pos hp]
    rfl
  · rw [if_neg hp, if_neg hp]
    rfl

theorem translate_window {s : PageState} (h : PageTree s) {v : BitVec 64}
    (hv : pagePath v = windowPath) :
    s.translate s.root v = if s.slot.present then some s.slot else none := translate_slot h.kernel hv

/-- Where one table a level leads: down to the lowest alone. -/
theorem tableChain_translate {s : PageState} {r pdp pd kpt : Frame} (h : TableChain s r pdp pd kpt)
    (v : BitVec 64) :
    s.translate r v =
      if tablePath v = kernelPath then
        (s.mem kpt (linearIndex 0 v)).next.map fun _ => s.mem kpt (linearIndex 0 v)
      else none := by
  show lookup Pte.next s.mem r (tablePath v) (linearIndex 0 v) = _
  by_cases hpath : tablePath v = kernelPath
  · have hk : follow Pte.next s.mem r kernelPath = some kpt := tableChain_kernel h
    rw [if_pos hpath, hpath, lookup, hk, Option.bind_some]
  · rw [if_neg hpath, lookup]
    cases hw : follow Pte.next s.mem r (tablePath v) with
    | none => rfl
    | some f =>
      -- a walk over three levels can only be that to the lowest table
      have hlen : (tablePath v).length = 3 := rfl
      rcases tableChain_walk h hlen.le hw with ⟨h0, -⟩ | ⟨h0, -⟩ | ⟨h0, -⟩ | ⟨h0, -⟩
      · rw [h0] at hlen
        cases hlen
      · rw [h0] at hlen
        cases hlen
      · rw [h0] at hlen
        cases hlen
      · exact absurd h0 hpath

/-- A descriptor from `calc_page`, read back. -/
theorem calcPage_spec (phys : BitVec 64) :
    (calcPage phys).address = frameOf phys ∧ (calcPage phys).present = true ∧
    (calcPage phys).writable = true := by
  refine ⟨Pte.address_pteOf _ _, ?_, ?_⟩
  · rw [Pte.present, calcPage, pteOf_getLsbD _ _ (by omega), if_pos (by omega)]
    rfl
  · rw [Pte.writable, calcPage, pteOf_getLsbD _ _ (by omega), if_pos (by omega)]
    rfl

theorem calcPage_r3Access (phys : BitVec 64) : (calcPage phys).r3Access = false := by
  rw [Pte.r3Access, calcPage, pteOf_getLsbD _ _ (by omega), if_pos (by omega)]
  rfl

/-- Where `MountOk` holds, `mount_page` is a point update. -/
theorem mountPage_pointUpdate {s : PageState} (h : PageTree s) {phys v : BitVec 64}
    (hv : pagePath v ≠ windowPath) (hm : MountOk s v) :
    PointUpdate s ((mountPage phys v).run pageExec s).2 phys v := by
  obtain ⟨hgrown, hslot, hat⟩ := mountPageDo_spec (fun _ _ hh => hh) h v (calcPage phys) hm.1
  obtain ⟨haddr, hpresent, hwritable⟩ := calcPage_spec phys
  obtain ⟨t, hwalk, hmem⟩ := hat hv
  have hnext : (calcPage phys).next = some (frameOf phys) :=
    Pte.next_eq_some.mpr ⟨hpresent, haddr⟩
  refine ⟨⟨calcPage phys, ?_, haddr, hpresent, hwritable⟩, ?_⟩
  · exact lookup_eq_some.mpr ⟨t, hwalk, hmem, by rw [hnext]; rfl⟩
  · intro w hw
    by_cases hwin : pagePath w = windowPath
    · have hafter := translate_window hgrown.tree hwin
      rw [hgrown.root, hslot] at hafter
      have hbefore := translate_window h hwin
      rw [hm.2] at hbefore
      exact hafter.trans hbefore.symm
    · exact hgrown.off (tablePath w) (linearIndex 0 w) rfl hw hwin

/-! ## Where at most the lowest table is missing -/

theorem closed_closed (s : PageState) : s.closed.closed = s.closed := by
  show ({ s.closed with mem := setEntry (setEntry s.mem s.kptFrame 0 0) s.kptFrame 0 0 } : PageState) = _
  rw [setEntry_setEntry]
  rfl

/-- A walk of two levels, and the two present entries on it. -/
theorem walk_two {s : PageState} {r t : Frame} {i j : BitVec 9} (h : s.walk r [i, j] = some t) :
    ∃ u, s.walk r [i] = some u ∧ (s.mem r i).present = true ∧ (s.mem r i).address = u ∧
      (s.mem u j).present = true ∧ (s.mem u j).address = t := by
  have hcat : s.walk r ([i] ++ [j]) = some t := h
  obtain ⟨u, hu, -⟩ := follow_append_some hcat
  rw [walk_concat, show s.walk r [i] = some u from hu] at hcat
  have hroot : s.walk r ([] ++ [i]) = some u := hu
  rw [walk_concat] at hroot
  obtain ⟨h₁, h₂⟩ := Pte.next_eq_some.mp hroot
  obtain ⟨h₃, h₄⟩ := Pte.next_eq_some.mp hcat
  exact ⟨u, hu, h₁, h₂, h₃, h₄⟩

/-- The walk to the page directory finds present entries, and leaves the window closed. -/
theorem mountWalk_upper {s : PageState} (h : PageTree s) (ph : Pte) {v : BitVec 64} {pd : Frame}
    (hpd : s.walk s.root [linearIndex 3 v, linearIndex 2 v] = some pd) :
    ∃ table, frameOf table = pd ∧
      (mountPageDo v ph).run pageExec s =
        (mountWalk ph table [linearIndex 1 v, linearIndex 0 v]).run pageExec s.closed ∧
      (AllocsOk (mountPageDo v ph) s →
        AllocsOk (mountWalk ph table [linearIndex 1 v, linearIndex 0 v]) s.closed) ∧
      (mountMeets harmless s s.root (pagePath v) ↔
        mountMeets harmless s pd [linearIndex 1 v, linearIndex 0 v]) := by
  obtain ⟨pdp, hpdp, hp₃, ha₃, hp₂, ha₂⟩ := walk_two hpd
  have hne₃ : s.root ≠ s.kptFrame := h.upper_ne (p := []) (by decide) rfl
  have hne₂ : pdp ≠ s.kptFrame := h.upper_ne (p := [linearIndex 3 v]) (by simp) hpdp
  have hframe : frameOf (s.mem s.root (linearIndex 3 v)).base = pdp := by rw [frameOf_base, ha₃]
  have hmem : s.closed.mem pdp (linearIndex 2 v) = s.mem pdp (linearIndex 2 v) :=
    closed_mem_other (Or.inl hne₂)
  have h₂ : s.closed.mem (frameOf (s.mem s.root (linearIndex 3 v)).base) (linearIndex 2 v) ≠ 0 := by
    rw [hframe, hmem]
    exact Pte.present_ne_zero hp₂
  have hne₂' : frameOf (s.mem s.root (linearIndex 3 v)).base ≠ s.closed.kptFrame := by
    rw [hframe]
    exact hne₂
  refine ⟨(s.mem pdp (linearIndex 2 v)).base, by rw [frameOf_base, ha₂], ?_, ?_, ?_⟩
  · rw [run_mountPageDo, pagePath, run_mountWalk_cons ph hne₃ (Pte.present_ne_zero hp₃)]
    refine (run_mountWalk_cons ph hne₂' h₂).trans ?_
    rw [closed_closed, hframe, hmem]
  · intro hok
    rw [allocsOk_mountPageDo, pagePath] at hok
    have hok₃ := (allocsOk_mountWalk_cons ph hne₃ (Pte.present_ne_zero hp₃)).mp hok
    have hok₂ := (allocsOk_mountWalk_cons ph hne₂' h₂).mp hok₃
    rwa [closed_closed, hframe, hmem] at hok₂
  · rw [pagePath, mountMeets_present hp₃, ha₃, mountMeets_present hp₂, ha₂]

/-- A present entry left in the frame that becomes the lowest table is a translation after. -/
theorem mountPage_leftover {s : PageState} (h : PageTree s) {phys v : BitVec 64} {pd : Frame}
    (hpd : s.walk s.root [linearIndex 3 v, linearIndex 2 v] = some pd)
    (h0 : s.mem pd (linearIndex 1 v) = 0) (hok : AllocsOk (mountPage phys v) s)
    {k : BitVec 9} (hk : k ≠ linearIndex 0 v)
    (hleft : (s.mem (frameOf s.allocAddr) k).present = true) :
    s.allocAddr ≠ 0 ∧ s.translate s.root (siblingPage v k) = none ∧
      ((mountPage phys v).run pageExec s).2.translate s.root (siblingPage v k) ≠ none := by
  obtain ⟨table, htable, hrun, hokw, -⟩ := mountWalk_upper h (calcPage phys) hpd
  have hne : pd ≠ s.kptFrame := h.upper_ne (by simp) hpd
  have hmem : s.closed.mem pd (linearIndex 1 v) = s.mem pd (linearIndex 1 v) :=
    closed_mem_other (Or.inl hne)
  have halloc : s.allocAddr ≠ 0 := by
    apply allocsOk_mountWalk_new (s := s.closed) (calcPage phys) (by rw [htable]; exact hne)
      (by rw [htable, hmem, h0]) (hokw hok)
  refine ⟨halloc, ?_, ?_⟩
  · rw [translate_eq s s.root (siblingPage_path v k)]
    apply lookup_eq_none.mpr
    have hcat : s.walk s.root ([linearIndex 3 v, linearIndex 2 v] ++ [linearIndex 1 v]) = none := by
      rw [walk_concat, hpd, Option.bind_some, h0, Pte.next_zero]
    rw [follow_append]
    show (s.walk s.root ([linearIndex 3 v, linearIndex 2 v] ++ [linearIndex 1 v])).bind _ = none
    rw [hcat]
    rfl
  · obtain ⟨g, hfree, haddr, -, hafter⟩ := alloc_spec (s := s.closed) halloc
    have hg : frameOf s.allocAddr = g := by
      show frameOf s.closed.allocAddr = g
      rw [haddr, frameOf_frameAddr]
    have hnext : (s.closed.newTable (calcPage phys)).next = some g := by rw [newTable_next, ← hg]; rfl
    have hpd₀ : s.closed.walk s.root [linearIndex 3 v, linearIndex 2 v] = some pd :=
      (h.walk_closed (by simp)).trans hpd
    have hgpd : g ≠ pd := fun hh => h.closed.taken _ pd (by simp) hpd₀ (hh ▸ hfree)
    have hgk : g ≠ s.kptFrame := h.closed.free_ne hfree
    -- The table is hung in, the window closed, the entry written, the window closed.
    have hlink : PageTree
        (s.closed.alloc.put pd (linearIndex 1 v) (s.closed.newTable (calcPage phys))) := by
      refine (h.closed.alloc halloc).link (by simp) hpd₀ ?_ hnext
        (fun q hq hh => h.closed.taken q g hq hh hfree) (fun hh => ((hafter g).mp hh).2 rfl)
        (fun hlt => absurd hlt (by simp))
      show (s.closed.mem pd (linearIndex 1 v)).next = none
      rw [hmem, h0, Pte.next_zero]
    have hwalk : (s.closed.linked pd (linearIndex 1 v) (calcPage phys)).walk s.root (tablePath v) =
        some g := by
      refine (hlink.walk_closed (q := tablePath v) (by simp [tablePath])).trans ?_
      exact (follow_setEntry_at (P := [linearIndex 3 v, linearIndex 2 v])
        (h.closed.tree.onlyAt (by simp) hpd₀) (by simp) hpd₀).trans hnext
    have hput := grown_put hlink.closed (P := tablePath v) rfl hwalk (linearIndex 0 v) (calcPage phys)
    have hrun' : ((mountPage phys v).run pageExec s).2 =
        ((s.closed.linked pd (linearIndex 1 v) (calcPage phys)).put g (linearIndex 0 v)
          (calcPage phys)).closed := by
      have hlast := run_mountLast (s.closed.newTable (calcPage phys)).base (linearIndex 0 v)
        (calcPage phys) (s.closed.linked pd (linearIndex 1 v) (calcPage phys))
      rw [frameOf_base, (Pte.next_eq_some.mp hnext).2] at hlast
      rw [mountPage, hrun, run_mountWalk_new (calcPage phys) (by rw [htable]; exact hne)
        (by rw [htable, hmem, h0]), htable]
      exact congrArg Prod.snd hlast
    rw [hrun', translate_eq _ s.root (siblingPage_path v k)]
    have hkept := (hput.trans (grown_closed hput.tree _)).kept (tablePath v) g (by simp [tablePath])
      hwalk
    have hentry : ((s.closed.linked pd (linearIndex 1 v) (calcPage phys)).put g (linearIndex 0 v)
        (calcPage phys)).closed.mem g k = s.mem g k := by
      have hlast : g ≠ ((s.closed.linked pd (linearIndex 1 v) (calcPage phys)).put g (linearIndex 0 v)
        (calcPage phys)).kptFrame := hgk
      have hmid : g ≠ (s.closed.alloc.put pd (linearIndex 1 v)
        (s.closed.newTable (calcPage phys))).kptFrame := hgk
      rw [closed_mem_other (Or.inl hlast)]
      refine (setEntry_other fun hh => hk hh.2).trans ?_
      rw [PageState.linked, closed_mem_other (Or.inl hmid)]
      refine (setEntry_other fun hh => hgpd hh.1).trans ?_
      exact closed_mem_other (Or.inl hgk)
    have hsome : (s.mem g k).next = some (s.mem g k).address :=
      Pte.next_eq_some.mpr ⟨by rw [← hg]; exact hleft, rfl⟩
    have hlook := lookup_eq_some.mpr ⟨g, hkept, hentry, by rw [hsome]; rfl⟩
    intro hnone
    exact Option.some_ne_none _ (hlook.symm.trans hnone)

/-- `mount_page` is a point update where `MountOk` holds and, on a path whose page directory
is there, nowhere else. -/
theorem mount_page_point_update {s : PageState} (h : PageTree s) {phys v : BitVec 64}
    (hv : pagePath v ≠ windowPath) (hok : AllocsOk (mountPage phys v) s) :
    (MountOk s v → PointUpdate s ((mountPage phys v).run pageExec s).2 phys v) ∧
    ∀ pd, s.walk s.root [linearIndex 3 v, linearIndex 2 v] = some pd →
      (s.mem pd (linearIndex 1 v) = 0 ∨ (s.mem pd (linearIndex 1 v)).present = true) →
      (PointUpdate s ((mountPage phys v).run pageExec s).2 phys v ↔ MountOk s v) := by
  refine ⟨mountPage_pointUpdate h hv, ?_⟩
  intro pd hpd hentry
  refine ⟨?_, mountPage_pointUpdate h hv⟩
  intro hupd
  obtain ⟨-, -, -, -, hmeets⟩ := mountWalk_upper h (calcPage phys) hpd
  have hm : mountMeets harmless s s.root (pagePath v) := by
    apply hmeets.mpr
    rcases hentry with h0 | hpresent
    · -- The table is missing: what is left in the frame taken for it becomes visible.
      have halloc : s.allocAddr ≠ 0 := by
        obtain ⟨table, htable, -, hokw, -⟩ := mountWalk_upper h (calcPage phys) hpd
        have hne : pd ≠ s.kptFrame := h.upper_ne (by simp) hpd
        apply allocsOk_mountWalk_new (s := s.closed) (calcPage phys) (by rw [htable]; exact hne)
          _ (hokw hok)
        rw [htable, closed_mem_other (Or.inl hne), h0]
      unfold mountMeets
      rw [if_pos h0]
      refine ⟨halloc, ⟨?_, fun hh => absurd rfl hh⟩, trivial⟩
      intro k hk
      rw [← Bool.not_eq_true]
      intro hleft
      obtain ⟨-, hbefore, hafter⟩ := mountPage_leftover h hpd h0 hok hk hleft
      refine hafter ((hupd.2 (siblingPage v k) ?_).trans hbefore)
      rw [siblingPage_path, pagePath_eq]
      intro heq
      exact hk (List.cons.inj (List.append_cancel_left heq)).1
    · exact (mountMeets_present hpresent).mpr trivial
  -- The window is closed in the end, so it must have been so before.
  obtain ⟨hgrown, hslot, -⟩ := mountPageDo_spec (fun _ _ hh => hh) h v (calcPage phys) hm
  have hwin : pagePath 0xFFFFFFFFC0000000#64 = windowPath := by decide
  have hafter := translate_window hgrown.tree hwin
  rw [hgrown.root, hslot] at hafter
  have hsame := hupd.2 0xFFFFFFFFC0000000#64 (by rw [hwin]; exact hv.symm)
  have hbefore := hsame.symm.trans hafter
  rw [translate_window h hwin] at hbefore
  refine ⟨hm, ?_⟩
  by_contra hp
  rw [Bool.not_eq_false] at hp
  rw [if_pos hp] at hbefore
  cases hbefore

/-- A page of the second 2 MiB, on cleared memory. -/
theorem mount_page_point_update_boot :
    (MountOk (bootState fun _ => 0) 0xFFFFFFFFC0200000#64 →
      PointUpdate (bootState fun _ => 0)
        ((mountPage 0x7000#64 0xFFFFFFFFC0200000#64).run pageExec (bootState fun _ => 0)).2
        0x7000#64 0xFFFFFFFFC0200000#64) ∧
    ∀ pd, (bootState fun _ => 0).walk (bootState fun _ => 0).root
        [linearIndex 3 0xFFFFFFFFC0200000#64, linearIndex 2 0xFFFFFFFFC0200000#64] = some pd →
      ((bootState fun _ => 0).mem pd (linearIndex 1 0xFFFFFFFFC0200000#64) = 0 ∨
        ((bootState fun _ => 0).mem pd (linearIndex 1 0xFFFFFFFFC0200000#64)).present = true) →
      (PointUpdate (bootState fun _ => 0)
        ((mountPage 0x7000#64 0xFFFFFFFFC0200000#64).run pageExec (bootState fun _ => 0)).2
        0x7000#64 0xFFFFFFFFC0200000#64 ↔ MountOk (bootState fun _ => 0) 0xFFFFFFFFC0200000#64) :=
  mount_page_point_update (bootState_tree _) (by decide) (by decide +kernel)

/-- A frame with one present entry in it. -/
def leftover : Page := tableOf 5 (calcPage 0x9000#64)

/-- The frame taken for the table holds a present entry: the sixth page of its 2 MiB is mapped
from then on, though nobody mounted it. -/
theorem mount_page_maps_leftover :
    ∃ (s : PageState) (phys v : BitVec 64), PageTree s ∧ s.slot = 0 ∧ pagePath v ≠ windowPath ∧
      AllocsOk (mountPage phys v) s ∧
      ¬ PointUpdate s ((mountPage phys v).run pageExec s).2 phys v := by
  refine ⟨bootState leftover, 0x7000#64, 0xFFFFFFFFC0200000#64, bootState_tree _,
    bootState_slot _, by decide, by decide +kernel, ?_⟩
  intro hupd
  have hsame := hupd.2 0xFFFFFFFFC0205000#64 (by decide)
  revert hsame
  decide +kernel

end OS64.Mm
