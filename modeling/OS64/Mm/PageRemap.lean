import OS64.Mm.PageZeroed
import OS64.Mm.PageUser

/-!
# Moving mappings

`remap_pages` unmaps each page of a range and mounts what `umount_page` returns at the
page of another range. The result is a raw entry, of which `mount_page` keeps the address
bits; where the page was not mapped it is 0 or an entry whose present bit is clear, and
`mount_page` mounts that all the same. `remap_pages_moves_iff` says when the mappings
are moved as they were.
-/

namespace OS64.Mm

open OS64.Lib

/-- `p.cache_disable`. -/
def Pte.cacheDisable (e : Pte) : Bool := BitVec.getLsbD e 4

/-- The loop of `remap_pages` at offset `i`, with `n` pages to go. -/
def remapLoop (oldaddr newaddr : BitVec 64) : Nat → BitVec 64 → PageProg Unit
  | 0, _ => pure ()
  | n + 1, i => do
    let tmp ← umountPage (oldaddr + i)
    mountPage tmp (newaddr + i)
    remapLoop oldaddr newaddr n (i + 0x1000#64)

/-- `remap_pages`: one page for every 0x1000 begun of `size`. -/
def remapPages (oldaddr newaddr size : BitVec 64) : PageProg Unit :=
  remapLoop oldaddr newaddr ((size.toNat + 0xFFF) / 0x1000) 0

/-! ## One page -/

/-- From `s` to `s'` the page of `a` was unmapped, and the entry it had, or whatever was in its
place, is mounted at `b`. -/
def Handed (s s' : PageState) (a b : BitVec 64) : Prop :=
  s'.translate s'.root a = none ∧ ∃ ret, s'.translate s'.root b = some (calcPage ret) ∧
    ∀ e, s.translate s.root a = some e → ret = e

/-- The pages off `vs` are translated as before; the window where it was closed. -/
def KeptOff (s s' : PageState) (vs : List (BitVec 64)) : Prop :=
  ∀ w, ¬ InPages vs w → (pagePath w = windowPath → s.slot.present = false) →
    s'.translate s'.root w = s.translate s.root w

/-- A tree behind `umount_page`. -/
theorem umountPage_tree {s : PageState} (h : PageTree s) (hup : UpperPresent s) {v : BitVec 64}
    (hv : pagePath v ≠ windowPath) :
    PageTree ((umountPage v).run pageExec s).2 ∧ UpperPresent ((umountPage v).run pageExec s).2 ∧
      ((umountPage v).run pageExec s).2.root = s.root := by
  rw [run_umountPage_eq (h.tableTree hup) hv]
  cases ht : s.reach s.root (tablePath v) with
  | none => exact ⟨h.closed, (Filled.closed false h).upperPresent hup, rfl⟩
  | some t =>
    have hP : (tablePath v).length = 3 := rfl
    have hwalk : s.walk s.root (tablePath v) = some t := (hup.reach hP.le).symm.trans ht
    have hput := (grown_put h hP hwalk (linearIndex 0 v)
      (s.mem t (linearIndex 0 v) &&& 0xFFFFFFFFFFFFFFFE#64)).tree
    refine ⟨hput.closed, ?_, rfl⟩
    exact ((Filled.put false h hP hwalk _ _).trans (.closed false hput)).upperPresent hup

/-- `mount_page` on cleared frames, with the window closed. -/
theorem mountPage_zeroed {s : PageState} (h : PageTree s) (hup : UpperPresent s)
    (hslot : s.slot = 0) {phys v : BitVec 64} (hv : pagePath v ≠ windowPath)
    (hz : AllocsZeroed (mountPage phys v) s) :
    PageTree ((mountPage phys v).run pageExec s).2 ∧
      UpperPresent ((mountPage phys v).run pageExec s).2 ∧
      ((mountPage phys v).run pageExec s).2.slot = 0 ∧
      ((mountPage phys v).run pageExec s).2.translate s.root v = some (calcPage phys) ∧
      OthersKept s ((mountPage phys v).run pageExec s).2 v := by
  obtain ⟨hm, hfill⟩ := mountPageDo_zeroed h hup v (calcPage phys) hz
  obtain ⟨hgrown, hafter, hat⟩ := mountPageDo_spec (fun _ _ => zeroed_harmless) h v (calcPage phys) hm
  obtain ⟨t, hwalk, hmem⟩ := hat hv
  have hnext : (calcPage phys).next = some (frameOf phys) :=
    Pte.next_eq_some.mpr ⟨(calcPage_spec phys).2.1, (calcPage_spec phys).1⟩
  refine ⟨hgrown.tree, hfill.upperPresent hup, hafter, translate_mounted hnext hwalk hmem rfl, ?_⟩
  intro w hw _
  by_cases hwin : pagePath w = windowPath
  · have hbefore := translate_window h hwin
    rw [hslot] at hbefore
    have hunmapped := translate_window hgrown.tree hwin
    rw [hafter] at hunmapped
    exact hunmapped.trans hbefore.symm
  · rw [mountPage, hgrown.root]
    exact hgrown.off (tablePath w) (linearIndex 0 w) rfl hw hwin

/-- One round of `remap_pages`. -/
theorem remap_round {s : PageState} (h : PageTree s) (hup : UpperPresent s) {a b : BitVec 64}
    (ha : pagePath a ≠ windowPath) (hb : pagePath b ≠ windowPath) (hab : pagePath a ≠ pagePath b)
    {tmp : BitVec 64} {s₁ s₂ : PageState} (h₁ : (umountPage a).run pageExec s = (tmp, s₁))
    (h₂ : (mountPage tmp b).run pageExec s₁ = ((), s₂)) (hz : AllocsZeroed (mountPage tmp b) s₁) :
    PageTree s₂ ∧ UpperPresent s₂ ∧ s₂.slot = 0 ∧ Handed s s₂ a b ∧ KeptOff s s₂ [a, b] := by
  obtain ⟨htree₁, hup₁, hroot₁⟩ := umountPage_tree h hup ha
  obtain ⟨hunmapped, hothers₁, hslot₁, hret⟩ := umountPage_unmaps (h.tableTree hup) ha
  rw [h₁] at htree₁ hup₁ hroot₁ hunmapped hothers₁ hslot₁ hret
  obtain ⟨htree₂, hup₂, hslot₂, hmapped, hothers₂⟩ := mountPage_zeroed htree₁ hup₁ hslot₁ hb hz
  rw [h₂] at htree₂ hup₂ hslot₂ hmapped hothers₂
  have hclosed : s₁.slot.present = false := by rw [hslot₁]; rfl
  have hroot₂ : s₂.root = s₁.root := by
    have hroot := (mountPageDo_zeroed htree₁ hup₁ b (calcPage tmp) hz).2.root
    rw [← mountPage, h₂] at hroot
    exact hroot
  refine ⟨htree₂, hup₂, hslot₂, ⟨?_, tmp, ?_, hret⟩, ?_⟩
  · rw [hothers₂ a hab fun _ => hclosed, hroot₁]
    exact hunmapped
  · rw [hroot₂]
    exact hmapped
  · intro w hw hwin
    rw [inPages_cons, inPages_singleton, not_or] at hw
    rw [hothers₂ w (fun hh => hw.2 hh.symm) fun _ => hclosed]
    exact hothers₁ w (fun hh => hw.1 hh.symm) hwin

/-! ## The loop -/

theorem KeptOff.trans {s s₁ s' : PageState} {us vs : List (BitVec 64)} (h : KeptOff s s₁ us)
    (h' : KeptOff s₁ s' vs) (hslot : s₁.slot = 0) : KeptOff s s' (us ++ vs) := by
  intro w hw hwin
  rw [inPages_append, not_or] at hw
  refine (h' w hw.2 fun _ => ?_).trans (h w hw.1 hwin)
  rw [hslot]
  rfl

theorem inPages_iff_map {vs : List (BitVec 64)} {w : BitVec 64} :
    InPages vs w ↔ pagePath w ∈ vs.map pagePath := by
  rw [List.mem_map]
  rfl

/-- The rounds of `remap_pages`: each page is handed over, and no other page changes. -/
theorem remapLoop_spec {o d : BitVec 64} (n : Nat) (i : BitVec 64) {s : PageState}
    (h : PageTree s) (hup : UpperPresent s)
    (hnodup : ((loopPages o n i ++ loopPages d n i).map pagePath).Nodup)
    (hwin : windowPath ∉ (loopPages o n i ++ loopPages d n i).map pagePath)
    (hz : AllocsZeroed (remapLoop o d n i) s) :
    (∀ p ∈ (loopPages o n i).zip (loopPages d n i),
      Handed s ((remapLoop o d n i).run pageExec s).2 p.1 p.2) ∧
    KeptOff s ((remapLoop o d n i).run pageExec s).2 (loopPages o n i ++ loopPages d n i) := by
  induction n generalizing i s with
  | zero =>
    refine ⟨?_, fun w _ _ => rfl⟩
    intro p hp
    cases hp
  | succ n ih =>
    obtain ⟨tmp, s₁, hr₁⟩ : ∃ tmp s₁, (umountPage (o + i)).run pageExec s = (tmp, s₁) :=
      ⟨_, _, rfl⟩
    obtain ⟨s₂, hr₂⟩ : ∃ s₂, (mountPage tmp (d + i)).run pageExec s₁ = ((), s₂) := ⟨_, rfl⟩
    rw [remapLoop, allocsZeroed_bind, allocsZeroed_bind, hr₁, hr₂] at hz
    obtain ⟨-, hmount, hrest⟩ := hz
    -- the pages of this round are not among the later ones, nor each other
    rw [loopPages, loopPages, List.cons_append, List.map_cons, List.map_append, List.map_cons,
      List.nodup_cons, List.perm_middle.nodup_iff, List.nodup_cons, ← List.map_append] at hnodup
    rw [loopPages, loopPages, List.cons_append, List.map_cons, List.map_append, List.map_cons,
      List.mem_cons, List.perm_middle.mem_iff, List.mem_cons, ← List.map_append, not_or,
      not_or] at hwin
    obtain ⟨hfirst, hsecond, hnodup'⟩ := hnodup
    rw [List.perm_middle.mem_iff, List.mem_cons, not_or, ← List.map_append] at hfirst
    obtain ⟨htree, hup', hslot, hhanded, hkept⟩ := remap_round h hup (fun hh => hwin.1 hh.symm)
      (fun hh => hwin.2.1 hh.symm) hfirst.1 hr₁ hr₂ hmount
    obtain ⟨hlater, hkept'⟩ := ih (i + 0x1000#64) htree hup' hnodup' hwin.2.2 hrest
    have hrun : (remapLoop o d (n + 1) i).run pageExec s =
        (remapLoop o d n (i + 0x1000#64)).run pageExec s₂ := by
      rw [remapLoop, Prog.run_bind, hr₁, Prog.run_bind, hr₂]
    rw [hrun]
    generalize ((remapLoop o d n (i + 0x1000#64)).run pageExec s₂).2 = s' at hlater hkept'
    have hclosed : s₂.slot.present = false := by rw [hslot]; rfl
    refine ⟨?_, ?_⟩
    · rw [loopPages, loopPages, List.zip_cons_cons]
      intro p hp
      rcases List.mem_cons.mp hp with rfl | hp
      · obtain ⟨hgone, ret, hmapped, hret⟩ := hhanded
        refine ⟨?_, ret, ?_, hret⟩
        · exact (hkept' _ (fun hh => hfirst.2 (inPages_iff_map.mp hh)) fun _ => hclosed).trans hgone
        · exact (hkept' _ (fun hh => hsecond (inPages_iff_map.mp hh)) fun _ => hclosed).trans hmapped
      · obtain ⟨hgone, ret, hmapped, hret⟩ := hlater p hp
        refine ⟨hgone, ret, hmapped, fun e he => hret e ?_⟩
        -- the entry of a later page is still the one it had
        have hin : pagePath p.1 ∈ (loopPages o n (i + 0x1000#64) ++
            loopPages d n (i + 0x1000#64)).map pagePath :=
          List.mem_map_of_mem (List.mem_append_left _ (List.of_mem_zip hp).1)
        refine (hkept p.1 ?_ fun hh => absurd (hh ▸ hin) hwin.2.2).trans he
        rw [inPages_cons, inPages_singleton, not_or]
        exact ⟨fun hh => hfirst.2 (hh ▸ hin), fun hh => hsecond (hh ▸ hin)⟩
    · intro w hw hwin'
      refine hkept.trans hkept' hslot w ?_ hwin'
      intro hin
      refine hw ?_
      rw [inPages_iff_map] at hin ⊢
      rw [loopPages, loopPages, List.cons_append, List.map_cons, List.map_append, List.map_cons,
        List.mem_cons, List.perm_middle.mem_iff, List.mem_cons, ← List.map_append]
      simpa using hin

/-! ## The two ranges -/

/-- Two ranges that `remap_pages` may be called with: their pages are different and not in the
window. -/
structure DisjointRanges (o d size : BitVec 64) : Prop where
  oldAligned : o.toNat % 0x1000 = 0
  newAligned : d.toNat % 0x1000 = 0
  oldWrap : o.toNat + size.toNat ≤ 2 ^ 64
  newWrap : d.toNat + size.toNat ≤ 2 ^ 64
  canonical : ∀ x, InRange o size x ∨ InRange d size x → canonical x = true
  disjoint : ∀ x, InRange o size x → ¬ InRange d size x
  offWindow : ∀ x, InRange o size x ∨ InRange d size x → pagePath x ≠ windowPath

/-- What `remap_pages` is to do for a page: a mapping goes from `a` to `b` with its frame and
flags, and where there is none there is none afterwards. -/
structure PageMoved (s s' : PageState) (a b : BitVec 64) : Prop where
  moved : ∀ e, s.translate s.root a = some e →
    (∃ e', s'.translate s'.root b = some e' ∧ e'.address = e.address ∧
      e'.r3Access = e.r3Access ∧ e'.cacheDisable = e.cacheDisable) ∧
    s'.translate s'.root a = none
  absent : s.translate s.root a = none → s'.translate s'.root b = none

/-- The mappings of one range are moved to the other, and every page off both is as before. -/
structure RangesMoved (s s' : PageState) (o d size : BitVec 64) : Prop where
  pages : ∀ i, i.toNat < size.toNat → PageMoved s s' (o + i) (d + i)
  others : ∀ w, (∀ x, InRange o size x ∨ InRange d size x → pagePath x ≠ pagePath w) →
    (pagePath w = windowPath → s.slot.present = false) →
    s'.translate s'.root w = s.translate s.root w

/-- A page handed over is moved as it was just when it was mapped with both flags clear. -/
theorem handed_moved_iff {s s' : PageState} {a b : BitVec 64} (h : Handed s s' a b) :
    PageMoved s s' a b ↔ ∃ e, s.translate s.root a = some e ∧ e.r3Access = false ∧
      e.cacheDisable = false := by
  obtain ⟨hgone, ret, hmapped, hret⟩ := h
  have hcache : (calcPage ret).cacheDisable = false := by
    rw [Pte.cacheDisable, calcPage, pteOf_getLsbD _ _ (by omega), if_pos (by omega)]
    rfl
  cases ha : s.translate s.root a with
  | none =>
    refine iff_of_false (fun hm => ?_) ?_
    · rw [hm.absent ha] at hmapped
      cases hmapped
    · rintro ⟨e, he, -⟩
      cases he
  | some e =>
    cases hret e ha
    constructor
    · intro hm
      obtain ⟨⟨e', he', -, hr3, hcd⟩, -⟩ := hm.moved ret ha
      rw [hmapped] at he'
      cases he'
      exact ⟨ret, rfl, hr3.symm.trans (calcPage_r3Access ret), hcd.symm.trans hcache⟩
    · rintro ⟨e, he, hr3, hcd⟩
      cases he
      refine ⟨fun e he => ?_, fun hnone => ?_⟩
      · rw [ha] at he
        cases he
        refine ⟨⟨calcPage ret, hmapped, (calcPage_spec ret).1, ?_, ?_⟩, hgone⟩
        · rw [calcPage_r3Access, hr3]
        · rw [hcache, hcd]
      · rw [ha] at hnone
        cases hnone

/-- The pages of a loop by their numbers. -/
theorem loopPages_eq (addr : BitVec 64) (n : Nat) :
    loopPages addr n 0 = (List.range n).map fun j => addr + BitVec.ofNat 64 (0x1000 * j) := by
  have hfrom : ∀ i, loopPages addr n i =
      (List.range n).map fun j => addr + i + BitVec.ofNat 64 (0x1000 * j) := by
    induction n with
    | zero => intro i; rfl
    | succ n ih =>
      intro i
      rw [loopPages, ih, List.range_succ_eq_map, List.map_cons, List.map_map]
      refine congrArg₂ List.cons (BitVec.add_zero _).symm (List.map_congr_left fun j _ => ?_)
      show addr + (i + 0x1000#64) + _ = addr + i + BitVec.ofNat 64 (0x1000 * (j + 1))
      rw [Nat.mul_add, Nat.add_comm, BitVec.ofNat_add, ← BitVec.add_assoc, ← BitVec.add_assoc]
  rw [hfrom, show addr + 0 = addr from BitVec.add_zero addr]

/-- Canonical addresses of one page. -/
theorem page_number_eq {x y : BitVec 64} (hx : canonical x = true) (hy : canonical y = true)
    (h : pagePath x = pagePath y) : x.toNat / 0x1000 = y.toNat / 0x1000 := by
  rw [pagePath_eq_iff] at h
  have hxlt := x.isLt
  have hylt := y.isLt
  unfold canonical at hx hy
  rw [Bool.or_eq_true, decide_eq_true_eq, decide_eq_true_eq] at hx hy
  omega

/-- Page `j` of a range. -/
theorem range_page {addr size : BitVec 64} (hwrap : addr.toNat + size.toNat ≤ 2 ^ 64) {j : Nat}
    (hj : j < (size.toNat + 0xFFF) / 0x1000) :
    (addr + BitVec.ofNat 64 (0x1000 * j)).toNat = addr.toNat + 0x1000 * j ∧
      InRange addr size (addr + BitVec.ofNat 64 (0x1000 * j)) := by
  have hnat : (addr + BitVec.ofNat 64 (0x1000 * j)).toNat = addr.toNat + 0x1000 * j := by
    rw [BitVec.toNat_add, BitVec.toNat_ofNat]
    omega
  refine ⟨hnat, ?_⟩
  unfold InRange
  rw [hnat]
  omega

namespace DisjointRanges

variable {o d size : BitVec 64}

/-- The pages of the loop are all different. -/
theorem nodup (h : DisjointRanges o d size) :
    ((loopPages o ((size.toNat + 0xFFF) / 0x1000) 0 ++
      loopPages d ((size.toNat + 0xFFF) / 0x1000) 0).map pagePath).Nodup := by
  have hold := fun j => @range_page o size h.oldWrap j
  have hnew := fun j => @range_page d size h.newWrap j
  have hone : ∀ {addr : BitVec 64}, addr.toNat + size.toNat ≤ 2 ^ 64 →
      (∀ x, InRange addr size x → Mm.canonical x = true) →
      ((loopPages addr ((size.toNat + 0xFFF) / 0x1000) 0).map pagePath).Nodup := by
    intro addr hwrap hcan
    rw [loopPages_eq, List.map_map]
    refine List.Nodup.map_on (fun j hj k hk heq => ?_) List.nodup_range
    rw [List.mem_range] at hj hk
    obtain ⟨hjn, hjr⟩ := @range_page addr size hwrap j hj
    obtain ⟨hkn, hkr⟩ := @range_page addr size hwrap k hk
    have hnum := page_number_eq (hcan _ hjr) (hcan _ hkr) heq
    rw [hjn, hkn] at hnum
    omega
  rw [List.map_append, List.nodup_append]
  refine ⟨hone h.oldWrap fun x hx => h.canonical x (Or.inl hx),
    hone h.newWrap fun x hx => h.canonical x (Or.inr hx), ?_⟩
  rw [loopPages_eq, loopPages_eq, List.map_map, List.map_map]
  intro p hp q hq hpq
  obtain ⟨j, hj, rfl⟩ := List.mem_map.mp hp
  obtain ⟨k, hk, rfl⟩ := List.mem_map.mp hq
  rw [List.mem_range] at hj hk
  obtain ⟨hjn, hjr⟩ := hold j hj
  obtain ⟨hkn, hkr⟩ := hnew k hk
  have hnum := page_number_eq (h.canonical _ (Or.inl hjr)) (h.canonical _ (Or.inr hkr)) hpq
  rw [hjn, hkn] at hnum
  have hoal := h.oldAligned
  have hdal := h.newAligned
  -- the two pages would start at the same address
  refine h.disjoint _ hjr ?_
  have heq : o + BitVec.ofNat 64 (0x1000 * j) = d + BitVec.ofNat 64 (0x1000 * k) := by
    apply BitVec.eq_of_toNat_eq
    rw [hjn, hkn]
    omega
  rw [heq]
  exact hkr

theorem window (h : DisjointRanges o d size) :
    windowPath ∉ (loopPages o ((size.toNat + 0xFFF) / 0x1000) 0 ++
      loopPages d ((size.toNat + 0xFFF) / 0x1000) 0).map pagePath := by
  rw [List.map_append, List.mem_append, loopPages_eq, loopPages_eq, List.map_map, List.map_map]
  rintro (hmem | hmem)
  · obtain ⟨j, hj, hpath⟩ := List.mem_map.mp hmem
    rw [List.mem_range] at hj
    exact h.offWindow _ (Or.inl (range_page h.oldWrap hj).2) hpath
  · obtain ⟨j, hj, hpath⟩ := List.mem_map.mp hmem
    rw [List.mem_range] at hj
    exact h.offWindow _ (Or.inr (range_page h.newWrap hj).2) hpath

end DisjointRanges

/-- An offset and its page. -/
theorem offset_page {addr size i : BitVec 64} (hal : addr.toNat % 0x1000 = 0)
    (hwrap : addr.toNat + size.toNat ≤ 2 ^ 64) (hi : i.toNat < size.toNat) :
    pagePath (addr + BitVec.ofNat 64 (0x1000 * (i.toNat / 0x1000))) = pagePath (addr + i) := by
  rw [pagePath_eq_iff, BitVec.toNat_add, BitVec.toNat_add, BitVec.toNat_ofNat]
  omega

/-- `remap_pages` moves the mappings of one range to another just when each page of the range is
mapped, with `r3_access` and `cache_disable` clear. -/
theorem remap_pages_moves_iff {s : PageState} (h : PageTree s) (hup : UpperPresent s)
    {o d size : BitVec 64} (hr : DisjointRanges o d size)
    (hz : AllocsZeroed (remapPages o d size) s) :
    RangesMoved s ((remapPages o d size).run pageExec s).2 o d size ↔
      ∀ i, i.toNat < size.toNat → ∃ e, s.translate s.root (o + i) = some e ∧
        e.r3Access = false ∧ e.cacheDisable = false := by
  obtain ⟨hhanded, hkept⟩ := remapLoop_spec _ 0 h hup hr.nodup hr.window hz
  rw [← remapPages] at hhanded hkept
  generalize ((remapPages o d size).run pageExec s).2 = s' at *
  have hat : ∀ i, i.toNat < size.toNat → Handed s s' (o + i) (d + i) := by
    intro i hi
    rw [loopPages_eq, loopPages_eq, List.zip_map'] at hhanded
    have hpage := hhanded _ (List.mem_map_of_mem (List.mem_range.mpr
      (by omega : i.toNat / 0x1000 < (size.toNat + 0xFFF) / 0x1000)))
    unfold Handed at hpage ⊢
    rw [← translate_path (offset_page hr.oldAligned hr.oldWrap hi),
      ← translate_path (offset_page hr.newAligned hr.newWrap hi),
      ← translate_path (offset_page hr.oldAligned hr.oldWrap hi)]
    exact hpage
  constructor
  · intro hm i hi
    exact (handed_moved_iff (hat i hi)).mp (hm.pages i hi)
  · intro hcond
    refine ⟨fun i hi => (handed_moved_iff (hat i hi)).mpr (hcond i hi), ?_⟩
    intro w hw hwin
    refine hkept w ?_ hwin
    rw [inPages_append, loopPages_eq, loopPages_eq]
    rintro (⟨u, hu, hpath⟩ | ⟨u, hu, hpath⟩)
    · obtain ⟨j, hj, rfl⟩ := List.mem_map.mp hu
      exact hw _ (Or.inl (range_page hr.oldWrap (List.mem_range.mp hj)).2) hpath
    · obtain ⟨j, hj, rfl⟩ := List.mem_map.mp hu
      exact hw _ (Or.inr (range_page hr.newWrap (List.mem_range.mp hj)).2) hpath

/-! ## On the small machine -/

/-- Ranges of the lower half that are apart. -/
theorem disjointRanges_low {o d size : BitVec 64} (ho : o.toNat % 0x1000 = 0)
    (hd : d.toNat % 0x1000 = 0) (hold : o.toNat + size.toNat ≤ 2 ^ 47)
    (hnew : d.toNat + size.toNat ≤ 2 ^ 47) (hapart : o.toNat + size.toNat ≤ d.toNat) :
    DisjointRanges o d size := by
  have hlow : ∀ x, InRange o size x ∨ InRange d size x → x.toNat < 2 ^ 47 := by
    unfold InRange
    omega
  refine ⟨ho, hd, by omega, by omega, fun x hx => canonical_low (hlow x hx), ?_, ?_⟩
  · unfold InRange
    omega
  · intro x hx
    have hwin : pagePath 0xFFFFFFFFC0000000#64 = windowPath := by decide
    have hval : (0xFFFFFFFFC0000000#64).toNat = 0xFFFFFFFFC0000000 := rfl
    have hlt := hlow x hx
    rw [← hwin, Ne, pagePath_eq_iff, hval]
    omega

/-- The kernel's page at 4 MiB goes to 8 MiB. -/
theorem remap_pages_moves_kernel :
    RangesMoved kernelMapped ((remapPages 0x400000#64 0x800000#64 0x1000#64).run pageExec
        kernelMapped).2 0x400000#64 0x800000#64 0x1000#64 ↔
      ∀ i, i.toNat < (0x1000#64).toNat → ∃ e,
        kernelMapped.translate kernelMapped.root (0x400000#64 + i) = some e ∧
        e.r3Access = false ∧ e.cacheDisable = false :=
  remap_pages_moves_iff kernelMapped_tree.1 kernelMapped_tree.2
    (disjointRanges_low (by decide) (by decide) (by decide) (by decide) (by decide))
    (by decide +kernel)

/-- The page behind it is not mapped, and 8 MiB is mapped to frame 0 afterwards. -/
theorem remap_pages_maps_absent :
    ∃ (s : PageState) (o d size : BitVec 64), PageTree s ∧ UpperPresent s ∧
      DisjointRanges o d size ∧ AllocsZeroed (remapPages o d size) s ∧
      ¬ RangesMoved s ((remapPages o d size).run pageExec s).2 o d size := by
  have hrun : AllocsZeroed (remapPages 0x401000#64 0x800000#64 0x1000#64) kernelMapped ∧
      kernelMapped.translate kernelMapped.root (0x401000#64 + 0#64) = none ∧
      ((remapPages 0x401000#64 0x800000#64 0x1000#64).run pageExec kernelMapped).2.translate
        ((remapPages 0x401000#64 0x800000#64 0x1000#64).run pageExec kernelMapped).2.root
        (0x800000#64 + 0#64) ≠ none := by decide +kernel
  refine ⟨kernelMapped, 0x401000#64, 0x800000#64, 0x1000#64, kernelMapped_tree.1,
    kernelMapped_tree.2, disjointRanges_low (by decide) (by decide) (by decide) (by decide)
    (by decide), hrun.1, fun hm => ?_⟩
  exact hrun.2.2 ((hm.pages 0#64 (by decide)).absent hrun.2.1)

end OS64.Mm
